import Std.Data.TreeMap.Lemmas
import ActionMachine.SlotSet

/-
  Slot sets whose index agrees with their slots. `Consistent` says that the index leads from a
  name to exactly the position of the slot of that name; the empty set has this, and insertion
  and removal keep it. In a consistent set names are distinct and no look-up leaves the range of
  the slots.
-/

namespace ActionMachine.SlotSet

/-- The index holds each slot's name with the slot's position, and nothing else. -/
def Consistent (s : SlotSet) : Prop :=
  ∀ (name : Name) (position : Nat), s.index[name]? = some position ↔
    ∃ slot : Slot, s.slots[position]? = some slot ∧ slot.name = name

theorem consistent_empty : empty.Consistent := by
  intro name position
  simp [empty]

theorem contains_eq_isSome (s : SlotSet) (name : Name) :
    s.contains name = s.index[name]?.isSome :=
  Std.TreeMap.contains_eq_isSome_getElem?

theorem contains_eq_false_iff {s : SlotSet} {name : Name} :
    s.contains name = false ↔ s.index[name]? = none := by
  rw [contains_eq_isSome, Option.isSome_eq_false_iff, Option.isNone_iff_eq_none]

/-- Two slots of one name are one slot. -/
theorem Consistent.position_inj {s : SlotSet} (h : s.Consistent) {i j : Nat} {a b : Slot}
    (ha : s.slots[i]? = some a) (hb : s.slots[j]? = some b) (hn : a.name = b.name) : i = j := by
  have hi := (h a.name i).2 ⟨a, ha, rfl⟩
  have hj := (h a.name j).2 ⟨b, hb, hn.symm⟩
  rw [hi] at hj
  exact Option.some.inj hj

theorem Consistent.nodup_names {s : SlotSet} (h : s.Consistent) :
    (s.slots.toList.map (·.name)).Nodup := by
  rw [List.Nodup, List.pairwise_map, List.pairwise_iff_getElem]
  intro i j hi hj hij hname
  have := h.position_inj (i := i) (j := j) (by simp) (by simp) hname
  omega

/-! ## Insertion -/

theorem insert_of_not_contains {s : SlotSet} {name : Name} (h : s.contains name = false)
    (target : CellRef) :
    s.insert name target =
      .ok ⟨s.slots.push ⟨name, target⟩, s.index.insert name s.slots.size⟩ := by
  simp [insert, h]

theorem insert_eq_ok_iff {s t : SlotSet} {name : Name} {target : CellRef} :
    s.insert name target = .ok t ↔ s.contains name = false ∧
      t = ⟨s.slots.push ⟨name, target⟩, s.index.insert name s.slots.size⟩ := by
  cases h : s.contains name with
  | true => simp [insert, h]
  | false =>
    rw [insert_of_not_contains h]
    simp [eq_comm]

theorem Consistent.insert {s t : SlotSet} (h : s.Consistent) {name : Name} {target : CellRef}
    (ht : s.insert name target = .ok t) : t.Consistent := by
  obtain ⟨hn, rfl⟩ := insert_eq_ok_iff.1 ht
  rw [contains_eq_false_iff] at hn
  intro other position
  simp only [Std.TreeMap.getElem?_insert, Std.LawfulEqOrd.compare_eq_iff_eq, Array.getElem?_push]
  by_cases hname : name = other
  · subst hname
    rw [if_pos rfl, Option.some.injEq]
    constructor
    · rintro rfl
      exact ⟨⟨name, target⟩, by rw [if_pos rfl], rfl⟩
    · rintro ⟨slot, hslot, hsame⟩
      split at hslot
      · exact Eq.symm ‹_›
      -- an older slot of the name would be in the old index
      · rw [(h name position).2 ⟨slot, hslot, hsame⟩] at hn
        cases hn
  · rw [if_neg hname, h other position]
    constructor
    · rintro ⟨slot, hslot, hsame⟩
      have hlt := (Array.getElem?_eq_some_iff.1 hslot).1
      exact ⟨slot, by rw [if_neg (by omega)]; exact hslot, hsame⟩
    · rintro ⟨slot, hslot, hsame⟩
      split at hslot
      · cases hslot
        exact absurd hsame hname
      · exact ⟨slot, hslot, hsame⟩

theorem contains_insert {s t : SlotSet} {name : Name} {target : CellRef}
    (ht : s.insert name target = .ok t) (other : Name) :
    t.contains other = (decide (name = other) || s.contains other) := by
  obtain ⟨-, rfl⟩ := insert_eq_ok_iff.1 ht
  unfold contains
  rw [Std.TreeMap.contains_insert]
  congr 1
  rw [Bool.eq_iff_iff]
  simp

/-- Every slot leads to a cell that lives as long as its program. -/
def Static (s : SlotSet) : Prop := ∀ slot ∈ s.slots, ∃ cell, slot.target = .static cell

theorem static_empty : empty.Static := by
  intro slot hslot
  exact absurd hslot (Array.not_mem_empty slot)

theorem Static.insert {s t : SlotSet} (h : s.Static) {name : Name} {cell : CellId}
    (ht : s.insert name (.static cell) = .ok t) : t.Static := by
  obtain ⟨-, rfl⟩ := insert_eq_ok_iff.1 ht
  intro slot hslot
  rcases Array.mem_push.1 hslot with hold | rfl
  · exact h slot hold
  · exact ⟨cell, rfl⟩

/-! ## Removal -/

theorem remove?_eq_some_iff {s t : SlotSet} {name : Name} {slot : Slot} :
    s.remove? name = some (slot, t) ↔ ∃ position, s.index[name]? = some position ∧
      s.slots[position]? = some slot ∧ t = ⟨s.slots.eraseIdxIfInBounds position,
        (s.index.erase name).map fun _ later => if position < later then later - 1 else later⟩ := by
  simp only [remove?, position?, Option.bind_eq_bind, Option.bind_eq_some_iff, Option.pure_def,
    Option.some.injEq, Prod.mk.injEq]
  constructor
  · rintro ⟨position, hposition, _, hslot, rfl, rfl⟩
    exact ⟨position, hposition, hslot, rfl⟩
  · rintro ⟨position, hposition, hslot, rfl⟩
    exact ⟨position, hposition, slot, hslot, rfl, rfl⟩

/-- Slots behind the removed one move down by one, and so do their positions in the index. -/
theorem Consistent.remove {s t : SlotSet} (h : s.Consistent) {name : Name} {slot : Slot}
    (ht : s.remove? name = some (slot, t)) : t.Consistent := by
  obtain ⟨gap, hgap, hslot, rfl⟩ := remove?_eq_some_iff.1 ht
  obtain ⟨removed, hremoved, rfl⟩ := (h name gap).1 hgap
  have hmoved (i : Nat) : (s.slots.eraseIdxIfInBounds gap)[i]? =
      if i < gap then s.slots[i]? else s.slots[i + 1]? := by
    rw [← Array.getElem?_toList, Array.toList_eraseIdxIfInBounds, List.getElem?_eraseIdx]
    simp only [Array.getElem?_toList]
  intro other position
  simp only [Std.TreeMap.getElem?_map, Std.TreeMap.getElem?_erase, hmoved,
    Std.LawfulEqOrd.compare_eq_iff_eq, Option.map_eq_some_iff]
  constructor
  · rintro ⟨old, hold, rfl⟩
    split at hold
    · cases hold
    obtain ⟨later, hlater, rfl⟩ := (h other old).1 hold
    have hne : old ≠ gap := by
      rintro rfl
      rw [hremoved] at hlater
      cases hlater
      contradiction
    refine ⟨later, ?_, rfl⟩
    by_cases hlt : gap < old
    · rw [if_pos hlt, if_neg (by omega), Nat.sub_add_cancel (by omega)]
      exact hlater
    · rw [if_neg hlt, if_pos (by omega)]
      exact hlater
  · rintro ⟨later, hlater, rfl⟩
    -- where the slot stood before the removal
    let old := if position < gap then position else position + 1
    have hold : s.slots[old]? = some later := by
      simp only [old]
      split <;> simp_all
    have hne : removed.name ≠ later.name := fun heq => by
      have := h.position_inj hremoved hold heq
      grind
    refine ⟨old, ?_, by grind⟩
    rw [if_neg hne]
    exact (h later.name old).2 ⟨later, hold, rfl⟩

/-! ## Look-up -/

/-- The index answers as a search of the slots from the left does. -/
theorem Consistent.index_eq {s : SlotSet} (h : s.Consistent) (name : Name) :
    s.index[name]? = s.slots.toList.findIdx? (·.name == name) := by
  ext position
  rw [h name position, List.findIdx?_eq_some_iff_getElem]
  constructor
  · rintro ⟨slot, hslot, rfl⟩
    obtain ⟨hlt, rfl⟩ := Array.getElem?_eq_some_iff.1 hslot
    refine ⟨hlt, by simp, fun j hj heq => ?_⟩
    -- an earlier slot of the same name would be the same slot
    have hj' : s.slots[j]? = some s.slots[j] := Array.getElem?_eq_getElem (by omega)
    have := h.position_inj hj' hslot (by simpa using heq)
    omega
  · rintro ⟨hlt, hname, -⟩
    exact ⟨s.slots[position], Array.getElem?_eq_getElem hlt, by simpa using hname⟩

/-- In a consistent set a look-up never leaves the range of the slots. -/
theorem Consistent.find?_eq {s : SlotSet} (h : s.Consistent) (name : Name) :
    s.find? name = .ok (s.slots.find? (·.name == name)) := by
  have hsearch : s.slots.find? (·.name == name) = s.index[name]?.bind (s.slots[·]?) := by
    rw [h.index_eq, ← Array.find?_toList, List.find?_eq_bind_findIdx?_getElem?]
    simp only [Array.getElem?_toList]
  unfold SlotSet.find? position?
  rw [hsearch]
  cases hi : s.index[name]? with
  | none => rfl
  | some i =>
    obtain ⟨slot, hslot, -⟩ := (h name i).1 hi
    simp only [hslot, Option.bind_some]

theorem Consistent.find?_eq_none_iff {s : SlotSet} (h : s.Consistent) {name : Name} :
    s.find? name = .ok none ↔ s.contains name = false := by
  rw [contains_eq_false_iff]
  unfold SlotSet.find? position?
  cases hi : s.index[name]? with
  | none => simp
  | some i =>
    obtain ⟨slot, hslot, -⟩ := (h name i).1 hi
    simp [hslot]

theorem Consistent.find_eq_ok_or_missing {s : SlotSet} (h : s.Consistent) (name : Name) :
    (∃ slot, s.find name = .ok slot) ∨ s.find name = .error (.fault (.missing name)) := by
  unfold find
  rw [h.find?_eq]
  cases s.slots.find? (·.name == name) with
  | none => exact Or.inr rfl
  | some slot => exact Or.inl ⟨slot, rfl⟩

end ActionMachine.SlotSet
