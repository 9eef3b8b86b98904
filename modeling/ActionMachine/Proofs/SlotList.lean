import Mathlib.Data.List.Nodup
import ActionMachine.Proofs.Slots

/-
  Slot sets as lists. Calls of insertion and removal run on the empty set, and beside it on a
  list of slots that is searched from the left and has no index. Main statement: the set always
  holds the slots of the list and answers every look-up, insertion and removal as the list does,
  so two sets are equal exactly when they hold the same slots in the same order, whatever calls
  made them.
-/

namespace ActionMachine

/-- A call that may change a slot set. -/
inductive SlotEdit where
  | insert (name : Name) (target : CellRef)
  | remove (name : Name)
  deriving DecidableEq, Repr

namespace SlotEdit

/-- The set after the call. A refused insertion leaves it, as does a removal that finds nothing. -/
def apply (s : SlotSet) : SlotEdit → SlotSet
  | .insert name target => (s.insert name target).toOption.getD s
  | .remove name => ((s.remove? name).map (·.2)).getD s

/-- The call on a plain list of slots. -/
def replay (slots : List Slot) : SlotEdit → List Slot
  | .insert name target =>
    if slots.any (·.name == name) then slots else slots ++ [⟨name, target⟩]
  | .remove name => slots.filter (·.name != name)

end SlotEdit

namespace Slot

variable {place : Nat → CellRef} {start : Nat}

/-- Slots for the names, bound to one place after the other. -/
def row (place : Nat → CellRef) (start : Nat) (names : List Name) : List Slot :=
  names.mapIdx fun i name => ⟨name, place (start + i)⟩

theorem row_cons (name : Name) (names : List Name) :
    row place start (name :: names) = ⟨name, place start⟩ :: row place (start + 1) names := by
  simp only [row, List.mapIdx_cons, Nat.add_assoc, Nat.add_comm 1, Nat.add_zero]

theorem getElem?_row (names : List Name) (i : Nat) :
    (row place start names)[i]? = names[i]?.map fun name => ⟨name, place (start + i)⟩ := by
  rw [row, List.getElem?_mapIdx]

theorem length_row (names : List Name) : (row place start names).length = names.length :=
  List.length_mapIdx

theorem map_name_row (names : List Name) : (row place start names).map (·.name) = names := by
  apply List.ext_getElem?
  intro i
  rw [List.getElem?_map, getElem?_row, Option.map_map]
  exact congrFun Option.map_id _

end Slot

namespace SlotSet

/-- What calls make of the empty set. -/
def ofEdits (edits : List SlotEdit) : SlotSet := edits.foldl SlotEdit.apply empty

/-- `s` holds `slots`, in their order, and answers as a search of them from the left does. -/
structure Represents (s : SlotSet) (slots : List Slot) : Prop where
  toList : s.slots.toList = slots
  distinct : (slots.map (·.name)).Nodup
  index : ∀ name position, s.index[name]? = some position ↔
    ∃ slot : Slot, slots[position]? = some slot ∧ slot.name = name
  contains : ∀ name, s.contains name = slots.any (·.name == name)
  position : ∀ name, s.position? name = slots.findIdx? (·.name == name)
  get : ∀ position, s.get? position = slots[position]?
  find : ∀ name, s.find name =
    (slots.find? (·.name == name)).elim (.error (.fault (.missing name))) .ok
  findBound : ∀ name, s.findBound name =
    (slots.find? (·.name == name)).elim (.error .unboundName) .ok
  insert : ∀ name target, (s.insert name target).map (·.slots.toList) =
    if slots.any (·.name == name) then .error (.alreadyPresent name)
    else .ok (slots ++ [⟨name, target⟩])
  remove : ∀ name, (s.remove? name).map (fun taken => (taken.1, taken.2.slots.toList)) =
    (slots.find? (·.name == name)).map fun slot => (slot, slots.filter (·.name != name))

/-! ## Answers of a consistent set -/

theorem Consistent.contains_eq {s : SlotSet} (h : s.Consistent) (name : Name) :
    s.contains name = s.slots.toList.any (·.name == name) := by
  rw [contains_eq_isSome, h.index_eq, List.findIdx?_isSome]

theorem Consistent.find_eq {s : SlotSet} (h : s.Consistent) (name : Name) :
    s.find name = (s.slots.toList.find? (·.name == name)).elim
      (.error (.fault (.missing name))) .ok := by
  unfold SlotSet.find
  rw [h.find?_eq, Array.find?_toList]
  cases s.slots.find? (·.name == name) <;> rfl

/-- Each slot is found by its name. -/
theorem Consistent.find_name {s : SlotSet} (h : s.Consistent) {i : Nat} {slot : Slot}
    (hslot : s.slots[i]? = some slot) : s.find slot.name = .ok slot := by
  have hindex : s.index[slot.name]? = some i := (h _ _).2 ⟨slot, hslot, rfl⟩
  unfold find find? position?
  rw [hindex]
  simp only [hslot]
  rfl

theorem Consistent.findBound_eq {s : SlotSet} (h : s.Consistent) (name : Name) :
    s.findBound name = (s.slots.toList.find? (·.name == name)).elim (.error .unboundName) .ok := by
  unfold SlotSet.findBound
  rw [h.find?_eq, Array.find?_toList]
  cases s.slots.find? (·.name == name) <;> rfl

theorem Consistent.toList_insert {s : SlotSet} (h : s.Consistent) (name : Name)
    (target : CellRef) :
    (s.insert name target).map (·.slots.toList) =
      if s.slots.toList.any (·.name == name) then .error (.alreadyPresent name)
      else .ok (s.slots.toList ++ [⟨name, target⟩]) := by
  rw [← h.contains_eq]
  cases hc : s.contains name with
  | true => simp [SlotSet.insert, hc, Except.map]
  | false => simp [insert_of_not_contains hc, Except.map]

/-- Where names are distinct, one slot at most is lost with a name. -/
theorem eraseP_eq_filter {slots : List Slot} (h : (slots.map (·.name)).Nodup) (name : Name) :
    slots.eraseP (·.name == name) = slots.filter (·.name != name) := by
  induction slots with
  | nil => rfl
  | cons slot rest ih =>
    obtain ⟨hfresh, hrest⟩ := List.nodup_cons.1 h
    by_cases hname : slot.name = name
    · have hothers : rest.filter (·.name != name) = rest := by
        rw [List.filter_eq_self]
        intro other hother
        have hne : other.name ≠ name := by
          rintro rfl
          exact hfresh (List.mem_map.2 ⟨other, hother, hname.symm⟩)
        simpa using hne
      simp [hname, hothers]
    · simp [hname, ih hrest]

theorem Consistent.toList_remove {s : SlotSet} (h : s.Consistent) (name : Name) :
    (s.remove? name).map (fun taken => (taken.1, taken.2.slots.toList)) =
      (s.slots.toList.find? (·.name == name)).map fun slot =>
        (slot, s.slots.toList.filter (·.name != name)) := by
  have hrest := @List.eraseP_eq_eraseIdx _ s.slots.toList (·.name == name)
  rw [eraseP_eq_filter h.nodup_names, ← h.index_eq] at hrest
  rw [List.find?_eq_bind_findIdx?_getElem?, ← h.index_eq]
  unfold remove? position?
  cases hi : s.index[name]? with
  | none => rfl
  | some position =>
    obtain ⟨slot, hslot, -⟩ := (h name position).1 hi
    simp only [hi] at hrest
    simp [hslot, hrest]

theorem Consistent.represents {s : SlotSet} (h : s.Consistent) : s.Represents s.slots.toList where
  toList := rfl
  distinct := h.nodup_names
  index name position := by simpa only [Array.getElem?_toList] using h name position
  contains := h.contains_eq
  position := h.index_eq
  get _ := Array.getElem?_toList.symm
  find := h.find_eq
  findBound := h.findBound_eq
  insert := h.toList_insert
  remove := h.toList_remove

/-- The index of a consistent set is determined by its slots. -/
theorem Consistent.beq_iff {s t : SlotSet} (hs : s.Consistent) (ht : t.Consistent) :
    (s == t) = true ↔ s.slots = t.slots := by
  change (s.slots == t.slots && s.index == t.index) = true ↔ s.slots = t.slots
  rw [Bool.and_eq_true, beq_iff_eq, Std.TreeMap.beq_iff_equiv]
  refine ⟨And.left, fun hslots => ⟨hslots, ?_⟩⟩
  apply Std.TreeMap.Equiv.of_forall_constGet?_eq
  intro name
  have : s.index[name]? = t.index[name]? := by rw [hs.index_eq, ht.index_eq, hslots]
  exact this

/-! ## Runs of calls -/

theorem Consistent.apply {s : SlotSet} (h : s.Consistent) (edit : SlotEdit) :
    (edit.apply s).Consistent := by
  cases edit with
  | insert name target =>
    cases hi : s.insert name target with
    | error => simpa [SlotEdit.apply, hi, Except.toOption] using h
    | ok t => simpa [SlotEdit.apply, hi, Except.toOption] using h.insert hi
  | remove name =>
    cases hr : s.remove? name with
    | none => simpa [SlotEdit.apply, hr] using h
    | some taken => simpa [SlotEdit.apply, hr] using h.remove hr

theorem Consistent.toList_apply {s : SlotSet} (h : s.Consistent) (edit : SlotEdit) :
    (edit.apply s).slots.toList = edit.replay s.slots.toList := by
  cases edit with
  | insert name target =>
    have hview := h.toList_insert name target
    unfold SlotEdit.apply SlotEdit.replay
    cases hi : s.insert name target with
    | error e =>
      rw [hi] at hview
      split at hview
      · simp_all [Except.toOption]
      · cases hview
    | ok t =>
      rw [hi] at hview
      split at hview
      · cases hview
      · simp_all [Except.toOption, Except.map]
  | remove name =>
    have hview := h.toList_remove name
    simp only [SlotEdit.apply, SlotEdit.replay]
    cases hr : s.remove? name with
    | none =>
      have hnone : s.slots.toList.find? (·.name == name) = none := by simpa [hr] using hview.symm
      rw [List.find?_eq_none] at hnone
      refine (List.filter_eq_self.2 fun slot hslot => ?_).symm
      simpa using hnone slot hslot
    | some taken =>
      rw [hr, Option.map_some] at hview
      obtain ⟨slot, -, htaken⟩ := Option.map_eq_some_iff.1 hview.symm
      exact (congrArg Prod.snd htaken).symm

theorem consistent_ofEdits (edits : List SlotEdit) : (ofEdits edits).Consistent := by
  unfold ofEdits
  generalize hs : empty = s
  have h : s.Consistent := hs ▸ consistent_empty
  clear hs
  induction edits generalizing s with
  | nil => exact h
  | cons edit edits ih => exact ih _ (h.apply edit)

theorem toList_foldl_apply {s : SlotSet} (h : s.Consistent) (edits : List SlotEdit) :
    (edits.foldl SlotEdit.apply s).slots.toList =
      edits.foldl SlotEdit.replay s.slots.toList := by
  induction edits generalizing s with
  | nil => rfl
  | cons edit edits ih =>
    rw [List.foldl_cons, List.foldl_cons, ih (h.apply edit), h.toList_apply]

/-! ## Slots added one after the other -/

/-- The names are all different, and none of them is taken. -/
def Fresh (taken names : List Name) : Prop := names.Nodup ∧ ∀ name ∈ names, name ∉ taken

theorem fresh_nil (taken : List Name) : Fresh taken [] := ⟨List.nodup_nil, by simp⟩

theorem fresh_cons {taken names : List Name} {name : Name} :
    Fresh taken (name :: names) ↔ name ∉ taken ∧ Fresh (name :: taken) names := by
  simp only [Fresh, List.nodup_cons, List.mem_cons, not_or]
  grind

theorem insert_eq_error_iff {s : SlotSet} {name : Name} {target : CellRef} {e : SlotError} :
    s.insert name target = .error e ↔ s.contains name = true ∧ e = .alreadyPresent name := by
  unfold insert
  cases hc : s.contains name with
  | true => simp [eq_comm]
  | false => simp

/-- The names in the set are those of the list. -/
def Names (s : SlotSet) (taken : List Name) : Prop :=
  ∀ name, s.contains name = true ↔ name ∈ taken

theorem names_empty : empty.Names [] := by
  intro name
  simp [contains, empty]

section Names

variable {s t : SlotSet} {taken : List Name} {name : Name} {target : CellRef}

theorem Names.mem_of_error (h : s.Names taken) {e : SlotError}
    (he : s.insert name target = .error e) : name ∈ taken :=
  (h name).1 (insert_eq_error_iff.1 he).1

theorem Names.notMem_of_ok (h : s.Names taken) (ht : s.insert name target = .ok t) :
    name ∉ taken := by
  rw [← h name, (insert_eq_ok_iff.1 ht).1]
  exact Bool.false_ne_true

theorem Names.insert (h : s.Names taken) (ht : s.insert name target = .ok t) :
    t.Names (name :: taken) := by
  intro other
  rw [contains_insert ht, Bool.or_eq_true, decide_eq_true_iff, h other, List.mem_cons, eq_comm]

end Names

/-- Bind the names of the slots one after the other; a name that is taken is left out. -/
def extend (s : SlotSet) (slots : List Slot) : SlotSet :=
  slots.foldl (fun s slot => (s.insert slot.name slot.target).toOption.getD s) s

theorem extend_cons {s t : SlotSet} {slot : Slot} (h : s.insert slot.name slot.target = .ok t)
    (slots : List Slot) : s.extend (slot :: slots) = t.extend slots := by
  rw [extend, List.foldl_cons, h]
  rfl

/-- If all names are new, all slots are added. -/
theorem Consistent.extend {s : SlotSet} (h : s.Consistent) {slots : List Slot}
    (hnodup : (slots.map (·.name)).Nodup) (hfree : ∀ slot ∈ slots, s.contains slot.name = false) :
    (s.extend slots).Consistent ∧ (s.extend slots).slots.toList = s.slots.toList ++ slots := by
  induction slots generalizing s with
  | nil => exact ⟨h, (List.append_nil _).symm⟩
  | cons slot slots ih =>
    have hi := insert_of_not_contains (hfree slot List.mem_cons_self) slot.target
    rw [extend_cons hi]
    obtain ⟨hnotin, hnodup⟩ := List.nodup_cons.1 hnodup
    have hrest := ih (h.insert hi) hnodup fun other hother => by
      rw [contains_insert hi, hfree other (List.mem_cons_of_mem _ hother), Bool.or_false,
        decide_eq_false_iff_not]
      exact fun heq => hnotin (List.mem_map.2 ⟨other, hother, heq.symm⟩)
    refine ⟨hrest.1, ?_⟩
    rw [hrest.2, Array.toList_push, List.append_assoc]
    rfl

/-- Slots for different names are all there. -/
theorem consistent_ofRow {place : Nat → CellRef} {start : Nat} {names : List Name}
    (hnodup : names.Nodup) :
    (ofSlots (Slot.row place start names)).Consistent ∧
      (ofSlots (Slot.row place start names)).slots.toList = Slot.row place start names :=
  consistent_empty.extend (by rwa [Slot.map_name_row]) fun _ _ => rfl

/-- After any calls the set is the list that the same calls make, and equality of two such sets
sees the slots only. -/
theorem ofEdits_represents (edits : List SlotEdit) :
    (ofEdits edits).Represents (edits.foldl SlotEdit.replay []) ∧
      ∀ others, (ofEdits edits == ofEdits others) = true ↔
        (ofEdits edits).slots = (ofEdits others).slots := by
  have h := consistent_ofEdits edits
  have hlist : (ofEdits edits).slots.toList = edits.foldl SlotEdit.replay [] :=
    toList_foldl_apply consistent_empty edits
  refine ⟨?_, fun others => h.beq_iff (consistent_ofEdits others)⟩
  rw [← hlist]
  exact h.represents

end SlotSet

end ActionMachine
