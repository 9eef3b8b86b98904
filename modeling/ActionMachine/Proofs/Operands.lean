import ActionMachine.Store.Operands

/-
  What each operation makes of an operand stack that is deep enough, and which part of the stack
  it leaves alone: `Below base s t` says that the lowest `base` elements of `s` are still the
  lowest elements of `t`.
-/

namespace ActionMachine

theorem getElem?_shrink {α : Type} (xs : Array α) (n i : Nat) :
    (xs.shrink n)[i]? = if i < n then xs[i]? else none := by
  rw [← Array.getElem?_toList, Array.toList_shrink, List.getElem?_take, Array.getElem?_toList]

namespace Operands

variable {s t : Operands} {v : Value}

/-! ## Results -/

theorem require_eq_ok {depth : Nat} (h : depth ≤ s.size) : s.require depth = .ok () := by
  unfold require
  rw [if_neg (by omega)]

theorem require_eq_error {depth : Nat} (h : s.size < depth) :
    s.require depth = .error (.stackUnderflow depth s.size) := by
  unfold require
  rw [if_pos h]

theorem position_eq_ok_iff {offset i : Nat} :
    s.position offset = .ok i ↔ 0 < offset ∧ offset ≤ s.size ∧ i = s.size - offset := by
  unfold position
  by_cases h0 : offset = 0
  · simp [h0, bind, Except.bind]
  · by_cases h : offset ≤ s.size
    · simp [h0, require_eq_ok h, h, bind, Except.bind, pure, Except.pure, eq_comm]
      omega
    · simp [h0, require_eq_error (Nat.lt_of_not_le h), h, bind, Except.bind]

theorem position_bind_eq_ok_iff {α : Type} {offset : Nat} {f : Nat → Except Violation α} {a : α} :
    (s.position offset >>= f) = .ok a ↔
      0 < offset ∧ offset ≤ s.size ∧ f (s.size - offset) = .ok a := by
  cases hp : s.position offset with
  | error e =>
    refine ⟨fun h => (by cases h), fun h => ?_⟩
    rw [position_eq_ok_iff.2 ⟨h.1, h.2.1, rfl⟩] at hp
    cases hp
  | ok i =>
    obtain ⟨h0, h1, rfl⟩ := position_eq_ok_iff.1 hp
    simp [bind, Except.bind, h0, h1]

theorem topAt_eq_ok_iff {offset : Nat} :
    s.topAt offset = .ok v ↔
      0 < offset ∧ offset ≤ s.size ∧ s.get? (s.size - offset) = some v := by
  unfold topAt
  rw [position_bind_eq_ok_iff]
  refine and_congr_right fun h0 => and_congr_right fun h1 => ?_
  have hlt : s.size - offset < s.values.size := by unfold size at *; omega
  simp [get?, Array.getElem?_eq_getElem hlt, pure, Except.pure]

theorem exists_topAt {offset : Nat} (h0 : 0 < offset) (h : offset ≤ s.size) :
    ∃ v, s.topAt offset = .ok v := by
  have hlt : s.size - offset < s.values.size := by unfold size at *; omega
  exact ⟨s.values[s.size - offset],
    topAt_eq_ok_iff.2 ⟨h0, h, Array.getElem?_eq_getElem hlt⟩⟩

theorem topAt_ne_error {offset : Nat} (h0 : 0 < offset) (h : offset ≤ s.size) {e : Violation}
    (he : s.topAt offset = .error e) : False := by
  obtain ⟨v, hv⟩ := exists_topAt h0 h
  rw [hv] at he
  cases he

theorem pos_of_topAt {offset : Nat} (h : s.topAt offset = .ok v) : 0 < s.size := by
  obtain ⟨h0, hle, -⟩ := topAt_eq_ok_iff.1 h
  omega

theorem mem_of_topAt {offset : Nat} (h : s.topAt offset = .ok v) : v ∈ s.values :=
  Array.mem_of_getElem? (topAt_eq_ok_iff.1 h).2.2

theorem pop_eq_ok_iff : s.pop = .ok t ↔ 0 < s.size ∧ t = ⟨s.values.pop⟩ := by
  unfold pop
  by_cases h : 1 ≤ s.size
  · simp [require_eq_ok h, bind, Except.bind, pure, Except.pure, eq_comm]
    omega
  · simp [require_eq_error (Nat.lt_of_not_le h), bind, Except.bind]
    omega

theorem exists_pop (h : 0 < s.size) : ∃ t, s.pop = .ok t :=
  ⟨⟨s.values.pop⟩, pop_eq_ok_iff.2 ⟨h, rfl⟩⟩

theorem duplicate_eq_ok_iff {offset : Nat} :
    s.duplicate offset = .ok t ↔ ∃ v, s.topAt offset = .ok v ∧ t = s.push v := by
  unfold duplicate
  cases s.topAt offset with
  | error e => simp [bind, Except.bind]
  | ok v => simp [bind, Except.bind, pure, Except.pure, eq_comm]

theorem swap_eq_ok_iff {offset : Nat} :
    s.swap offset = .ok t ↔ 0 < offset ∧ offset ≤ s.size ∧
      t = ⟨s.values.swapIfInBounds (s.size - 1) (s.size - offset)⟩ := by
  unfold swap
  rw [position_bind_eq_ok_iff]
  simp [pure, Except.pure, eq_comm]

theorem base_eq_ok_iff {count i : Nat} :
    s.base count = .ok i ↔ count ≤ s.size ∧ i = s.size - count := by
  unfold base
  split
  · simp; omega
  · simp [eq_comm]; omega

/-- An operator on the top fails or replaces it. -/
theorem mapTop_eq {f : Operands → Value → Except Fault Value} (hv : s.topAt 1 = .ok v) :
    s.mapTop f =
      match f ⟨s.values.pop⟩ v with
      | .ok w => .ok (push ⟨s.values.pop⟩ w)
      | .error cause => .error (.fault cause) := by
  unfold mapTop
  rw [require_eq_ok (topAt_eq_ok_iff.1 hv).2.1, hv]
  simp only [bind, Except.bind, liftM, monadLift, MonadLift.monadLift]
  cases f ⟨s.values.pop⟩ v <;> rfl

theorem mapTopTwo_eq {f : Operands → Value → Value → Except Fault Value} {a b : Value}
    (ha : s.topAt 2 = .ok a) (hb : s.topAt 1 = .ok b) :
    s.mapTopTwo f =
      match f (s.truncate (s.size - 2)) a b with
      | .ok w => .ok (push (s.truncate (s.size - 2)) w)
      | .error cause => .error (.fault cause) := by
  unfold mapTopTwo
  rw [require_eq_ok (topAt_eq_ok_iff.1 ha).2.1, ha, hb]
  simp only [bind, Except.bind, liftM, monadLift, MonadLift.monadLift]
  cases f (s.truncate (s.size - 2)) a b <;> rfl

theorem foldTop_eq {f : Operands → Value → Value → Value × Except Fault Unit} {a b : Value}
    (ha : s.topAt 2 = .ok a) (hb : s.topAt 1 = .ok b) :
    s.foldTop f =
      match f (s.truncate (s.size - 2)) a b with
      | (w, .ok _) => .ok ⟨(s.values.setIfInBounds (s.size - 2) w).pop⟩
      | (_, .error cause) => .error (.fault cause) := by
  have h2 : 2 ≤ s.size := (topAt_eq_ok_iff.1 ha).2.1
  unfold foldTop setTopAt
  rw [require_eq_ok h2, ha, hb, position_eq_ok_iff.2 ⟨by omega, h2, rfl⟩]
  simp only [bind, Except.bind, liftM, monadLift, MonadLift.monadLift]
  rcases f (s.truncate (s.size - 2)) a b with ⟨w, cause | _⟩
  · rfl
  · have hpop : pop ⟨s.values.setIfInBounds (s.size - 2) w⟩ =
        .ok ⟨(s.values.setIfInBounds (s.size - 2) w).pop⟩ :=
      pop_eq_ok_iff.2 ⟨by unfold size at *; simp; omega, rfl⟩
    simp only [pure, Except.pure, hpop]

theorem mapTop_eq_ok {f : Operands → Value → Except Fault Value} (h : s.mapTop f = .ok t) :
    ∃ v w, s.topAt 1 = .ok v ∧ f ⟨s.values.pop⟩ v = .ok w ∧ t = push ⟨s.values.pop⟩ w := by
  rcases Nat.lt_or_ge s.size 1 with hlt | hge
  · unfold mapTop at h
    rw [require_eq_error hlt] at h
    cases h
  · obtain ⟨v, hv⟩ := exists_topAt Nat.one_pos hge
    rw [mapTop_eq hv] at h
    split at h
    · cases h
      exact ⟨v, _, hv, ‹_›, rfl⟩
    · cases h

theorem mapTopTwo_eq_ok {f : Operands → Value → Value → Except Fault Value}
    (h : s.mapTopTwo f = .ok t) :
    ∃ a b w, s.topAt 2 = .ok a ∧ s.topAt 1 = .ok b ∧
      f (s.truncate (s.size - 2)) a b = .ok w ∧ t = push (s.truncate (s.size - 2)) w := by
  rcases Nat.lt_or_ge s.size 2 with hlt | hge
  · unfold mapTopTwo at h
    rw [require_eq_error hlt] at h
    cases h
  · obtain ⟨a, ha⟩ := exists_topAt Nat.two_pos hge
    obtain ⟨b, hb⟩ := exists_topAt (s := s) Nat.one_pos (by omega)
    rw [mapTopTwo_eq ha hb] at h
    split at h
    · cases h
      exact ⟨a, b, _, ha, hb, ‹_›, rfl⟩
    · cases h

theorem foldTop_eq_ok {f : Operands → Value → Value → Value × Except Fault Unit}
    (h : s.foldTop f = .ok t) :
    ∃ a b w u, s.topAt 2 = .ok a ∧ s.topAt 1 = .ok b ∧
      f (s.truncate (s.size - 2)) a b = (w, .ok u) ∧
      t = ⟨(s.values.setIfInBounds (s.size - 2) w).pop⟩ := by
  rcases Nat.lt_or_ge s.size 2 with hlt | hge
  · unfold foldTop at h
    rw [require_eq_error hlt] at h
    cases h
  · obtain ⟨a, ha⟩ := exists_topAt Nat.two_pos hge
    obtain ⟨b, hb⟩ := exists_topAt (s := s) Nat.one_pos (by omega)
    rw [foldTop_eq ha hb] at h
    split at h
    · cases h
      exact ⟨a, b, _, _, ha, hb, ‹_›, rfl⟩
    · cases h

/-! ## The lower part -/

/-- The lowest `base` elements of `s` are those of `t`. -/
def Below (base : Nat) (s t : Operands) : Prop := ∀ i < base, t.get? i = s.get? i

theorem Below.refl (base : Nat) (s : Operands) : Below base s s := fun _ _ => rfl

theorem Below.trans {base : Nat} {r s t : Operands} (h1 : Below base r s) (h2 : Below base s t) :
    Below base r t := fun i hi => (h2 i hi).trans (h1 i hi)

theorem below_push {base : Nat} (h : base ≤ s.size) (v : Value) : Below base s (s.push v) := by
  intro i hi
  unfold get? push size at *
  rw [Array.getElem?_push, if_neg (by omega)]

theorem below_truncate {base n : Nat} (h : base ≤ n) : Below base s (s.truncate n) := by
  intro i hi
  unfold get? truncate
  rw [getElem?_shrink, if_pos (by omega)]

theorem below_pop {base : Nat} (h : base + 1 ≤ s.size) : Below base s ⟨s.values.pop⟩ := by
  intro i hi
  unfold get? size at *
  rw [Array.getElem?_pop, if_pos (by omega)]

theorem below_set {base i : Nat} (h : base ≤ i) (v : Value) :
    Below base s ⟨s.values.setIfInBounds i v⟩ := by
  intro j hj
  unfold get?
  rw [Array.getElem?_setIfInBounds, if_neg (by omega)]

theorem below_swap {base offset : Nat} (h : base + offset ≤ s.size) (h0 : 0 < offset) :
    Below base s ⟨s.values.swapIfInBounds (s.size - 1) (s.size - offset)⟩ := by
  intro i hi
  unfold get? size at *
  rw [Array.swapIfInBounds_def, dif_pos (by omega), dif_pos (by omega), Array.getElem?_swap,
    if_neg (by omega), if_neg (by omega)]

/-- A stack of which the lowest elements are known keeps at least those. -/
theorem Below.size_le {base : Nat} (h : Below base s t) (hs : base ≤ s.size) : base ≤ t.size := by
  unfold size at *
  rcases Nat.lt_or_ge t.values.size base with hlt | hge
  · have hnone := h t.values.size hlt
    unfold get? at hnone
    rw [Array.getElem?_eq_none (Nat.le_refl _), Array.getElem?_eq_getElem (by omega)] at hnone
    cases hnone
  · exact hge

/-- Stacks with the same lowest elements are cut back to the same stack. -/
theorem Below.truncate_eq {base : Nat} (h : Below base s t) :
    t.truncate base = s.truncate base := by
  unfold truncate
  congr 1
  apply Array.ext_getElem?
  intro i
  rw [getElem?_shrink, getElem?_shrink]
  split
  · exact h i ‹_›
  · rfl

theorem truncate_eq_iff {base : Nat} : t.truncate base = s.truncate base ↔ Below base s t := by
  refine ⟨fun h i hi => ?_, Below.truncate_eq⟩
  have hget : (t.truncate base).get? i = (s.truncate base).get? i := by rw [h]
  unfold get? truncate at hget
  rw [getElem?_shrink, getElem?_shrink, if_pos hi, if_pos hi] at hget
  exact hget

theorem push_left_inj : s.push v = t.push v ↔ s = t := by
  refine ⟨fun h => ?_, fun h => by rw [h]⟩
  obtain ⟨a⟩ := s
  obtain ⟨b⟩ := t
  have hpush : a.push v = b.push v := congrArg values h
  rw [(Array.push_eq_push.1 hpush).2]

end Operands

end ActionMachine
