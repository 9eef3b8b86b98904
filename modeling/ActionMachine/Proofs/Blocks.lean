import ActionMachine.Proofs.Runs

/-
  Blocks in parts. A block does what its first part does and then, unless that left the block, what
  the rest does (`performAll_append`). Where a block begins to count makes no difference but to the
  index in the report of a failure (`performAll_add`), so a failure always names an action that the
  block has come to.
-/

namespace ActionMachine

/-- The failure as a block reports it that has `k` more actions in front. -/
def Failure.later (k : Nat) (f : Failure) : Failure := { f with index := f.index + k }

namespace Exec

variable {run : Body} {scope : ScopeId} {p q : Program} {as : List Action} {a : Action}
  {x y z : Exec Failure Flow} {k : Nat}

/-! ## Parts of a block -/

/-- Go on with `y` unless `x` left the block. -/
def andThen (x y : Exec Failure Flow) : Exec Failure Flow := do
  match ← x with
  | .next => y
  | .ret => return .ret

theorem andThen_of_next (h : x p = .ok .next q) : andThen x y p = y q := bind_of_ok h

theorem andThen_of_ret (h : x p = .ok .ret q) : andThen x y p = .ok .ret q := bind_of_ok h

theorem andThen_of_error {s : Stop Failure} (h : x p = .error s q) : andThen x y p = .error s q :=
  bind_of_error h

theorem andThen_assoc : andThen (andThen x y) z = andThen x (andThen y z) := by
  unfold andThen
  rw [bind_assoc]
  refine bind_congr fun flow => ?_
  cases flow with
  | next => rfl
  | ret => rw [pure_bind]

theorem performAll_cons_eq (index : Nat) :
    performAll run scope index (a :: as) =
      andThen (report index a.label (attempt run scope a)) (performAll run scope (index + 1) as) :=
  performAll_cons run scope index a as

theorem performAll_cons_of_next {index : Nat} (h : attempt run scope a p = .ok .next q) :
    performAll run scope index (a :: as) p = performAll run scope (index + 1) as q := by
  rw [performAll_cons_eq]
  exact andThen_of_next (by rw [report, h])

theorem performAll_cons_of_ret {index : Nat} (h : attempt run scope a p = .ok .ret q) :
    performAll run scope index (a :: as) p = .ok .ret q := by
  rw [performAll_cons_eq]
  exact andThen_of_ret (by rw [report, h])

theorem performAll_cons_of_error {index : Nat} {s : Stop Fault}
    (h : attempt run scope a p = .error s q) :
    performAll run scope index (a :: as) p = .error (s.map (Failure.mk index a.label)) q := by
  rw [performAll_cons_eq]
  exact andThen_of_error (by rw [report, h])

theorem performAll_append (index : Nat) (as bs : List Action) :
    performAll run scope index (as ++ bs) =
      andThen (performAll run scope index as)
        (performAll run scope (index + as.length) bs) := by
  induction as generalizing index with
  | nil =>
    rw [List.nil_append, performAll]
    rfl
  | cons a as ih =>
    rw [List.cons_append, performAll_cons_eq, performAll_cons_eq, ih, andThen_assoc,
      List.length_cons, Nat.add_assoc, Nat.add_comm 1]

/-! ## Where a block begins to count -/

/-- The computation with its failures reported `k` actions later. -/
def reportLater (k : Nat) (x : Exec Failure Flow) : Exec Failure Flow := fun p =>
  match x p with
  | .ok flow q => .ok flow q
  | .error stop q => .error (stop.map (Failure.later k)) q

theorem reportLater_of_ok {flow : Flow} (h : x p = .ok flow q) :
    reportLater k x p = .ok flow q := by
  rw [reportLater, h]

theorem reportLater_of_error {s : Stop Failure} (h : x p = .error s q) :
    reportLater k x p = .error (s.map (Failure.later k)) q := by
  rw [reportLater, h]

theorem reportLater_andThen :
    reportLater k (andThen x y) = andThen (reportLater k x) (reportLater k y) := by
  funext p
  cases hx : x p with
  | ok flow q =>
    cases flow with
    | next =>
      rw [andThen_of_next (reportLater_of_ok hx), reportLater, reportLater, andThen_of_next hx]
    | ret => rw [andThen_of_ret (reportLater_of_ok hx), reportLater_of_ok (andThen_of_ret hx)]
  | error s q =>
    rw [andThen_of_error (reportLater_of_error hx), reportLater_of_error (andThen_of_error hx)]

theorem reportLater_report (index : Nat) (action : String) (x : Exec Fault Flow) :
    reportLater k (report index action x) = report (index + k) action x := by
  funext p
  unfold reportLater report
  cases x p with
  | ok flow q => rfl
  | error s q => cases s <;> rfl

theorem performAll_add (index k : Nat) (as : List Action) :
    performAll run scope (index + k) as = reportLater k (performAll run scope index as) := by
  induction as generalizing index with
  | nil =>
    rw [performAll]
    rfl
  | cons a as ih =>
    rw [performAll_cons_eq, performAll_cons_eq, reportLater_andThen, reportLater_report,
      Nat.add_right_comm, ih]

/-- A failure names none of the actions before the block. -/
theorem le_index_of_performAll {index : Nat} {failure : Failure}
    (h : performAll run scope index as p = .error (.fault failure) q) :
    index ≤ failure.index := by
  rw [← Nat.zero_add index, performAll_add] at h
  cases hx : performAll run scope 0 as p with
  | ok flow r =>
    rw [reportLater_of_ok hx] at h
    cases h
  | error s r =>
    rw [reportLater_of_error hx] at h
    cases s with
    | fault cause =>
      cases h
      exact Nat.le_add_left _ _
    | breach v => cases h
    | unending => cases h

/-! ## Coming to an action -/

/-- A block whose first `i` actions ran to their end goes on with the others. -/
theorem performAll_drop {i : Nat}
    (h : performAll run scope 0 (as.take i) p = .ok .next q) (hi : i ≤ as.length) :
    performAll run scope 0 as p = performAll run scope i (as.drop i) q := by
  have hparts : performAll run scope 0 (as.take i ++ as.drop i) = _ := performAll_append 0 _ _
  rw [List.take_append_drop, List.length_take_of_le hi, Nat.zero_add] at hparts
  rw [hparts, andThen_of_next h]

/-! ## Actions with bodies of their own -/

section Bodies

variable {id : ScopeId} {name : Name} {body : List Action}

theorem attempt_of_openNamespace (h : openNamespace scope name p = .ok id q) :
    attempt run scope (.defineNamespace name body) p =
      inside (.nameSpace name) (performAll run id 0 body) q := by
  have hchecked : checkOperands (.defineNamespace name body) p = .ok () p := rfl
  rw [attempt, bind_of_ok hchecked, perform]
  exact bind_of_ok h

theorem attempt_of_openClass (h : openClass scope name p = .ok id q) :
    attempt run scope (.defineClass name body) p =
      inside (.classBody name) (performAll run id 0 body) q := by
  have hchecked : checkOperands (.defineClass name body) p = .ok () p := rfl
  rw [attempt, bind_of_ok hchecked, perform]
  exact bind_of_ok h

/-- A body that comes to its end, with a `ret` or without, ends its action. -/
theorem inside_of_ok {place : Place} {flow : Flow} (h : x p = .ok flow q) :
    inside place x p = .ok .next q := by
  have hsettled : (settle x : Exec Fault _) p = .ok (.ok flow) q := by rw [settle, h]
  exact bind_of_ok hsettled

theorem inside_of_error {place : Place} {s : Stop Failure} (h : x p = .error s q) :
    inside place x p = .error (s.map (·.within place)) q := by
  apply Ends.eq_error
  rw [ends_inside, ends_of_error h]
  exact ⟨rfl, rfl⟩

end Bodies

end Exec

end ActionMachine
