import ActionMachine.Proofs.Requests

/-
  Failures without a trace. An action that runs no body and defines no method looks at all it needs
  before it changes anything: when it stops, the program is as it was. So a block of such actions
  that fails has done what its actions before the failed one do, and nothing else. Nothing is
  assumed of the program, so the results hold in every state that a run can be in.
-/

namespace ActionMachine

namespace Action

variable {a : Action}

/-- Neither opens a body nor calls. -/
def isFlat : Action → Bool
  | .defineNamespace _ _ | .defineClass _ _ | .call _ _ => false
  | _ => true

/-- Neither opens a body, nor calls, nor defines a method. -/
def isAtomic : Action → Bool
  | .defineNamespace _ _ | .defineClass _ _ | .defineMethod _ _ _ | .call _ _ => false
  | _ => true

theorem body?_of_isFlat (h : a.isFlat = true) : a.body? = none := by
  cases a with
  | defineNamespace => cases h
  | defineClass => cases h
  | _ => rfl

theorem ne_call_of_isFlat (h : a.isFlat = true) (name : Name) (arity : Nat) :
    a ≠ .call name arity := by
  rintro rfl
  cases h

theorem isFlat_of_isAtomic (h : a.isAtomic = true) : a.isFlat = true := by
  cases a with
  | defineNamespace => cases h
  | defineClass => cases h
  | call => cases h
  | _ => rfl

end Action

namespace Exec

variable {scope : ScopeId} {p q : Program} {a : Action} {run : Body}

theorem Refuses.eq_of_isAtomic (h : Refuses p a q) (ha : a.isAtomic = true) : q = p := by
  cases h with
  | same => rfl
  | numbered => cases ha
  | defaulted => cases ha
  | placed => cases ha

/-- The operands are looked at first, and nothing is changed if they are missing. -/
theorem attempt_effects (ha : a.isFlat = true) : Effects scope p a (attempt run scope a) := by
  simp only [Effects, attempt, checkOperands, ends_bind, ends_ite, ends_fault, ends_get, ends_pure]
  exact ⟨fun _ => ⟨.same, .fault⟩, fun _ => ⟨fun _ => ⟨.same, .fault⟩,
    fun _ => perform_effects (Action.body?_of_isFlat ha) (Action.ne_call_of_isFlat ha)⟩⟩

theorem attempt_eq_error {stop : Stop Fault} (ha : a.isAtomic = true)
    (h : attempt run scope a p = .error stop q) : q = p := by
  have heffects : Effects scope p a (attempt run scope a) :=
    attempt_effects (Action.isFlat_of_isAtomic ha)
  exact (heffects.of_error h).1.eq_of_isAtomic ha

/-- A block of atomic actions that stops has come to an action that stops without a trace; the
actions before it run to their end. -/
theorem performAll_eq_error {actions : List Action} {index : Nat} {stop : Stop Failure}
    (hatomic : ∀ a ∈ actions, a.isAtomic = true)
    (h : performAll run scope index actions p = .error stop q) :
    ∃ k a cause, actions[k]? = some a ∧ stop = cause.map (Failure.mk (index + k) a.label) ∧
      attempt run scope a q = .error cause q ∧
      performAll run scope index (actions.take k) p = .ok .next q := by
  induction actions generalizing p index with
  | nil =>
    rw [performAll] at h
    cases h
  | cons a actions ih =>
    rw [performAll_cons] at h
    simp only [bind, EStateM.bind, report] at h
    cases ha : attempt run scope a p with
    | error cause r =>
      rw [ha] at h
      cases h
      obtain rfl := attempt_eq_error (hatomic a List.mem_cons_self) ha
      refine ⟨0, a, cause, rfl, rfl, ha, ?_⟩
      rw [List.take_zero, performAll]
      rfl
    | ok flow r =>
      rw [ha] at h
      cases flow with
      | ret => cases h
      | next =>
        obtain ⟨k, b, cause, hb, hstop, hfails, hbefore⟩ :=
          ih (fun b hb => hatomic b (List.mem_cons_of_mem _ hb)) h
        refine ⟨k + 1, b, cause, hb, ?_, hfails, ?_⟩
        · rw [hstop, Nat.add_right_comm, Nat.add_assoc]
        · rw [List.take_succ_cons, performAll_cons]
          simp only [bind, EStateM.bind, report, ha]
          exact hbefore

theorem block_eq_fault {n : Nat} {actions : List Action} {failure : Failure}
    (hatomic : ∀ a ∈ actions, a.isAtomic = true)
    (h : block n scope actions p = .error (.fault failure) q) :
    block n scope (actions.take failure.index) p = .ok .next q ∧
      ∃ a, actions[failure.index]? = some a ∧ failure.action = a.label ∧
        attempt (enter n) scope a q = .error (.fault failure.fault) q := by
  obtain ⟨k, a, cause, hk, hstop, hfails, hbefore⟩ := performAll_eq_error hatomic h
  cases cause with
  | fault f =>
    obtain rfl : failure = ⟨0 + k, a.label, f⟩ := Stop.fault.inj hstop
    rw [Nat.zero_add]
    exact ⟨hbefore, a, hk, rfl, hfails⟩
  | breach v => cases hstop
  | unending => cases hstop

/-- A run against a live scope is its block with the slot for returned values emptied. -/
theorem runIn_of_owns {n : Nat} {actions : List Action} (ho : p.scopes.owns scope = true) :
    runIn n scope actions p =
      match block n scope actions p with
      | .ok _ q => .ok q.returned { q with returned := .undefined }
      | .error (.fault failure) q => .error (.fault failure) { q with returned := .undefined }
      | .error stop q => .error stop q := by
  have hcheck : p.scopes.check scope = .ok scope := by
    unfold ScopeTree.check
    rw [if_pos ho]
  have hget : (get : Exec Failure Program) p = .ok p p := rfl
  rw [runIn, bind_of_ok hget, hcheck]
  show (settle (block n scope actions) >>= _) p = _
  cases hblock : block n scope actions p with
  | ok flow q =>
    have hsettled : (settle (block n scope actions) : Exec Failure _) p = .ok (.ok flow) q := by
      rw [settle, hblock]
    rw [bind_of_ok hsettled]
    rfl
  | error stop q =>
    cases stop with
    | fault failure =>
      have hsettled : (settle (block n scope actions) : Exec Failure _) p =
          .ok (.error failure) q := by
        rw [settle, hblock]
      rw [bind_of_ok hsettled]
      rfl
    | breach v =>
      refine bind_of_error ?_
      rw [settle, hblock]
    | unending =>
      refine bind_of_error ?_
      rw [settle, hblock]

end Exec

open Exec

/-- An atomic action that stops leaves the program exactly as it was. A block of such actions that
fails leaves exactly what its actions before the failed one lead to, and these run to their end; so
does a run against a live scope. -/
theorem failure_leaves_no_trace (n : Nat) (scope : ScopeId) (p : Program) :
    (∀ a : Action, a.isAtomic = true → ∀ stop q,
      attempt (enter n) scope a p = .error stop q → q = p) ∧
    ∀ actions : List Action, (∀ a ∈ actions, a.isAtomic = true) → ∀ failure q,
      (block n scope actions p = .error (.fault failure) q →
        block n scope (actions.take failure.index) p = .ok .next q ∧
          ∃ a, actions[failure.index]? = some a ∧ failure.action = a.label ∧
            attempt (enter n) scope a q = .error (.fault failure.fault) q) ∧
      (p.scopes.owns scope = true → runIn n scope actions p = .error (.fault failure) q →
        ∃ v, runIn n scope (actions.take failure.index) p = .ok v q) := by
  refine ⟨fun a ha stop q h => attempt_eq_error ha h, fun actions hatomic failure q =>
    ⟨fun h => block_eq_fault hatomic h, fun ho h => ?_⟩⟩
  rw [runIn_of_owns ho] at h ⊢
  cases hblock : block n scope actions p with
  | ok flow r =>
    rw [hblock] at h
    cases h
  | error stop r =>
    rw [hblock] at h
    cases stop with
    | fault cause =>
      cases h
      rw [(block_eq_fault hatomic hblock).1]
      exact ⟨r.returned, rfl⟩
    | breach v => cases h
    | unending => cases h

/-- A block that fails to assign to a constant. -/
def assignToConstant : List Action :=
  [.declareConstant "c" (.int 1), .pushLiteral (.int 2), .assignLocal "c" .pop, .pop]

/-- The constant is declared and the value pushed, as by the first two actions alone. -/
theorem assignToConstant_leaves_no_trace :
    ∃ failure q, runIn 0 .global assignToConstant .silent = .error (.fault failure) q ∧
      failure.index = 2 ∧ q.memory.stack.size = 1 ∧
      ∃ v, runIn 0 .global (assignToConstant.take failure.index) .silent = .ok v q := by
  have hatomic : ∀ a ∈ assignToConstant, a.isAtomic = true := by
    simp [assignToConstant, Action.isAtomic]
  have hfails : runIn 0 .global assignToConstant .silent =
      .error (.fault ⟨2, "AssignLocal", .constantAssignment (.static ⟨⟨1⟩, 0⟩)⟩)
        (after (runIn 0 .global assignToConstant) .silent) := by rfl
  exact ⟨_, _, hfails, rfl, rfl,
    (((failure_leaves_no_trace 0 .global .silent).2 _ hatomic _ _).2 rfl hfails)⟩

end ActionMachine
