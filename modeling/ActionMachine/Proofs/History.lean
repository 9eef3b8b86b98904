import ActionMachine.Proofs.Requests

/-
  The history of a program: every state that it passes through, one step after the other. A step
  is what an action does before a body of its own runs (`advance`), the end of a call, the
  registration of a native method, or the end of a run. The steps of a block follow its execution
  (`blockSteps` beside `performAll`), those of a program its requests. `linked_history` says that
  they lead from state to state without a gap and that each does what it says, whatever the
  actions are. Nothing is left out: each action that a run meets has its steps there
  (`Meets.exists_steps`), and each program that can be reached is the end of a history
  (`Reachable.exists_requests`).
-/

namespace ActionMachine.Exec

variable {scope id : ScopeId} {p q r t : Program} {a : Action}

/-! ## Actions up to their bodies -/

/-- How an action stands before a body of its own runs. -/
inductive Stage where
  /-- It needs no body. -/
  | finished (flow : Flow)
  /-- The body of a namespace or class is to run in its scope. -/
  | inBody (id : ScopeId)
  /-- The body of a method is to run. -/
  | inCall (m : Method) (frame : Frame)

/-- Perform an action that has its operands up to the body that it runs. -/
def dispatch (scope : ScopeId) : Action → Exec Fault Stage
  | .defineNamespace name _ => return .inBody (← openNamespace scope name)
  | .defineClass name _ => return .inBody (← openClass scope name)
  | .call name arity => do
    match ← callee scope name with
    | .method m => return .inCall m (← openCall m arity)
    | .native native =>
      callNative native arity
      return .finished .next
    | value => fault (.notCallable value.kind)
  | a => return .finished (← perform (enter 0) scope a)

/-- As `dispatch`, for an action that looks at its operands first. -/
def advance (scope : ScopeId) (a : Action) : Exec Fault Stage := do
  checkOperands a
  dispatch scope a

/-- The rest of the action. -/
def complete (run : Body) (a : Action) : Stage → Exec Fault Flow
  | .finished flow => pure flow
  | .inBody id =>
    match a with
    | .defineNamespace name body => inside (.nameSpace name) (performAll run id 0 body)
    | .defineClass name body => inside (.classBody name) (performAll run id 0 body)
    | _ => pure .next
  | .inCall m frame => do
    let outcome ← settle (run frame.scope m.body)
    closeCall frame m.name outcome
    return .next

theorem attempt_eq (run : Body) (scope : ScopeId) (a : Action) :
    attempt run scope a = advance scope a >>= complete run a := by
  unfold attempt advance
  rw [bind_assoc]
  refine congrArg _ (funext fun _ => ?_)
  cases a with
  | defineNamespace name body =>
    rw [perform, dispatch]
    simp only [bind_assoc, pure_bind, complete]
  | defineClass name body =>
    rw [perform, dispatch]
    simp only [bind_assoc, pure_bind, complete]
  | call name arity =>
    rw [perform, call, dispatch]
    simp only [bind_assoc]
    refine congrArg _ (funext fun v => ?_)
    cases v with
    | method m => simp only [callMethod, bind_assoc, pure_bind, complete]
    | native native => simp only [bind_assoc, pure_bind, complete]
    | _ => rfl
  | _ =>
    simp only [perform, dispatch, bind_assoc, pure_bind, complete, bind_pure]

theorem callee_same (scope : ScopeId) (name : Name) :
    Ends (callee scope name) p (fun _ q => q = p) fun _ q => q = p := by
  simp only [callee, ends_bind, ends_resolve, ends_get, ends_liftFault]
  exact ⟨fun _ _ => ⟨fun _ _ => ⟨fun _ _ => trivial, fun _ _ => trivial⟩, fun _ _ => trivial⟩,
    fun _ _ => trivial⟩

/-- The operands of an action are looked at before anything else. -/
theorem ends_advance {done : Stage → Program → Prop} {stopped : Stop Fault → Program → Prop}
    (hrefused : ∀ cause, stopped (.fault cause) p)
    (h : a.operandArity ≤ p.memory.stack.size → a.hasZeroOffset = false →
      Ends (dispatch scope a) p done stopped) : Ends (advance scope a) p done stopped := by
  unfold advance
  simp only [checkOperands, ends_bind, ends_ite, ends_fault, ends_get, ends_pure]
  exact ⟨fun _ => hrefused _, fun hzero => ⟨fun _ => hrefused _, fun hdepth =>
    h (Nat.le_of_not_lt hdepth) (eq_false_of_ne_true hzero)⟩⟩

/-- They do not speak against an action that has them. -/
theorem checkOperands_eq_ok (hdepth : a.operandArity ≤ p.memory.stack.size)
    (hzero : a.hasZeroOffset = false) : checkOperands a p = .ok () p := by
  apply Ends.eq_ok
  simp only [checkOperands, ends_bind, ends_ite, ends_fault, ends_get, ends_pure, hzero]
  exact ⟨fun hc => Bool.false_ne_true hc,
    fun _ => ⟨fun hless => Nat.not_lt_of_le hdepth hless, fun _ => ⟨trivial, trivial⟩⟩⟩

theorem advance_eq_dispatch (hdepth : a.operandArity ≤ p.memory.stack.size)
    (hzero : a.hasZeroOffset = false) : advance scope a p = dispatch scope a p :=
  bind_of_ok (checkOperands_eq_ok hdepth hzero)

/-- What was done to bring an action to a stage. -/
inductive Reaches (scope : ScopeId) (p : Program) : Action → Stage → Program → Prop where
  | finished {a : Action} {flow : Flow} {q : Program} : Reaches scope p a (.finished flow) q
  | inNamespace {name : Name} {body : List Action} {id : ScopeId} {q : Program}
      (h : openNamespace scope name p = .ok id q) :
      Reaches scope p (.defineNamespace name body) (.inBody id) q
  | inClass {name : Name} {body : List Action} {id : ScopeId} {q : Program}
      (h : openClass scope name p = .ok id q) :
      Reaches scope p (.defineClass name body) (.inBody id) q
  | inCall {name : Name} {arity : Nat} {m : Method} {frame : Frame} {q : Program}
      (harity : arity ≤ p.memory.stack.size) (hcallee : callee scope name p = .ok (.method m) p)
      (hopen : openCall m arity p = .ok frame q) :
      Reaches scope p (.call name arity) (.inCall m frame) q

theorem advance_reaches : Ends (advance scope a) p (Reaches scope p a) fun _ _ => True := by
  refine ends_advance (fun _ => trivial) fun hdepth _ => ?_
  cases a with
  | defineNamespace name body =>
    simp only [dispatch, ends_bind, ends_pure]
    exact (Ends.anyhow _ _).with_run.imp (fun _ _ hq => .inNamespace hq.1) fun _ _ _ => trivial
  | defineClass name body =>
    simp only [dispatch, ends_bind, ends_pure]
    exact (Ends.anyhow _ _).with_run.imp (fun _ _ hq => .inClass hq.1) fun _ _ _ => trivial
  | call name arity =>
    rw [dispatch, ends_bind]
    refine (callee_same scope name).with_run.imp ?_ fun _ _ _ => trivial
    rintro v _ ⟨hcallee, rfl⟩
    cases v with
    | method m =>
      simp only [ends_bind, ends_pure]
      exact (Ends.anyhow _ _).with_run.imp (fun _ _ hq => .inCall hdepth hcallee hq.1)
        fun _ _ _ => trivial
    | native native =>
      simp only [ends_bind, ends_pure]
      exact (Ends.anyhow _ _).imp (fun _ _ _ => .finished) fun _ _ _ => trivial
    | _ => trivial
  | _ =>
    simp only [dispatch, ends_bind, ends_pure]
    exact (Ends.anyhow _ _).imp (fun _ _ _ => .finished) fun _ _ _ => trivial

/-- Only a call of a method of the program comes to the body of one. -/
theorem advance_eq_inCall {m : Method} {frame : Frame}
    (h : advance scope a p = .ok (.inCall m frame) q) :
    ∃ name arity, a = .call name arity ∧ arity ≤ p.memory.stack.size ∧
      callee scope name p = .ok (.method m) p ∧ openCall m arity p = .ok frame q := by
  cases advance_reaches.of_ok h with
  | inCall harity hcallee hopen => exact ⟨_, _, rfl, harity, hcallee, hopen⟩

/-! ## Steps -/

/-- What happens between two states. -/
inductive Event where
  | registered (native : NativeMethod)
  /-- An action was performed up to its body. -/
  | advanced (scope : ScopeId) (a : Action) (stage : Stage)
  /-- An action failed before any body of its own. -/
  | refused (scope : ScopeId) (a : Action)
  /-- A call of a method ended, with a result or a failure. -/
  | left (m : Method) (frame : Frame)
  /-- A run ended and its answer was taken. -/
  | answered

structure Step where
  before : Program
  event : Event
  after : Program

/-- The step of a computation, if it comes to its end. -/
def step {ε α : Type} (event : Event) (x : Exec ε α) (p : Program) : List Step :=
  if isComplete x p then [⟨p, event, after x p⟩] else []

/-- The end of a call whose body starts in `p`. -/
def leaving (run : Body) (m : Method) (frame : Frame) (p : Program) : List Step :=
  match (settle (run frame.scope m.body) : Exec Fault _) p with
  | .ok outcome q => step (.left m frame) (closeCall frame m.name outcome) q
  | .error _ _ => []

/-- How the steps of a body are told. -/
abbrev Telling := ScopeId → List Action → Program → List Step

/-- The steps that follow an action that leads on to the next one. -/
def following (rest : Program → List Step) : EStateM.Result (Stop Fault) Program Flow → List Step
  | .ok .next q => rest q
  | _ => []

theorem following_eq_nil {rest : Program → List Step}
    {x : EStateM.Result (Stop Fault) Program Flow} (h : ∀ q, x ≠ .ok .next q) :
    following rest x = [] := by
  unfold following
  split
  · exact absurd rfl (h _)
  · rfl

/-- The steps of an action: `run` and `tell` are for the body that it calls, `opened` for the body
that it opens. -/
def stepsAround (run : Body) (tell : Telling) (scope : ScopeId) (a : Action)
    (opened : ScopeId → Program → List Step) (p : Program) : List Step :=
  match advance scope a p with
  | .ok stage q =>
    ⟨p, .advanced scope a stage, q⟩ ::
      match stage with
      | .finished _ => []
      | .inBody id => opened id q
      | .inCall m frame => tell frame.scope m.body q ++ leaving run m frame q
  | .error (.fault _) q => [⟨p, .refused scope a, q⟩]
  | .error _ _ => []

mutual

def actionSteps (run : Body) (tell : Telling) (scope : ScopeId) : Action → Program → List Step
  | .defineNamespace name body =>
    stepsAround run tell scope (.defineNamespace name body) fun id => blockSteps run tell id body
  | .defineClass name body =>
    stepsAround run tell scope (.defineClass name body) fun id => blockSteps run tell id body
  | a => stepsAround run tell scope a fun _ _ => []

def blockSteps (run : Body) (tell : Telling) (scope : ScopeId) :
    List Action → Program → List Step
  | [], _ => []
  | a :: as, p =>
    actionSteps run tell scope a p ++
      following (fun q => blockSteps run tell scope as q) (attempt run scope a p)

end

theorem actionSteps_of_body {run : Body} {tell : Telling} {as : List Action}
    (h : a.body? = some as) :
    actionSteps run tell scope a p =
      stepsAround run tell scope a (fun id => blockSteps run tell id as) p := by
  cases a with
  | defineNamespace name body =>
    cases h
    rw [actionSteps]
  | defineClass name body =>
    cases h
    rw [actionSteps]
  | _ => cases h

theorem actionSteps_of_plain {run : Body} {tell : Telling} (h : a.body? = none) :
    actionSteps run tell scope a p = stepsAround run tell scope a (fun _ _ => []) p := by
  cases a with
  | defineNamespace => cases h
  | defineClass => cases h
  | _ => rw [actionSteps] <;> simp

/-- The steps of a body that `enter n` runs. -/
def bodySteps : Nat → Telling
  | 0 => fun _ _ _ => []
  | n + 1 => fun scope body => blockSteps (enter n) (bodySteps n) scope body

/-- Each step begins where the one before it ended. -/
def Linked : Program → List Step → Prop
  | _, [] => True
  | p, s :: steps => s.before = p ∧ Linked s.after steps

/-- Where the steps lead. -/
def final (p : Program) (steps : List Step) : Program := steps.foldl (fun _ s => s.after) p

theorem final_append (p : Program) (steps steps' : List Step) :
    final p (steps ++ steps') = final (final p steps) steps' := List.foldl_append

theorem linked_append {steps steps' : List Step} :
    Linked p (steps ++ steps') ↔ Linked p steps ∧ Linked (final p steps) steps' := by
  induction steps generalizing p with
  | nil => simp [Linked, final]
  | cons s steps ih =>
    rw [List.cons_append, Linked, Linked, ih, and_assoc]
    rfl

/-- The step does what its event says. -/
inductive Happens : Step → Prop where
  | registered {native : NativeMethod} {p q : Program}
      (h : Completes (registerNative native) p q) : Happens ⟨p, .registered native, q⟩
  | advanced {scope : ScopeId} {a : Action} {stage : Stage} {p q : Program}
      (h : advance scope a p = .ok stage q) : Happens ⟨p, .advanced scope a stage, q⟩
  | refused {scope : ScopeId} {a : Action} {cause : Fault} {p q : Program}
      (h : advance scope a p = .error (.fault cause) q) : Happens ⟨p, .refused scope a, q⟩
  | left {m : Method} {frame : Frame} {outcome : Except Failure Flow} {p q : Program}
      (h : Completes (closeCall frame m.name outcome) p q) : Happens ⟨p, .left m frame, q⟩
  | answered {p : Program} : Happens ⟨p, .answered, { p with returned := .undefined }⟩

/-! ## The steps of a run -/

/-- The steps tell what the computation does from `p` on: they are linked, each happens, and they
lead to the end if there is one. -/
structure Told {ε α : Type} (p : Program) (x : Exec ε α) (steps : List Step) : Prop where
  linked : Linked p steps
  happens : ∀ s ∈ steps, Happens s
  final : ∀ q, Completes x p q → final p steps = q

theorem completes_iff {ε α : Type} {x : Exec ε α} :
    Completes x p q ↔
      Ends x p (fun _ r => r = q) (Halts (fun _ r => r = q) fun _ => False) := by
  unfold Completes Ends
  cases x p with
  | ok a r => simp
  | error s r => cases s <;> simp [Halts]

/-- If the stop is a fault, `K` holds of the program that it leaves. -/
def OnFault {ε : Type} (K : Program → Prop) (s : Stop ε) (q : Program) : Prop :=
  ∀ cause, s = .fault cause → K q

theorem Ends.at_end {ε α : Type} {x : Exec ε α} {K : Program → Prop}
    (h : Ends x p (fun _ q => K q) (OnFault K)) (hx : Completes x p q) : K q := by
  rcases hx with ⟨a, hx⟩ | ⟨cause, hx⟩
  · exact h.of_ok hx
  · exact h.of_error hx cause rfl

theorem isComplete_of_completes {ε α : Type} {x : Exec ε α} (h : Completes x p q) :
    isComplete x p = true ∧ after x p = q := by
  unfold isComplete after
  rcases h with ⟨a, h⟩ | ⟨cause, h⟩ <;> rw [h] <;> exact ⟨rfl, rfl⟩

theorem completes_of_settle {ε δ α : Type} {x : Exec δ α} {outcome : Except δ α}
    (h : (settle x : Exec ε (Except δ α)) p = .ok outcome q) : Completes x p q := by
  unfold settle at h
  split at h <;> cases h
  · exact Or.inl ⟨_, ‹_›⟩
  · exact Or.inr ⟨_, ‹_›⟩

/-- Nothing is to be told of a computation that changes nothing if it ends. -/
theorem Told.nil {ε α : Type} {x : Exec ε α} (h : ∀ q, Completes x p q → p = q) : Told p x [] :=
  ⟨trivial, fun _ hs => (by cases hs), h⟩

theorem told_step {ε α : Type} {event : Event} {x : Exec ε α}
    (h : ∀ q, Completes x p q → Happens ⟨p, event, q⟩) : Told p x (step event x p) := by
  unfold step
  split
  · have hx := completes_after ‹isComplete x p = true›
    refine ⟨⟨rfl, trivial⟩, fun s hs => ?_, fun q hq => (isComplete_of_completes hq).2⟩
    rw [List.mem_singleton.1 hs]
    exact h _ hx
  · refine .nil fun q hq => ?_
    exact absurd (isComplete_of_completes hq).1 ‹_›

theorem Told.append {ε δ α β : Type} {x : Exec ε α} {y : Exec δ β} {steps steps' : List Step}
    (h : Told p x steps) (hlinked : Linked (Exec.final p steps) steps')
    (hhappens : ∀ s ∈ steps', Happens s)
    (hfinal : ∀ q, Completes y p q → Exec.final (Exec.final p steps) steps' = q) :
    Told p y (steps ++ steps') := by
  refine ⟨linked_append.2 ⟨h.linked, hlinked⟩, fun s hs => ?_, fun q hq => ?_⟩
  · rcases List.mem_append.1 hs with hs | hs
    · exact h.happens s hs
    · exact hhappens s hs
  · rw [final_append]
    exact hfinal q hq

/-- The steps of a call are those of its body and its end. -/
theorem Told.inCall {run : Body} {m : Method} {frame : Frame} {steps : List Step}
    (h : Told p (run frame.scope m.body) steps) :
    Told p (complete run a (.inCall m frame)) (steps ++ leaving run m frame p) := by
  unfold leaving
  cases hbody : (settle (run frame.scope m.body) : Exec Fault _) p with
  | error s r =>
    refine h.append trivial (fun _ hs => by cases hs) fun q hq => ?_
    rw [completes_iff, complete, ends_bind, ends_of_error hbody] at hq
    cases s with
    | fault cause =>
      unfold settle at hbody
      split at hbody <;> cases hbody
    | breach v => exact hq.elim
    | unending => exact hq.elim
  | ok outcome r =>
    have hr : Exec.final p steps = r := h.final r (completes_of_settle hbody)
    have hleft : Told r (closeCall frame m.name outcome)
        (step (.left m frame) (closeCall frame m.name outcome) r) :=
      told_step fun q hq => .left hq
    refine h.append (hr ▸ hleft.linked) hleft.happens fun q hq => ?_
    rw [hr]
    refine hleft.final q ?_
    rw [completes_iff, complete, ends_bind, ends_of_ok hbody, ends_bind] at hq
    exact completes_iff.2 hq

theorem told_around {run : Body} {tell : Telling} {opened : ScopeId → Program → List Step}
    (htell : ∀ m frame q, advance scope a p = .ok (.inCall m frame) q →
      Told q (run frame.scope m.body) (tell frame.scope m.body q))
    (hopened : ∀ id q, advance scope a p = .ok (.inBody id) q →
      Told q (complete run a (.inBody id)) (opened id q)) :
    Told p (attempt run scope a) (stepsAround run tell scope a opened p) := by
  rw [attempt_eq]
  unfold stepsAround
  cases hadvance : advance scope a p with
  | ok stage q =>
    have hfirst : Told p (advance scope a) [⟨p, .advanced scope a stage, q⟩] := by
      refine ⟨⟨rfl, trivial⟩, fun s hs => ?_, fun r hr => ?_⟩
      · rw [List.mem_singleton.1 hs]
        exact .advanced hadvance
      · rw [completes_iff, ends_of_ok hadvance] at hr
        exact hr
    -- what is left of the action starts in `q`
    have hrest : ∀ steps, Told q (complete run a stage) steps →
        Told p (advance scope a >>= complete run a) (⟨p, .advanced scope a stage, q⟩ :: steps) := by
      intro steps h
      refine hfirst.append h.linked h.happens fun r hr => h.final r ?_
      rw [completes_iff, ends_bind, ends_of_ok hadvance] at hr
      exact completes_iff.2 hr
    cases stage with
    | finished flow =>
      refine hrest [] (.nil fun r hr => ?_)
      rw [completes_iff, complete, ends_pure] at hr
      exact hr
    | inBody id => exact hrest _ (hopened id q hadvance)
    | inCall m frame => exact hrest _ (htell m frame q hadvance).inCall
  | error s q =>
    have hends : ∀ r, Completes (advance scope a >>= complete run a) p r →
        Halts (fun _ r' => r' = r) (fun _ => False) s q := by
      intro r hr
      rw [completes_iff, ends_bind, ends_of_error hadvance] at hr
      exact hr
    cases s with
    | fault cause =>
      refine ⟨⟨rfl, trivial⟩, fun s hs => ?_, hends⟩
      rw [List.mem_singleton.1 hs]
      exact .refused hadvance
    | breach v => exact .nil fun r hr => (hends r hr).elim
    | unending => exact .nil fun r hr => (hends r hr).elim

theorem Told.inside {place : Place} {x : Exec Failure Flow} {steps : List Step}
    (h : Told p x steps) : Told p (inside place x) steps := by
  refine ⟨h.linked, h.happens, fun q hq => h.final q ?_⟩
  rw [completes_iff, ends_inside] at hq
  refine completes_iff.2 (hq.imp (fun _ _ h => h) fun s r hs => ?_)
  exact halts_map.1 hs

/-- A block goes on after its first action, or it ends where that ends. -/
theorem completes_cons {run : Body} {index : Nat} {as : List Action}
    (h : Completes (performAll run scope index (a :: as)) p r) :
    (∃ q, attempt run scope a p = .ok .next q ∧
        Completes (performAll run scope (index + 1) as) q r) ∨
      (∀ q, attempt run scope a p ≠ .ok .next q) ∧ Completes (attempt run scope a) p r := by
  rw [performAll_cons, completes_iff] at h
  simp only [ends_bind, ends_report, halts_map] at h
  cases hx : attempt run scope a p with
  | ok flow q =>
    have hend := h.of_ok hx
    cases flow with
    | next => exact Or.inl ⟨q, rfl, completes_iff.2 hend⟩
    | ret =>
      obtain rfl : q = r := hend
      exact Or.inr ⟨fun _ hnext => (by cases hnext), Or.inl ⟨.ret, hx⟩⟩
  | error s q =>
    have hend := h.of_error hx
    cases s with
    | fault cause =>
      obtain rfl : q = r := hend
      exact Or.inr ⟨fun _ hnext => (by cases hnext), Or.inr ⟨cause, hx⟩⟩
    | breach v => exact hend.elim
    | unending => exact hend.elim

theorem Told.cons {run : Body} {index : Nat} {as : List Action} {steps : List Step}
    {rest : Program → List Step} (h : Told p (attempt run scope a) steps)
    (hrest : ∀ q, attempt run scope a p = .ok .next q →
      Told q (performAll run scope (index + 1) as) (rest q)) :
    Told p (performAll run scope index (a :: as))
      (steps ++ following rest (attempt run scope a p)) := by
  by_cases hgoes : ∃ q, attempt run scope a p = .ok .next q
  · obtain ⟨q, hx⟩ := hgoes
    have hq : Exec.final p steps = q := h.final q (Or.inl ⟨.next, hx⟩)
    have hnext := hrest q hx
    rw [hx]
    refine h.append (hq ▸ hnext.linked) hnext.happens fun r hr => ?_
    rw [hq]
    rcases completes_cons hr with ⟨q', hq', hend⟩ | ⟨hnot, -⟩
    · obtain rfl : q = q' := by
        rw [hx] at hq'
        cases hq'
        rfl
      exact hnext.final r hend
    · exact absurd hx (hnot q)
  · rw [following_eq_nil fun q hx => hgoes ⟨q, hx⟩]
    refine h.append trivial (fun _ hs => by cases hs) fun r hr => ?_
    rcases completes_cons hr with ⟨q, hx, -⟩ | ⟨-, hend⟩
    · exact absurd ⟨q, hx⟩ hgoes
    · exact h.final r hend

/-- The steps of a block tell what it does. -/
theorem run_told :
    (∀ n scope a p,
      Told p (attempt (enter n) scope a) (actionSteps (enter n) (bodySteps n) scope a p)) ∧
    ∀ n scope as p, ∀ index,
      Told p (performAll (enter n) scope index as)
        (blockSteps (enter n) (bodySteps n) scope as p) := by
  refine run_induction ?nil ?cons ?body ?plain
  case nil =>
    intro n scope p index
    refine .nil fun q hq => ?_
    rw [performAll, completes_iff, ends_pure] at hq
    exact hq
  case cons =>
    intro n scope a as p ha has index
    rw [blockSteps]
    exact ha.cons fun q _ => has q (index + 1)
  case body =>
    intro n scope a as p hbody hL
    -- only calls come to the body of a method
    have htell : ∀ m frame q, advance scope a p = .ok (.inCall m frame) q →
        Told q (enter n frame.scope m.body) (bodySteps n frame.scope m.body q) := by
      intro m frame q h
      obtain ⟨name, arity, rfl, -⟩ := advance_eq_inCall h
      cases hbody
    rw [actionSteps_of_body hbody]
    refine told_around htell fun id q _ => ?_
    cases a with
    | defineNamespace name body =>
      cases hbody
      exact (hL id q 0).inside
    | defineClass name body =>
      cases hbody
      exact (hL id q 0).inside
    | _ => cases hbody
  case plain =>
    intro n scope a p hbody hL
    have htell : ∀ id as q, Told q (enter n id as) (bodySteps n id as q) := by
      intro id as q
      cases n with
      | zero => exact .nil fun q hq => (completes_iff.1 hq).elim
      | succ k => exact hL k rfl id as q 0
    have hnone : ∀ id q, Told q (complete (enter n) a (.inBody id)) [] := by
      intro id q
      refine .nil fun r hr => ?_
      cases a with
      | defineNamespace => cases hbody
      | defineClass => cases hbody
      | _ => exact completes_iff.1 hr
    rw [actionSteps_of_plain hbody]
    exact told_around (fun m frame q _ => htell frame.scope m.body q) fun id q _ => hnone id q

/-- Steps inside an action are steps of the block that it stands in. -/
theorem exists_steps_inside {run : Body} {tell : Telling} {as : List Action} {event : Event}
    {inner earlier found later rest : List Step}
    (hsteps : actionSteps run tell scope a p = ⟨p, event, q⟩ :: (inner ++ rest))
    (hinner : inner = earlier ++ found ++ later) :
    ∃ before after, blockSteps run tell scope (a :: as) p = before ++ found ++ after ∧
      final p before = final q earlier := by
  obtain ⟨after, hafter⟩ : ∃ after, blockSteps run tell scope (a :: as) p =
      actionSteps run tell scope a p ++ after := ⟨_, by rw [blockSteps]⟩
  refine ⟨⟨p, event, q⟩ :: earlier, later ++ rest ++ after, ?_, rfl⟩
  rw [hafter, hsteps, hinner]
  simp only [List.cons_append, List.append_assoc]

/-- Each action that a run comes to has its steps among those of the run, and they start in the
program that it finds. -/
theorem Meets.exists_steps {n k : Nat} {s : ScopeId} {as : List Action}
    (h : Meets n scope as p k s a q) :
    ∃ earlier later, blockSteps (enter n) (bodySteps n) scope as p =
        earlier ++ actionSteps (enter k) (bodySteps k) s a q ++ later ∧
      final p earlier = q := by
  induction h with
  | here =>
    rw [blockSteps]
    exact ⟨[], _, rfl, rfl⟩
  | @later n k scope s a b as p q r h _ ih =>
    obtain ⟨earlier, later, hsteps, hfinal⟩ := ih
    refine ⟨actionSteps (enter n) (bodySteps n) scope a p ++ earlier, later, ?_, ?_⟩
    · simp only [blockSteps, following, h, hsteps, List.append_assoc]
    · rw [final_append, (run_told.1 n scope a p).final q (Or.inl ⟨_, h⟩), hfinal]
  | @inNamespace n k scope id s name body as b p q r h _ ih =>
    obtain ⟨earlier, later, hinner, rfl⟩ := ih
    have hadvance : advance scope (.defineNamespace name body) p = .ok (.inBody id) q :=
      (advance_eq_dispatch (Nat.zero_le _) rfl).trans (bind_of_ok h)
    have hsteps : actionSteps (enter n) (bodySteps n) scope (.defineNamespace name body) p =
        ⟨p, .advanced scope (.defineNamespace name body) (.inBody id), q⟩ ::
          (blockSteps (enter n) (bodySteps n) id body q ++ []) := by
      simp only [actionSteps, stepsAround, hadvance, List.append_nil]
    exact exists_steps_inside hsteps hinner
  | @inClass n k scope id s name body as b p q r h _ ih =>
    obtain ⟨earlier, later, hinner, rfl⟩ := ih
    have hadvance : advance scope (.defineClass name body) p = .ok (.inBody id) q :=
      (advance_eq_dispatch (Nat.zero_le _) rfl).trans (bind_of_ok h)
    have hsteps : actionSteps (enter n) (bodySteps n) scope (.defineClass name body) p =
        ⟨p, .advanced scope (.defineClass name body) (.inBody id), q⟩ ::
          (blockSteps (enter n) (bodySteps n) id body q ++ []) := by
      simp only [actionSteps, stepsAround, hadvance, List.append_nil]
    exact exists_steps_inside hsteps hinner
  | @inCall n k arity scope s name as m frame b p q r harity hcallee hopen _ ih =>
    obtain ⟨earlier, later, hinner, rfl⟩ := ih
    have hadvance : advance scope (.call name arity) p = .ok (.inCall m frame) q := by
      rw [advance_eq_dispatch (a := .call name arity) harity rfl, dispatch, bind_of_ok hcallee]
      exact bind_of_ok hopen
    have hsteps : actionSteps (enter (n + 1)) (bodySteps (n + 1)) scope (.call name arity) p =
        ⟨p, .advanced scope (.call name arity) (.inCall m frame), q⟩ ::
          (blockSteps (enter n) (bodySteps n) frame.scope m.body q ++
            leaving (enter (n + 1)) m frame q) := by
      rw [actionSteps_of_plain rfl, stepsAround, hadvance]
      rfl
    exact exists_steps_inside hsteps hinner

/-! ## The end of a call -/

/-- What the end of a call does to cells and scopes: all stay, or those of the call and all that
came after them go. -/
structure Leaves (frame : Frame) (r t : Program) : Prop where
  id : t.memory.id = r.memory.id
  arena : t.memory.arena = r.memory.arena
  cases : frame.scope.index < r.scopes.retained ∧ t.scopes = r.scopes ∧
      t.memory.frame = r.memory.frame ∨
    r.scopes.retained ≤ frame.scope.index ∧
      t.scopes = { r.scopes with scopes := r.scopes.scopes.shrink frame.scope.index } ∧
      t.memory.frame = r.memory.frame.truncate frame.cells

theorem releaseCallScope_cases {tree : ScopeTree} {b : Bool × ScopeTree}
    (h : tree.releaseCallScope id = .ok b) :
    id.index < tree.retained ∧ b = (false, tree) ∨
      tree.retained ≤ id.index ∧
        b = (true, { tree with scopes := tree.scopes.shrink id.index }) := by
  unfold ScopeTree.releaseCallScope at h
  obtain ⟨s, -, h⟩ := bind_eq_ok_iff.1 h
  split at h
  · cases h
  · split at h <;> cases h
    · exact Or.inl ⟨‹_›, rfl⟩
    · exact Or.inr ⟨Nat.le_of_not_lt ‹_›, rfl⟩

theorem leave_ends (frame : Frame) (base : Nat) :
    Ends (leave frame.scope frame.cells base) p (fun _ q => Leaves frame p q)
      (OnFault fun q => Leaves frame p q) := by
  simp only [leave, ends_bind, ends_modify, ends_get, ends_liftViolation, ends_setScopes]
  refine ⟨fun b hb => ?_, fun v _ cause hc => by cases hc⟩
  rcases releaseCallScope_cases hb with ⟨hkept, rfl⟩ | ⟨hgone, rfl⟩
  · exact ⟨rfl, rfl, Or.inl ⟨hkept, rfl, rfl⟩⟩
  · exact ⟨rfl, rfl, Or.inr ⟨hgone, rfl, rfl⟩⟩

theorem leaves_of_closeCall {frame : Frame} {name : Name} {outcome : Except Failure Flow}
    (h : Completes (closeCall frame name outcome) r t) : Leaves frame r t := by
  refine Ends.at_end ?_ h
  simp only [closeCall, ends_bind, ends_get, ends_modify]
  refine (leave_ends frame frame.base).imp (fun _ q hq => ?_) fun s q hs cause hc => ?_
  · cases outcome with
    | ok flow => exact ⟨hq.id, hq.arena, hq.cases⟩
    | error failure => exact fun _ _ => ⟨hq.id, hq.arena, hq.cases⟩
  · obtain ⟨hid, harena, hcases⟩ := hs cause hc
    exact ⟨hid, harena, hcases⟩

/-- The end of a call takes the depth of calls and the slot for returned values back. -/
structure Restores (frame : Frame) (r t : Program) : Prop where
  depth : t.callDepth = r.callDepth - 1
  returned : t.returned = frame.returned
  mode : t.mode = r.mode
  host : t.host = r.host
  lastTypeId : t.lastTypeId = r.lastTypeId

theorem restores_of_closeCall {frame : Frame} {name : Name} {outcome : Except Failure Flow}
    (h : Completes (closeCall frame name outcome) r t) : Restores frame r t := by
  refine Ends.at_end ?_ h
  simp only [closeCall, leave, ends_bind, ends_get, ends_modify, ends_liftViolation,
    ends_setScopes, ends_ite, ends_pure]
  refine ⟨fun b _ => ?_, fun v _ cause hcause => by cases hcause⟩
  cases outcome with
  | ok flow => exact ⟨fun _ => ⟨rfl, rfl, rfl, rfl, rfl⟩, fun _ => ⟨rfl, rfl, rfl, rfl, rfl⟩⟩
  | error failure =>
    exact ⟨fun _ _ _ => ⟨rfl, rfl, rfl, rfl, rfl⟩, fun _ _ _ => ⟨rfl, rfl, rfl, rfl, rfl⟩⟩

/-! ## The history of a program -/

/-- The program that a computation leaves behind if it comes to its end. -/
def after? {ε α : Type} (x : Exec ε α) (p : Program) : Option Program :=
  if isComplete x p then some (after x p) else none

theorem after?_eq_some_iff {ε α : Type} {x : Exec ε α} :
    after? x p = some q ↔ Completes x p q := by
  unfold after?
  constructor
  · intro h
    split at h
    · exact Option.some.inj h ▸ completes_after ‹_›
    · cases h
  · intro h
    obtain ⟨hcomplete, rfl⟩ := isComplete_of_completes h
    rw [if_pos hcomplete]

/-- What a program can be asked for. -/
inductive Request where
  | register (native : NativeMethod)
  /-- Run a block against a scope; `calls` bounds the nesting of calls. -/
  | run (calls : Nat) (scope : ScopeId) (actions : List Action)

namespace Request

def methodFree : Request → Bool
  | .register _ => true
  | .run _ _ actions => Action.allMethodFree actions

/-- Every literal of the request satisfies `K`. -/
def EachLiteral (K : Value → Prop) : Request → Prop
  | .register _ => True
  | .run _ _ actions => Action.AllLiterals K actions

/-- The program that serving the request leaves behind, if it comes to an end. -/
def served? : Request → Program → Option Program
  | .register native => after? (registerNative native)
  | .run calls scope actions => after? (runIn calls scope actions)

/-- All states that serving the request passes through. A run that does not come to an end has the
steps up to there. -/
def steps : Request → Program → List Step
  | .register native, p => step (.registered native) (registerNative native) p
  | .run calls scope actions, p =>
    if p.scopes.owns scope then
      blockSteps (enter calls) (bodySteps calls) scope actions p ++
        match after? (block calls scope actions) p with
        | some q => [⟨q, .answered, { q with returned := .undefined }⟩]
        | none => []
    else []

end Request

/-- The steps of a program that serves the requests one after the other. It serves no more of them
after one that does not come to an end. -/
def history : List Request → Program → List Step
  | [], _ => []
  | request :: requests, p =>
    request.steps p ++
      match request.served? p with
      | some q => history requests q
      | none => []

/-- A run against a scope that the tree does not have is refused and changes nothing. -/
theorem runIn_refused {n : Nat} {actions : List Action} (ho : ¬ p.scopes.owns scope = true) :
    runIn n scope actions p = .error (.fault
      ⟨0, (actions.head?.map Action.label).getD "Run", .foreignScope scope⟩) p := by
  have hcheck : p.scopes.check scope = .error (.foreignScope scope) := if_neg ho
  apply Ends.eq_error
  rw [runIn, ends_bind, ends_get, hcheck, ends_throw]
  exact ⟨rfl, rfl⟩

theorem runIn_of_not_owns {n : Nat} {actions : List Action} (ho : ¬ p.scopes.owns scope = true)
    (h : Completes (runIn n scope actions) p q) : p = q := by
  rw [Completes, runIn_refused ho] at h
  rcases h with ⟨_, h⟩ | ⟨_, h⟩
  · cases h
  · cases h
    rfl

theorem completes_runIn {n : Nat} {actions : List Action} (ho : p.scopes.owns scope = true)
    (h : Completes (runIn n scope actions) p q) :
    ∃ r, Completes (block n scope actions) p r ∧ q = { r with returned := .undefined } := by
  have hcheck : p.scopes.check scope = .ok scope := if_pos ho
  rw [completes_iff, runIn, ends_bind, ends_get, hcheck] at h
  simp only [ends_bind, ends_settle_halts, ends_get, ends_modify] at h
  cases hblock : block n scope actions p with
  | ok flow r =>
    rw [ends_of_ok hblock] at h
    exact ⟨r, Or.inl ⟨flow, hblock⟩, h.symm⟩
  | error stop r =>
    rw [ends_of_error hblock] at h
    cases stop with
    | fault failure => exact ⟨r, Or.inr ⟨failure, hblock⟩, h.symm⟩
    | breach v => exact h.elim
    | unending => exact h.elim

/-- The steps of a run are those of its block and the taking of the answer. -/
theorem told_run (n : Nat) (scope : ScopeId) (actions : List Action) (p : Program) :
    Told p (runIn n scope actions) ((Request.run n scope actions).steps p) := by
  rw [Request.steps]
  by_cases ho : p.scopes.owns scope = true
  · rw [if_pos ho]
    have hblock : Told p (block n scope actions) _ := run_told.2 n scope actions p 0
    cases hafter : after? (block n scope actions) p with
    | some r =>
      have hr := hblock.final r (after?_eq_some_iff.1 hafter)
      refine hblock.append ⟨hr.symm, trivial⟩ (fun s hs => ?_) fun q hq => ?_
      · rw [List.mem_singleton.1 hs]
        exact .answered
      · obtain ⟨r', hr', rfl⟩ := completes_runIn ho hq
        obtain rfl : r = r' := hr.symm.trans (hblock.final r' hr')
        rfl
    | none =>
      refine hblock.append trivial (fun _ hs => by cases hs) fun q hq => ?_
      obtain ⟨r, hr, -⟩ := completes_runIn ho hq
      rw [after?_eq_some_iff.2 hr] at hafter
      cases hafter
  · rw [if_neg ho]
    exact .nil fun q hq => runIn_of_not_owns ho hq

theorem Request.linked_steps (request : Request) (p : Program) :
    Linked p (request.steps p) ∧ (∀ s ∈ request.steps p, Happens s) ∧
      ∀ q, request.served? p = some q → final p (request.steps p) = q := by
  cases request with
  | register native =>
    have h : Told p (registerNative native) _ := told_step fun q hq => .registered hq
    exact ⟨h.linked, h.happens, fun q hq => h.final q (after?_eq_some_iff.1 hq)⟩
  | run n scope actions =>
    have h := told_run n scope actions p
    exact ⟨h.linked, h.happens, fun q hq => h.final q (after?_eq_some_iff.1 hq)⟩

/-- A history leads from state to state without a gap, and each of its steps happens. -/
theorem linked_history (requests : List Request) (p : Program) :
    Linked p (history requests p) ∧ ∀ s ∈ history requests p, Happens s := by
  induction requests generalizing p with
  | nil => exact ⟨trivial, fun _ hs => by cases hs⟩
  | cons request requests ih =>
    obtain ⟨hlinked, hhappens, hfinal⟩ := request.linked_steps p
    unfold history
    cases hserved : request.served? p with
    | none =>
      rw [List.append_nil]
      exact ⟨hlinked, hhappens⟩
    | some q =>
      obtain ⟨hlinked', hhappens'⟩ := ih q
      refine ⟨linked_append.2 ⟨hlinked, (hfinal q hserved).symm ▸ hlinked'⟩, fun s hs => ?_⟩
      rcases List.mem_append.1 hs with hs | hs
      · exact hhappens s hs
      · exact hhappens' s hs

/-- A segment of a history leads on from where the steps before it lead. -/
theorem linked_segment {requests : List Request} {earlier between later : List Step}
    (h : history requests p = earlier ++ between ++ later) : Linked (final p earlier) between := by
  have hlinked := (linked_history requests p).1
  rw [h] at hlinked
  exact (linked_append.1 (linked_append.1 hlinked).1).2

/-- The program that serving all requests leaves behind, if each comes to an end. -/
def servedAll? (requests : List Request) (p : Program) : Option Program :=
  requests.foldlM (fun p request => request.served? p) p

theorem servedAll?_append {requests more : List Request} (h : servedAll? requests p = some q) :
    servedAll? (requests ++ more) p = servedAll? more q := by
  unfold servedAll? at h ⊢
  rw [List.foldlM_append, h]
  rfl

/-- What each request keeps, all of them keep. -/
theorem servedAll?_induction {I : Program → Prop} {requests : List Request}
    (hstep : ∀ request ∈ requests, ∀ p q, I p → request.served? p = some q → I q) (hp : I p)
    (h : servedAll? requests p = some q) : I q := by
  induction requests generalizing p with
  | nil =>
    cases h
    exact hp
  | cons request requests ih =>
    unfold servedAll? at h
    rw [List.foldlM_cons] at h
    obtain ⟨r, hr, hrest⟩ := Option.bind_eq_some_iff.1 h
    exact ih (fun other hother => hstep other (List.mem_cons_of_mem _ hother))
      (hstep request List.mem_cons_self p r hp hr) hrest

/-- A history leads to the program that its requests leave behind. -/
theorem final_history {requests : List Request} (h : servedAll? requests p = some q) :
    final p (history requests p) = q := by
  induction requests generalizing p with
  | nil => exact Option.some.inj h
  | cons request requests ih =>
    unfold servedAll? at h
    rw [List.foldlM_cons] at h
    obtain ⟨r, hr, hrest⟩ := Option.bind_eq_some_iff.1 h
    unfold history
    rw [hr, final_append, (request.linked_steps p).2.2 r hr]
    exact ih hrest

/-- Every program that can be reached is what requests leave behind of a new one, and so, by
`final_history`, the last state of a history. -/
theorem Reachable.exists_requests (h : Reachable p) :
    ∃ arena tree host mode sink requests, tree ≠ .shared ∧ Host.MakesNoMethod host ∧
      (∀ request ∈ requests, Request.methodFree request = true) ∧
      servedAll? requests (.new arena tree host mode sink) = some p := by
  induction h with
  | @new arena tree host mode sink htree hhost =>
    exact ⟨arena, tree, host, mode, sink, [], htree, hhost, fun _ hr => (by cases hr), rfl⟩
  | @step p q _ hs ih =>
    obtain ⟨arena, tree, host, mode, sink, requests, htree, hhost, hfree, hp⟩ := ih
    have hlast : ∃ request : Request, request.methodFree = true ∧ request.served? p = some q := by
      cases hs with
      | @registerNative native h => exact ⟨.register native, rfl, after?_eq_some_iff.2 h⟩
      | @run n scope actions hfree h =>
        exact ⟨.run n scope actions, hfree, after?_eq_some_iff.2 h⟩
    obtain ⟨request, hrequest, hq⟩ := hlast
    refine ⟨arena, tree, host, mode, sink, requests ++ [request], htree, hhost, ?_, ?_⟩
    · intro other hother
      rcases List.mem_append.1 hother with hother | hother
      · exact hfree other hother
      · exact List.mem_singleton.1 hother ▸ hrequest
    · rw [servedAll?_append hp, servedAll?, List.foldlM_cons, hq]
      rfl

end ActionMachine.Exec
