import ActionMachine.Proofs.Flatness
import ActionMachine.Proofs.SoundHistory

/-
  Modes that bound the depth of calls. A run that is given more calls to nest than it uses does not
  change (`run_agrees`), and no run uses more than the mode allows. So a run in such a mode has an
  end, which no bound on the nesting of calls from the limit on has a part in. The depth that a
  program counts is the number of calls that have begun and not ended, and a call is refused for its
  depth exactly at the limit.
-/

namespace ActionMachine.Exec

variable {scope : ScopeId} {p q : Program} {a : Action}

/-! ## More calls to nest -/

/-- From `p`, `y` does what `x` does, unless `x` has no end. -/
def Agrees {ε α : Type} (p : Program) (x y : Exec ε α) : Prop :=
  (∃ q, x p = .error .unending q) ∨ y p = x p

namespace Agrees

variable {ε δ α β : Type} {x y : Exec ε α}

theorem refl (p : Program) (x : Exec ε α) : Agrees p x x := Or.inr rfl

theorem bind {f g : α → Exec ε β} (h : Agrees p x y)
    (hf : ∀ b q, x p = .ok b q → Agrees q (f b) (g b)) : Agrees p (x >>= f) (y >>= g) := by
  rcases h with ⟨q, hq⟩ | h
  · exact Or.inl ⟨q, bind_of_error hq⟩
  · cases hx : x p with
    | ok b q =>
      rw [hx] at h
      unfold Agrees
      rw [bind_of_ok hx, bind_of_ok h]
      exact hf b q hx
    | error s q =>
      rw [hx] at h
      exact Or.inr ((bind_of_error h).trans (bind_of_error hx).symm)

theorem settle (h : Agrees p x y) :
    Agrees p (Exec.settle x : Exec δ (Except ε α)) (Exec.settle y) := by
  unfold Agrees Exec.settle
  rcases h with ⟨q, hq⟩ | h
  · rw [hq]
    exact Or.inl ⟨q, rfl⟩
  · rw [h]
    exact Or.inr rfl

theorem report {x y : Exec Fault α} (h : Agrees p x y) (index : Nat) (action : String) :
    Agrees p (Exec.report index action x) (Exec.report index action y) := by
  unfold Agrees Exec.report
  rcases h with ⟨q, hq⟩ | h
  · rw [hq]
    exact Or.inl ⟨q, rfl⟩
  · rw [h]
    exact Or.inr rfl

theorem inside {x y : Exec Failure Flow} (h : Agrees p x y) (place : Place) :
    Agrees p (Exec.inside place x) (Exec.inside place y) := by
  unfold Exec.inside
  exact h.settle.bind fun outcome q _ => .refl q _

end Agrees

/-- An action that advances alike goes on alike if the body that it runs does. -/
theorem agrees_attempt {run run' : Body}
    (h : ∀ stage q, advance scope a p = .ok stage q →
      Agrees q (complete run a stage) (complete run' a stage)) :
    Agrees p (attempt run scope a) (attempt run' scope a) := by
  rw [attempt_eq, attempt_eq]
  exact (Agrees.refl p (advance scope a)).bind h

theorem agrees_inCall {run run' : Body} {m : Method} {frame : Frame}
    (h : Agrees p (run frame.scope m.body) (run' frame.scope m.body)) :
    Agrees p (complete run a (.inCall m frame)) (complete run' a (.inCall m frame)) := by
  unfold complete
  exact h.settle.bind fun outcome q _ => .refl q _

/-- A run does the same with more calls to nest. -/
theorem run_agrees :
    (∀ n scope a p, ∀ k, n ≤ k →
      Agrees p (attempt (enter n) scope a) (attempt (enter k) scope a)) ∧
    ∀ n scope as p, ∀ k, n ≤ k → ∀ index,
      Agrees p (performAll (enter n) scope index as) (performAll (enter k) scope index as) := by
  refine run_induction ?nil ?cons ?body ?plain
  case nil =>
    intro n scope p k _ index
    rw [performAll, performAll]
    exact .refl p _
  case cons =>
    intro n scope a as p ha has k hk index
    rw [performAll_cons, performAll_cons]
    refine ((ha k hk).report index a.label).bind fun flow q _ => ?_
    cases flow with
    | next => exact has q k hk (index + 1)
    | ret => exact .refl q _
  case body =>
    intro n scope a as p hbody hL k hk
    refine agrees_attempt fun stage q hstage => ?_
    cases stage with
    | finished flow => exact .refl q _
    | inBody id =>
      cases a with
      | defineNamespace name body =>
        cases hbody
        exact (hL id q k hk 0).inside _
      | defineClass name body =>
        cases hbody
        exact (hL id q k hk 0).inside _
      | _ => cases hbody
    | inCall m frame =>
      obtain ⟨name, arity, rfl, -⟩ := advance_eq_inCall hstage
      cases hbody
  case plain =>
    intro n scope a p hbody hL k hk
    refine agrees_attempt fun stage q _ => ?_
    cases stage with
    | finished flow => exact .refl q _
    | inBody id =>
      cases a with
      | defineNamespace name body => cases hbody
      | defineClass name body => cases hbody
      | _ => exact .refl q _
    | inCall m frame =>
      refine agrees_inCall ?_
      cases n with
      | zero => exact Or.inl ⟨q, rfl⟩
      | succ n =>
        obtain ⟨k, rfl⟩ := Nat.exists_eq_add_of_le' (Nat.lt_of_lt_of_le (Nat.succ_pos n) hk)
        exact hL n rfl frame.scope m.body q k (Nat.le_of_succ_le_succ hk) 0

theorem runIn_agrees {n k : Nat} (hk : n ≤ k) (scope : ScopeId) (actions : List Action)
    (p : Program) : Agrees p (runIn n scope actions) (runIn k scope actions) := by
  refine (Agrees.refl p get).bind fun p' q hget => ?_
  cases p'.scopes.check scope with
  | error cause => exact .refl q _
  | ok id =>
    exact (run_agrees.2 n scope actions q k hk 0).settle.bind fun outcome r _ => .refl r _

/-! ## Flat programs -/

theorem runIn_flat {n : Nat} {actions : List Action} (hp : p.Sound)
    (hfree : Action.allMethodFree actions = true)
    (hflat : Action.AllLiterals (·.isFlat = true) actions) (hhost : p.host.MakesNoReference)
    (hheld : p.Holds Value.Closed) (scope : ScopeId) : Flat n p (runIn n scope actions) := by
  simp only [Flat, runIn, ends_bind, ends_get]
  cases hcheck : p.scopes.check scope with
  | error cause => exact hheld
  | ok id =>
    have hlive : p.scopes.owns scope = true := by
      unfold ScopeTree.check at hcheck
      split at hcheck
      · assumption
      · cases hcheck
    have hanswered : ∀ q : Program, q.Holds Value.Closed →
        ({ q with returned := .undefined } : Program).Holds Value.Closed := fun q hq =>
      ⟨hq.memory, Or.inr (Value.hereditary_closed.simple _ rfl)⟩
    simp only [ends_bind, ends_settle_halts, ends_get, ends_modify]
    refine Ends.imp (run_flat.2 n scope actions p hp hlive hfree hflat hhost hheld 0)
      (fun flow q hq => hanswered q hq) fun s q hs => ?_
    exact hs.imp (fun _ hq => hanswered q hq) fun hover => hover

/-- In a mode with a limit, a run in a program at rest has an end, the same for all bounds from the
limit on. -/
theorem runIn_terminates {limit : Nat} {actions : List Action} (hp : AtRest p)
    (hlimit : p.mode.maxCallDepth = some limit) (hfree : Action.allMethodFree actions = true)
    (hflat : Action.AllLiterals (·.isFlat = true) actions) (hhost : p.host.MakesNoReference)
    (hheld : p.Holds Value.Closed) (scope : ScopeId) :
    (∃ v q, ∀ n, limit ≤ n → runIn n scope actions p = .ok v q) ∨
      ∃ failure q, ∀ n, limit ≤ n → runIn n scope actions p = .error (.fault failure) q := by
  have hends : Flat limit p (runIn limit scope actions) :=
    runIn_flat hp.sound hfree hflat hhost hheld scope
  -- within the limit the run does not run out of calls
  have hfinite : ∀ q, runIn limit scope actions p ≠ .error .unending q := by
    intro q hq
    have hover : Overruns limit p q := hends.of_error hq
    have hdeep := hover.deep
    have hwithin := hover.within limit hlimit
    have hrest := hp.depth
    omega
  have hsame : ∀ n, limit ≤ n → runIn n scope actions p = runIn limit scope actions p := by
    intro n hn
    rcases runIn_agrees hn scope actions p with ⟨q, hq⟩ | h
    · exact absurd hq (hfinite q)
    · exact h
  cases hrun : runIn limit scope actions p with
  | ok v q => exact Or.inl ⟨v, q, fun n hn => (hsame n hn).trans hrun⟩
  | error s q =>
    cases s with
    | fault failure => exact Or.inr ⟨failure, q, fun n hn => (hsame n hn).trans hrun⟩
    | breach v => exact (hends.of_error hrun).elim
    | unending => exact absurd hrun (hfinite q)

/-- The program is at rest and flat. -/
structure Ordered (p : Program) : Prop where
  rest : AtRest p
  held : p.Holds Value.Closed
  host : p.host.MakesNoReference

theorem ordered_new {arena tree : StoreId} {host : Host} {mode : Mode} {sink : Sink}
    (htree : tree ≠ .shared) (hhost : host.MakesNoMethod) (hflat : host.MakesNoReference) :
    Ordered (.new arena tree host mode sink) :=
  ⟨⟨Program.sound_new htree hhost, rfl, rfl⟩,
    .new (Value.hereditary_closed.simple _ rfl), hflat⟩

theorem Ordered.served {request : Request} (hp : Ordered p) (hfree : request.methodFree = true)
    (hflat : request.EachLiteral (·.isFlat = true)) (h : request.served? p = some q) :
    Ordered q ∧ q.mode = p.mode := by
  have hserves : Serves p q := by
    cases request with
    | register native => exact .registerNative (after?_eq_some_iff.1 h)
    | run n scope actions => exact .run hfree (after?_eq_some_iff.1 h)
  have hheld : q.Holds Value.Closed := by
    cases request with
    | register native =>
      refine Ends.of_completes (K := fun q => q.Holds Value.Closed) (E := fun _ => False) ?_
        (after?_eq_some_iff.1 h)
      refine (registerNative_bound hp.rest.sound.tree native).imp (fun _ q hq => ?_)
        fun s q hs => ?_
      · exact hq.holds hp.held (Or.inr (Value.hereditary_closed.simple _ rfl))
      · refine hs.imp (fun _ hq => ?_) False.elim
        subst hq
        exact hp.held
    | run n scope actions =>
      exact Ends.of_completes (runIn_flat hp.rest.sound hfree hflat hp.host hp.held scope)
        (after?_eq_some_iff.1 h)
  obtain ⟨⟨current, hk⟩, -⟩ := hserves.keeps hp.rest
  exact ⟨⟨hserves.atRest hp.rest, hheld, hk.grows.host ▸ hp.host⟩, hk.grows.mode⟩

theorem Ordered.servedAll {requests : List Request} (hp : Ordered p)
    (hrequests : ∀ request ∈ requests, request.methodFree = true ∧
      request.EachLiteral (·.isFlat = true))
    (h : servedAll? requests p = some q) : Ordered q ∧ q.mode = p.mode := by
  refine servedAll?_induction (I := fun q => Ordered q ∧ q.mode = p.mode) ?_ ⟨hp, rfl⟩ h
  rintro request hmem r t ⟨hr, hmode⟩ hserved
  obtain ⟨hfree, hflat⟩ := hrequests request hmem
  obtain ⟨ht, hsame⟩ := hr.served hfree hflat hserved
  exact ⟨ht, hsame.trans hmode⟩

/-! ## The depth of calls -/

/-- The body of a method began to run. -/
def Event.isCall : Event → Bool
  | .advanced _ _ (.inCall _ _) => true
  | _ => false

/-- A call of a method ended. -/
def Event.isReturn : Event → Bool
  | .left _ _ => true
  | _ => false

/-- The number of calls that have begun. -/
def callsBegun (steps : List Step) : Nat := steps.countP (·.event.isCall)

/-- The number of calls that have ended. -/
def callsEnded (steps : List Step) : Nat := steps.countP (·.event.isReturn)

/-- What a step does to the depth of calls, which stays within the limit of the mode. -/
structure Step.Counted (s : Step) : Prop where
  depth : s.after.callDepth + (if s.event.isReturn then 1 else 0) =
    s.before.callDepth + (if s.event.isCall then 1 else 0)
  mode : s.after.mode = s.before.mode
  within : ∀ limit, s.before.mode.maxCallDepth = some limit → s.before.callDepth ≤ limit →
    s.after.callDepth ≤ limit

theorem Step.Counted.of_same {event : Event} (hcall : event.isCall = false)
    (hreturn : event.isReturn = false) (hdepth : q.callDepth = p.callDepth)
    (hmode : q.mode = p.mode) : Step.Counted ⟨p, event, q⟩ := by
  refine ⟨?_, hmode, fun limit _ hle => hdepth ▸ hle⟩
  simp only [hcall, hreturn, hdepth]

theorem Step.Sound.counted {s : Step} (hs : s.Sound) (h : Happens s) : s.Counted := by
  have hp := hs.before.sound
  cases h with
  | @registered native p q h =>
    refine .of_same rfl rfl ?_ ?_ <;>
      rcases h with ⟨target, h⟩ | ⟨cause, h⟩
    · exact ((registerNative_ends hp native).of_ok h).1.grows.depth
    · exact congrArg _ ((registerNative_ends hp native).of_error h)
    · exact ((registerNative_ends hp native).of_ok h).1.grows.mode
    · exact congrArg _ ((registerNative_ends hp native).of_error h)
  | @advanced scope a stage p q h =>
    obtain ⟨ho, hfree⟩ := hs.admissible
    cases (advance_ends hp ho).of_ok h with
    | finished h =>
      have hgrows := (h.keeps hp ho hfree).grows
      exact .of_same rfl rfl hgrows.depth hgrows.mode
    | inBody _ h =>
      have hgrows := (h.keeps 0).grows
      exact .of_same rfl rfl hgrows.depth hgrows.mode
    | inCall _ _ h =>
      have hdepth : q.callDepth = p.callDepth + 1 := h.keeps.grows.depth
      refine ⟨hdepth, h.keeps.grows.mode, fun limit hlimit _ => ?_⟩
      have hbelow : p.callDepth < limit := h.limit limit hlimit
      show q.callDepth ≤ limit
      omega
  | @refused scope a cause p q h =>
    obtain ⟨ho, hfree⟩ := hs.admissible
    have hrefuses : Refuses p a q := (advance_ends hp ho).of_error h
    have hgrows := (hrefuses.keeps hp hfree 0).grows
    exact .of_same rfl rfl hgrows.depth hgrows.mode
  | @left m frame outcome p q h =>
    have hpositive : 0 < p.callDepth := hs.admissible
    obtain ⟨hdepth, -, hmode, -⟩ := restores_of_closeCall h
    refine ⟨?_, hmode, fun limit _ hle => ?_⟩
    · show q.callDepth + 1 = p.callDepth
      omega
    · have hle : p.callDepth ≤ limit := hle
      show q.callDepth ≤ limit
      omega
  | answered => exact .of_same rfl rfl rfl rfl

/-- Along linked steps the depth grows by the calls that begin and falls by those that end. -/
theorem Linked.counted {steps : List Step} (hlinked : Linked p steps)
    (hcounted : ∀ s ∈ steps, s.Counted) :
    (final p steps).callDepth + callsEnded steps = p.callDepth + callsBegun steps ∧
      (final p steps).mode = p.mode ∧
      ∀ limit, p.mode.maxCallDepth = some limit → p.callDepth ≤ limit →
        (final p steps).callDepth ≤ limit := by
  induction steps generalizing p with
  | nil => exact ⟨rfl, rfl, fun _ _ hle => hle⟩
  | cons s steps ih =>
    obtain ⟨rfl, hlinked⟩ := hlinked
    obtain ⟨hdepth, hmode, hwithin⟩ := hcounted s List.mem_cons_self
    obtain ⟨hrest, hmode', hwithin'⟩ :=
      ih hlinked fun t ht => hcounted t (List.mem_cons_of_mem _ ht)
    have hended : callsEnded (s :: steps) =
        callsEnded steps + if s.event.isReturn then 1 else 0 := List.countP_cons
    have hbegun : callsBegun (s :: steps) =
        callsBegun steps + if s.event.isCall then 1 else 0 := List.countP_cons
    have hfinal : final s.before (s :: steps) = final s.after steps := rfl
    refine ⟨?_, hmode'.trans hmode, fun limit hlimit hle => ?_⟩
    · rw [hfinal, hended, hbegun]
      omega
    · exact hwithin' limit (hmode ▸ hlimit) (hwithin limit hlimit hle)

/-! ## Refused calls -/

theorem code_follow {read : Reader} {v : Value} {cause : Fault}
    (h : read.follow v = .error cause) : cause.code = .nullReferenceOperation := by
  have hwithin : ∀ hops v, read.followWithin hops v = .error cause →
      cause.code = .nullReferenceOperation := by
    intro hops
    induction hops with
    | zero =>
      intro v h
      cases h
      rfl
    | succ hops ih =>
      intro v h
      unfold Reader.followWithin at h
      split at h
      · split at h
        · exact ih _ h
        · cases h
          rfl
      · cases h
        rfl
      · cases h
  exact hwithin _ v h

theorem code_owned {read : Reader} {op : String} {v : Value} {cause : Fault}
    (h : read.owned op v = .error cause) : cause.code ≠ .recursionLimitExceeded := by
  rcases bind_eq_error_iff.1 h with h | ⟨w, -, h⟩
  · rw [code_follow h]
    decide
  · split at h <;> cases h
    exact fun hcode => by cases hcode

theorem code_defaultValues {memory : Memory} {missing cause : Fault} {slots : List Slot}
    (hmissing : missing.code ≠ .recursionLimitExceeded)
    (h : defaultValues memory missing slots = .error cause) :
    cause.code ≠ .recursionLimitExceeded := by
  induction slots with
  | nil => cases h
  | cons slot slots ih =>
    rcases bind_eq_error_iff.1 h with h | ⟨w, -, h⟩
    · unfold Memory.fetch at h
      split at h <;> cases h
      exact fun hcode => by cases hcode
    · split at h
      · cases h
        exact hmissing
      · rcases bind_eq_error_iff.1 h with h | ⟨ws, -, h⟩
        · exact ih h
        · cases h

/-- What the arguments are refused for has nothing to do with the depth of calls. -/
theorem code_argumentValues {m : Method} {arity base : Nat} {cause : Fault}
    (h : argumentValues m arity base p = .error (.fault cause) q) :
    cause.code ≠ .recursionLimitExceeded := by
  have hends : Ends (argumentValues m arity base) p (fun _ _ => True) fun s _ =>
      ∀ cause, s = .fault cause → cause.code ≠ .recursionLimitExceeded := by
    simp only [argumentValues, ends_bind, ends_get, ends_liftFault, ends_pure]
    refine ⟨fun given _ => ⟨fun _ _ => trivial, fun f hf cause hcause => ?_⟩,
      fun f hf cause hcause => ?_⟩
    · cases hcause
      exact code_defaultValues (fun hcode => by cases hcode) hf
    · cases hcause
      obtain ⟨v, -, hv⟩ := exists_of_mapM_eq_error hf
      exact code_owned hv
  exact hends.of_error h cause rfl

/-- A call is refused for its depth exactly at the limit, before anything else is done. -/
theorem openCall_at_limit {m : Method} {arity limit : Nat} (harity : arity ≤ m.arity)
    (hlimit : p.mode.maxCallDepth = some limit) (hdepth : p.callDepth = limit) :
    openCall m arity p = .error (.fault (.recursionLimit limit)) p := by
  apply Ends.eq_error
  rw [ends_openCall]
  refine ⟨fun hmany => absurd harity (Nat.not_le_of_lt hmany),
    fun _ => ⟨fun limit' hlimit' _ => ?_, fun hlow => ?_⟩⟩
  · rw [hlimit] at hlimit'
    cases hlimit'
    exact ⟨rfl, rfl⟩
  · exact absurd hdepth (Nat.ne_of_lt (hlow limit hlimit))

theorem openCall_below_limit {m : Method} {arity limit : Nat} {cause : Fault} (hp : p.Sound)
    (hm : p.scopes.Admits m) (hoperands : arity ≤ p.memory.stack.size) (harity : arity ≤ m.arity)
    (hlimit : p.mode.maxCallDepth = some limit) (hdepth : p.callDepth < limit)
    (h : openCall m arity p = .error (.fault cause) q) :
    cause.code ≠ .recursionLimitExceeded := by
  have hlow : ∀ limit', p.mode.maxCallDepth = some limit' → p.callDepth < limit' := by
    intro limit' hlimit'
    rw [hlimit] at hlimit'
    cases hlimit'
    exact hdepth
  have hends : Ends (openCall m arity) p (fun _ _ => True) fun s _ =>
      ∀ cause, s = .fault cause → cause.code ≠ .recursionLimitExceeded := by
    rw [ends_openCall]
    refine ⟨fun hmany => absurd harity (Nat.not_le_of_lt hmany),
      fun _ => ⟨fun limit' hlimit' hle => absurd (hlow limit' hlimit') (Nat.not_lt_of_le hle),
        fun _ => ?_⟩⟩
    cases hrun : argumentValues m arity (p.memory.stack.size - arity) p with
    | ok values r =>
      obtain rfl := (argumentValues_same arity _).of_ok hrun
      exact (openChecked_entered hp hm hoperands hlow hrun).imp (fun _ _ _ => trivial)
        fun _ _ hnone => hnone.elim
    | error s r =>
      rw [ends_openChecked_of_error hoperands hrun]
      rintro cause rfl
      exact code_argumentValues hrun
  exact hends.of_error h cause rfl

theorem advance_call {name : Name} {arity : Nat} {m : Method}
    (hoperands : arity ≤ p.memory.stack.size)
    (hcallee : callee scope name p = .ok (.method m) p) :
    advance scope (.call name arity) p =
      (openCall m arity >>= fun frame => pure (Stage.inCall m frame)) p := by
  rw [advance_eq_dispatch (a := .call name arity) hoperands rfl, dispatch, bind_of_ok hcallee]

/-- A call of a method is refused for its depth exactly at the limit, and then nothing has
changed. -/
theorem advance_call_at_limit {name : Name} {arity limit : Nat} {m : Method} (hp : p.Sound)
    (hlimit : p.mode.maxCallDepth = some limit) (hwithin : p.callDepth ≤ limit)
    (hcallee : callee scope name p = .ok (.method m) p) (harity : arity ≤ m.arity)
    (hoperands : arity ≤ p.memory.stack.size) :
    (p.callDepth = limit →
      advance scope (.call name arity) p = .error (.fault (.recursionLimit limit)) p) ∧
    ∀ cause q, advance scope (.call name arity) p = .error (.fault cause) q →
      cause.code = .recursionLimitExceeded → p.callDepth = limit := by
  rw [advance_call hoperands hcallee]
  refine ⟨fun hdepth => bind_of_error (openCall_at_limit harity hlimit hdepth),
    fun cause q h hcode => ?_⟩
  have hm := ((callee_cases scope p name).of_ok hcallee).2.admits hp
  rcases Nat.lt_or_eq_of_le hwithin with hlow | hdepth
  · cases hopen : openCall m arity p with
    | ok frame r =>
      rw [bind_of_ok hopen] at h
      cases h
    | error s r =>
      rw [bind_of_error hopen] at h
      cases h
      exact absurd hcode (openCall_below_limit hp hm hoperands harity hlimit hlow hopen)
  · exact hdepth

end ActionMachine.Exec

namespace ActionMachine

open Exec

/-- In a mode with a limit every run has an end: if no request and no native function brings a
method, or a reference inside a list or object, then each further run has one result or failure for
all bounds on the nesting of calls from the limit on. In each state on the way the depth is the
number of calls that have begun and not ended, and at most the limit. A call of a method that finds
its operands, and no more than the method has parameters, is refused for its depth exactly at the
limit. -/
theorem bounded_runs_end {arena tree : StoreId} {host : Host} {mode : Mode} {sink : Sink}
    {limit : Nat} (htree : tree ≠ .shared) (hhost : host.MakesNoMethod)
    (hflat : host.MakesNoReference) (hlimit : mode.maxCallDepth = some limit)
    {requests : List Request}
    (hrequests : ∀ request ∈ requests, request.methodFree = true ∧
      request.EachLiteral (·.isFlat = true)) :
    (∀ start, servedAll? requests (.new arena tree host mode sink) = some start →
      ∀ scope actions, Action.allMethodFree actions = true →
        Action.AllLiterals (·.isFlat = true) actions →
        (∃ v q, ∀ n, limit ≤ n → runIn n scope actions start = .ok v q) ∨
          ∃ failure q, ∀ n, limit ≤ n →
            runIn n scope actions start = .error (.fault failure) q) ∧
      ∀ earlier later, history requests (.new arena tree host mode sink) = earlier ++ later →
        ∀ p, final (.new arena tree host mode sink) earlier = p →
          p.callDepth + callsEnded earlier = callsBegun earlier ∧ p.callDepth ≤ limit ∧
            ∀ scope name arity m, callee scope name p = .ok (.method m) p → arity ≤ m.arity →
              arity ≤ p.memory.stack.size →
              (p.callDepth = limit → advance scope (.call name arity) p =
                .error (.fault (.recursionLimit limit)) p) ∧
              ∀ cause q, advance scope (.call name arity) p = .error (.fault cause) q →
                cause.code = .recursionLimitExceeded → p.callDepth = limit := by
  have hnew : Ordered (.new arena tree host mode sink) := ordered_new htree hhost hflat
  refine ⟨fun start hstart scope actions hfree hliterals => ?_, ?_⟩
  · obtain ⟨hordered, hmode⟩ := hnew.servedAll hrequests hstart
    exact runIn_terminates hordered.rest (hmode ▸ hlimit) hfree hliterals hordered.host
      hordered.held scope
  · rintro earlier later hsteps p rfl
    have hsteps : history requests (.new arena tree host mode sink) = [] ++ earlier ++ later :=
      hsteps
    have hsegment : Segment (.new arena tree host mode sink) earlier :=
      segment_of_history hnew.rest.healthy (fun request hrequest => (hrequests request hrequest).1)
        hsteps
    obtain ⟨hdepth, hmode, hwithin⟩ := hsegment.linked.counted fun s hs =>
      (hsegment.sound s hs).counted (hsegment.happens s hs)
    have hbound := hwithin limit hlimit (Nat.zero_le _)
    refine ⟨hdepth.trans (Nat.zero_add _), hbound,
      fun scope name arity m hcallee harity hoperands => ?_⟩
    exact advance_call_at_limit (hsegment.start.final hsegment.sound).sound (hmode ▸ hlimit) hbound
      hcallee harity hoperands

/-- A method that calls itself is defined and called. -/
def endlessRecursion : List Action := [.defineMethod "f" [] [.call "f" 0], .call "f" 0]

/-- It ends in a program that prints nothing, and can be called again. -/
theorem endlessRecursion_ends :
    (servedAll? [.run 64 .global endlessRecursion] .silent).isSome = true ∧
      (∀ start, servedAll? [.run 64 .global endlessRecursion] .silent = some start →
        (∃ v q, ∀ n, 64 ≤ n → runIn n .global [.call "f" 0] start = .ok v q) ∨
          ∃ failure q, ∀ n, 64 ≤ n →
            runIn n .global [.call "f" 0] start = .error (.fault failure) q) ∧
      (final .silent (history [.run 64 .global endlessRecursion] .silent)).callDepth ≤ 64 := by
  have hrequests : ∀ request ∈ [Request.run 64 .global endlessRecursion],
      request.methodFree = true ∧ request.EachLiteral (·.isFlat = true) := by
    intro request hmem
    cases List.mem_singleton.1 hmem
    exact ⟨rfl, ⟨nofun, trivial, trivial⟩, trivial, trivial⟩
  have hends := @bounded_runs_end ⟨1⟩ ⟨2⟩ Native.catalogue .silent Mode.silent.sink 64
    (by decide) Native.catalogue_makesNoMethod Native.catalogue_makesNoReference rfl _ hrequests
  refine ⟨by decide +kernel, fun start hstart => ?_, ?_⟩
  · exact hends.1 start hstart .global [.call "f" 0] rfl ⟨trivial, trivial⟩
  · exact (hends.2 _ [] (List.append_nil _).symm _ rfl).2.1

/-- Methods that call one another, and the first of them. The last one calls the first with an
argument that is not there. -/
def shortOfOperands : List Action :=
  let name (i : Nat) : Name := "m" ++ toString i
  ((List.range 64).map fun i => .defineMethod (name i)
    (if i = 0 then [⟨"x", some (.int 0)⟩] else [])
    [if i = 63 then .call (name 0) 1 else .call (name (i + 1)) 0]) ++ [.call (name 0) 0]

/-- The step refuses a call of a method at depth 64 for its operands. -/
def Exec.Step.isShort (s : Step) : Bool :=
  match s.event with
  | .refused scope (.call name arity) =>
    match callee scope name s.before, advance scope (.call name arity) s.before with
    | .ok (.method m) _, .error (.fault cause) _ =>
      s.before.callDepth = 64 && arity ≤ m.arity && cause.code = .stackUnderflow
    | _, _ => false
  | _ => false

theorem Exec.Step.isShort_eq_true {s : Step} (h : s.isShort = true) :
    ∃ scope name arity m cause q, s.event = .refused scope (.call name arity) ∧
      callee scope name s.before = .ok (.method m) s.before ∧
      advance scope (.call name arity) s.before = .error (.fault cause) q ∧
      s.before.callDepth = 64 ∧ arity ≤ m.arity ∧ cause.code = .stackUnderflow := by
  unfold isShort at h
  split at h
  · rename_i scope name arity hevent
    split at h
    · rename_i m r cause q hcallee hadvance
      obtain rfl := (callee_same scope name).of_ok hcallee
      simp only [Bool.and_eq_true, decide_eq_true_eq] at h
      exact ⟨scope, name, arity, m, cause, q, hevent, hcallee, hadvance, h.1.1, h.1.2, h.2⟩
    · cases h
  · cases h

/-- At the limit a call whose operands are missing is refused for them and not for its depth. -/
theorem shortOfOperands_at_limit :
    Program.silent.mode.maxCallDepth = some 64 ∧
      ∃ s ∈ history [.run 64 .global shortOfOperands] .silent,
        ∃ scope name arity m cause q, s.event = .refused scope (.call name arity) ∧
          callee scope name s.before = .ok (.method m) s.before ∧
          advance scope (.call name arity) s.before = .error (.fault cause) q ∧
          s.before.callDepth = 64 ∧ arity ≤ m.arity ∧ cause.code = .stackUnderflow := by
  have hshort : (history [.run 64 .global shortOfOperands] .silent).any Step.isShort = true := by
    decide +kernel
  obtain ⟨s, hs, h⟩ := List.any_eq_true.1 hshort
  exact ⟨rfl, s, hs, s.isShort_eq_true h⟩

end ActionMachine
