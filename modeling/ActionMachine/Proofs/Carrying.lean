import ActionMachine.Proofs.Requests

/-
  Relations carried through runs. A relation between the program before and after holds of whole
  runs if it is reflexive and transitive, holds of every effect of a single action, and passes from
  the body of a namespace or class to the action that opens it and from the body of a method to the
  call. `run_carried` is the induction; what it needs is one `Carried` for each relation. The
  actions may be restricted: then the result speaks of the runs that meet only such actions.
-/

namespace ActionMachine.Exec

variable {scope : ScopeId} {p q : Program} {a : Action}

/-- The relation `R scope` passes from step to step, as long as all actions are allowed. -/
structure Carried (allowed : Action → Program → Prop) (R : ScopeId → Program → Program → Prop) :
    Prop where
  refl : ∀ (scope : ScopeId) (p : Program), R scope p p
  trans : ∀ {scope : ScopeId} {p q r : Program}, R scope p q → R scope q r → R scope p r
  performs : ∀ {scope : ScopeId} {p q : Program} {a : Action} {flow : Flow}, p.Sound →
    p.scopes.owns scope = true → allowed a p → Performs scope p a flow q → R scope p q
  refuses : ∀ {scope : ScopeId} {p q : Program} {a : Action}, p.Sound → allowed a p →
    Refuses p a q → R scope p q
  body : ∀ {scope id : ScopeId} {p q r : Program} {a : Action}, a.body?.isSome = true →
    allowed a p → Opens scope p id q → R id q r → R scope p r
  call : ∀ {scope : ScopeId} {p q r : Program} {name : Name} {arity : Nat} {m : Method}
    {frame : Frame}, p.Sound → p.scopes.Admits m → arity ≤ p.memory.stack.size →
    allowed (.call name arity) p → openCall m arity p = .ok frame q → Entered m arity p frame q →
    Keeps frame.scope.index q r → R frame.scope q r →
      R scope p (closed p r frame.base) ∧
        R scope p ((closed p r frame.base).mapStack (·.push (callResult r.returned)))

/-- The run meets only actions that are allowed. -/
def MeetsOnly (allowed : Action → Program → Prop) (n : Nat) (scope : ScopeId) (as : List Action)
    (p : Program) : Prop :=
  ∀ k s a q, Meets n scope as p k s a q → allowed a q

/-- However the computation comes to its end, the relation holds of its start and its end. -/
def Relates {ε α : Type} (R : Program → Program → Prop) (p : Program) (x : Exec ε α) : Prop :=
  Ends x p (fun _ q => R p q) (Halts (fun _ q => R p q) fun _ => True)

theorem Meets.weaken {n k : Nat} {s : ScopeId} {b : Action} {as : List Action}
    (h : Meets n scope [a] p k s b q) : Meets n scope (a :: as) p k s b q := by
  cases h with
  | here => exact .here
  | later _ hm => cases hm
  | inNamespace h hm => exact .inNamespace h hm
  | inClass h hm => exact .inClass h hm
  | inCall harity hcallee hopen hm => exact .inCall harity hcallee hopen hm

/-- A block whose actions open no body and call nothing meets no other action. -/
theorem Meets.mem_of_flat {n k : Nat} {s : ScopeId} {b : Action} {as : List Action}
    (h : Meets n scope as p k s b q)
    (hflat : ∀ a ∈ as, a.body? = none ∧ ∀ name arity, a ≠ .call name arity) : b ∈ as := by
  induction h with
  | here => exact List.mem_cons_self
  | later _ _ ih =>
    exact List.mem_cons_of_mem _ (ih fun a ha => hflat a (List.mem_cons_of_mem _ ha))
  | inNamespace => cases (hflat _ List.mem_cons_self).1
  | inClass => cases (hflat _ List.mem_cons_self).1
  | inCall => exact absurd rfl ((hflat _ List.mem_cons_self).2 _ _)

theorem Callee.run_eq {name : Name} {v : Value} (h : Callee scope p name v) :
    callee scope name p = .ok v p := by
  obtain ⟨target, w, htarget, hw, hv⟩ := h
  apply Ends.eq_ok
  simp only [callee, ends_bind, ends_resolve, ends_get, ends_liftFault, htarget,
    Memory.fetch_eq_ok_iff.2 hw, hv, Except.ok.injEq, forall_eq', reduceCtorEq, false_implies,
    implies_true, and_true]

variable {allowed : Action → Program → Prop} {R : ScopeId → Program → Program → Prop}

/-- A call carries the relation if its body does. -/
theorem Carried.callMethod (h : Carried allowed R) {run : Body} {name : Name} {m : Method}
    {arity : Nat} (hp : p.Sound) (hm : p.scopes.Admits m) (harity : arity ≤ p.memory.stack.size)
    (hallowed : allowed (.call name arity) p)
    (hbody : ∀ frame q, openCall m arity p = .ok frame q → Entered m arity p frame q →
      Relates (fun q r => Keeps frame.scope.index q r ∧ R frame.scope q r) q
        (run frame.scope m.body)) :
    Relates (R scope) p (callMethod run m arity) := by
  simp only [Relates, Exec.callMethod, ends_bind]
  refine (openCall_ends hp hm harity).with_run.imp (fun frame q hq => ?_) fun s q hs => ?_
  · obtain ⟨hopen, hq⟩ := hq
    rw [ends_settle_halts]
    refine Ends.imp (hbody frame q hopen hq) (fun flow r hr => ?_) fun s r hs => ?_
    · rw [ends_closeCall hq hp hr.1]
      exact (h.call hp hm harity hallowed hopen hq hr.1 hr.2).2
    · refine hs.imp (fun _ hr => ?_) fun he => he
      rw [ends_closeCall hq hp hr.1]
      exact (h.call hp hm harity hallowed hopen hq hr.1 hr.2).1
  · refine hs.2.imp (fun _ hq => ?_) False.elim
    subst hq
    exact h.refl scope q

/-- The body of a namespace or class carries the relation to the action that opens it. -/
theorem Carried.inside (h : Carried allowed R) {id : ScopeId} {place : Place}
    {x : Exec Failure Flow} (hbody : a.body?.isSome = true) (hallowed : allowed a p)
    (ho : Opens scope p id q) (hx : Relates (R id) q x) :
    Ends (inside place x) q (fun _ r => R scope p r) (Halts (fun _ r => R scope p r)
      fun _ => True) := by
  simp only [ends_inside, halts_map]
  refine Ends.imp hx (fun _ r hr => h.body hbody hallowed ho hr) fun s r hs => ?_
  exact hs.imp (fun _ hr => h.body hbody hallowed ho hr) fun he => he

/-- An action that opens a scope for a body carries the relation if the body does. -/
theorem Carried.opening (h : Carried allowed R) {x : Exec Fault ScopeId} {place : ScopeId → Place}
    {body : ScopeId → Exec Failure Flow} {u : Program} (hbody : a.body?.isSome = true)
    (hallowed : allowed a p)
    (hx : Ends x p (Opens scope p) (Halts (fun _ q => q = u) fun _ => False))
    (hu : R scope p u)
    (hrun : ∀ id q, x p = .ok id q → Opens scope p id q → Relates (R id) q (body id)) :
    Relates (R scope) p (x >>= fun id => Exec.inside (place id) (body id)) := by
  rw [Relates, ends_bind]
  refine hx.with_run.imp (fun id q hq => ?_) fun s q hs => ?_
  · exact h.inside hbody hallowed hq.2 (hrun id q hq.1 hq.2)
  · refine hs.2.imp (fun _ hq => ?_) False.elim
    subst hq
    exact hu

/-- A block carries the relation if its first action and the others do. -/
theorem Carried.cons (h : Carried allowed R) {n index : Nat} {as : List Action}
    (hsafe : Safe n scope.index p (attempt (enter n) scope a))
    (hfirst : Relates (R scope) p (attempt (enter n) scope a))
    (hrest : ∀ q, attempt (enter n) scope a p = .ok .next q → Keeps scope.index p q →
      Relates (R scope) q (performAll (enter n) scope (index + 1) as)) :
    Relates (R scope) p (performAll (enter n) scope index (a :: as)) := by
  rw [performAll_cons]
  simp only [Relates, ends_bind, ends_report, halts_map]
  refine (Ends.and hsafe hfirst).with_run.imp (fun flow q hq => ?_) fun s q hs => hs.2.2
  obtain ⟨hrun, hk, hR⟩ := hq
  cases flow with
  | next =>
    refine Ends.imp (hrest q hrun hk) (fun _ r hr => h.trans hR hr) fun s r hs => ?_
    exact hs.imp (fun _ hr => h.trans hR hr) fun he => he
  | ret => exact hR

/-- What a run from a sound state relates, it also keeps sound. -/
theorem Relates.and_keeps {n : Nat} {as : List Action} {S : Program → Program → Prop}
    (h : ∀ index, Relates S p (performAll (enter n) scope index as)) (hp : p.Sound)
    (ho : p.scopes.owns scope = true) (hfree : Action.allMethodFree as = true) (index : Nat) :
    Relates (fun p q => Keeps scope.index p q ∧ S p q) p (performAll (enter n) scope index as) := by
  refine (Ends.and (run_safe.2 n scope as p hp ho hfree index) (h index)).imp (fun _ r hr => hr)
    fun s r hs => ?_
  cases s with
  | fault cause => exact hs
  | breach v => exact hs.1
  | unending => trivial

/-- Every run that meets only allowed actions carries the relation. -/
theorem run_carried (h : Carried allowed R) :
    (∀ n scope a p, p.Sound → p.scopes.owns scope = true → a.methodFree = true →
      MeetsOnly allowed n scope [a] p → Relates (R scope) p (attempt (enter n) scope a)) ∧
    ∀ n scope as p, p.Sound → p.scopes.owns scope = true → Action.allMethodFree as = true →
      MeetsOnly allowed n scope as p →
        ∀ index, Relates (R scope) p (performAll (enter n) scope index as) := by
  refine run_induction ?nil ?cons ?body ?plain
  case nil =>
    intro n scope p _ _ _ _ index
    rw [performAll]
    exact h.refl scope p
  case cons =>
    intro n scope a as p ha has hp ho hfree honly index
    have hfree : a.methodFree = true ∧ Action.allMethodFree as = true :=
      Bool.and_eq_true_iff.1 hfree
    have hfirst := ha hp ho hfree.1 fun k s b q hm => honly k s b q hm.weaken
    exact h.cons (run_safe.1 n scope a p hp ho hfree.1) hfirst fun q hrun hk =>
      has q hk.sound (hk.grows.tree.owns ho) hfree.2
        (fun k s b r hm => honly k s b r (.later hrun hm)) (index + 1)
  case body =>
    intro n scope a as p hbody hL hp ho hfree honly
    have hallowed : allowed a p := honly n scope a p .here
    have hsome : a.body?.isSome = true := by rw [hbody, Option.isSome_some]
    have hbodyFree : Action.allMethodFree as = true := Action.allMethodFree_body hbody hfree
    refine attempt_ends hp.tree ho (fun _ => ?_) fun cause => h.refl scope p
    cases a with
    | defineNamespace name body =>
      cases hbody
      exact h.opening hsome hallowed (openNamespace_ends hp ho name) (h.refl scope p)
        fun id q hrun hq => hL id q (hq.keeps 0).sound hq.live hbodyFree
          (fun k s b r hm => honly k s b r (.inNamespace hrun hm)) 0
    | defineClass name body =>
      cases hbody
      exact h.opening hsome hallowed (openClass_ends hp ho name) (h.refuses hp hallowed .numbered)
        fun id q hrun hq => hL id q (hq.keeps 0).sound hq.live hbodyFree
          (fun k s b r hm => honly k s b r (.inClass hrun hm)) 0
    | _ => cases hbody
  case plain =>
    intro n scope a p hbody hL hp ho hfree honly
    have hallowed : allowed a p := honly n scope a p .here
    refine attempt_ends hp.tree ho (fun hready => ?_) fun cause => h.refl scope p
    by_cases hcall : ∃ name arity, a = .call name arity
    · obtain ⟨name, arity, rfl⟩ := hcall
      rw [perform]
      refine call_ends hready (fun q hq => h.performs hp ho hallowed hq)
        (fun cause q hq => h.refuses hp hallowed hq) fun m hm => ?_
      refine h.callMethod hp (hm.admits hp) hready.operands hallowed fun frame q hopen hq => ?_
      cases n with
      | zero => trivial
      | succ k =>
        have hlive := hq.live hp
        have hfree := (hm.admits hp).body
        refine Relates.and_keeps (hL k rfl frame.scope m.body q hq.keeps.sound hlive hfree ?_)
          hq.keeps.sound hlive hfree 0
        exact fun k' s b r hmeets =>
          honly k' s b r (.inCall hready.operands hm.run_eq hopen hmeets)
    · refine Ends.imp (perform_effective hready hbody fun name arity he => hcall ⟨name, arity, he⟩)
        (fun flow q hq => h.performs hp ho hallowed hq) fun s q hs => ?_
      exact hs.imp (fun _ hq => h.refuses hp hallowed hq) fun _ => trivial

/-! ## Calls -/

/-- A call of a method, once its body has started and ended, closes the call. -/
theorem ends_attempt_call {n arity : Nat} {name : Name} {m : Method} {frame : Frame}
    {done : Flow → Program → Prop} {stopped : Stop Fault → Program → Prop}
    (harity : arity ≤ p.memory.stack.size) (hcallee : callee scope name p = .ok (.method m) p)
    (hopen : openCall m arity p = .ok frame q) :
    Ends (attempt (enter (n + 1)) scope (.call name arity)) p done stopped ↔
      Ends (settle (performAll (enter n) frame.scope 0 m.body)) q
        (fun outcome r => Ends (closeCall frame m.name outcome) r (fun _ t => done .next t) stopped)
        stopped := by
  have hdepth : ¬ p.memory.stack.size < (Action.call name arity).operandArity :=
    Nat.not_lt_of_le harity
  simp only [attempt, checkOperands, Action.hasZeroOffset, Bool.false_eq_true, if_false, ends_bind,
    ends_pure, ends_get, if_neg hdepth]
  rw [perform, call, ends_bind, ends_of_ok hcallee]
  simp only [callMethod, ends_bind, ends_pure]
  rw [ends_of_ok hopen]
  rfl

/-- A call of a method whose body does not start fails as `openCall` does. -/
theorem attempt_call_eq_error {n arity : Nat} {name : Name} {m : Method} {stop : Stop Fault}
    (harity : arity ≤ p.memory.stack.size) (hcallee : callee scope name p = .ok (.method m) p)
    (hopen : openCall m arity p = .error stop q) :
    attempt (enter n) scope (.call name arity) p = .error stop q := by
  have hdepth : ¬ p.memory.stack.size < (Action.call name arity).operandArity :=
    Nat.not_lt_of_le harity
  apply Ends.eq_error
  simp only [attempt, checkOperands, Action.hasZeroOffset, Bool.false_eq_true, if_false,
    ends_bind, ends_pure, ends_get, if_neg hdepth]
  rw [perform, call, ends_bind, ends_of_ok hcallee]
  simp only [callMethod, ends_bind, ends_pure]
  rw [ends_of_error hopen]
  exact ⟨rfl, rfl⟩

end ActionMachine.Exec
