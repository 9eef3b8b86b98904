import ActionMachine.Proofs.Calls

/-
  Whole blocks. `run_induction` is the induction that all results about runs go by: over the
  nesting of calls, over the bodies inside one another, over the actions of a block. With it,
  `run_safe` carries soundness and growth through every block, and shows that no block breaks a
  contract.
-/

namespace ActionMachine

/-- The body that a namespace or class opens. -/
def Action.body? : Action → Option (List Action)
  | .defineNamespace _ body | .defineClass _ body => some body
  | _ => none

theorem Action.allMethodFree_body {a : Action} {as : List Action} (h : a.body? = some as)
    (ha : a.methodFree = true) : Action.allMethodFree as = true := by
  cases a with
  | defineNamespace name body =>
    cases h
    exact ha
  | defineClass name body =>
    cases h
    exact ha
  | _ => cases h

theorem Action.EachLiteral.body {K : Value → Prop} {a : Action} {as : List Action}
    (ha : a.EachLiteral K) (h : a.body? = some as) : Action.AllLiterals K as := by
  cases a with
  | defineNamespace name body =>
    cases h
    exact ha
  | defineClass name body =>
    cases h
    exact ha
  | _ => cases h

namespace Exec

variable {scope : ScopeId} {p q : Program} {a : Action}

/-! ## Induction over runs -/

/-- Perform one action of a block: look at its operands, then carry it out. -/
def attempt (run : Body) (scope : ScopeId) (a : Action) : Exec Fault Flow := do
  checkOperands a
  perform run scope a

theorem performAll_cons (run : Body) (scope : ScopeId) (index : Nat) (a : Action)
    (as : List Action) :
    performAll run scope index (a :: as) = (do
      match ← report index a.label (attempt run scope a) with
      | .next => performAll run scope (index + 1) as
      | .ret => return .ret) := by
  rw [performAll]
  rfl

/-- What carries a property of actions and one of blocks through bodies inside one another. -/
structure Nesting (A : ScopeId → Action → Program → Prop)
    (L : ScopeId → List Action → Program → Prop) : Prop where
  nil : ∀ scope p, L scope [] p
  cons : ∀ scope a as p, A scope a p → (∀ q, L scope as q) → L scope (a :: as) p
  body : ∀ scope a as p, a.body? = some as → (∀ id q, L id as q) → A scope a p
  plain : ∀ scope a p, a.body? = none → A scope a p

mutual

theorem Nesting.action {A : ScopeId → Action → Program → Prop}
    {L : ScopeId → List Action → Program → Prop} (h : Nesting A L) (a : Action)
    (scope : ScopeId) (p : Program) : A scope a p := by
  cases a with
  | defineNamespace name as => exact h.body scope _ as p rfl fun id q => h.block as id q
  | defineClass name as => exact h.body scope _ as p rfl fun id q => h.block as id q
  | _ => exact h.plain scope _ p rfl

theorem Nesting.block {A : ScopeId → Action → Program → Prop}
    {L : ScopeId → List Action → Program → Prop} (h : Nesting A L) (as : List Action)
    (scope : ScopeId) (p : Program) : L scope as p := by
  cases as with
  | nil => exact h.nil scope p
  | cons a as => exact h.cons scope a as p (h.action a scope p) fun q => h.block as scope q

end

/-- To show something of every block: show it of the empty block, of a block from its first action
and the rest, of an action from the body it opens, and of any other action from the blocks that run
with one call less to nest. -/
theorem run_induction {A : Nat → ScopeId → Action → Program → Prop}
    {L : Nat → ScopeId → List Action → Program → Prop}
    (nil : ∀ n scope p, L n scope [] p)
    (cons : ∀ n scope a as p, A n scope a p → (∀ q, L n scope as q) → L n scope (a :: as) p)
    (body : ∀ n scope a as p, a.body? = some as → (∀ id q, L n id as q) → A n scope a p)
    (plain : ∀ n scope a p, a.body? = none →
      (∀ k, n = k + 1 → ∀ id as q, L k id as q) → A n scope a p) :
    (∀ n scope a p, A n scope a p) ∧ ∀ n scope as p, L n scope as p := by
  have hnesting : ∀ n, Nesting (A n) (L n) := by
    intro n
    induction n with
    | zero =>
      exact ⟨nil 0, cons 0, body 0,
        fun scope a p ha => plain 0 scope a p ha fun k hk => by cases hk⟩
    | succ n ih =>
      refine ⟨nil (n + 1), cons (n + 1), body (n + 1), fun scope a p ha => ?_⟩
      refine plain (n + 1) scope a p ha fun k hk id as q => ?_
      cases hk
      exact ih.block as id q
  exact ⟨fun n scope a p => (hnesting n).action a scope p,
    fun n scope as p => (hnesting n).block as scope p⟩

/-! ## Single actions -/

/-- An action that opens no body and calls nothing has one of the listed effects. -/
theorem perform_effects {run : Body} (hbody : a.body? = none)
    (hcall : ∀ name arity, a ≠ .call name arity) : Effects scope p a (perform run scope a) := by
  cases a with
  | declareLocal => rw [perform]; exact declareLocal_effects
  | declareConstant => rw [perform]; exact declareConstant_effects
  | resolveLocal => rw [perform]; exact resolveLocal_effects
  | resolveQualified => rw [perform]; exact resolveQualified_effects
  | assignLocal => rw [perform]; exact assignLocal_effects
  | pushLiteral => rw [perform]; exact pushLiteral_effects
  | pop => rw [perform]; exact pop_effects
  | duplicate => rw [perform]; exact duplicate_effects
  | swap => rw [perform]; exact swap_effects
  | buildList => rw [perform]; exact buildList_effects
  | unary => rw [perform]; exact unary_effects
  | binary => rw [perform]; exact binary_effects
  | binaryInPlace => rw [perform]; exact binaryInPlace_effects
  | defineNamespace => cases hbody
  | defineClass => cases hbody
  | addStaticMember => rw [perform]; exact addStaticMember_effects
  | addInstanceMember => rw [perform]; exact addInstanceMember_effects
  | constructInstance => rw [perform]; exact constructInstance_effects
  | loadMember => rw [perform]; exact loadMember_effects
  | assignMember => rw [perform]; exact assignMember_effects
  | defineMethod => rw [perform]; exact defineMethod_effects
  | call name arity => exact absurd rfl (hcall name arity)
  | ret => rw [perform]; exact ret_effects
  | debugPrint => rw [perform]; exact debugPrint_effects

theorem perform_effective {run : Body} (h : Ready scope p a) (hbody : a.body? = none)
    (hcall : ∀ name arity, a ≠ .call name arity) : Effective scope p a (perform run scope a) :=
  (perform_effects hbody hcall).effective h

/-- An action whose operands are missing is refused and changes nothing. -/
theorem attempt_ends_of_served {run : Body} {done : Flow → Program → Prop}
    {stopped : Stop Fault → Program → Prop}
    (hserved : Served p a → Ends (perform run scope a) p done stopped)
    (hrefused : ∀ cause, stopped (.fault cause) p) : Ends (attempt run scope a) p done stopped := by
  simp only [attempt, checkOperands, ends_bind, ends_ite, ends_fault, ends_get, ends_pure]
  refine ⟨fun _ => hrefused _, fun hzero => ⟨fun _ => hrefused _, fun hdepth => ?_⟩⟩
  exact hserved ⟨Nat.le_of_not_lt hdepth, eq_false_of_ne_true hzero⟩

theorem attempt_ends {run : Body} (ht : p.scopes.Sound) (ho : p.scopes.owns scope = true)
    {done : Flow → Program → Prop} {stopped : Stop Fault → Program → Prop}
    (hready : Ready scope p a → Ends (perform run scope a) p done stopped)
    (hrefused : ∀ cause, stopped (.fault cause) p) : Ends (attempt run scope a) p done stopped :=
  attempt_ends_of_served (fun h => hready ⟨ht, ho, h.operands, h.offset⟩) hrefused

/-- The scope that a namespace or class opened is `id`. -/
structure Opens (scope : ScopeId) (p : Program) (id : ScopeId) (q : Program) : Prop where
  opened : ∃ name u n, p.scopes.Opened scope name id u ∧
    q = { p with scopes := u, lastTypeId := n }
  keeps : ∀ current, Keeps current p q
  live : q.scopes.owns id = true
  isOpen : q.scopes.isCallAt id.index = false
  stack : q.memory.stack = p.memory.stack

theorem grows_opened {F : ScopeId → Prop} (ht : p.scopes.SoundUpTo F) {name : Name}
    {id : ScopeId} {u : ScopeTree} (h : p.scopes.Opened scope name id u) (n : TypeId)
    (current : Nat) : p.Grows current { p with scopes := u, lastTypeId := n } :=
  ⟨h.extends ht, h.retained_le, fun _ _ _ hs hs' _ _ => h.locals_eq ht hs hs', rfl, Nat.le_refl _,
    Nat.le_refl _, rfl, rfl, rfl⟩

theorem opens_of_opened (hp : p.Sound) {name : Name} {id : ScopeId} {u : ScopeTree}
    (h : p.scopes.Opened scope name id u) (n : TypeId) :
    Opens scope p id { p with scopes := u, lastTypeId := n } := by
  have hext := h.extends hp.tree
  have hadmits : ∀ method, p.scopes.Admits method → u.Admits method :=
    fun method hmethod => hmethod.mono hext h.retained_le
  obtain ⟨inner, hget, hopen⟩ := h.exists_get? hp.tree
  obtain ⟨hlive, hslot⟩ := ScopeTree.get?_eq_some_iff.1 hget
  refine ⟨⟨name, u, n, h, rfl⟩, fun current => ⟨⟨h.sound hp.tree, ?_,
    Memory.eachMethod_mono hp.methods hadmits, Value.EachMethod.mono hadmits _ hp.returned,
    hp.plain, hp.host⟩, grows_opened hp.tree h n current⟩, hlive, ?_, rfl⟩
  · exact hp.storage.of_same_sites (h.target?_eq hp.tree) fun i hi => hext.isCallAt_eq hi
  · rw [ScopeTree.isCallAt_eq hslot]
    exact ((h.sound hp.tree).slots _ inner hslot).isCall_of_isOpen hopen

theorem openNamespace_opened {F : ScopeId → Prop} (ht : p.scopes.SoundUpTo F)
    (ho : p.scopes.owns scope = true) (name : Name) :
    Ends (openNamespace scope name) p
      (fun id q => ∃ u n, p.scopes.Opened scope name id u ∧
        q = { p with scopes := u, lastTypeId := n })
      (Halts (fun _ q => q = p) fun _ => False) := by
  simp only [openNamespace, ends_bind, ends_get, ends_liftStop, ends_setScopes, ends_pure]
  rcases ht.defineNamespace_cases ho name with ⟨id, u, he, hopened⟩ | ⟨cause, he⟩
  · rw [he]
    refine ⟨fun b hb => ?_, fun s hs => by cases hs⟩
    cases hb
    exact ⟨u, p.lastTypeId, hopened, rfl⟩
  · rw [he]
    refine ⟨fun b hb => (by cases hb), fun s hs => ?_⟩
    cases hs
    rfl

theorem openClass_opened {F : ScopeId → Prop} (ht : p.scopes.SoundUpTo F)
    (ho : p.scopes.owns scope = true) (name : Name) :
    Ends (openClass scope name) p
      (fun id q => ∃ u n, p.scopes.Opened scope name id u ∧
        q = { p with scopes := u, lastTypeId := n })
      (Halts (fun _ q => q = { p with lastTypeId := p.lastTypeId + 1 }) fun _ => False) := by
  simp only [openClass, ends_bind, ends_modify, ends_get, ends_liftStop, ends_setScopes, ends_pure]
  rcases ht.defineClass_cases ho name (p.lastTypeId + 1) with ⟨id, u, he, hopened⟩ | ⟨cause, he⟩
  · rw [he]
    refine ⟨fun b hb => ?_, fun s hs => by cases hs⟩
    cases hb
    exact ⟨u, p.lastTypeId + 1, hopened, rfl⟩
  · rw [he]
    refine ⟨fun b hb => (by cases hb), fun s hs => ?_⟩
    cases hs
    rfl

theorem openNamespace_ends (hp : p.Sound) (ho : p.scopes.owns scope = true) (name : Name) :
    Ends (openNamespace scope name) p (Opens scope p)
      (Halts (fun _ q => q = p) fun _ => False) := by
  refine (openNamespace_opened hp.tree ho name).imp ?_ fun _ _ hs => hs
  rintro id _ ⟨u, n, hopened, rfl⟩
  exact opens_of_opened hp hopened n

theorem openClass_ends (hp : p.Sound) (ho : p.scopes.owns scope = true) (name : Name) :
    Ends (openClass scope name) p (Opens scope p)
      (Halts (fun _ q => q = { p with lastTypeId := p.lastTypeId + 1 }) fun _ => False) := by
  refine (openClass_opened hp.tree ho name).imp ?_ fun _ _ hs => hs
  rintro id _ ⟨u, n, hopened, rfl⟩
  exact opens_of_opened hp hopened n

theorem ends_inside {place : Place} {x : Exec Failure Flow} {done : Flow → Program → Prop}
    {stopped : Stop Fault → Program → Prop} :
    Ends (inside place x) p done stopped ↔
      Ends x p (fun _ q => done .next q) (fun s q => stopped (s.map (·.within place)) q) := by
  simp only [inside, ends_bind, ends_settle]
  unfold Ends
  cases x p with
  | ok a q => rfl
  | error s q => cases s <;> rfl

/-! ## Blocks -/

/-- In `q` more than `n` calls have been opened since `p`, as the mode allows. -/
structure Overruns (n : Nat) (p q : Program) : Prop where
  deep : p.callDepth + n < q.callDepth
  within : ∀ limit, p.mode.maxCallDepth = some limit → q.callDepth ≤ limit

theorem Overruns.of_eq {n k : Nat} {r : Program} (h : Overruns k q r)
    (hdepth : p.callDepth + n = q.callDepth + k) (hmode : q.mode = p.mode) : Overruns n p r := by
  refine ⟨?_, ?_⟩
  · rw [hdepth]
    exact h.deep
  · rw [← hmode]
    exact h.within

/-- With no call left to nest, a call that was opened is one too many. -/
theorem Entered.overruns {m : Method} {arity : Nat} {frame : Frame}
    (h : Entered m arity p frame q) : Overruns 0 p q := by
  have hdepth : q.callDepth = p.callDepth + 1 := h.keeps.grows.depth
  refine ⟨by omega, fun limit hlimit => ?_⟩
  have hbelow := h.limit limit hlimit
  omega

/-- Inside a call that was opened one call less may nest. -/
theorem Overruns.of_entered {n arity : Nat} {m : Method} {frame : Frame} {r : Program}
    (h : Overruns n q r) (hq : Entered m arity p frame q) : Overruns (n + 1) p r := by
  have hdepth : q.callDepth = p.callDepth + 1 := hq.keeps.grows.depth
  exact h.of_eq (by omega) hq.keeps.grows.mode

/-- The computation keeps the program sound and lets it only grow, breaks no contract, and fails to
end only if calls nest more than `n` deep or a value has no finite text. -/
def Safe {ε α : Type} (n current : Nat) (p : Program) (x : Exec ε α) : Prop :=
  Ends x p (fun _ q => Keeps current p q)
    (Halts (fun _ q => Keeps current p q) fun q => Overruns n p q ∨ Endless q)

theorem Safe.of_effective {n : Nat} {x : Exec Fault Flow} (h : Effective scope p a x)
    (hp : p.Sound) (ho : p.scopes.owns scope = true) (ha : a.methodFree = true) :
    Safe n scope.index p x := by
  refine Ends.imp h (fun flow q hq => hq.keeps hp ho ha) fun s q hs => ?_
  refine hs.imp (fun _ hq => hq.keeps hp ha _) fun hq => ?_
  obtain ⟨rfl, hendless⟩ := hq
  exact Or.inr hendless

/-- A call of a method is safe if its body is. -/
theorem callMethod_safe {n : Nat} {run : Body} {m : Method} {arity current : Nat} (hp : p.Sound)
    (hm : p.scopes.Admits m) (harity : arity ≤ p.memory.stack.size)
    (hbody : ∀ frame q, Entered m arity p frame q →
      Ends (run frame.scope m.body) q (fun _ r => Keeps frame.scope.index q r)
        (Halts (fun _ r => Keeps frame.scope.index q r)
          fun r => Overruns n p r ∨ Endless r)) :
    Safe n current p (callMethod run m arity) := by
  simp only [Safe, callMethod, ends_bind]
  refine (openCall_ends hp hm harity).imp (fun frame q hq => ?_) ?_
  · rw [ends_settle_halts]
    refine (hbody frame q hq).imp (fun flow r hr => ?_) fun s r hs => ?_
    · rw [ends_closeCall hq hp hr]
      exact (hq.keeps_closed hp hr).push (hq.eachMethod_callResult hp hr)
    · refine hs.imp (fun _ hr => ?_) fun he => he
      rw [ends_closeCall hq hp hr]
      exact hq.keeps_closed hp hr
  · intro s q hs
    refine hs.imp (fun _ hq => ?_) False.elim
    subst hq
    exact .refl current hp

/-- What is safe after growth is safe before it. -/
theorem Safe.after {ε α : Type} {n current : Nat} {x : Exec ε α} (hk : Keeps current p q)
    (h : Safe n current q x) :
    Ends x q (fun _ r => Keeps current p r)
      (Halts (fun _ r => Keeps current p r)
        fun r => Overruns n p r ∨ Endless r) := by
  refine Ends.imp h (fun _ r hr => hk.trans hr) fun s r hs => ?_
  refine hs.imp (fun _ hr => hk.trans hr) fun hr => ?_
  exact hr.imp_left fun hover => hover.of_eq (by rw [hk.grows.depth]) hk.grows.mode

/-- The body of a namespace or class is safe for the block around it. -/
theorem Safe.inside {n current : Nat} {id : ScopeId} {place : Place} {x : Exec Failure Flow}
    (ho : Opens scope p id q) (h : Safe n id.index q x) :
    Ends (inside place x) q (fun _ r => Keeps current p r)
      (Halts (fun _ r => Keeps current p r)
        fun r => Overruns n p r ∨ Endless r) := by
  simp only [ends_inside, halts_map]
  have houtward : ∀ r, Keeps id.index q r → Keeps current q r := fun r hr =>
    ⟨hr.sound, hr.grows.outward ho.isOpen⟩
  have hout : Safe n current q x := Ends.imp h (fun _ r hr => houtward r hr)
    fun s r hs => hs.imp (fun _ hr => houtward r hr) fun he => he
  exact hout.after (ho.keeps current)

/-- An action that opens a scope for a body is safe if the body is. -/
theorem Safe.opening {n current : Nat} {x : Exec Fault ScopeId} {place : ScopeId → Place}
    {body : ScopeId → Exec Failure Flow} {u : Program}
    (hx : Ends x p (Opens scope p) (Halts (fun _ q => q = u) fun _ => False))
    (hu : Keeps current p u) (hbody : ∀ id q, Opens scope p id q → Safe n id.index q (body id)) :
    Safe n current p (x >>= fun id => Exec.inside (place id) (body id)) := by
  rw [Safe, ends_bind]
  refine hx.imp (fun id q hq => (hbody id q hq).inside hq) fun s q hs => ?_
  refine hs.imp (fun _ hq => ?_) False.elim
  subst hq
  exact hu

/-- The method behind a name can be called. -/
theorem Callee.admits {name : Name} {m : Method} (h : Callee scope p name (.method m))
    (hp : p.Sound) : p.scopes.Admits m := h.of_all hp.methods

/-- Every action and every block is safe. -/
theorem run_safe :
    (∀ n scope a p, p.Sound → p.scopes.owns scope = true → a.methodFree = true →
      Safe n scope.index p (attempt (enter n) scope a)) ∧
    ∀ n scope as p, p.Sound → p.scopes.owns scope = true → Action.allMethodFree as = true →
      ∀ index, Safe n scope.index p (performAll (enter n) scope index as) := by
  refine run_induction ?nil ?cons ?body ?plain
  case nil =>
    intro n scope p hp _ _ index
    rw [performAll]
    exact .refl _ hp
  case cons =>
    intro n scope a as p ha has hp ho hfree index
    have hfree : a.methodFree = true ∧ Action.allMethodFree as = true :=
      Bool.and_eq_true_iff.1 hfree
    rw [performAll_cons]
    simp only [Safe, ends_bind, ends_report, halts_map]
    refine Ends.imp (ha hp ho hfree.1) (fun flow q hq => ?_) fun _ _ hs => hs
    cases flow with
    | next => exact (has q hq.sound (hq.grows.tree.owns ho) hfree.2 (index + 1)).after hq
    | ret => exact hq
  case body =>
    intro n scope a as p hbody hL hp ho hfree
    refine attempt_ends hp.tree ho (fun _ => ?_) fun cause => .refl _ hp
    cases a with
    | defineNamespace name body =>
      cases hbody
      exact Safe.opening (openNamespace_ends hp ho name) (.refl _ hp) fun id q hq =>
        hL id q (hq.keeps 0).sound hq.live hfree 0
    | defineClass name body =>
      cases hbody
      refine Safe.opening (openClass_ends hp ho name) ?_ fun id q hq =>
        hL id q (hq.keeps 0).sound hq.live hfree 0
      exact Refuses.keeps (.numbered : Refuses p (.defineClass name as) _) hp hfree _
    | _ => cases hbody
  case plain =>
    intro n scope a p hbody hL hp ho hfree
    refine attempt_ends hp.tree ho (fun hready => ?_) fun cause => .refl _ hp
    by_cases hcall : ∃ name arity, a = .call name arity
    · obtain ⟨name, arity, rfl⟩ := hcall
      rw [perform]
      refine call_ends hready (fun q hq => hq.keeps hp ho hfree)
        (fun cause q hq => hq.keeps hp hfree _) fun m hm => ?_
      refine callMethod_safe hp (hm.admits hp) hready.operands fun frame q hq => ?_
      cases n with
      | zero => exact .inl hq.overruns
      | succ k =>
        have hlive := hq.live hp
        refine Ends.imp (hL k rfl frame.scope m.body q hq.keeps.sound hlive (hm.admits hp).body 0)
          (fun _ r hr => hr) fun s r hs => ?_
        refine hs.imp (fun _ hr => hr) fun hr => ?_
        exact hr.imp_left fun hover => hover.of_entered hq
    · exact Safe.of_effective (perform_effective hready hbody fun name arity he =>
        hcall ⟨name, arity, he⟩) hp ho hfree

end Exec

end ActionMachine
