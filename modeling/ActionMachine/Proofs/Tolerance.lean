import ActionMachine.Proofs.Runs

/-
  Programs that are given methods of other programs. A method brings the handle of its scope along,
  so the scope of its call may have a parent of another tree, and a name that the call does not
  declare itself is looked for there. `Program.Tolerates M` is soundness up to such parents, for a
  set `M` of methods from outside; `run_tolerated` shows that every block keeps it, and that no
  contract is broken but by a look at such a parent. Unlike `Program.Sound` it says nothing of how
  names share the cells, since the parameters of a method from outside may be anything.
-/

namespace ActionMachine

/-! ## Methods from outside -/

/-- Methods that a program with this tree may be given: each was defined in a scope that all trees
share or in one of another tree, and the literals of its body hold no methods but such. -/
structure Imports (tree : StoreId) (M : Method → Prop) : Prop where
  scope : ∀ m, M m → m.scope.tree = .shared ∧ m.scope.index < 2 ∨
    m.scope.tree ≠ .shared ∧ m.scope.tree ≠ tree
  body : ∀ m, M m → Action.AllLiterals (·.EachMethod M) m.body

/-- The scope of a method from outside that is not shared. -/
def Abroad (M : Method → Prop) (id : ScopeId) : Prop :=
  id.tree ≠ .shared ∧ ∃ m, M m ∧ m.scope = id

/-- The method lies abroad or in a scope that stays for good, and its literals hold no methods but
those from outside. -/
structure ScopeTree.Takes (M : Method → Prop) (t : ScopeTree) (m : Method) : Prop where
  scope : Abroad M m.scope ∨ t.owns m.scope = true ∧ m.scope.index < t.retained
  body : Action.AllLiterals (·.EachMethod M) m.body

variable {M : Method → Prop} {t u : ScopeTree} {m : Method}

theorem ScopeTree.Takes.mono (h : t.Takes M m) (he : t.Extends u) (hr : t.retained ≤ u.retained) :
    u.Takes M m :=
  ⟨h.scope.imp_right fun hscope => ⟨he.owns hscope.1, Nat.lt_of_lt_of_le hscope.2 hr⟩, h.body⟩

theorem Imports.takes {F : ScopeId → Prop} (hM : Imports t.id M) (ht : t.SoundUpTo F)
    (hm : M m) : t.Takes M m := by
  refine ⟨?_, hM.body m hm⟩
  rcases hM.scope m hm with ⟨htree, hlt⟩ | ⟨htree, -⟩
  · exact Or.inr ⟨ScopeTree.owns_eq_true_iff.2 (Or.inl ⟨htree, hlt⟩),
      Nat.lt_of_lt_of_le hlt ht.retained.1⟩
  · exact Or.inl ⟨htree, m, hm, rfl⟩

/-- The tree is sound up to scopes abroad, and every method at hand may be called. -/
structure Program.Tolerates (M : Method → Prop) (p : Program) : Prop where
  imports : Imports p.scopes.id M
  tree : p.scopes.SoundUpTo (Abroad M)
  held : p.Holds (·.EachMethod (p.scopes.Takes M))
  host : p.host.MakesNoMethod

theorem Program.tolerates_new {arena tree : StoreId} {host : Host} {mode : Mode} {sink : Sink}
    (htree : tree ≠ .shared) (hhost : host.MakesNoMethod) (hM : Imports tree M) :
    (new arena tree host mode sink).Tolerates M := by
  refine ⟨hM, ScopeTree.soundUpTo_new htree ?_, .new trivial, hhost⟩
  rintro _ ⟨hshared, m, hm, rfl⟩
  refine ⟨hshared, ?_⟩
  rcases hM.scope m hm with ⟨htree, -⟩ | ⟨-, htree⟩
  · exact absurd htree hshared
  · exact htree

namespace Exec

variable {scope : ScopeId} {p q r : Program} {a : Action} {flow : Flow} {current : Nat}

/-- What a program tolerates, a larger one does too if it holds nothing new. -/
theorem tolerates_of_extends (hp : p.Tolerates M) (he : p.scopes.Extends q.scopes)
    (hr : p.scopes.retained ≤ q.scopes.retained) (hhost : q.host = p.host)
    (ht : q.scopes.SoundUpTo (Abroad M))
    (hheld : p.Holds (·.EachMethod (q.scopes.Takes M)) →
      q.Holds (·.EachMethod (q.scopes.Takes M))) : q.Tolerates M := by
  refine ⟨he.id.symm ▸ hp.imports, ht, hheld (hp.held.mono ?_), hhost.symm ▸ hp.host⟩
  exact Value.EachMethod.mono fun _ hm => hm.mono he hr

/-- The program tolerates methods from outside and has only grown. -/
structure Bears (M : Method → Prop) (current : Nat) (p q : Program) : Prop where
  tolerates : q.Tolerates M
  grows : p.Grows current q

theorem Bears.refl (current : Nat) (hp : p.Tolerates M) : Bears M current p p :=
  ⟨hp, .refl current p⟩

theorem Bears.trans (h1 : Bears M current p q) (h2 : Bears M current q r) :
    Bears M current p r := ⟨h2.tolerates, h1.grows.trans h2.grows⟩

theorem bears_of_grows (hp : p.Tolerates M) (hg : p.Grows current q)
    (ht : q.scopes.SoundUpTo (Abroad M))
    (hheld : p.Holds (·.EachMethod (q.scopes.Takes M)) →
      q.Holds (·.EachMethod (q.scopes.Takes M))) : Bears M current p q :=
  ⟨tolerates_of_extends hp hg.tree hg.retained hg.host ht hheld, hg⟩

/-! ## One action -/

/-- The literals of an action hold methods from outside only. -/
theorem loose_imported (hM : Imports q.scopes.id M) (ht : q.scopes.SoundUpTo (Abroad M))
    (ha : a.EachLiteral (·.EachMethod M)) :
    ∀ v ∈ a.literals, v.Loose (·.EachMethod (q.scopes.Takes M)) := fun v hv =>
  Or.inr (Value.EachMethod.mono (fun _ hm => hM.takes ht hm) v (ha.literals v hv))

theorem Performs.bears (h : Performs scope p a flow q) (hp : p.Tolerates M)
    (ho : p.scopes.owns scope = true) (ha : a.EachLiteral (·.EachMethod M)) :
    Bears M scope.index p q := by
  have hg := h.grows hp.tree
  have ht := h.tree hp.tree ho
  have hM : Imports q.scopes.id M := hg.tree.id.symm ▸ hp.imports
  refine bears_of_grows hp hg ht fun hheld => ?_
  refine h.holds (hereditary_eachMethod _) hheld (Host.conveys_eachMethod hp.host _)
    (constructs_of_fill (fun _ => Value.eachMethod_object.2)
      fun _ _ _ _ _ _ _ v hv => hheld.eachMethod _ v hv) (loose_imported hM ht ha) ?_
  rintro name params body slots rfl
  exact ⟨Or.inr ⟨hg.tree.owns ho, h.retained_of_defineMethod⟩, ha.2⟩

theorem Refuses.bears (h : Refuses p a q) (hp : p.Tolerates M)
    (ha : a.EachLiteral (·.EachMethod M)) (current : Nat) : Bears M current p q := by
  have hscopes := h.scopes_eq
  have ht : q.scopes.SoundUpTo (Abroad M) := hscopes ▸ hp.tree
  have hM : Imports q.scopes.id M := hscopes ▸ hp.imports
  refine bears_of_grows hp (h.grows current) ht fun hheld => ?_
  exact h.holds (hereditary_eachMethod _) hheld (loose_imported hM ht ha)

/-- Stops as in `Halts`, and those at the look at a handle of `F`. -/
def Falters {ε : Type} (F : ScopeId → Prop) (refused : ε → Program → Prop)
    (endless : Program → Prop) : Stop ε → Program → Prop
  | .fault cause, q => refused cause q
  | .breach v, _ => ∃ id, F id ∧ v = .deadScope id.index
  | .unending, q => endless q

section Falters

variable {ε δ α : Type} {F : ScopeId → Prop} {refused refused' : ε → Program → Prop}
  {endless endless' : Program → Prop}

theorem Falters.imp {s : Stop ε} (h : Falters F refused endless s q)
    (hr : ∀ cause, refused cause q → refused' cause q) (he : endless q → endless' q) :
    Falters F refused' endless' s q := by
  cases s with
  | fault cause => exact hr cause h
  | breach v => exact h
  | unending => exact he h

theorem Halts.falters {s : Stop ε} (h : Halts refused endless s q) :
    Falters F refused endless s q := by
  cases s with
  | fault cause => exact h
  | breach v => exact h.elim
  | unending => exact h

@[simp] theorem falters_map {f : δ → ε} {s : Stop δ} :
    Falters F refused endless (s.map f) q ↔
      Falters F (fun cause => refused (f cause)) endless s q := by
  cases s <;> rfl

theorem ends_settle_falters {x : Exec δ α} {done : Except δ α → Program → Prop} :
    Ends (settle x : Exec ε (Except δ α)) p done (Falters F refused endless) ↔
      Ends x p (fun a q => done (.ok a) q)
        (Falters F (fun cause q => done (.error cause) q) endless) := by
  unfold Ends settle
  cases x p with
  | ok a q => rfl
  | error s q => cases s <;> rfl

end Falters

/-- The computation lets the program only grow and tolerate what it did. It looks at no dead scope
but one abroad, and fails to end only if calls nest more than `n` deep or a value has no finite
text. -/
def Tolerated {ε α : Type} (M : Method → Prop) (n current : Nat) (p : Program) (x : Exec ε α) :
    Prop :=
  Ends x p (fun _ q => Bears M current p q)
    (Falters (Abroad M) (fun _ q => Bears M current p q) fun q => Overruns n p q ∨ Endless q)

/-- An action that has its operands stops for a fault, at a handle abroad, or without end. -/
theorem falters_of_stopCause {n : Nat} {s : Stop Fault} (hp : p.Tolerates M)
    (ho : p.scopes.owns scope = true) (ha : a.EachLiteral (·.EachMethod M)) (hserved : Served p a)
    (hq : Refuses p a q) (hs : StopCause scope p a s) :
    Falters (Abroad M) (fun _ q => Bears M current p q) (fun q => Overruns n p q ∨ Endless q)
      s q := by
  rcases hs.cases_upTo hp.tree ho hserved with
    (⟨cause, rfl⟩ | ⟨rfl, name, target, v, rfl, -, hv, he⟩) | ⟨id, hid, rfl⟩
  · exact hq.bears hp ha current
  · cases hq
    exact Or.inr ⟨target, v, hv, he⟩
  · exact ⟨id, hid, rfl⟩

/-! ## Calls -/

/-- Parameters are bound in the scope of a call until a name is taken. -/
theorem bindArguments_grows {F : ScopeId → Prop} {id : ScopeId} {s : Scope}
    (ht : p.scopes.SoundUpTo F) (hget : p.scopes.get? id = some s) (hcall : s.kind.isCall = true)
    (args : List (Slot × Value)) :
    Ends (bindArguments id args) p
      (fun _ q => p.Grows id.index q ∧ q.scopes.SoundUpTo F ∧ q.returned = p.returned)
      (Halts (fun _ q => p.Grows id.index q ∧ q.scopes.SoundUpTo F) fun _ => False) := by
  induction args generalizing p s with
  | nil => exact ⟨.refl _ p, ht, rfl⟩
  | cons arg args ih =>
    obtain ⟨slot, v⟩ := arg
    simp only [bindArguments, ends_bind, ends_allocateFrame, ends_get, ends_liftStop,
      ends_setScopes]
    refine ⟨fun tree htree => ?_, fun stop hstop => ?_⟩
    · obtain ⟨s₁, s', hget', hs', rfl⟩ := addLocal_eq_ok_iff.1 htree
      obtain rfl : s₁ = s := Option.some.inj (hget'.symm.trans hget)
      have hbound : Bound p id slot.name v false _ := .inFrame hget hcall hs'
      have hg : p.Grows id.index _ := hbound.grows fun _ _ _ => rfl
      obtain ⟨s'', hget'', he⟩ := hg.tree.get? hget
      refine (ih (hbound.tree ht) hget'' (he.isCall_eq.trans hcall)).imp ?_ ?_
      · rintro - q ⟨hq, htq, hreturned⟩
        exact ⟨hg.trans hq, htq, hreturned⟩
      · intro stop q hs
        exact hs.imp (fun _ hq => ⟨hg.trans hq.1, hq.2⟩) fun h => h
    · obtain ⟨cause, rfl⟩ := addLocal_settled hget _ _ _ hstop
      exact ⟨.of_scopes rfl rfl (Nat.le_refl _) (Cells.size_le_push v false) rfl rfl rfl, ht⟩

/-- A call may be opened wherever its method lies. -/
theorem openChecked_enters {F : ScopeId → Prop} (ht : p.scopes.SoundUpTo F)
    (hlexical : F m.scope ∨ p.scopes.owns m.scope = true) {arity : Nat}
    (harity : arity ≤ p.memory.stack.size) (current : Nat) :
    Ends (openChecked m arity) p (Enters F m p)
      (Halts (fun _ q => p.Grows current q ∧ q.scopes.SoundUpTo F) fun _ => False) := by
  have hbase := Operands.base_eq_ok_iff.2 ⟨harity, rfl⟩
  simp only [openChecked, ends_bind, ends_get, ends_liftViolation, hbase, Except.ok.injEq,
    forall_eq', reduceCtorEq, false_implies, implies_true, and_true]
  refine (argumentValues_same arity _).imp ?_ fun s q hs => hs.imp (fun _ hq => ?_) fun h => h
  · rintro values p rfl
    simp only [ends_modify, pushCallScope, ends_modifyGet, ends_settle]
    have hcut : p.Grows current (p.withStack (p.memory.stack.truncate
      (p.memory.stack.size - arity))) := Program.grows_withStack _ p _
    have hget := ht.get?_pushCallScope m.scope m.name
    refine (bindArguments_grows (p := binding p m arity) (ht.pushCallScope hlexical m.name) hget
      rfl _).imp ?_ fun s r hs => ?_
    · rintro - r ⟨hg, htr, hreturned⟩
      simp only [ends_bind, ends_get, ends_modify, ends_pure]
      exact ⟨rfl, rfl, hreturned, ⟨hg.tree, hg.retained, hg.calls, hg.id, hg.arena, hg.frame,
        hg.host, hg.mode, congrArg (· + 1) hg.depth⟩, htr⟩
    · cases s with
      | breach v => exact hs.elim
      | unending => exact hs.elim
      | fault cause =>
        -- the scope goes again, with the cells that were bound in it
        obtain ⟨hg, htr⟩ := hs
        obtain ⟨s, hs, he⟩ := hg.tree.get? hget
        change Ends (_ >>= _) r _ _
        rw [ends_bind]
        change Ends (leave ⟨p.scopes.id, p.scopes.size⟩ p.memory.frame.size _) r _ _
        rw [ends_leave hs he.isCall_eq]
        have hstack := hg.trans (Program.grows_withStack _ r
          (r.memory.stack.truncate (p.memory.stack.size - arity)))
        have hlt := htr.index_lt (ScopeTree.get?_eq_some_iff.1 hs).1
        refine ⟨hcut.trans (Program.Grows.released hstack), ?_⟩
        exact Program.tree_released (r := r.withStack (r.memory.stack.truncate _)) htr
          (Nat.le_of_lt hlt) _
  · subst hq
    exact ⟨.refl current q, ht⟩

/-- The body of the method is about to run in `q`, which tolerates what `p` does. -/
theorem openCall_enters (hp : p.Tolerates M) (hm : p.scopes.Takes M m) {arity : Nat}
    (harity : arity ≤ p.memory.stack.size) (current : Nat) :
    Ends (openCall m arity) p
      (fun frame q => Enters (Abroad M) m p frame q ∧ q.Tolerates M ∧
        ∀ limit, p.mode.maxCallDepth = some limit → p.callDepth < limit)
      (Halts (fun _ q => Bears M current p q) fun _ => False) := by
  rw [ends_openCall]
  refine ⟨fun _ => .refl current hp, fun _ => ⟨fun _ _ _ => .refl current hp, fun hlimit => ?_⟩⟩
  have hlexical := hm.scope.imp_right fun hscope => hscope.1
  refine (openChecked_enters hp.tree hlexical harity current).with_run.imp ?_ ?_
  · rintro frame q ⟨hrun, hq⟩
    refine ⟨hq, tolerates_of_extends hp hq.extends hq.grows.retained hq.grows.host hq.tree
      fun hheld => ?_, hlimit⟩
    exact ((openChecked_holds (hereditary_eachMethod _) hheld).of_ok hrun).1
  · rintro s q ⟨hrun, hs⟩
    refine hs.imp (fun cause hq => bears_of_grows hp hq.1 hq.2 fun hheld => ?_) fun h => h
    exact (openChecked_holds (hereditary_eachMethod _) hheld).of_error hrun

/-- A method that may be called still may when scopes are released that are not kept for good. -/
theorem takes_released {index cells : Nat} (hindex : index ≤ r.scopes.size)
    (hm : r.scopes.Takes M m) : (r.released index cells).scopes.Takes M m := by
  unfold Program.released
  split
  · exact hm
  · refine ⟨hm.scope.imp_right fun hscope => ⟨?_, hscope.2⟩, hm.body⟩
    exact ScopeTree.owns_shrink hindex hscope.1
      (Nat.lt_of_lt_of_le hscope.2 (Nat.le_of_not_lt ‹_›))

/-- After a call the caller finds a program that tolerates what it did. -/
theorem Enters.closeCall_bears {frame : Frame} (h : Enters (Abroad M) m p frame q)
    (hp : p.Tolerates M) (hr : Bears M frame.scope.index q r) {name : Name}
    {outcome : Except Failure Flow} :
    Ends (closeCall frame name outcome) r (fun _ t => Bears M current p t)
      (Halts (fun _ t => Bears M current p t) fun _ => False) := by
  have hg := h.grows_after hr.grows
  have hclosed : p.Grows current (closed p r frame.base) := grows_closed hg frame.base
  have hlt := Nat.le_of_lt hg.size_lt
  have ht : (closed p r frame.base).scopes.SoundUpTo (Abroad M) :=
    Program.tree_released hr.tolerates.tree hlt p.memory.frame.size
  -- whatever the call holds may be called in what it leaves behind
  have hheld : r.Holds (·.EachMethod ((closed p r frame.base).scopes.Takes M)) :=
    hr.tolerates.held.mono (Value.EachMethod.mono fun _ hm => takes_released hlt hm)
  have hafter : p.Holds (·.EachMethod ((closed p r frame.base).scopes.Takes M)) →
      Ends (closeCall frame name outcome) r
        (fun _ t => t.Holds (·.EachMethod ((closed p r frame.base).scopes.Takes M)))
        fun _ t => t.Holds (·.EachMethod ((closed p r frame.base).scopes.Takes M)) := fun hback =>
    closeCall_holds (hereditary_eachMethod _) hheld (h.handed ▸ hback.returned)
  rw [h.ends_closeCall hp.tree hr.grows] at hafter ⊢
  cases outcome with
  | ok flow =>
    exact bears_of_grows hp (hclosed.trans (Program.grows_withStack _ _ _)) ht hafter
  | error failure => exact bears_of_grows hp hclosed ht hafter

/-- A call is tolerated if its body is. -/
theorem callMethod_tolerated {n : Nat} {run : Body} {arity : Nat} (hp : p.Tolerates M)
    (hm : p.scopes.Takes M m) (harity : arity ≤ p.memory.stack.size)
    (hbody : ∀ frame q, Enters (Abroad M) m p frame q → q.Tolerates M →
      (∀ limit, p.mode.maxCallDepth = some limit → p.callDepth < limit) →
      Ends (run frame.scope m.body) q (fun _ r => Bears M frame.scope.index q r)
        (Falters (Abroad M) (fun _ r => Bears M frame.scope.index q r)
          fun r => Overruns n p r ∨ Endless r)) :
    Tolerated M n current p (callMethod run m arity) := by
  simp only [Tolerated, callMethod, ends_bind]
  refine (openCall_enters hp hm harity current).imp ?_ fun s q hs => ?_
  · rintro frame q ⟨hq, htq, hlimit⟩
    rw [ends_settle_falters]
    refine (hbody frame q hq htq hlimit).imp (fun flow r hr => ?_) fun s r hs => ?_
    · exact (hq.closeCall_bears hp hr).imp (fun _ _ h => h)
        fun _ _ h => h.falters.imp (fun _ h => h) False.elim
    · refine hs.imp (fun _ hr => ?_) fun he => he
      exact (hq.closeCall_bears hp hr).imp (fun _ _ h => h)
        fun _ _ h => h.falters.imp (fun _ h => h) False.elim
  · exact hs.falters.imp (fun _ h => h) False.elim

/-! ## Blocks -/

theorem Tolerated.after {ε α : Type} {n : Nat} {x : Exec ε α} (hk : Bears M current p q)
    (h : Tolerated M n current q x) :
    Ends x q (fun _ r => Bears M current p r)
      (Falters (Abroad M) (fun _ r => Bears M current p r)
        fun r => Overruns n p r ∨ Endless r) := by
  refine Ends.imp h (fun _ r hr => hk.trans hr) fun s r hs => ?_
  refine hs.imp (fun _ hr => hk.trans hr) fun hr => ?_
  exact hr.imp_left fun hover => hover.of_eq (by rw [hk.grows.depth]) hk.grows.mode

/-- The program after a namespace or class was opened. -/
theorem bears_opened (hp : p.Tolerates M) {name : Name} {id : ScopeId} {v : ScopeTree}
    (h : p.scopes.Opened scope name id v) (k : TypeId) (current : Nat) :
    Bears M current p { p with scopes := v, lastTypeId := k } :=
  bears_of_grows hp (grows_opened hp.tree h k current) (h.sound hp.tree) fun hheld =>
    ⟨hheld.memory, hheld.returned⟩

/-- The body of a namespace or class is tolerated in the block around it. -/
theorem Tolerated.inside {n : Nat} {id : ScopeId} {place : Place} {x : Exec Failure Flow}
    (hp : p.Tolerates M) {name : Name} {v : ScopeTree} {k : TypeId}
    (ho : p.scopes.Opened scope name id v)
    (h : Tolerated M n id.index { p with scopes := v, lastTypeId := k } x) :
    Ends (inside place x) { p with scopes := v, lastTypeId := k }
      (fun _ r => Bears M current p r)
      (Falters (Abroad M) (fun _ r => Bears M current p r)
        fun r => Overruns n p r ∨ Endless r) := by
  simp only [ends_inside, falters_map]
  obtain ⟨inner, hget, hopen⟩ := ho.exists_get? hp.tree
  have hcall : v.isCallAt id.index = false := by
    have hslot := (ScopeTree.get?_eq_some_iff.1 hget).2
    rw [ScopeTree.isCallAt_eq hslot]
    exact ((ho.sound hp.tree).slots _ inner hslot).isCall_of_isOpen hopen
  have hout : Tolerated M n current { p with scopes := v, lastTypeId := k } x := by
    refine Ends.imp h (fun _ r hr => ⟨hr.tolerates, hr.grows.outward hcall⟩) fun s r hs => ?_
    exact hs.imp (fun _ hr => ⟨hr.tolerates, hr.grows.outward hcall⟩) fun he => he
  exact hout.after (bears_opened hp ho k current)

/-- An action that opens a scope for a body is tolerated if the body is. -/
theorem Tolerated.opening {n : Nat} {x : Exec Fault ScopeId} {place : ScopeId → Place} {name : Name}
    {body : ScopeId → Exec Failure Flow} {u : Program} (hp : p.Tolerates M)
    (hx : Ends x p (fun id q => ∃ v k, p.scopes.Opened scope name id v ∧
      q = { p with scopes := v, lastTypeId := k }) (Halts (fun _ q => q = u) fun _ => False))
    (hu : Bears M current p u)
    (hbody : ∀ id q, q.Tolerates M → q.scopes.owns id = true →
      Tolerated M n id.index q (body id)) :
    Tolerated M n current p (x >>= fun id => Exec.inside (place id) (body id)) := by
  rw [Tolerated, ends_bind]
  refine hx.imp ?_ fun s q hs => ?_
  · rintro id _ ⟨v, k, hopened, rfl⟩
    obtain ⟨inner, hget, -⟩ := hopened.exists_get? hp.tree
    refine (hbody id _ (bears_opened hp hopened k current).tolerates ?_).inside hp hopened
    exact (ScopeTree.get?_eq_some_iff.1 hget).1
  · refine hs.falters.imp (fun _ hq => ?_) False.elim
    subst hq
    exact hu

/-- The method behind a name may be called. -/
theorem Callee.takes {name : Name} (h : Callee scope p name (.method m)) (hp : p.Tolerates M) :
    p.scopes.Takes M m := h.of_all hp.held.eachMethod

/-- A call of anything but a method of a program opens no body. -/
theorem call_tolerated {n : Nat} {run : Body} {name : Name} {arity : Nat} (hp : p.Tolerates M)
    (ho : p.scopes.owns scope = true) (hserved : Served p (.call name arity))
    (hmethod : ∀ m, p.scopes.Takes M m → Tolerated M n scope.index p (callMethod run m arity)) :
    Tolerated M n scope.index p (call run scope name arity) := by
  simp only [Tolerated, call, ends_bind]
  refine (callee_cases scope p name).imp ?_ ?_
  · rintro v q ⟨rfl, hv⟩
    cases v with
    | method m =>
      simp only [ends_bind, ends_pure]
      exact hmethod m (hv.takes hp)
    | native native =>
      rw [ends_bind]
      have hnative : Ends (callNative native arity) q
          (fun _ r => Performs scope q (.call name arity) .next r) _ := callNative_effects native
      refine hnative.imp (fun _ r hr => hr.bears hp ho trivial) ?_
      rintro s r ⟨hr, hs⟩
      exact falters_of_stopCause hp ho (a := .call name arity) trivial hserved hr hs
    | _ =>
      simp only [ends_bind, ends_fault]
      exact .refl _ hp
  · rintro s q ⟨rfl, hs⟩
    refine falters_of_stopCause hp ho (a := .call name arity) trivial hserved .same ?_
    rcases hs with ⟨cause, rfl⟩ | hs
    · exact .fault
    · exact .name hs

/-- Every action and every block is tolerated whose literals hold methods from outside only. -/
theorem run_tolerated :
    (∀ n scope a p, p.Tolerates M → p.scopes.owns scope = true →
      a.EachLiteral (·.EachMethod M) →
      Tolerated M n scope.index p (attempt (enter n) scope a)) ∧
    ∀ n scope as p, p.Tolerates M → p.scopes.owns scope = true →
      Action.AllLiterals (·.EachMethod M) as →
      ∀ index, Tolerated M n scope.index p (performAll (enter n) scope index as) := by
  refine run_induction ?nil ?cons ?body ?plain
  case nil =>
    intro n scope p hp _ _ index
    rw [performAll]
    exact .refl _ hp
  case cons =>
    intro n scope a as p ha has hp ho hliterals index
    rw [performAll_cons]
    simp only [Tolerated, ends_bind, ends_report, falters_map]
    refine Ends.imp (ha hp ho hliterals.1) (fun flow q hq => ?_) fun _ _ hs => hs
    cases flow with
    | next =>
      exact (has q hq.tolerates (hq.grows.tree.owns ho) hliterals.2 (index + 1)).after hq
    | ret => exact hq
  case body =>
    intro n scope a as p hbody hL hp ho hliterals
    refine attempt_ends_of_served (fun _ => ?_) fun cause => .refl _ hp
    have hinner : ∀ id q, q.Tolerates M → q.scopes.owns id = true →
        Tolerated M n id.index q (performAll (enter n) id 0 as) := fun id q hq hlive =>
      hL id q hq hlive (hliterals.body hbody) 0
    cases a with
    | defineNamespace name body =>
      cases hbody
      rw [perform]
      exact Tolerated.opening hp (openNamespace_opened hp.tree ho name) (.refl _ hp) hinner
    | defineClass name body =>
      cases hbody
      rw [perform]
      refine Tolerated.opening hp (openClass_opened hp.tree ho name) ?_ hinner
      exact Refuses.bears (.numbered : Refuses p (.defineClass name as) _) hp hliterals _
    | _ => cases hbody
  case plain =>
    intro n scope a p hbody hL hp ho hliterals
    refine attempt_ends_of_served (fun hserved => ?_) fun cause => .refl _ hp
    by_cases hcall : ∃ name arity, a = .call name arity
    · obtain ⟨name, arity, rfl⟩ := hcall
      rw [perform]
      refine call_tolerated hp ho hserved fun m hm => ?_
      refine callMethod_tolerated hp hm hserved.operands fun frame q hq htq hlimit => ?_
      have hdepth : q.callDepth = p.callDepth + 1 := hq.grows.depth
      cases n with
      | zero =>
        refine Or.inl ⟨by omega, fun limit hmode => ?_⟩
        have := hlimit limit hmode
        omega
      | succ k =>
        refine Ends.imp (hL k rfl frame.scope m.body q htq (hq.live hp.tree) hm.body 0)
          (fun _ r hr => hr) fun s r hs => ?_
        refine hs.imp (fun _ hr => hr) fun hr => ?_
        exact hr.imp_left fun hover => hover.of_eq (by omega) hq.grows.mode
    · refine Ends.imp (perform_effects hbody fun name arity he => hcall ⟨name, arity, he⟩)
        (fun flow q hq => hq.bears hp ho hliterals) ?_
      rintro s q ⟨hq, hs⟩
      exact falters_of_stopCause hp ho hliterals hserved hq hs

end Exec

end ActionMachine
