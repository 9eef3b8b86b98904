import ActionMachine.Proofs.Holding
import ActionMachine.Proofs.Storage

/-
  What every action keeps. `Program.Sound` ties the parts of a program together: the tree is sound,
  storage is exact, every method at hand was defined in a scope that stays, and no cell holds a
  reference. `Program.Grows` says what stays as it was. `Performs.keeps` and `Refuses.keeps` carry
  both over one action that opens no body.
-/

namespace ActionMachine

/-! ## Sound programs -/

/-- A method that can be called: its scope stays for good, its parameters have different names and
cells of the arena for their defaults, and its body holds no method as a literal. -/
structure ScopeTree.Admits (t : ScopeTree) (m : Method) : Prop where
  live : t.owns m.scope = true
  kept : m.scope.index < t.retained
  params : (m.params.slots.toList.map (·.name)).Nodup
  defaults : m.params.Static
  body : Action.allMethodFree m.body = true

theorem ScopeTree.Admits.mono {t u : ScopeTree} {m : Method} (h : t.Admits m)
    (he : t.Extends u) (hr : t.retained ≤ u.retained) : u.Admits m :=
  ⟨he.owns h.live, Nat.lt_of_lt_of_le h.kept hr, h.params, h.defaults, h.body⟩

/-- No cell of the arena and no cell of the frame holds a reference. -/
structure Memory.Plain (m : Memory) : Prop where
  arena : m.arena.All (·.isReference = false)
  frame : m.frame.All (·.isReference = false)

theorem Memory.Plain.set {m : Memory} (h : m.Plain) {v : Value} (hv : v.isReference = false)
    (target : CellRef) : (m.set target v).Plain := by
  rcases m.set_cases target v with ⟨i, -, he⟩ | ⟨i, -, he⟩ | ⟨i, -, he⟩ | he <;> rw [he]
  · exact ⟨h.arena.set hv i, h.frame⟩
  · exact ⟨h.arena, h.frame.set hv i⟩
  · exact ⟨h.arena, h.frame⟩
  · exact h

structure Program.Sound (p : Program) : Prop where
  tree : p.scopes.Sound
  storage : Storage p.scopes p.memory
  methods : p.memory.read.EachMethod p.scopes.Admits
  returned : p.returned.EachMethod p.scopes.Admits
  plain : p.memory.Plain
  host : p.host.MakesNoMethod

/-- Every slot of a live scope leads to a cell that can be read, and that holds no reference. -/
theorem Program.Sound.exists_read {p : Program} (h : p.Sound) {site : Site} {target : CellRef}
    (ht : p.scopes.target? site = some target) :
    ∃ v, p.memory.read target = some v ∧ v.isReference = false := by
  cases hcall : p.scopes.isCallAt site.scope with
  | true =>
    obtain ⟨k, hk, rfl⟩ := h.storage.frame site target ht hcall
    obtain ⟨v, hv⟩ := Cells.exists_get? hk
    exact ⟨v, hv, h.plain.frame k v hv⟩
  | false =>
    obtain ⟨k, hk, rfl⟩ := h.storage.arena site target ht hcall
    obtain ⟨v, hv⟩ := Cells.exists_get? hk
    exact ⟨v, (Memory.read_staticRef k).trans hv, h.plain.arena k v hv⟩

/-- `q` is `p` after further declarations, made by actions in the scope at `current`: no other scope
of a call was given a local. -/
structure Program.Grows (current : Nat) (p q : Program) : Prop where
  tree : p.scopes.Extends q.scopes
  retained : p.scopes.retained ≤ q.scopes.retained
  calls : ∀ (i : Nat) (s s' : Scope), p.scopes.scopes[i]? = some s →
    q.scopes.scopes[i]? = some s' → s.kind.isCall = true → i ≠ current → s'.locals = s.locals
  id : q.memory.id = p.memory.id
  arena : p.memory.arena.size ≤ q.memory.arena.size
  frame : p.memory.frame.size ≤ q.memory.frame.size
  host : q.host = p.host
  mode : q.mode = p.mode
  depth : q.callDepth = p.callDepth

namespace Program

variable {p q r : Program} {current : Nat}

/-- With the same scopes only the cells are left to compare. -/
theorem Grows.of_scopes (hscopes : q.scopes = p.scopes) (hid : q.memory.id = p.memory.id)
    (harena : p.memory.arena.size ≤ q.memory.arena.size)
    (hframe : p.memory.frame.size ≤ q.memory.frame.size) (hhost : q.host = p.host)
    (hmode : q.mode = p.mode) (hdepth : q.callDepth = p.callDepth) : Grows current p q := by
  refine ⟨hscopes ▸ .refl _, Nat.le_of_eq (congrArg _ hscopes.symm), fun i s s' hs hs' _ _ => ?_,
    hid, harena, hframe, hhost, hmode, hdepth⟩
  rw [hscopes, hs] at hs'
  cases hs'
  rfl

theorem Grows.refl (current : Nat) (p : Program) : Grows current p p :=
  .of_scopes rfl rfl (Nat.le_refl _) (Nat.le_refl _) rfl rfl rfl

theorem Grows.trans (h1 : Grows current p q) (h2 : Grows current q r) : Grows current p r := by
  refine ⟨h1.tree.trans h2.tree, Nat.le_trans h1.retained h2.retained, ?_, h2.id.trans h1.id,
    Nat.le_trans h1.arena h2.arena, Nat.le_trans h1.frame h2.frame, h2.host.trans h1.host,
    h2.mode.trans h1.mode, h2.depth.trans h1.depth⟩
  intro i s s'' hs hs'' hcall hne
  obtain ⟨s', hs', he⟩ := h1.tree.scope i s hs
  exact (h2.calls i s' s'' hs' hs'' (he.isCall_eq.trans hcall) hne).trans
    (h1.calls i s s' hs hs' hcall hne)

/-- The locals of a scope that is not that of a call may change under any name of growth. -/
theorem Grows.outward {inner : Nat} (h : Grows inner p q)
    (hopen : p.scopes.isCallAt inner = false) : Grows current p q := by
  refine ⟨h.tree, h.retained, fun i s s' hs hs' hcall _ => ?_, h.id, h.arena, h.frame, h.host,
    h.mode, h.depth⟩
  refine h.calls i s s' hs hs' hcall ?_
  rintro rfl
  unfold ScopeTree.isCallAt at hopen
  rw [hs, Option.any_some, hcall] at hopen
  cases hopen

/-- Methods that could be called still can. -/
theorem Grows.admits (h : Grows current p q) {m : Method} (hm : p.scopes.Admits m) :
    q.scopes.Admits m := hm.mono h.tree h.retained

theorem Grows.eachMethod (h : Grows current p q) {v : Value} (hv : v.EachMethod p.scopes.Admits) :
    v.EachMethod q.scopes.Admits := Value.EachMethod.mono (fun _ => h.admits) v hv

end Program

theorem Memory.eachMethod_mono {m : Memory} {P Q : Method → Prop} (h : m.read.EachMethod P)
    (hPQ : ∀ method, P method → Q method) : m.read.EachMethod Q :=
  fun target v hv => Value.EachMethod.mono hPQ v (h target v hv)

namespace Program

variable {p q : Program}

/-- Nothing else than scopes, memory, host and returned value bears on soundness. -/
theorem Sound.congr (h : p.Sound) (hscopes : q.scopes = p.scopes) (hmemory : q.memory = p.memory)
    (hhost : q.host = p.host) (hreturned : q.returned.EachMethod p.scopes.Admits) : q.Sound := by
  refine ⟨?_, ?_, ?_, ?_, ?_, ?_⟩
  · rw [hscopes]
    exact h.tree
  · rw [hscopes, hmemory]
    exact h.storage
  · rw [hscopes, hmemory]
    exact h.methods
  · rw [hscopes]
    exact hreturned
  · rw [hmemory]
    exact h.plain
  · rw [hhost]
    exact h.host

/-! ## New stacks -/

theorem Sound.withStack (h : p.Sound) {s : Operands} (hs : s.All (·.EachMethod p.scopes.Admits)) :
    (p.withStack s).Sound :=
  ⟨h.tree, h.storage.mono rfl (Nat.le_refl _) rfl, Memory.eachMethod_restack h.methods hs,
    h.returned, ⟨h.plain.arena, h.plain.frame⟩, h.host⟩

theorem grows_withStack (current : Nat) (p : Program) (s : Operands) :
    Grows current p (p.withStack s) :=
  .of_scopes rfl rfl (Nat.le_refl _) (Nat.le_refl _) rfl rfl rfl

theorem Sound.stack (h : p.Sound) : p.memory.stack.All (·.EachMethod p.scopes.Admits) :=
  (Memory.eachMethod_read_iff.1 h.methods).2.2

end Program

namespace Exec

variable {scope : ScopeId} {p q : Program} {a : Action} {P : Method → Prop}

/-- No action puts a method on the stack that was neither in memory nor one of its literals. -/
theorem Restacks.eachMethod {s : Operands} (h : Restacks scope p a s)
    (hp : p.memory.read.EachMethod P) (hhost : p.host.MakesNoMethod) (ha : a.methodFree = true) :
    s.All (·.EachMethod P) := by
  have hall := h.all (hereditary_eachMethod P) (fun target v hv => Or.inr (hp target v hv))
    (Host.conveys_eachMethod hhost P) (fun v hv => Or.inr (Action.eachMethod_literals ha v hv))
    (constructs_of_fill (fun _ => Value.eachMethod_object.2) fun _ _ _ _ _ _ _ v hv => hp _ v hv)
  rw [Value.loose_eachMethod] at hall
  exact hall

end Exec

/-! ## New bindings -/

theorem ScopeTree.SoundUpTo.gain {t : ScopeTree} {F : ScopeId → Prop} (h : t.SoundUpTo F)
    {id : ScopeId} {s s' : Scope} {template : Bool} {slot : Slot}
    (hs : t.scopes[id.index]? = some s) (hg : s.Gains template slot s') :
    (t.set id s').SoundUpTo F := by
  refine h.set hs hg.ext (hg.sound (h.slots _ _ hs)) fun name inner hinner => Or.inl ?_
  unfold Scope.nested? at *
  rw [← hg.nested]
  exact hinner

theorem ScopeTree.isCallAt_eq {t : ScopeTree} {id : ScopeId} {s : Scope}
    (hs : t.scopes[id.index]? = some s) : t.isCallAt id.index = s.kind.isCall := by
  unfold isCallAt
  rw [hs, Option.any_some]

namespace Program

variable {p q : Program} {current : Nat} {id : ScopeId} {s s' : Scope}

/-- A change of one scope, which is the current one if it is that of a call. -/
theorem grows_set (hs : p.scopes.scopes[id.index]? = some s) (he : s.Extends s')
    (hcall : s.kind.isCall = true → id.index = current) {m : Memory} (hid : m.id = p.memory.id)
    (harena : p.memory.arena.size ≤ m.arena.size) (hframe : p.memory.frame.size ≤ m.frame.size) :
    Grows current p { p with memory := m, scopes := p.scopes.set id s' } := by
  refine ⟨ScopeTree.extends_set hs he, Nat.le_refl _, fun i r r' hr hr' hrcall hne => ?_, hid,
    harena, hframe, rfl, rfl, rfl⟩
  rw [ScopeTree.getElem?_set (Array.getElem?_eq_some_iff.1 hs).1] at hr'
  split at hr'
  · subst i
    rw [hs] at hr
    cases hr
    exact absurd (hcall hrcall) hne
  · rw [hr] at hr'
    cases hr'
    rfl

/-- A program in which one scope has gained a slot and memory the cell for it. -/
theorem Sound.gain (h : p.Sound) (hs : p.scopes.scopes[id.index]? = some s) {template : Bool}
    {slot : Slot} (hg : s.Gains template slot s') {m : Memory}
    (hstorage : Storage (p.scopes.set id s') m) (hm : m.read.EachMethod p.scopes.Admits)
    (hplain : m.Plain) :
    ({ p with memory := m, scopes := p.scopes.set id s' } : Program).Sound := by
  have hext : p.scopes.Extends (p.scopes.set id s') := ScopeTree.extends_set hs hg.ext
  have hadmits : ∀ method, p.scopes.Admits method → (p.scopes.set id s').Admits method :=
    fun method hmethod => hmethod.mono hext (Nat.le_refl _)
  exact ⟨h.tree.gain hs hg, hstorage, Memory.eachMethod_mono hm hadmits,
    Value.EachMethod.mono hadmits _ h.returned, hplain, h.host⟩

theorem Sound.gainFrame (h : p.Sound) (hs : p.scopes.scopes[id.index]? = some s)
    (hcall : s.kind.isCall = true) {template : Bool} {name : Name}
    (hg : s.Gains template ⟨name, .frame p.memory.frame.size⟩ s') {v : Value}
    (hv : v.EachMethod p.scopes.Admits) (hplain : v.isReference = false) (constant : Bool) :
    ({ p with
        memory := (p.memory.allocateFrame v constant).2
        scopes := p.scopes.set id s' } : Program).Sound := by
  have hlt : id.index < p.scopes.size := (Array.getElem?_eq_some_iff.1 hs).1
  have hext : p.scopes.Extends (p.scopes.set id s') := ScopeTree.extends_set hs hg.ext
  refine h.gain hs hg ?_ (Memory.eachMethod_allocateFrame h.methods hv constant)
    ⟨h.plain.arena, h.plain.frame.push hplain constant⟩
  exact h.storage.bindFrame ((ScopeTree.isCallAt_eq hs).trans hcall)
    (fun i hi => hext.isCallAt_eq hi) hlt (ScopeTree.target?_eq_none_of_size hs template)
    (ScopeTree.target?_set hs hg) v constant

theorem Sound.gainArena (h : p.Sound) (hs : p.scopes.scopes[id.index]? = some s)
    (hcall : s.kind.isCall = false) {template : Bool} {name : Name}
    (hg : s.Gains template ⟨name, p.memory.staticRef p.memory.arena.size⟩ s') {v : Value}
    (hv : v.EachMethod p.scopes.Admits) (hplain : v.isReference = false) (constant : Bool) :
    ({ p with
        memory := (p.memory.allocate v constant).2
        scopes := p.scopes.set id s' } : Program).Sound := by
  have hlt : id.index < p.scopes.size := (Array.getElem?_eq_some_iff.1 hs).1
  have hext : p.scopes.Extends (p.scopes.set id s') := ScopeTree.extends_set hs hg.ext
  refine h.gain hs hg ?_ (Memory.eachMethod_allocate h.methods hv constant)
    ⟨h.plain.arena.push hplain constant, h.plain.frame⟩
  exact h.storage.bindArena ((ScopeTree.isCallAt_eq hs).trans hcall)
    (fun i hi => hext.isCallAt_eq hi) hlt (ScopeTree.target?_eq_none_of_size hs template)
    (ScopeTree.target?_set hs hg) v constant

/-- Keeping a live scope for good. -/
theorem Sound.retain (h : p.Sound) (ho : p.scopes.owns id = true) :
    ({ p with scopes := p.scopes.retain id } : Program).Sound := by
  have hadmits : ∀ method, p.scopes.Admits method → (p.scopes.retain id).Admits method :=
    fun method hmethod => hmethod.mono (ScopeTree.extends_retain id) (Nat.le_max_left _ _)
  exact ⟨h.tree.retain ho, h.storage.of_same_sites (fun _ => rfl) fun _ _ => rfl,
    Memory.eachMethod_mono h.methods hadmits, Value.EachMethod.mono hadmits _ h.returned, h.plain,
    h.host⟩

theorem grows_retain (current : Nat) (p : Program) (id : ScopeId) :
    Grows current p { p with scopes := p.scopes.retain id } := by
  refine ⟨ScopeTree.extends_retain id, Nat.le_max_left _ _, (Grows.refl current p).calls, rfl,
    Nat.le_refl _, Nat.le_refl _, rfl, rfl, rfl⟩

end Program

namespace Exec

variable {scope : ScopeId} {p q : Program} {a : Action} {flow : Flow}

/-- The program is sound and has only grown. -/
structure Keeps (current : Nat) (p q : Program) : Prop where
  sound : q.Sound
  grows : p.Grows current q

theorem Bound.returned_eq {id : ScopeId} {name : Name} {v : Value} {constant : Bool}
    (h : Bound p id name v constant q) : q.returned = p.returned := by
  cases h <;> rfl

theorem Bound.grows {id : ScopeId} {name : Name} {v : Value} {constant : Bool} {current : Nat}
    (h : Bound p id name v constant q)
    (hcurrent : ∀ s, p.scopes.get? id = some s → s.kind.isCall = true → id.index = current) :
    p.Grows current q := by
  cases h with
  | @inFrame s s' hget hcall h =>
    exact Program.grows_set (ScopeTree.get?_eq_some_iff.1 hget).2 (Scope.gains_of_addLocal h).ext
      (hcurrent s hget) rfl (Nat.le_refl _) (Cells.size_le_push v constant)
  | @inArena s s' hget hcall h =>
    exact Program.grows_set (ScopeTree.get?_eq_some_iff.1 hget).2 (Scope.gains_of_addLocal h).ext
      (hcurrent s hget) rfl (Cells.size_le_push v constant) (Nat.le_refl _)

theorem Bound.tree {F : ScopeId → Prop} {id : ScopeId} {name : Name} {v : Value} {constant : Bool}
    (h : Bound p id name v constant q) (ht : p.scopes.SoundUpTo F) : q.scopes.SoundUpTo F := by
  cases h with
  | inFrame hget _ h =>
    exact ht.gain (ScopeTree.get?_eq_some_iff.1 hget).2 (Scope.gains_of_addLocal h)
  | inArena hget _ h =>
    exact ht.gain (ScopeTree.get?_eq_some_iff.1 hget).2 (Scope.gains_of_addLocal h)

theorem Bound.sound {id : ScopeId} {name : Name} {v : Value} {constant : Bool}
    (h : Bound p id name v constant q) (hp : p.Sound) (hv : v.EachMethod p.scopes.Admits)
    (hplain : v.isReference = false) : q.Sound := by
  cases h with
  | inFrame hget hcall h =>
    exact hp.gainFrame (ScopeTree.get?_eq_some_iff.1 hget).2 hcall (Scope.gains_of_addLocal h) hv
      hplain constant
  | inArena hget hcall h =>
    exact hp.gainArena (ScopeTree.get?_eq_some_iff.1 hget).2 hcall (Scope.gains_of_addLocal h) hv
      hplain constant

theorem Bound.keeps {id : ScopeId} {name : Name} {v : Value} {constant : Bool} {current : Nat}
    (h : Bound p id name v constant q) (hp : p.Sound) (hv : v.EachMethod p.scopes.Admits)
    (hplain : v.isReference = false)
    (hcurrent : ∀ s, p.scopes.get? id = some s → s.kind.isCall = true → id.index = current) :
    Keeps current p q := ⟨h.sound hp hv hplain, h.grows hcurrent⟩

theorem Keeps.refl (current : Nat) (hp : p.Sound) : Keeps current p p := ⟨hp, .refl current p⟩

theorem Keeps.trans {current : Nat} {r : Program} (h1 : Keeps current p q)
    (h2 : Keeps current q r) : Keeps current p r := ⟨h2.sound, h1.grows.trans h2.grows⟩

theorem Keeps.withStack {current : Nat} (h : Keeps current p q) {s : Operands}
    (hs : s.All (·.EachMethod q.scopes.Admits)) : Keeps current p (q.withStack s) :=
  ⟨h.sound.withStack hs, h.grows.trans (Program.grows_withStack _ q s)⟩

/-- A change of neither scopes nor memory. -/
theorem Keeps.of_same {current : Nat} (hp : p.Sound) (hscopes : q.scopes = p.scopes)
    (hmemory : q.memory = p.memory) (hhost : q.host = p.host) (hmode : q.mode = p.mode)
    (hdepth : q.callDepth = p.callDepth) (hreturned : q.returned.EachMethod p.scopes.Admits) :
    Keeps current p q := by
  have harena : p.memory.arena.size = q.memory.arena.size := by rw [hmemory]
  have hframe : p.memory.frame.size = q.memory.frame.size := by rw [hmemory]
  exact ⟨hp.congr hscopes hmemory hhost hreturned, .of_scopes hscopes (congrArg Memory.id hmemory)
    (Nat.le_of_eq harena) (Nat.le_of_eq hframe) hhost hmode hdepth⟩

/-! ## One action

  What an action does to scopes and sizes (`Performs.grows`, `Performs.tree`) needs a sound tree,
  and nothing of what memory holds. -/

/-- If a name is bound in the scope of a call, that is the current one. -/
theorem Binds.current {F : ScopeId → Prop} {id : ScopeId} {name : Name} {v : Value}
    {constant : Bool} (h : Binds scope p a id name v constant) (ht : p.scopes.SoundUpTo F)
    (s : Scope) (hs : p.scopes.get? id = some s) (hcall : s.kind.isCall = true) :
    id.index = scope.index := by
  cases h with
  | declareLocal => rfl
  | declareConstant _ => rfl
  | addStaticMember hid _ =>
    -- a class is not the scope of a call
    obtain ⟨classScope, hget, hclass⟩ := ScopeTree.resolveClass_eq_ok hid
    rw [hs] at hget
    cases hget
    rw [(ht.slots _ s (ScopeTree.get?_eq_some_iff.1 hs).2).isCall_of_isClass hclass] at hcall
    cases hcall

theorem Defaults.grows {params : List Parameter} {current : Nat} (h : Defaults p params q) :
    p.Grows current q := by
  induction h with
  | @stop p => exact .refl current p
  | @next p q param params w _ _ _ ih =>
    have hallocated : p.Grows current { p with memory := (p.memory.allocate w true).2 } :=
      .of_scopes rfl rfl (Cells.size_le_push w true) (Nat.le_refl _) rfl rfl rfl
    exact hallocated.trans ih

/-- A scope may be retained before or after a name is bound. -/
theorem Bound.retain {id kept : ScopeId} {name : Name} {v : Value} {constant : Bool}
    (h : Bound p id name v constant q) :
    Bound { p with scopes := p.scopes.retain kept } id name v constant
      { q with scopes := q.scopes.retain kept } := by
  cases h with
  | inFrame hget hcall h => exact .inFrame hget hcall h
  | inArena hget hcall h => exact .inArena hget hcall h

theorem Performs.grows {F : ScopeId → Prop} (h : Performs scope p a flow q)
    (ht : p.scopes.SoundUpTo F) : p.Grows scope.index q := by
  cases h with
  | @restack _ s h => exact Program.grows_withStack _ p s
  | bind h hbound => exact hbound.grows (h.current ht)
  | @store _ target v _ s _ _ _ =>
    exact .of_scopes rfl (p.memory.set_id target v)
      (Nat.le_of_eq (p.memory.size_arena_set target v).symm)
      (Nat.le_of_eq (p.memory.size_frame_set target v).symm) rfl rfl rfl
  | @addInstanceMember _ _ _ w id s template template' hid hw hscope htemplate h =>
    have hslot := (ScopeTree.get?_eq_some_iff.1 hscope).2
    refine Program.grows_set hslot (Scope.gains_of_setTemplate htemplate h).ext (fun hcall => ?_)
      rfl (Cells.size_le_push w false) (Nat.le_refl _)
    rw [(ht.slots _ s hslot).isCall_of_isClass (Scope.isClass_of_template? htemplate)] at hcall
    cases hcall
  | @defineMethod _ _ _ _ p' q _ _ hd hbound =>
    exact (hd.grows.trans (hbound.grows fun _ _ _ => rfl)).trans (Program.grows_retain _ q scope)
  | @ret _ _ s _ _ _ => exact .of_scopes rfl rfl (Nat.le_refl _) (Nat.le_refl _) rfl rfl rfl
  | debugPrint _ _ _ => exact .of_scopes rfl rfl (Nat.le_refl _) (Nat.le_refl _) rfl rfl rfl

theorem Performs.tree {F : ScopeId → Prop} (h : Performs scope p a flow q)
    (ht : p.scopes.SoundUpTo F) (hlive : p.scopes.owns scope = true) : q.scopes.SoundUpTo F := by
  cases h with
  | restack _ => exact ht
  | bind _ hbound => exact hbound.tree ht
  | store _ _ _ => exact ht
  | addInstanceMember _ _ hscope htemplate h =>
    exact ht.gain (ScopeTree.get?_eq_some_iff.1 hscope).2
      (Scope.gains_of_setTemplate htemplate h)
  | @defineMethod _ _ _ _ p' q _ _ hd hbound =>
    have hgrows : p'.Grows scope.index q := hbound.grows fun _ _ _ => rfl
    rw [← hd.scopes_eq] at ht hlive
    exact (hbound.tree ht).retain (hgrows.tree.owns hlive)
  | ret _ _ _ => exact ht
  | debugPrint _ _ _ => exact ht

/-- The scope of a method that was defined stays for good. -/
theorem Performs.retained_of_defineMethod {name : Name} {params : List Parameter}
    {body : List Action} (h : Performs scope p (.defineMethod name params body) flow q) :
    scope.index < q.scopes.retained := by
  cases h with
  | restack h => cases h
  | bind h _ => cases h
  | store h _ _ => cases h
  | defineMethod => exact Nat.lt_of_lt_of_le (Nat.lt_succ_self _) (Nat.le_max_right _ _)

theorem Refuses.grows (h : Refuses p a q) (current : Nat) : p.Grows current q := by
  cases h with
  | same => exact .refl current p
  | numbered => exact .of_scopes rfl rfl (Nat.le_refl _) (Nat.le_refl _) rfl rfl rfl
  | defaulted h => exact h.grows
  | @placed _ _ s _ _ => exact Program.grows_withStack current p s

theorem Refuses.scopes_eq (h : Refuses p a q) : q.scopes = p.scopes := by
  cases h with
  | defaulted h => exact h.scopes_eq
  | _ => rfl

/-! ## What memory holds -/

theorem Binds.sound {id : ScopeId} {name : Name} {v : Value} {constant : Bool}
    (h : Binds scope p a id name v constant) (hbound : Bound p id name v constant q)
    (hp : p.Sound) (ha : a.methodFree = true) : q.Sound := by
  cases h with
  | declareLocal => exact hbound.sound hp trivial rfl
  | declareConstant hw =>
    exact hbound.sound hp (hp.methods.owned (Value.eachMethod_of_methodFree _ ha) hw)
      (Reader.isReference_owned hw)
  | addStaticMember _ hw =>
    exact hbound.sound hp (hp.methods.owned (Value.eachMethod_of_methodFree _ ha) hw)
      (Reader.isReference_owned hw)

theorem Stores.sound {target : CellRef} {v : Value} {s : Operands}
    (h : Stores scope p a target v s) (hp : p.Sound) (ha : a.methodFree = true) :
    ({ p with memory := { p.memory.set target v with stack := s } } : Program).Sound := by
  obtain ⟨hv, hplain⟩ := h.value (hereditary_eachMethod _)
    (fun target v hv => Or.inr (hp.methods target v hv))
    fun v hv => Or.inr (Action.eachMethod_literals ha v hv)
  have hset := Memory.eachMethod_set hp.methods hv target
  have hstack := h.stack_all (Memory.eachMethod_read_iff.1 hset).2.2
  have hplains := hp.plain.set hplain target
  exact ⟨hp.tree, hp.storage.mono (p.memory.set_id target v)
    (Nat.le_of_eq (p.memory.size_arena_set target v).symm) (p.memory.size_frame_set target v),
    Memory.eachMethod_restack hset hstack, hp.returned, ⟨hplains.arena, hplains.frame⟩, hp.host⟩

theorem Defaults.sound {params : List Parameter} (h : Defaults p params q) (hp : p.Sound)
    (hparams : params.all Parameter.methodFree = true) : q.Sound := by
  induction h with
  | stop => exact hp
  | @next p q param params w hw hnone hrest ih =>
    rw [List.all_cons, Bool.and_eq_true] at hparams
    have hvalue : w.EachMethod p.scopes.Admits ∧ w.isReference = false :=
      default_value (hereditary_eachMethod _) (fun target v hv => Or.inr (hp.methods target v hv))
        hw hnone fun v hv => Or.inr (Parameter.eachMethod_default hparams.1 hv)
    refine ih ?_ hparams.2
    exact ⟨hp.tree, hp.storage.mono rfl (Cells.size_le_push w true) rfl,
      Memory.eachMethod_allocate hp.methods hvalue.1 true, hp.returned,
      ⟨hp.plain.arena.push hvalue.2 true, hp.plain.frame⟩, hp.host⟩

theorem Performs.sound (h : Performs scope p a flow q) (hp : p.Sound)
    (hlive : p.scopes.owns scope = true) (ha : a.methodFree = true) : q.Sound := by
  cases h with
  | restack h => exact hp.withStack (h.eachMethod hp.methods hp.host ha)
  | bind h hbound => exact h.sound hbound hp ha
  | store h _ _ => exact h.sound hp ha
  | addInstanceMember _ hw hscope htemplate h =>
    have hslot := (ScopeTree.get?_eq_some_iff.1 hscope).2
    exact hp.gainArena hslot
      ((hp.tree.slots _ _ hslot).isCall_of_isClass (Scope.isClass_of_template? htemplate))
      (Scope.gains_of_setTemplate htemplate h)
      (hp.methods.owned (Value.eachMethod_of_methodFree _ ha) hw) (Reader.isReference_owned hw)
      false
  | @defineMethod name params body slots p' q hslots hstatic hd hbound =>
    have hfree : params.all Parameter.methodFree = true ∧ Action.allMethodFree body = true :=
      Bool.and_eq_true_iff.1 ha
    have hlive' : p'.scopes.owns scope = true := hd.scopes_eq ▸ hlive
    -- the method may be called once its scope is retained
    refine hbound.retain.sound ((hd.sound hp hfree.1).retain hlive') ?_ rfl
    exact ⟨hlive', Nat.lt_of_lt_of_le (Nat.lt_succ_self _) (Nat.le_max_right _ _),
      hslots.nodup_names, hstatic, hfree.2⟩
  | ret hv hw hs =>
    exact (hp.withStack (hp.stack.pop hs)).congr rfl rfl rfl
      (hp.methods.owned (hp.stack.topAt hv) hw)
  | debugPrint _ _ _ => exact hp.congr rfl rfl rfl hp.returned

theorem Refuses.sound (h : Refuses p a q) (hp : p.Sound) (ha : a.methodFree = true) : q.Sound := by
  cases h with
  | same => exact hp
  | numbered => exact hp.congr rfl rfl rfl hp.returned
  | defaulted h => exact h.sound hp (Bool.and_eq_true_iff.1 ha).1
  | placed _ h => exact hp.withStack (h _ hp.methods)

theorem Performs.keeps (h : Performs scope p a flow q) (hp : p.Sound)
    (hlive : p.scopes.owns scope = true) (ha : a.methodFree = true) : Keeps scope.index p q :=
  ⟨h.sound hp hlive ha, h.grows hp.tree⟩

theorem Refuses.keeps (h : Refuses p a q) (hp : p.Sound) (ha : a.methodFree = true)
    (current : Nat) : Keeps current p q := ⟨h.sound hp ha, h.grows current⟩

end Exec

end ActionMachine
