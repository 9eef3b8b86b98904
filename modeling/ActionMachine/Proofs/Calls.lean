import ActionMachine.Proofs.Growth

/-
  Calls of methods of the program. A call pushes its scope on top of all others and its cells on
  top of the frame; while it runs, no other scope of a call is given a cell. When it ends, either
  its scope and all that was pushed since go together with exactly the cells they bind, or
  something was retained and all of it stays. Either way the caller finds a sound program that has
  only grown.
-/

namespace ActionMachine

/-! ## The end of a call -/

namespace Program

variable {p q r : Program} {m : Method} {current : Nat}

/-- The program with the scope of a new call. -/
def called (p : Program) (m : Method) : Program :=
  { p with
    scopes := (p.scopes.pushCallScope m.scope m.name).2
    callDepth := p.callDepth + 1 }

theorem slots_call (name : Name) (lexical : ScopeId) (template : Bool) :
    (Scope.call name lexical).slots template = #[] := by
  cases template <;> rfl

theorem Sound.called (hp : p.Sound) (hm : p.scopes.Admits m) : (p.called m).Sound := by
  have hext : p.scopes.Extends (p.called m).scopes := ScopeTree.extends_push _
  have hadmits : ∀ method, p.scopes.Admits method → (p.called m).scopes.Admits method :=
    fun method hmethod => hmethod.mono hext (Nat.le_refl _)
  refine ⟨hp.tree.pushCallScope (Or.inr hm.live) m.name, ?_,
    Memory.eachMethod_mono hp.methods hadmits, Value.EachMethod.mono hadmits _ hp.returned,
    hp.plain, hp.host⟩
  exact hp.storage.of_same_sites (ScopeTree.target?_push (slots_call m.name m.scope))
    fun i hi => hext.isCallAt_eq hi

/-- The locals of a call that is not the current one are bound to the same cells. -/
theorem Grows.target?_eq {F : ScopeId → Prop} (h : Grows current p q) (hq : q.scopes.SoundUpTo F)
    {site : Site} (hne : site.scope ≠ current) (hcall : p.scopes.isCallAt site.scope = true) :
    q.scopes.target? site = p.scopes.target? site := by
  obtain ⟨s, hs, hkind⟩ := ScopeTree.isCallAt_eq_true_iff.1 hcall
  obtain ⟨s', hs', he⟩ := h.tree.scope _ s hs
  have hlocals := h.calls _ s s' hs hs' hkind hne
  -- the scope of a call has no template
  have hclass : s'.isClass = false :=
    (hq.slots _ s' hs').isClass_of_isCall (he.isCall_eq.trans hkind)
  unfold ScopeTree.target?
  rw [hs, hs', Option.bind_some, Option.bind_some]
  cases site.template with
  | false =>
    unfold Scope.slots
    rw [hlocals]
  | true => rw [Scope.slots_of_isClass hclass, Scope.slots_of_isClass (he.isClass_eq ▸ hclass)]

/-- While a call runs, its scope and those above bind exactly the cells pushed since. -/
theorem Grows.frame_split (hg : Grows p.scopes.size (p.called m) r) (hp : p.Sound) (hr : r.Sound)
    (site : Site) (k : Nat) (ht : r.scopes.target? site = some (.frame k)) :
    site.scope < p.scopes.size ↔ k < p.memory.frame.size := by
  have hext : p.scopes.Extends (p.called m).scopes := ScopeTree.extends_push _
  -- sites below the call have not changed
  have hsame : ∀ below : Site, below.scope < p.scopes.size →
      p.scopes.isCallAt below.scope = true →
        r.scopes.target? below = p.scopes.target? below := by
    intro below hlt hcall
    rw [hg.target?_eq hr.tree (Nat.ne_of_lt hlt) ((hext.isCallAt_eq hlt).trans hcall)]
    exact ScopeTree.target?_push (slots_call m.name m.scope) below
  constructor
  · intro hlt
    have hcall : p.scopes.isCallAt site.scope = true := by
      rw [← (hext.trans hg.tree).isCallAt_eq hlt]
      exact hr.storage.isCallAt_of_frame ht
    rw [hsame site hlt hcall] at ht
    obtain ⟨k', hk', he⟩ := hp.storage.frame site _ ht hcall
    cases he
    exact hk'
  · intro hk
    obtain ⟨other, hother⟩ := hp.storage.onto k hk
    have hlt := ScopeTree.lt_size_of_target? hother
    have hstill := hsame other hlt (hp.storage.isCallAt_of_frame hother)
    rw [hr.storage.inj site other _ ht (hstill.trans hother)]
    exact hlt

/-- The program without the scopes from `index` on and the cells from `cells` on, unless one of
the scopes is kept for good. -/
def released (r : Program) (index cells : Nat) : Program :=
  if index < r.scopes.retained then r
  else
    { r with
      scopes := { r.scopes with scopes := r.scopes.scopes.shrink index }
      memory := { r.memory with frame := r.memory.frame.truncate cells } }

theorem Grows.size_lt (hg : Grows p.scopes.size (p.called m) r) :
    p.scopes.size < r.scopes.size := by
  have hle := hg.tree.size_le
  have hsize : (p.called m).scopes.size = p.scopes.size + 1 := ScopeTree.size_push _
  omega

theorem tree_released {F : ScopeId → Prop} (ht : r.scopes.SoundUpTo F) {index : Nat}
    (hindex : index ≤ r.scopes.size) (cells : Nat) :
    (r.released index cells).scopes.SoundUpTo F := by
  unfold Program.released
  split
  · exact ht
  · exact ht.shrink (Nat.le_of_not_lt ‹_›) hindex

theorem Sound.released (hr : r.Sound) (hp : p.Sound)
    (hg : Grows p.scopes.size (p.called m) r) :
    (r.released p.scopes.size p.memory.frame.size).Sound := by
  have hlt := hg.size_lt
  have htree := tree_released hr.tree (Nat.le_of_lt hlt) p.memory.frame.size
  unfold Program.released at htree ⊢
  split at htree
  · rw [if_pos ‹_›]
    exact hr
  · rw [if_neg ‹_›]
    have hretained : r.scopes.retained ≤ p.scopes.size := by omega
    -- a method lies in a scope that is kept for good, so it can still be called
    have hadmits : ∀ method, r.scopes.Admits method →
        ({ r.scopes with scopes := r.scopes.scopes.shrink p.scopes.size } : ScopeTree).Admits
          method := by
      intro method hmethod
      have hkept := hmethod.kept
      exact ⟨ScopeTree.owns_shrink (Nat.le_of_lt hlt) hmethod.live (by omega), hkept,
        hmethod.params, hmethod.defaults, hmethod.body⟩
    obtain ⟨harena, hframe, hstack⟩ := Memory.eachMethod_read_iff.1 hr.methods
    refine ⟨htree, hr.storage.release hg.frame (hg.frame_split hp hr), ?_,
      Value.EachMethod.mono hadmits _ hr.returned, ⟨hr.plain.arena, hr.plain.frame.truncate _⟩,
      hr.host⟩
    exact Memory.eachMethod_mono (Memory.eachMethod_read_iff.2
      ⟨harena, hframe.truncate _, hstack⟩) hadmits

/-- What is left of a program to which the scope of a call was added is that program, after further
declarations. -/
theorem Grows.released (hg : Grows p.scopes.size
      { p with scopes := (p.scopes.pushCallScope m.scope m.name).2 } r) :
    Grows current p (r.released p.scopes.size p.memory.frame.size) := by
  have hext : p.scopes.Extends (p.scopes.pushCallScope m.scope m.name).2 :=
    ScopeTree.extends_push _
  -- scopes below the call are those of the program after the body
  have hbelow : ∀ i, i < p.scopes.size →
      (r.released p.scopes.size p.memory.frame.size).scopes.scopes[i]? = r.scopes.scopes[i]? := by
    intro i hi
    unfold Program.released
    split
    · rfl
    · show (r.scopes.scopes.shrink p.scopes.size)[i]? = r.scopes.scopes[i]?
      rw [getElem?_shrink, if_pos hi]
  have hrest : (r.released p.scopes.size p.memory.frame.size).scopes.id = r.scopes.id ∧
      (r.released p.scopes.size p.memory.frame.size).scopes.retained = r.scopes.retained ∧
      (r.released p.scopes.size p.memory.frame.size).memory.id = r.memory.id ∧
      (r.released p.scopes.size p.memory.frame.size).memory.arena = r.memory.arena ∧
      (r.released p.scopes.size p.memory.frame.size).host = r.host ∧
      (r.released p.scopes.size p.memory.frame.size).mode = r.mode ∧
      (r.released p.scopes.size p.memory.frame.size).callDepth = r.callDepth := by
    unfold Program.released
    split <;> exact ⟨rfl, rfl, rfl, rfl, rfl, rfl, rfl⟩
  obtain ⟨htree, hretained, hid, harena, hhost, hmode, hdepth⟩ := hrest
  refine ⟨⟨htree.trans hg.tree.id, fun i s hs => ?_⟩, hretained ▸ hg.retained,
    fun i s s' hs hs' hcall _ => ?_, hid.trans hg.id, harena ▸ hg.arena, ?_, hhost.trans hg.host,
    hmode.trans hg.mode, hdepth.trans hg.depth⟩
  · rw [hbelow i (Array.getElem?_eq_some_iff.1 hs).1]
    exact (hext.trans hg.tree).scope i s hs
  · have hlt : i < p.scopes.size := (Array.getElem?_eq_some_iff.1 hs).1
    rw [hbelow i hlt] at hs'
    have hpushed : (p.scopes.pushCallScope m.scope m.name).2.scopes[i]? = some s := by
      show (p.scopes.push _).2.scopes[i]? = some s
      rw [ScopeTree.getElem?_push, if_neg (Nat.ne_of_lt hlt)]
      exact hs
    exact hg.calls i s s' hpushed hs' hcall (Nat.ne_of_lt hlt)
  · show p.memory.frame.size ≤ _
    unfold Program.released
    split
    · exact hg.frame
    · exact Nat.le_of_eq (Cells.size_truncate hg.frame).symm

end Program

namespace Exec

variable {scope : ScopeId} {p q r : Program} {m : Method}

theorem releaseCallScope_eq {t : ScopeTree} {id : ScopeId} {s : Scope} (hget : t.get? id = some s)
    (hcall : s.kind.isCall = true) :
    t.releaseCallScope id = .ok (if id.index < t.retained then (false, t)
      else (true, { t with scopes := t.scopes.shrink id.index })) := by
  unfold ScopeTree.releaseCallScope
  rw [ScopeTree.get_eq_ok_iff.2 hget]
  simp only [bind, Except.bind, hcall, Bool.not_true, Bool.false_eq_true, if_false, pure,
    Except.pure]
  split <;> rfl

theorem ends_leave {id : ScopeId} {s : Scope} (hget : p.scopes.get? id = some s)
    (hcall : s.kind.isCall = true) {cells base : Nat} {done : Unit → Program → Prop}
    {stopped : Stop Fault → Program → Prop} :
    Ends (leave id cells base) p done stopped ↔
      done () ((p.withStack (p.memory.stack.truncate base)).released id.index cells) := by
  have hrelease := releaseCallScope_eq hget hcall
  simp only [leave, ends_bind, ends_modify, ends_get, ends_liftViolation]
  change (∀ b, p.scopes.releaseCallScope id = .ok b → _) ∧
    (∀ v, p.scopes.releaseCallScope id = .error v → _) ↔ _
  unfold Program.released
  change _ ↔ done () (if id.index < p.scopes.retained then _ else _)
  rw [hrelease]
  by_cases hkept : id.index < p.scopes.retained
  · simp only [if_pos hkept, Except.ok.injEq, forall_eq', reduceCtorEq, false_implies,
      implies_true, and_true, ends_setScopes, Bool.false_eq_true, if_false, ends_pure]
    rfl
  · simp only [if_neg hkept, Except.ok.injEq, forall_eq', reduceCtorEq, false_implies,
      implies_true, and_true, ends_setScopes, if_true, ends_modify]
    rfl

/-! ## The start of a call -/

/-- Parameters of different names, none of which the scope has, are all bound. -/
theorem bindArguments_ends {id : ScopeId} {s : Scope} (hp : p.Sound)
    (hget : p.scopes.get? id = some s) (hcall : s.kind.isCall = true)
    {args : List (Slot × Value)} (hnodup : (args.map (·.1.name)).Nodup)
    (hfree : ∀ arg ∈ args, s.locals.contains arg.1.name = false)
    (hvalues : ∀ arg ∈ args, arg.2.EachMethod p.scopes.Admits ∧ arg.2.isReference = false) :
    Ends (bindArguments id args) p (fun _ q => Keeps id.index p q ∧
        q.memory.stack = p.memory.stack ∧ q.returned = p.returned) fun _ _ => False := by
  induction args generalizing p s with
  | nil => exact ⟨.refl _ hp, rfl, rfl⟩
  | cons arg args ih =>
    obtain ⟨slot, v⟩ := arg
    simp only [bindArguments, ends_bind, ends_allocateFrame, ends_get, ends_liftStop,
      ends_setScopes]
    obtain ⟨s', hs'⟩ := exists_addLocal (hfree _ List.mem_cons_self)
      (p.memory.allocateFrame v false).1
    have hadd := addLocal_eq_ok_iff.2 ⟨s, s', hget, hs', rfl⟩
    rw [hadd]
    refine ⟨fun u hu => ?_, fun stop hstop => by cases hstop⟩
    cases hu
    have hbound : Bound p id slot.name v false _ := .inFrame hget hcall hs'
    obtain ⟨hv, hplain⟩ := hvalues _ List.mem_cons_self
    have hkeeps := hbound.keeps hp hv hplain fun _ _ _ => (rfl : id.index = id.index)
    obtain ⟨hnew, hnodup⟩ := List.nodup_cons.1 hnodup
    -- the scope now has the name that was bound, and no other of the list
    have hget' : (p.scopes.set id s').get? id = some s' := by
      obtain ⟨howns, hslot⟩ := ScopeTree.get?_eq_some_iff.1 hget
      rw [ScopeTree.get?_eq_some_iff, ScopeTree.owns_set,
        ScopeTree.getElem?_set (Array.getElem?_eq_some_iff.1 hslot).1, if_pos rfl]
      exact ⟨howns, rfl⟩
    have hgains := Scope.gains_of_addLocal hs'
    have hfree' : ∀ arg ∈ args, s'.locals.contains arg.1.name = false := by
      intro arg harg
      obtain ⟨locals, hlocals, he⟩ := bind_eq_ok_iff.1 hs'
      cases he
      rw [SlotSet.contains_insert hlocals, hfree arg (List.mem_cons_of_mem _ harg), Bool.or_false,
        decide_eq_false_iff_not]
      intro hsame
      exact hnew (List.mem_map.2 ⟨arg, harg, hsame.symm⟩)
    refine (ih hkeeps.sound hget' (hgains.ext.isCall_eq.trans hcall) hnodup hfree'
      fun arg harg => ?_).imp (fun _ q hq => ?_) fun _ _ h => h
    · obtain ⟨hv', hplain'⟩ := hvalues arg (List.mem_cons_of_mem _ harg)
      exact ⟨hkeeps.grows.eachMethod hv', hplain'⟩
    · exact ⟨hkeeps.trans hq.1, hq.2.1, hq.2.2⟩

theorem isReference_of_static (hp : p.memory.Plain) {cell : CellId} {v : Value}
    (hv : p.memory.read (.static cell) = some v) : v.isReference = false := by
  have hlive : (if cell.arena = p.memory.id then p.memory.arena.get? cell.index else none) =
      some v := hv
  split at hlive
  · exact hp.arena _ _ hlive
  · cases hlive

theorem argumentValues_ends (hp : p.Sound) (hm : p.scopes.Admits m) (arity base : Nat) :
    Ends (argumentValues m arity base) p
      (fun values q => q = p ∧
        ∀ v ∈ values, v.EachMethod p.scopes.Admits ∧ v.isReference = false)
      (Halts (fun _ q => q = p) fun _ => False) := by
  simp only [argumentValues, ends_bind, ends_get, ends_liftFault, ends_pure]
  refine ⟨fun given hgiven => ⟨fun defaults hdefaults => ⟨trivial, fun v hv => ?_⟩,
    fun f _ => rfl⟩, fun f _ => rfl⟩
  rcases List.mem_append.1 hv with hv | hv
  · obtain ⟨w, hw, howned⟩ := exists_of_mem_mapM hgiven hv
    exact ⟨hp.methods.owned (hp.stack.above w hw) howned, Reader.isReference_owned howned⟩
  · obtain ⟨slot, hslot, hread⟩ := exists_of_mem_defaultValues hdefaults hv
    obtain ⟨cell, hcell⟩ := hm.defaults slot (Array.mem_toList_iff.1 (List.mem_of_mem_drop hslot))
    rw [hcell] at hread
    exact ⟨hp.methods _ _ hread, isReference_of_static hp.plain hread⟩

/-- What a frame holds for a call from `p`, and what the body of the call finds in `q`. -/
structure Enters (F : ScopeId → Prop) (m : Method) (p : Program) (frame : Frame) (q : Program) :
    Prop where
  scope : frame.scope = ⟨p.scopes.id, p.scopes.size⟩
  cells : frame.cells = p.memory.frame.size
  handed : frame.returned = p.returned
  grows : (p.called m).Grows p.scopes.size q
  tree : q.scopes.SoundUpTo F

section Enters

variable {F : ScopeId → Prop} {frame : Frame}

theorem Enters.extends (h : Enters F m p frame q) : p.scopes.Extends q.scopes :=
  ScopeTree.Extends.trans (ScopeTree.extends_push _) h.grows.tree

/-- The scope of the call is there as long as the program only grows. -/
theorem Enters.get? (h : Enters F m p frame q) (ht : p.scopes.SoundUpTo F)
    (hr : q.Grows frame.scope.index r) :
    ∃ s, r.scopes.get? frame.scope = some s ∧ s.kind.isCall = true := by
  have hget : (p.called m).scopes.get? frame.scope = some (.call m.name m.scope) := by
    rw [h.scope]
    exact ht.get?_pushCallScope m.scope m.name
  obtain ⟨s, hs, he⟩ := (h.grows.tree.trans hr.tree).get? hget
  exact ⟨s, hs, he.isCall_eq⟩

theorem Enters.live (h : Enters F m p frame q) (ht : p.scopes.SoundUpTo F) :
    q.scopes.owns frame.scope = true := by
  obtain ⟨s, hs, -⟩ := h.get? ht (.refl _ q)
  exact (ScopeTree.get?_eq_some_iff.1 hs).1

theorem Enters.grows_after (h : Enters F m p frame q) (hr : q.Grows frame.scope.index r) :
    (p.called m).Grows p.scopes.size r := by
  have hindex : frame.scope.index = p.scopes.size := congrArg ScopeId.index h.scope
  exact h.grows.trans (hindex ▸ hr)

end Enters

/-- The body of the method is about to run in `q`, which is sound. -/
structure Entered (m : Method) (arity : Nat) (p : Program) (frame : Frame) (q : Program) :
    Prop where
  scope : frame.scope = ⟨p.scopes.id, p.scopes.size⟩
  cells : frame.cells = p.memory.frame.size
  base : frame.base = p.memory.stack.size - arity
  handed : frame.returned = p.returned
  stack : q.memory.stack = p.memory.stack.truncate frame.base
  keeps : Keeps p.scopes.size (p.called m) q
  empty : q.returned = .undefined
  limit : ∀ limit, p.mode.maxCallDepth = some limit → p.callDepth < limit

theorem names_zip_sublist (slots : List Slot) (values : List Value) :
    List.Sublist ((slots.zip values).map (·.1.name)) (slots.map (·.name)) := by
  induction slots generalizing values with
  | nil => exact .slnil
  | cons slot slots ih =>
    cases values with
    | nil => exact List.nil_sublist _
    | cons v values => exact (ih values).cons_cons _

theorem argumentValues_same (arity base : Nat) :
    Ends (argumentValues m arity base) p (fun _ q => q = p)
      (Halts (fun _ q => q = p) fun _ => False) := by
  simp only [argumentValues, ends_bind, ends_get, ends_liftFault, ends_pure]
  exact ⟨fun given _ => ⟨fun defaults _ => trivial, fun f _ => rfl⟩, fun f _ => rfl⟩

/-- Once all parameters have values, the body is entered. -/
theorem openChecked_entered (hp : p.Sound) (hm : p.scopes.Admits m) {arity : Nat}
    (harity : arity ≤ p.memory.stack.size)
    (hlimit : ∀ limit, p.mode.maxCallDepth = some limit → p.callDepth < limit)
    {values : List Value}
    (hrun : argumentValues m arity (p.memory.stack.size - arity) p = .ok values p) :
    Ends (openChecked m arity) p (Entered m arity p) fun _ _ => False := by
  have hbase := Operands.base_eq_ok_iff.2 ⟨harity, rfl⟩
  simp only [openChecked, ends_bind, ends_get, ends_liftViolation, hbase, Except.ok.injEq,
    forall_eq', reduceCtorEq, false_implies, implies_true, and_true]
  rw [ends_of_ok hrun]
  obtain ⟨-, hvalues⟩ := (argumentValues_ends hp hm arity _).of_ok hrun
  simp only [ends_modify, pushCallScope, ends_modifyGet, ends_settle]
  -- the program in which the parameters are bound
  have hcalled := (hp.called hm).withStack
    ((hp.called hm).stack.truncate (p.memory.stack.size - arity))
  have hstart : ({ p.withStack (p.memory.stack.truncate (p.memory.stack.size - arity)) with
      scopes := (p.scopes.pushCallScope m.scope m.name).2 } : Program).Sound :=
    hcalled.congr rfl rfl rfl hcalled.returned
  have hext : p.scopes.Extends (p.scopes.pushCallScope m.scope m.name).2 :=
    ScopeTree.extends_push _
  refine (bindArguments_ends hstart (hp.tree.get?_pushCallScope m.scope m.name) rfl
    ((names_zip_sublist _ values).nodup hm.params) (fun _ _ => rfl) fun arg harg => ?_).imp ?_
    fun _ _ h => h.elim
  · obtain ⟨hv, hplain⟩ := hvalues arg.2 (List.of_mem_zip harg).2
    exact ⟨Value.EachMethod.mono (fun _ h => h.mono hext (Nat.le_refl _)) _ hv, hplain⟩
  · rintro - r ⟨⟨hr, hg⟩, hstack, hreturned⟩
    simp only [ends_bind, ends_get, ends_modify, ends_pure]
    have hgrows : (p.called m).Grows p.scopes.size
        { r with returned := .undefined, callDepth := r.callDepth + 1 } :=
      ⟨hg.tree, hg.retained, hg.calls, hg.id, hg.arena, hg.frame, hg.host, hg.mode,
        congrArg (· + 1) hg.depth⟩
    exact ⟨rfl, rfl, rfl, hreturned, hstack,
      ⟨hr.congr rfl rfl rfl trivial, hgrows⟩, rfl, hlimit⟩

/-- If some parameter has no value, that is what the call is refused for. -/
theorem ends_openChecked_of_error {arity : Nat} (harity : arity ≤ p.memory.stack.size)
    {s : Stop Fault} (hrun : argumentValues m arity (p.memory.stack.size - arity) p = .error s q)
    {done : Frame → Program → Prop} {stopped : Stop Fault → Program → Prop} :
    Ends (openChecked m arity) p done stopped ↔ stopped s q := by
  have hbase := Operands.base_eq_ok_iff.2 ⟨harity, rfl⟩
  simp only [openChecked, ends_bind, ends_get, ends_liftViolation, hbase, Except.ok.injEq,
    forall_eq', reduceCtorEq, false_implies, implies_true, and_true]
  rw [ends_of_error hrun]

theorem openChecked_ends (hp : p.Sound) (hm : p.scopes.Admits m) {arity : Nat}
    (harity : arity ≤ p.memory.stack.size)
    (hlimit : ∀ limit, p.mode.maxCallDepth = some limit → p.callDepth < limit) :
    Ends (openChecked m arity) p (Entered m arity p) (Halts (fun _ q => q = p) fun _ => False) := by
  cases hrun : argumentValues m arity (p.memory.stack.size - arity) p with
  | ok values q =>
    obtain rfl := (argumentValues_same arity _).of_ok hrun
    exact (openChecked_entered hp hm harity hlimit hrun).imp (fun _ _ h => h) fun _ _ h => h.elim
  | error s q =>
    rw [ends_openChecked_of_error harity hrun]
    exact (argumentValues_same arity _).of_error hrun

/-- A call that fails before its body starts changes nothing. -/
theorem openCall_ends (hp : p.Sound) (hm : p.scopes.Admits m) {arity : Nat}
    (harity : arity ≤ p.memory.stack.size) :
    Ends (openCall m arity) p (Entered m arity p) (Halts (fun _ q => q = p) fun _ => False) := by
  rw [ends_openCall]
  exact ⟨fun _ => rfl, fun _ => ⟨fun _ _ _ => rfl, fun hlimit =>
    openChecked_ends hp hm harity hlimit⟩⟩

/-- Nothing speaks against a call with these values for its parameters: it has no argument too
many, the depth of calls is below the limit, every argument leads to a value and no default is
missing. -/
structure Startable (m : Method) (count : Nat) (p : Program) (values : List Value) : Prop where
  operands : count ≤ p.memory.stack.size
  arity : count ≤ m.arity
  limit : ∀ limit, p.mode.maxCallDepth = some limit → p.callDepth < limit
  values : argumentValues m count (p.memory.stack.size - count) p = .ok values p

/-- The program in which the parameters of a call are bound: the arguments are off the stack and
the scope of the call is there. -/
def binding (p : Program) (m : Method) (count : Nat) : Program :=
  { p.withStack (p.memory.stack.truncate (p.memory.stack.size - count)) with
    scopes := (p.scopes.pushCallScope m.scope m.name).2 }

/-- The parameters of the call are bound to the values in a new scope on top of all others, and the
body is to run in `q`. -/
def Started (m : Method) (count : Nat) (p : Program) (values : List Value) (frame : Frame)
    (q : Program) : Prop :=
  ∃ r, bindArguments ⟨p.scopes.id, p.scopes.size⟩ (m.params.slots.toList.zip values)
      (binding p m count) = .ok () r ∧
    frame = ⟨⟨p.scopes.id, p.scopes.size⟩, p.memory.frame.size, p.memory.stack.size - count,
      r.returned⟩ ∧
    q = { r with returned := .undefined, callDepth := r.callDepth + 1 }

/-- A call that has a body to run found nothing that speaks against it. -/
theorem openCall_eq_ok {arity : Nat} {frame : Frame} (h : openCall m arity p = .ok frame q) :
    ∃ values, Startable m arity p values ∧ Started m arity p values frame q := by
  have hends : Ends (openCall m arity) p (fun frame q =>
      ∃ values, Startable m arity p values ∧ Started m arity p values frame q)
      fun _ _ => True := by
    rw [ends_openCall]
    refine ⟨fun _ => trivial, fun harity => ⟨fun _ _ _ => trivial, fun hlimit => ?_⟩⟩
    simp only [openChecked, ends_bind, ends_get, ends_liftViolation]
    refine ⟨fun base hbase => ?_, fun _ _ => trivial⟩
    obtain ⟨hdepth, rfl⟩ := Operands.base_eq_ok_iff.1 hbase
    refine (argumentValues_same arity _).with_run.imp ?_ fun _ _ _ => trivial
    rintro values _ ⟨hvalues, rfl⟩
    simp only [ends_modify, pushCallScope, ends_modifyGet, ends_settle]
    refine (Ends.anyhow _ _).with_run.imp (fun _ r hr => ?_) fun s r _ => ?_
    · simp only [ends_bind, ends_get, ends_modify, ends_pure]
      exact ⟨values, ⟨hdepth, harity, hlimit, hvalues⟩, r, hr.1, rfl, rfl⟩
    · cases s with
      | fault cause =>
        change Ends (_ >>= _) r _ _
        rw [ends_bind]
        exact (Ends.anyhow _ r).imp (fun _ _ _ => trivial) fun _ _ h => h
      | breach v => trivial
      | unending => trivial
  exact hends.of_ok h

/-- A call that nothing speaks against has a body to run. -/
theorem Startable.exists_openCall {count : Nat} {values : List Value}
    (h : Startable m count p values) (hp : p.Sound) (hm : p.scopes.Admits m) :
    ∃ frame q, openCall m count p = .ok frame q := by
  have hends : Ends (openCall m count) p (fun _ _ => True) fun _ _ => False := by
    rw [ends_openCall]
    refine ⟨fun hlt => ?_, fun _ => ⟨fun limit hlimit hle => ?_, fun hlimit => ?_⟩⟩
    · exact absurd h.arity (Nat.not_le_of_lt hlt)
    · exact absurd (h.limit limit hlimit) (Nat.not_lt_of_le hle)
    · exact (openChecked_entered hp hm h.operands hlimit h.values).imp (fun _ _ _ => trivial)
        fun _ _ hs => hs
  obtain ⟨frame, q, hopen, -⟩ := hends.exists_ok
  exact ⟨frame, q, hopen⟩

/-! ## A whole call -/

/-- The program `r` at the end of the body, put back to what the call started with in `p`. -/
def closed (p r : Program) (base : Nat) : Program :=
  { r.released p.scopes.size p.memory.frame.size with
    returned := p.returned
    callDepth := r.callDepth - 1 }.withStack (r.memory.stack.truncate base)

/-- What a call leaves behind is the program before it, after further declarations. -/
theorem grows_closed {current : Nat} (hg : Program.Grows p.scopes.size (p.called m) r)
    (base : Nat) : Program.Grows current p (closed p r base) := by
  have hgrows : Program.Grows current { p with callDepth := p.callDepth + 1 }
      (r.released p.scopes.size p.memory.frame.size) :=
    Program.Grows.released (p := { p with callDepth := p.callDepth + 1 }) hg
  have hdepth : r.callDepth = p.callDepth + 1 := hg.depth
  refine ⟨hgrows.tree, hgrows.retained, hgrows.calls, hgrows.id, hgrows.arena, hgrows.frame,
    hgrows.host, hgrows.mode, ?_⟩
  show r.callDepth - 1 = p.callDepth
  omega

/-- The end of a call puts back what the frame says. -/
theorem Enters.ends_closeCall {F : ScopeId → Prop} {frame : Frame} (h : Enters F m p frame q)
    (ht : p.scopes.SoundUpTo F) (hr : q.Grows frame.scope.index r) {name : Name}
    {outcome : Except Failure Flow} {done : Unit → Program → Prop}
    {stopped : Stop Fault → Program → Prop} :
    Ends (closeCall frame name outcome) r done stopped ↔
      match outcome with
      | .ok _ => done () ((closed p r frame.base).mapStack (·.push (callResult r.returned)))
      | .error failure =>
        stopped (.fault (failure.within (.method name))) (closed p r frame.base) := by
  obtain ⟨s, hget, hcall⟩ := h.get? ht hr
  have hclosed : (({ r with
      returned := frame.returned
      callDepth := r.callDepth - 1 } : Program).withStack
        (r.memory.stack.truncate frame.base)).released frame.scope.index frame.cells =
      closed p r frame.base := by
    rw [h.scope, h.cells, h.handed]
    unfold closed Program.released
    change (if p.scopes.size < r.scopes.retained then _ else _) = _
    split <;> rfl
  simp only [closeCall, ends_bind, ends_get, ends_modify]
  rw [ends_leave (p := { r with returned := frame.returned, callDepth := r.callDepth - 1 }) hget
    hcall, ← hclosed]
  cases outcome with
  | ok flow => rfl
  | error failure => rfl

theorem Entered.enters {arity : Nat} {frame : Frame} (h : Entered m arity p frame q) :
    Enters (fun _ => False) m p frame q :=
  ⟨h.scope, h.cells, h.handed, h.keeps.grows, h.keeps.sound.tree⟩

theorem Entered.get? {arity : Nat} {frame : Frame} (h : Entered m arity p frame q) (hp : p.Sound)
    (hr : Keeps frame.scope.index q r) :
    ∃ s, r.scopes.get? frame.scope = some s ∧ s.kind.isCall = true :=
  h.enters.get? hp.tree hr.grows

theorem Entered.live {arity : Nat} {frame : Frame} (h : Entered m arity p frame q) (hp : p.Sound) :
    q.scopes.owns frame.scope = true := h.enters.live hp.tree

theorem Entered.grows {arity : Nat} {frame : Frame} (h : Entered m arity p frame q)
    (hr : Keeps frame.scope.index q r) : Program.Grows p.scopes.size (p.called m) r :=
  h.enters.grows_after hr.grows

theorem ends_closeCall {arity : Nat} {frame : Frame} (h : Entered m arity p frame q) (hp : p.Sound)
    (hr : Keeps frame.scope.index q r) {name : Name} {outcome : Except Failure Flow}
    {done : Unit → Program → Prop} {stopped : Stop Fault → Program → Prop} :
    Ends (closeCall frame name outcome) r done stopped ↔
      match outcome with
      | .ok _ => done () ((closed p r frame.base).mapStack (·.push (callResult r.returned)))
      | .error failure =>
        stopped (.fault (failure.within (.method name))) (closed p r frame.base) :=
  h.enters.ends_closeCall hp.tree hr.grows

theorem Entered.keeps_closed {arity current base : Nat} {frame : Frame}
    (h : Entered m arity p frame q) (hp : p.Sound) (hr : Keeps frame.scope.index q r) :
    Keeps current p (closed p r base) := by
  have hg := h.grows hr
  have hsound := hr.sound.released hp hg
  have hgrows : Program.Grows current p (closed p r base) := grows_closed hg base
  have hreturned : p.returned.EachMethod
      (r.released p.scopes.size p.memory.frame.size).scopes.Admits := hgrows.eachMethod hp.returned
  have hstack : (r.released p.scopes.size p.memory.frame.size).memory.stack = r.memory.stack := by
    unfold Program.released
    split <;> rfl
  have hput : ({ r.released p.scopes.size p.memory.frame.size with
      returned := p.returned
      callDepth := r.callDepth - 1 } : Program).Sound :=
    ⟨hsound.tree, hsound.storage, hsound.methods, hreturned, hsound.plain, hsound.host⟩
  exact ⟨hput.withStack (hstack ▸ hput.stack.truncate base), hgrows⟩

/-- The result of a call is a method that can be called after it, if it is a method. -/
theorem Entered.eachMethod_callResult {arity base : Nat} {frame : Frame}
    (h : Entered m arity p frame q) (hp : p.Sound) (hr : Keeps frame.scope.index q r) :
    (callResult r.returned).EachMethod (closed p r base).scopes.Admits := by
  have hsound := hr.sound.released hp (h.grows hr)
  have hreturned : (r.released p.scopes.size p.memory.frame.size).returned = r.returned := by
    unfold Program.released
    split <;> rfl
  unfold callResult
  split
  · trivial
  · exact hreturned ▸ hsound.returned

theorem Keeps.push {current : Nat} (h : Keeps current p q) {v : Value}
    (hv : v.EachMethod q.scopes.Admits) : Keeps current p (q.mapStack (·.push v)) :=
  h.withStack (h.sound.stack.push hv)

end Exec

end ActionMachine
