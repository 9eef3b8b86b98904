import ActionMachine.Proofs.Isolation
import ActionMachine.Proofs.SoundHistory
import ActionMachine.Value.Equality

/-
  Templates of classes. The cells of a template lie in the arena and can be written like those of
  variables, but nothing leads to them: a store goes to the cell of a local, and no cell is shared.
  So a template changes only when a member is added to it (`Effect.fills`), and along a history it
  holds, in this order, the members that were added to its class (`templates_hold_additions`).
-/

namespace ActionMachine

/-! ## Templates in a tree -/

namespace ScopeTree

variable {t u : ScopeTree} {i : Nat} {s : Scope}

/-- The template of the class at an index. Scopes that are no classes have none. -/
def template (t : ScopeTree) (i : Nat) : List Slot :=
  match t.scopes[i]? with
  | some s => (s.slots true).toList
  | none => []

theorem template_eq (hs : t.scopes[i]? = some s) : t.template i = (s.slots true).toList := by
  unfold template
  rw [hs]

theorem template_eq_of_template? {id : ScopeId} {template : SlotSet} (hs : t.get? id = some s)
    (ht : s.template? = some template) : t.template id.index = template.slots.toList := by
  rw [template_eq (get?_eq_some_iff.1 hs).2, Scope.slots, ht]
  rfl

theorem template_eq_nil (hs : t.scopes[i]? = none) : t.template i = [] := by
  unfold template
  rw [hs]

theorem template_of_isClass (hs : t.scopes[i]? = some s) (hclass : s.isClass = false) :
    t.template i = [] := by
  rw [template_eq hs, Scope.slots_of_isClass hclass, Array.toList_empty]

/-- The scope of a call has no template. -/
theorem Sound.template_of_isCallAt (ht : t.Sound) (h : t.isCallAt i = true) :
    t.template i = [] := by
  obtain ⟨s, hs, hcall⟩ := isCallAt_eq_true_iff.1 h
  exact template_of_isClass hs ((ht.slots i s hs).isClass_of_isCall hcall)

theorem template_set {id : ScopeId} {s' : Scope} (hs : t.scopes[id.index]? = some s) (i : Nat) :
    (t.set id s').template i = if i = id.index then (s'.slots true).toList else t.template i := by
  unfold template
  rw [getElem?_set (Array.getElem?_eq_some_iff.1 hs).1]
  by_cases hi : i = id.index
  · rw [if_pos hi, if_pos hi]
  · rw [if_neg hi, if_neg hi]

/-- Each slot of a template is a site of its own. -/
theorem exists_site_of_mem_template {slot : Slot} (h : slot ∈ t.template i) :
    ∃ site, site.scope = i ∧ site.template = true ∧ t.target? site = some slot.target := by
  cases hs : t.scopes[i]? with
  | none =>
    rw [template_eq_nil hs] at h
    cases h
  | some s =>
    rw [template_eq hs, Array.mem_toList_iff] at h
    obtain ⟨j, hj⟩ := Array.mem_iff_getElem?.1 h
    exact ⟨⟨i, true, j⟩, rfl, rfl, target?_eq_some_iff.2 ⟨s, slot, hs, hj, rfl⟩⟩

/-- The two trees have the same templates. -/
structure SameTemplates (t u : ScopeTree) : Prop where
  id : u.id = t.id
  template : ∀ i, u.template i = t.template i

theorem SameTemplates.refl (t : ScopeTree) : SameTemplates t t := ⟨rfl, fun _ => rfl⟩

theorem SameTemplates.trans {v : ScopeTree} (h1 : SameTemplates t u) (h2 : SameTemplates u v) :
    SameTemplates t v :=
  ⟨h2.id.trans h1.id, fun i => (h2.template i).trans (h1.template i)⟩

/-- A scope that gains a local keeps its template. -/
theorem sameTemplates_set {id : ScopeId} {s' : Scope} {slot : Slot}
    (hs : t.scopes[id.index]? = some s) (h : s.Gains false slot s') :
    SameTemplates t (t.set id s') := by
  refine ⟨rfl, fun i => ?_⟩
  rw [template_set hs]
  split
  · subst i
    have hsame : s'.slots true = s.slots true := h.others
    rw [template_eq hs, hsame]
  · rfl

theorem Opened.sameTemplates {parent id : ScopeId} {name : Name} (h : t.Opened parent name id u)
    (ht : t.Sound) : SameTemplates t u := by
  cases h with
  | existing => exact .refl t
  | @fresh owner new hget _ hnew =>
    have hold := (get?_eq_some_iff.1 hget).2
    refine ⟨rfl, fun i => ?_⟩
    by_cases hparent : i = parent.index
    · subst i
      rw [template_eq hold, template_eq ((ht.getElem?_declared hget name _).trans (if_pos rfl))]
      rfl
    · have hget' := (ht.getElem?_declared (s := new) hget name i).trans (if_neg hparent)
      by_cases hsize : i = t.size
      · rw [if_pos hsize] at hget'
        have hnone : t.scopes[i]? = none :=
          Array.getElem?_eq_none (Nat.le_of_eq hsize.symm : t.scopes.size ≤ i)
        rw [template_eq hget', template_eq_nil hnone, slots_of_fresh hnew]
      · rw [if_neg hsize] at hget'
        unfold template
        rw [hget']

/-- A new scope that is no class has no template. -/
theorem sameTemplates_push (hclass : s.isClass = false) : SameTemplates t (t.push s).2 := by
  refine ⟨rfl, fun i => ?_⟩
  have hget := getElem?_push (t := t) s i
  by_cases hsize : i = t.size
  · rw [if_pos hsize] at hget
    have hnone : t.scopes[i]? = none :=
      Array.getElem?_eq_none (Nat.le_of_eq hsize.symm : t.scopes.size ≤ i)
    rw [template_of_isClass hget hclass, template_eq_nil hnone]
  · rw [if_neg hsize] at hget
    unfold template
    rw [hget]

/-- What goes when scopes are released are the scopes of calls. -/
theorem sameTemplates_shrink (ht : t.Sound) {n : Nat} (hn : t.retained ≤ n) :
    SameTemplates t { t with scopes := t.scopes.shrink n } := by
  refine ⟨rfl, fun i => ?_⟩
  have hget : (t.scopes.shrink n)[i]? = if i < n then t.scopes[i]? else none := getElem?_shrink ..
  by_cases hi : i < n
  · rw [if_pos hi] at hget
    unfold template
    rw [hget]
  · rw [if_neg hi] at hget
    rw [template_eq_nil (t := { t with scopes := t.scopes.shrink n }) hget]
    cases hs : t.scopes[i]? with
    | none => exact (template_eq_nil hs).symm
    | some s =>
      cases hcall : s.kind.isCall with
      | true => exact (template_of_isClass hs ((ht.slots i s hs).isClass_of_isCall hcall)).symm
      | false =>
        have := ht.kept i s hs hcall
        omega

/-- A class has one handle. -/
theorem Sound.handle_eq (ht : t.Sound) {id : ScopeId} (hs : t.get? id = some s)
    (hclass : s.isClass = true) : id = ⟨t.id, id.index⟩ := by
  obtain ⟨howns, hget⟩ := get?_eq_some_iff.1 hs
  rcases owns_eq_true_iff.1 howns with ⟨-, hlt⟩ | ⟨-, htree, -⟩
  · -- the two shared scopes are no classes
    have hkind : s.kind = .undefined ∨ s.kind = .global := by
      obtain hi | hi : id.index = 0 ∨ id.index = 1 := by omega
      · obtain ⟨s0, h0, hkind, -⟩ := ht.undefined
        rw [hi, h0] at hget
        exact Or.inl (Option.some.inj hget ▸ hkind)
      · obtain ⟨s1, h1, hkind, -⟩ := ht.global
        rw [hi, h1] at hget
        exact Or.inr (Option.some.inj hget ▸ hkind)
    rw [(SoundUpTo.slots ht id.index s hget).classed.1 hclass] at hkind
    rcases hkind with hkind | hkind <;> cases hkind
  · rw [← htree]

end ScopeTree

/-! ## Cells of templates -/

/-- A slot with what its cell holds. -/
def Memory.member? (m : Memory) (slot : Slot) : Option Member :=
  (m.read slot.target).map fun v => ⟨slot.name, v⟩

namespace Exec

variable {scope id : ScopeId} {p q r : Program} {a : Action} {event : Event} {i : Nat} {slot : Slot}
  {new new' : ScopeId → List Member}

theorem templateMembers_eq_ok {m : Memory} {template : SlotSet} {members : List Member}
    (h : template.slots.toList.map m.member? = members.map some) :
    templateMembers m template = .ok members := by
  unfold templateMembers
  generalize template.slots.toList = slots at h
  induction slots generalizing members with
  | nil =>
    cases members with
    | nil => rfl
    | cons => cases h
  | cons slot slots ih =>
    cases members with
    | nil => cases h
    | cons member members =>
      obtain ⟨hfirst, hrest⟩ := List.cons.inj h
      obtain ⟨v, hv, rfl⟩ := Option.map_eq_some_iff.1 hfirst
      rw [List.mapM_cons, Memory.fetch_eq_ok_iff.2 hv, ih hrest]
      rfl

/-- The cells of templates are live cells of the arena. -/
theorem exists_cell_of_template (hp : p.Sound) (h : slot ∈ p.scopes.template i) :
    ∃ k v, slot.target = p.memory.staticRef k ∧ p.memory.arena.get? k = some v := by
  obtain ⟨site, rfl, -, hsite⟩ := ScopeTree.exists_site_of_mem_template h
  cases hcall : p.scopes.isCallAt site.scope with
  | true =>
    rw [hp.tree.template_of_isCallAt hcall] at h
    cases h
  | false =>
    obtain ⟨k, hk, htarget⟩ := hp.storage.arena site _ hsite hcall
    obtain ⟨v, hv⟩ := Cells.exists_get? hk
    exact ⟨k, v, htarget, hv⟩

theorem read_template_of_kept (hp : p.Sound) (hkept : ArenaKept p q)
    (h : slot ∈ p.scopes.template i) :
    q.memory.read slot.target = p.memory.read slot.target := by
  obtain ⟨k, v, htarget, hv⟩ := exists_cell_of_template hp h
  have hstatic : q.memory.staticRef k = p.memory.staticRef k := by
    unfold Memory.staticRef
    rw [hkept.id]
  rw [htarget, Memory.read_staticRef, hv, ← hstatic, Memory.read_staticRef]
  exact hkept.cells k v hv

theorem get?_arena_set_of_ne {m : Memory} {target : CellRef} {k : Nat}
    (h : target ≠ m.staticRef k) (v : Value) : (m.set target v).arena.get? k = m.arena.get? k := by
  rcases m.set_cases target v with ⟨i, rfl, he⟩ | ⟨i, -, he⟩ | ⟨i, -, he⟩ | he <;> rw [he]
  have hi : i ≠ k := by
    rintro rfl
    exact h rfl
  show (m.arena.set i v).get? k = m.arena.get? k
  rw [Cells.get?_set, if_neg hi]

/-- No store reaches the cell of a template. -/
theorem Stores.read_template {target : CellRef} {v : Value} {s : Operands}
    (hstores : Stores scope p a target v s) (hp : p.Sound) (ho : p.scopes.owns scope = true)
    (h : slot ∈ p.scopes.template i) :
    ({ p.memory.set target v with stack := s } : Memory).read slot.target =
      p.memory.read slot.target := by
  obtain ⟨site, hlocal, hsite⟩ := hstores.exists_site hp ho
  obtain ⟨site', -, htemplate, hsite'⟩ := ScopeTree.exists_site_of_mem_template h
  obtain ⟨k, w, htarget, -⟩ := exists_cell_of_template hp h
  have hne : target ≠ p.memory.staticRef k := by
    intro he
    rw [htarget, ← he] at hsite'
    cases hp.storage.inj site site' target hsite hsite'
    rw [hlocal] at htemplate
    cases htemplate
  rw [htarget, Memory.read_staticRef, ← get?_arena_set_of_ne hne v]
  exact if_pos (p.memory.set_id target v).symm

/-! ## Members that are added -/

/-- The member that is added to the template of the class `id`, with the value that the literal of
the action leads to. -/
def Event.added? (p : Program) (id : ScopeId) : Event → Option Member
  | .advanced scope (.addInstanceMember owner name v) _ =>
    match p.scopes.resolveClass scope owner, p.memory.follow v with
    | .ok found, .ok w => if found = id then some ⟨name, w⟩ else none
    | _, _ => none
  | _ => none

/-- All members that the steps add to the template of the class `id`. -/
def added (id : ScopeId) (steps : List Step) : List Member :=
  steps.filterMap fun s => s.event.added? s.before id

/-- Each template of `q` is that of `p` with the members `new` after it. -/
structure Fills (new : ScopeId → List Member) (p q : Program) : Prop where
  tree : q.scopes.id = p.scopes.id
  slots : ∀ i, ∃ more, q.scopes.template i = p.scopes.template i ++ more ∧
    more.map q.memory.member? = (new ⟨p.scopes.id, i⟩).map some
  values : ∀ i, ∀ slot ∈ p.scopes.template i,
    q.memory.read slot.target = p.memory.read slot.target

theorem Fills.of_same (h : p.scopes.SameTemplates q.scopes)
    (hvalues : ∀ i, ∀ slot ∈ p.scopes.template i,
      q.memory.read slot.target = p.memory.read slot.target) : Fills (fun _ => []) p q :=
  ⟨h.id, fun i => ⟨[], by rw [h.template, List.append_nil], rfl⟩, hvalues⟩

theorem Fills.trans (h1 : Fills new p q) (h2 : Fills new' q r) :
    Fills (fun id => new id ++ new' id) p r := by
  refine ⟨h2.tree.trans h1.tree, fun i => ?_, fun i slot hslot => ?_⟩
  · obtain ⟨more, hmore, hmembers⟩ := h1.slots i
    obtain ⟨more', hmore', hmembers'⟩ := h2.slots i
    have hkept : more.map r.memory.member? = more.map q.memory.member? := by
      refine List.map_congr_left fun slot hslot => ?_
      unfold Memory.member?
      rw [h2.values i slot (hmore ▸ List.mem_append_right _ hslot)]
    refine ⟨more ++ more', ?_, ?_⟩
    · rw [hmore', hmore, List.append_assoc]
    · rw [List.map_append, List.map_append, hkept, hmembers, hmembers', h1.tree]
  · obtain ⟨more, hmore, -⟩ := h1.slots i
    rw [h2.values i slot (hmore ▸ List.mem_append_left _ hslot), h1.values i slot hslot]

/-- What the templates hold. -/
theorem Fills.members (h : Fills new p q) (i : Nat) :
    (q.scopes.template i).map q.memory.member? =
      (p.scopes.template i).map p.memory.member? ++ (new ⟨p.scopes.id, i⟩).map some := by
  obtain ⟨more, hmore, hmembers⟩ := h.slots i
  have hkept : (p.scopes.template i).map q.memory.member? =
      (p.scopes.template i).map p.memory.member? := by
    refine List.map_congr_left fun slot hslot => ?_
    unfold Memory.member?
    rw [h.values i slot hslot]
  rw [hmore, List.map_append, hkept, hmembers]

/-! ## Steps -/

theorem Bound.sameTemplates {name : Name} {v : Value} {constant : Bool}
    (h : Bound p id name v constant q) : p.scopes.SameTemplates q.scopes := by
  cases h with
  | inFrame hget _ h | inArena hget _ h =>
    exact ScopeTree.sameTemplates_set (ScopeTree.get?_eq_some_iff.1 hget).2
      (Scope.gains_of_addLocal h)

theorem bindArguments_sameTemplates (args : List (Slot × Value)) :
    Ends (bindArguments id args) p (fun _ q => p.scopes.SameTemplates q.scopes)
      fun _ q => p.scopes.SameTemplates q.scopes := by
  refine bindArguments_induction (.refl _) (fun _ _ _ hq => hq) fun q _ _ u hq hu => ?_
  obtain ⟨s, s', hget, hs', rfl⟩ := addLocal_eq_ok_iff.1 hu
  exact hq.trans (ScopeTree.sameTemplates_set (ScopeTree.get?_eq_some_iff.1 hget).2
    (Scope.gains_of_addLocal hs'))

theorem openCall_sameTemplates {m : Method} {arity : Nat} {frame : Frame}
    (h : openCall m arity p = .ok frame q) : p.scopes.SameTemplates q.scopes := by
  have hpush : p.scopes.SameTemplates (p.called m).scopes := ScopeTree.sameTemplates_push rfl
  obtain ⟨_, -, r, hbind, -, rfl⟩ := openCall_eq_ok h
  have hbound := (bindArguments_sameTemplates _).of_ok hbind
  exact hpush.trans ⟨hbound.id, hbound.template⟩

theorem Leaves.sameTemplates {frame : Frame} (h : Leaves frame p q) (hp : p.Sound) :
    p.scopes.SameTemplates q.scopes := by
  rcases h.cases with ⟨-, hscopes, -⟩ | ⟨hretained, hscopes, -⟩
  · rw [hscopes]
    exact .refl _
  · rw [hscopes]
    exact ScopeTree.sameTemplates_shrink hp.tree hretained

/-- The event adds the member to the template of the class `id`. -/
structure Adds (p : Program) (event : Event) (id : ScopeId) (member : Member) (q : Program) :
    Prop where
  added : ∀ other, event.added? p other = if id = other then some member else none
  tree : q.scopes.id = p.scopes.id
  handle : id.tree = p.scopes.id
  slots : ∀ i, q.scopes.template i = if i = id.index then
    p.scopes.template i ++ [⟨member.name, p.memory.staticRef p.memory.arena.size⟩]
      else p.scopes.template i
  kept : ArenaKept p q
  value : q.memory.arena.get? p.memory.arena.size = some member.value

theorem adds_member {owner name : Name} {v w : Value} {stage : Stage} {classScope : Scope}
    {template template' : SlotSet} (hp : p.Sound)
    (hid : p.scopes.resolveClass scope owner = .ok id)
    (hw : p.memory.owned "instance member" v = .ok w) (hscope : p.scopes.get? id = some classScope)
    (htemplate : classScope.template? = some template)
    (h : template.insert name (p.memory.allocate w false).1 = .ok template') :
    Adds p (.advanced scope (.addInstanceMember owner name v) stage) id ⟨name, w⟩
      { p with
        memory := (p.memory.allocate w false).2
        scopes := p.scopes.set id (classScope.setTemplate template') } := by
  have hslot := (ScopeTree.get?_eq_some_iff.1 hscope).2
  have hhandle := hp.tree.handle_eq hscope (Scope.isClass_of_template? htemplate)
  refine ⟨fun other => ?_, rfl, congrArg ScopeId.tree hhandle, fun i => ?_, .of_push rfl rfl, ?_⟩
  · have hfollow : p.memory.follow v = .ok w := (Reader.owned_eq_ok hw).1
    simp only [Event.added?, hid, hfollow]
  · show (p.scopes.set id (classScope.setTemplate template')).template i = _
    rw [ScopeTree.template_set hslot, (Scope.gains_of_setTemplate htemplate h).added,
      Array.toList_push]
    split
    · subst i
      rw [ScopeTree.template_eq hslot]
      rfl
    · rfl
  · show (p.memory.arena.push w false).get? p.memory.arena.size = some w
    rw [Cells.get?_push, if_pos rfl]

/-- A step adds one member to one template, or it changes none. -/
theorem Effect.template_cases (h : Effect p event q) (hp : p.Sound) :
    (∀ id, event.added? p id = none) ∧ p.scopes.SameTemplates q.scopes ∨
      ∃ id member, Adds p event id member q := by
  cases h with
  | registered h => exact Or.inl ⟨fun _ => rfl, h.sameTemplates⟩
  | taken | answered => exact Or.inl ⟨fun _ => rfl, .refl _⟩
  | left h => exact Or.inl ⟨fun _ => rfl, h.sameTemplates hp⟩
  | refused h =>
    refine Or.inl ⟨fun _ => rfl, ?_⟩
    cases h with
    | same | numbered | placed => exact .refl _
    | defaulted h =>
      rw [h.scopes_eq]
      exact .refl _
  | @advanced scope a stage q h =>
    cases h with
    | inBody hbody h =>
      obtain ⟨name, u, n, hopened, rfl⟩ := h.opened
      refine Or.inl ⟨fun _ => ?_, hopened.sameTemplates hp.tree⟩
      cases a with
      | addInstanceMember => cases hbody
      | _ => rfl
    | inCall _ hopen _ => exact Or.inl ⟨fun _ => rfl, openCall_sameTemplates hopen⟩
    | finished h =>
      cases h with
      | restack h => exact Or.inl ⟨fun _ => by cases h <;> rfl, .refl _⟩
      | bind hbinds h => exact Or.inl ⟨fun _ => by cases hbinds <;> rfl, h.sameTemplates⟩
      | store h _ _ => exact Or.inl ⟨fun _ => by cases h <;> rfl, .refl _⟩
      | ret | debugPrint => exact Or.inl ⟨fun _ => rfl, .refl _⟩
      | addInstanceMember hid hw hscope htemplate h =>
        exact Or.inr ⟨_, _, adds_member hp hid hw hscope htemplate h⟩
      | defineMethod _ _ hd h =>
        obtain ⟨hid, htemplate⟩ := h.sameTemplates
        rw [hd.scopes_eq] at hid htemplate
        exact Or.inl ⟨fun _ => rfl, hid, htemplate⟩

theorem Adds.fills {member : Member} (h : Adds p event id member q) (hp : p.Sound) :
    Fills (fun other => (event.added? p other).toList) p q := by
  obtain ⟨name, w⟩ := member
  refine ⟨h.tree, fun i => ?_, fun i slot hslot => read_template_of_kept hp h.kept hslot⟩
  simp only [h.slots, h.added]
  have hhandle : id = ⟨p.scopes.id, i⟩ ↔ i = id.index := by
    rw [← h.handle]
    constructor
    · intro he
      rw [he]
    · rintro rfl
      rfl
  by_cases hi : i = id.index
  · refine ⟨_, if_pos hi, ?_⟩
    rw [if_pos (hhandle.2 hi)]
    have hstatic : p.memory.staticRef p.memory.arena.size =
        q.memory.staticRef p.memory.arena.size := by
      unfold Memory.staticRef
      rw [h.kept.id]
    show [q.memory.member? _] = [some ⟨name, w⟩]
    unfold Memory.member?
    rw [hstatic, Memory.read_staticRef, h.value]
    rfl
  · rw [if_neg fun he => hi (hhandle.1 he)]
    exact ⟨[], by rw [if_neg hi, List.append_nil], rfl⟩

/-- A step fills the templates with the member that its event adds. -/
theorem Effect.fills (h : Effect p event q) (hp : p.Sound) (hadmissible : event.Admissible p) :
    Fills (fun id => (event.added? p id).toList) p q := by
  rcases h.template_cases hp with ⟨hnone, hsame⟩ | ⟨id, member, hadds⟩
  · have hnew : (fun id => (event.added? p id).toList) = fun _ => [] := by
      funext id
      rw [hnone]
      rfl
    rw [hnew]
    refine .of_same hsame fun i slot hslot => ?_
    rcases h.arena_cases with hkept | hstored
    · exact read_template_of_kept hp hkept hslot
    · cases hstored with
      | intro hstores => exact hstores.read_template hp hadmissible.1 hslot
  · exact hadds.fills hp

/-! ## Histories -/

/-- Steps fill the templates with all members that they add. -/
theorem Segment.fills {steps : List Step} (h : Segment p steps) :
    Fills (fun id => added id steps) p (final p steps) := by
  induction steps generalizing p with
  | nil => exact .of_same (.refl _) fun _ _ _ => rfl
  | cons s steps ih =>
    obtain ⟨⟨rfl, hadmissible, heffect⟩, hrest⟩ := h.cons
    have hfirst := heffect.fills h.start.sound hadmissible
    have hnew : (fun id => added id (s :: steps)) =
        fun id => (s.event.added? s.before id).toList ++ added id steps := by
      funext id
      unfold added
      rw [List.filterMap_cons]
      cases s.event.added? s.before id <;> rfl
    rw [hnew]
    exact hfirst.trans (ih hrest)

/-- An object is filled with what its template holds. -/
theorem attempt_constructInstance {owner : Name} {members : List Member} {s : Scope}
    {layout : ClassLayout} (hid : p.scopes.resolveClass scope owner = .ok id)
    (hs : p.scopes.get? id = some s) (hlayout : s.layout? = some layout)
    (hmembers : templateMembers p.memory layout.template = .ok members) (run : Body) :
    attempt run scope (.constructInstance owner) p =
      .ok .next (p.mapStack (·.push (.object (.ofMembers id s.name layout.typeId members)))) := by
  apply Ends.eq_ok
  simp only [attempt, checkOperands, perform, constructInstance, ends_bind, ends_ite, ends_fault,
    ends_get, ends_pure, ends_liftStop, ends_liftViolation]
  have hdepth : ¬ p.memory.stack.size < (Action.constructInstance owner).operandArity :=
    Nat.not_lt_zero _
  refine ⟨fun hzero => Bool.false_ne_true hzero, fun _ => ⟨fun hless => hdepth hless, fun _ =>
    ⟨fun found hfound => ⟨fun s' hs' => ?_, fun v hv => ?_⟩, fun stop hstop => ?_⟩⟩⟩
  · cases hid.symm.trans hfound
    cases (ScopeTree.get_eq_ok_iff.2 hs).symm.trans hs'
    simp only [hlayout, ends_bind, ends_liftFault, hmembers, ends_push, ends_pure]
    refine ⟨fun found hfound => ?_, fun cause hcause => by cases hcause⟩
    cases hfound
    exact ⟨trivial, rfl⟩
  · cases hid.symm.trans hfound
    cases (ScopeTree.get_eq_ok_iff.2 hs).symm.trans hv
  · cases hid.symm.trans hstop

theorem template_new {arena tree : StoreId} {host : Host} {mode : Mode} {sink : Sink} (i : Nat) :
    (Program.new arena tree host mode sink).scopes.template i = [] := by
  cases hs : (Program.new arena tree host mode sink).scopes.scopes[i]? with
  | none => exact ScopeTree.template_eq_nil hs
  | some s =>
    rw [ScopeTree.template_eq hs]
    rcases ScopeTree.new_cases hs with ⟨-, rfl⟩ | ⟨-, rfl⟩ <;> rfl

/-- If there were no templates before, the template of a class holds just what is new. -/
theorem Fills.templateMembers_eq {s : Scope} {template : SlotSet} (h : Fills new p q)
    (hempty : ∀ i, p.scopes.template i = []) (hq : q.Sound) (hs : q.scopes.get? id = some s)
    (ht : s.template? = some template) : templateMembers q.memory template = .ok (new id) := by
  have hslots := q.scopes.template_eq_of_template? hs ht
  have hhandle := hq.tree.handle_eq hs (Scope.isClass_of_template? ht)
  have hmembers := h.members id.index
  rw [hempty, hslots, ← h.tree, ← hhandle] at hmembers
  exact templateMembers_eq_ok hmembers

end Exec

open Exec

/-- A new program is asked for anything that brings no method with it, and `p` and `q` are an
earlier and a later state of its history. In `p`, the template of a class holds in this order the
members that were added to the class so far, each with the value that its literal led to when it
was added. In `q`, the template still has these cells, and they still hold the same. So an object
that is constructed in `p`, in whatever scope, has exactly the members added so far. -/
theorem templates_never_drift {arena tree : StoreId} {host : Host} {mode : Mode} {sink : Sink}
    (htree : tree ≠ .shared) (hhost : host.MakesNoMethod) {requests : List Request}
    (hfree : ∀ request ∈ requests, request.methodFree = true) {earlier between later : List Step}
    {start p q : Program} (hstart : start = .new arena tree host mode sink)
    (hsplit : history requests start = earlier ++ between ++ later) (hp : p = final start earlier)
    (hq : q = final p between) :
    (∀ id s template, p.scopes.get? id = some s → s.template? = some template →
      templateMembers p.memory template = .ok (added id earlier) ∧
        template.slots.toList <+: q.scopes.template id.index ∧
        ∀ slot ∈ template.slots, q.memory.read slot.target = p.memory.read slot.target) ∧
    ∀ scope owner id, p.scopes.resolveClass scope owner = .ok id →
      ∃ s layout, p.scopes.get? id = some s ∧ s.layout? = some layout ∧
        ∀ run, attempt run scope (.constructInstance owner) p = .ok .next (p.mapStack (·.push
          (.object (.ofMembers id s.name layout.typeId (added id earlier))))) := by
  subst hstart hp hq
  have hhealthy : Healthy (.new arena tree host mode sink) :=
    (Reachable.new htree hhost).atRest.healthy
  have hfirst : Segment (final (.new arena tree host mode sink) []) earlier :=
    segment_of_history hhealthy hfree (hsplit.trans (List.append_assoc ..))
  have hsecond := segment_of_history hhealthy hfree hsplit
  have hmembers : ∀ {id s template},
      (final (.new arena tree host mode sink) earlier).scopes.get? id = some s →
      s.template? = some template →
      templateMembers (final (.new arena tree host mode sink) earlier).memory template =
        .ok (added id earlier) :=
    hfirst.fills.templateMembers_eq template_new hsecond.start.sound
  refine ⟨fun id s template hs ht => ⟨hmembers hs ht, ?_, fun slot hslot => ?_⟩,
    fun scope owner id hid => ?_⟩
  · obtain ⟨more, hmore, -⟩ := hsecond.fills.slots id.index
    rw [← ScopeTree.template_eq_of_template? hs ht, hmore]
    exact List.prefix_append _ _
  · refine hsecond.fills.values id.index slot ?_
    rw [ScopeTree.template_eq_of_template? hs ht]
    exact Array.mem_toList_iff.2 hslot
  · obtain ⟨s, hs, hclass⟩ := ScopeTree.resolveClass_eq_ok hid
    obtain ⟨layout, hlayout⟩ := Option.isSome_iff_exists.1 hclass
    have htemplate : s.template? = some layout.template := by
      rw [Scope.template?, hlayout, Option.map_some]
    exact ⟨s, layout, hs, hlayout, attempt_constructInstance hid hs hlayout (hmembers hs htemplate)⟩

/-- An object of a class is stored, and its member is given another value. -/
def changeInstance : List Request :=
  [.run 1 .global [.defineClass "C" [.addInstanceMember "C" "x" (.int 1)], .declareLocal "o",
    .constructInstance "C", .assignLocal "o" .pop, .pushLiteral (.int 5), .assignMember "o" "x"]]

/-- The object now has 5, and the next one starts with 1. -/
theorem next_instance_unchanged :
    ((final .silent (history changeInstance .silent)).lookup "o").toOption.any
        (fun v => v.object?.any fun o => Object.beqMembers o.members [⟨"x", .int 5⟩]) = true ∧
      ∃ o, attempt (enter 1) .global (.constructInstance "C")
          (final .silent (history changeInstance .silent)) =
            .ok .next ((final .silent (history changeInstance .silent)).mapStack
              (·.push (.object o))) ∧
        Object.beqMembers o.members [⟨"x", .int 1⟩] = true := by
  refine ⟨by decide +kernel, ?_⟩
  have hsplit : history changeInstance .silent = history changeInstance .silent ++ [] ++ [] := by
    rw [List.append_nil, List.append_nil]
  have hdrift := templates_never_drift (by decide) Native.catalogue_makesNoMethod (by decide)
    (rfl : Program.silent = _) hsplit rfl rfl
  have hclass : (final .silent (history changeInstance .silent)).scopes.resolveClass .global "C" =
      .ok ⟨⟨2⟩, 2⟩ := eq_ok_of_toOption (by decide +kernel)
  obtain ⟨s, layout, -, -, hconstruct⟩ := hdrift.2 .global "C" ⟨⟨2⟩, 2⟩ hclass
  refine ⟨_, hconstruct (enter 1), ?_⟩
  show Object.beqMembers (added ⟨⟨2⟩, 2⟩ (history changeInstance .silent)) _ = true
  decide +kernel

end ActionMachine
