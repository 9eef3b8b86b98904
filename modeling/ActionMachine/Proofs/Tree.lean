import ActionMachine.ScopeTree
import ActionMachine.Proofs.Ends
import ActionMachine.Proofs.Operands
import ActionMachine.Proofs.Slots

/-
  Sound scope trees. In a sound tree the two shared scopes stand first, every other scope has a
  live parent that was pushed before it, every nested name leads to a live namespace or class, and
  all scopes but those of calls stay for good. Names are then looked up without a breach and in
  finitely many steps, and every operation on live scopes keeps the tree sound.
-/

namespace ActionMachine

/-! ## Growth of a scope -/

/-- The numbers of classes agree, and a template only gets longer. -/
def ClassLayout.Extends : Option ClassLayout → Option ClassLayout → Prop
  | none, none => True
  | some a, some b => b.typeId = a.typeId ∧ a.template.slots.toList <+: b.template.slots.toList
  | _, _ => False

namespace ClassLayout

theorem Extends.refl (l : Option ClassLayout) : ClassLayout.Extends l l := by
  cases l with
  | none => trivial
  | some layout => exact ⟨rfl, List.prefix_refl _⟩

theorem Extends.trans {k l m : Option ClassLayout} (h1 : ClassLayout.Extends k l)
    (h2 : ClassLayout.Extends l m) : ClassLayout.Extends k m := by
  cases k <;> cases l <;> first | exact h1.elim | skip
  all_goals cases m <;> first | exact h2.elim | trivial | skip
  exact ⟨h2.1.trans h1.1, h1.2.trans h2.2⟩

theorem Extends.isSome_eq {k l : Option ClassLayout} (h : ClassLayout.Extends k l) :
    l.isSome = k.isSome := by
  cases k <;> cases l <;> first | exact h.elim | rfl

/-- A class stays one, with its number, and its template only gets longer. -/
theorem Extends.exists_layout {k : ClassLayout} {l : Option ClassLayout}
    (h : ClassLayout.Extends (some k) l) : ∃ layout, l = some layout ∧ layout.typeId = k.typeId ∧
      k.template.slots.toList <+: layout.template.slots.toList := by
  cases l with
  | none => exact h.elim
  | some layout => exact ⟨layout, rfl, h⟩

end ClassLayout

/-- The scope `s'` is `s` after further declarations. -/
structure Scope.Extends (s s' : Scope) : Prop where
  kind : s'.kind = s.kind
  layout : ClassLayout.Extends s.layout? s'.layout?
  name : s'.name = s.name
  parent : s'.parent = s.parent
  locals : s.locals.slots.toList <+: s'.locals.slots.toList
  nested : ∀ name id, s.nested? name = some id → s'.nested? name = some id

namespace Scope

theorem Extends.refl (s : Scope) : s.Extends s :=
  ⟨rfl, .refl _, rfl, rfl, List.prefix_refl _, fun _ _ h => h⟩

theorem Extends.trans {r s t : Scope} (h1 : r.Extends s) (h2 : s.Extends t) : r.Extends t :=
  ⟨h2.kind.trans h1.kind, h1.layout.trans h2.layout, h2.name.trans h1.name,
    h2.parent.trans h1.parent, h1.locals.trans h2.locals,
    fun name id h => h2.nested name id (h1.nested name id h)⟩

theorem Extends.isCall_eq {s t : Scope} (h : s.Extends t) : t.kind.isCall = s.kind.isCall :=
  congrArg ScopeKind.isCall h.kind

theorem Extends.isNameSpace_eq {s t : Scope} (h : s.Extends t) :
    t.kind.isNameSpace = s.kind.isNameSpace :=
  congrArg ScopeKind.isNameSpace h.kind

theorem Extends.isClass_eq {s t : Scope} (h : s.Extends t) : t.isClass = s.isClass :=
  h.layout.isSome_eq

/-- The slot sets of the scope agree with their indices, and exactly a class has a template. -/
structure Sound (s : Scope) : Prop where
  locals : s.locals.Consistent
  template : ∀ template, s.template? = some template → template.Consistent
  classed : s.isClass = true ↔ s.kind = .classScope

/-- Namespaces and classes can be opened by name. -/
def isOpen (s : Scope) : Bool := s.kind.isNameSpace || s.isClass

theorem Extends.isOpen_eq {s t : Scope} (h : s.Extends t) : t.isOpen = s.isOpen := by
  unfold isOpen
  rw [h.isNameSpace_eq, h.isClass_eq]

theorem isClass_iff_exists_template {s : Scope} :
    s.isClass = true ↔ ∃ template, s.template? = some template := by
  unfold isClass template?
  cases s.layout? <;> simp

theorem isClass_of_template? {s : Scope} {template : SlotSet} (h : s.template? = some template) :
    s.isClass = true :=
  isClass_iff_exists_template.2 ⟨template, h⟩

theorem Sound.isCall_of_isClass {s : Scope} (hs : s.Sound) (h : s.isClass = true) :
    s.kind.isCall = false := by
  rw [hs.classed.1 h]
  rfl

theorem Sound.isClass_of_isCall {s : Scope} (hs : s.Sound) (h : s.kind.isCall = true) :
    s.isClass = false := by
  refine eq_false_of_ne_true fun hclass => ?_
  rw [hs.isCall_of_isClass hclass] at h
  cases h

theorem Sound.isOpen_iff {s : Scope} (hs : s.Sound) :
    s.isOpen = true ↔ s.kind = .nameSpace ∨ s.kind = .classScope := by
  rw [isOpen, Bool.or_eq_true, hs.classed]
  cases s.kind <;> simp [ScopeKind.isNameSpace]

theorem Sound.isCall_of_isOpen {s : Scope} (hs : s.Sound) (h : s.isOpen = true) :
    s.kind.isCall = false := by
  rcases hs.isOpen_iff.1 h with h | h <;> rw [h] <;> rfl

/-- A namespace or class without declarations. -/
structure Fresh (s : Scope) (name : Name) (parent : ScopeId) : Prop where
  isOpen : s.isOpen = true
  name : s.name = name
  parent : s.parent = parent
  locals : s.locals = .empty
  template : ∀ template, s.template? = some template → template = .empty
  classed : s.isClass = true ↔ s.kind = .classScope
  nested : ∀ other, s.nested? other = none

theorem fresh_nameSpace (name : Name) (parent : ScopeId) :
    (nameSpace name parent).Fresh name parent :=
  ⟨rfl, rfl, rfl, rfl, fun _ h => (by cases h), ⟨nofun, nofun⟩,
    fun _ => Std.TreeMap.getElem?_emptyc⟩

theorem fresh_classNamed (name : Name) (parent : ScopeId) (typeId : TypeId) :
    (classNamed name parent typeId).Fresh name parent :=
  ⟨rfl, rfl, rfl, rfl, fun _ h => (Option.some.inj h).symm, ⟨fun _ => rfl, fun _ => rfl⟩,
    fun _ => Std.TreeMap.getElem?_emptyc⟩

theorem nested?_addNested (s : Scope) (name other : Name) (id : ScopeId) :
    (s.addNested name id).nested? other = if name = other then some id else s.nested? other := by
  unfold nested? addNested
  rw [Std.TreeMap.getElem?_insert]
  simp only [Std.LawfulEqOrd.compare_eq_iff_eq]

theorem extends_addNested {s : Scope} {name : Name} (h : s.nested? name = none) (id : ScopeId) :
    s.Extends (s.addNested name id) := by
  refine ⟨rfl, .refl _, rfl, rfl, List.prefix_refl _, fun other inner hinner => ?_⟩
  rw [nested?_addNested, if_neg]
  · exact hinner
  · rintro rfl
    rw [h] at hinner
    cases hinner

theorem findLocal?_isOk {s : Scope} (h : s.Sound) (name : Name) :
    ∃ found, s.findLocal? name = .ok found := by
  unfold findLocal?
  rw [h.locals.find?_eq]
  exact ⟨_, rfl⟩

theorem findLocal_settled {s : Scope} (h : s.Sound) (name : Name) :
    Settled (s.findLocal name) := by
  unfold findLocal
  rcases h.locals.find_eq_ok_or_missing name with ⟨slot, hs⟩ | hs
  · rw [hs]
    exact settled_ok _
  · rw [hs]
    exact settled_fault _

end Scope

/-! ## Sound trees -/

namespace ScopeTree

/-- `id` is a live namespace or class called `name` and declared in the scope at `i`. -/
def Declares (t : ScopeTree) (i : Nat) (name : Name) (id : ScopeId) : Prop :=
  ∃ inner, t.get? id = some inner ∧ inner.isOpen = true ∧ inner.name = name ∧
    inner.parent.index = i

/-- What holds of every tree that is used as it should be. The handles of `F` come from other trees;
a scope may have one of them as its parent. -/
structure SoundUpTo (F : ScopeId → Prop) (t : ScopeTree) : Prop where
  id : t.id ≠ .shared
  foreign : ∀ id, F id → id.tree ≠ .shared ∧ id.tree ≠ t.id
  undefined : ∃ s : Scope, t.scopes[0]? = some s ∧ s.kind = .undefined ∧ s.parent = .undefined
  global : ∃ s : Scope, t.scopes[1]? = some s ∧ s.kind = .global ∧ s.parent = .global
  retained : 2 ≤ t.retained ∧ t.retained ≤ t.size
  parent : ∀ (i : Nat) (s : Scope), t.scopes[i]? = some s → 2 ≤ i →
    F s.parent ∨ t.owns s.parent = true ∧ s.parent.index < i
  nested : ∀ (i : Nat) (s : Scope), t.scopes[i]? = some s → ∀ name id,
    s.nested? name = some id → t.Declares i name id
  kept : ∀ (i : Nat) (s : Scope), t.scopes[i]? = some s → s.kind.isCall = false → i < t.retained
  slots : ∀ (i : Nat) (s : Scope), t.scopes[i]? = some s → s.Sound

/-- The tree is sound, and all its handles are its own. -/
abbrev Sound (t : ScopeTree) : Prop := t.SoundUpTo fun _ => False

variable {t : ScopeTree} {F : ScopeId → Prop}

theorem Sound.parent (h : t.Sound) (i : Nat) (s : Scope) (hs : t.scopes[i]? = some s)
    (hi : 2 ≤ i) : t.owns s.parent = true ∧ s.parent.index < i :=
  (SoundUpTo.parent h i s hs hi).resolve_left fun hnone => hnone

theorem owns_eq_true_iff {id : ScopeId} :
    t.owns id = true ↔
      (id.tree = .shared ∧ id.index < 2) ∨
        (id.tree ≠ .shared ∧ id.tree = t.id ∧ id.index < t.size) := by
  unfold owns
  split <;> simp [*]

theorem not_owns_of_foreign {id : ScopeId} (hshared : id.tree ≠ .shared) (hother : id.tree ≠ t.id) :
    ¬ t.owns id = true := by
  rw [owns_eq_true_iff]
  rintro (⟨htree, -⟩ | ⟨-, htree, -⟩)
  · exact hshared htree
  · exact hother htree

theorem new_cases {id : StoreId} {i : Nat} {s : Scope}
    (h : ({ id } : ScopeTree).scopes[i]? = some s) :
    i = 0 ∧ s = .undefined ∨ i = 1 ∧ s = .global := by
  have hlt : i < 2 := (Array.getElem?_eq_some_iff.1 h).1
  obtain rfl | rfl : i = 0 ∨ i = 1 := by omega
  · exact Or.inl ⟨rfl, (Option.some.inj h).symm⟩
  · exact Or.inr ⟨rfl, (Option.some.inj h).symm⟩

theorem soundUpTo_new {id : StoreId} (hid : id ≠ .shared)
    (hF : ∀ other, F other → other.tree ≠ .shared ∧ other.tree ≠ id) :
    ({ id } : ScopeTree).SoundUpTo F := by
  refine ⟨hid, hF, ⟨.undefined, rfl, rfl, rfl⟩, ⟨.global, rfl, rfl, rfl⟩,
    ⟨Nat.le_refl _, Nat.le_refl _⟩,
    fun i s hs hi => ?_, fun i s hs name inner hinner => ?_, fun i s hs _ => ?_, fun i s hs => ?_⟩
  · exact absurd (Array.getElem?_eq_some_iff.1 hs).1 (Nat.not_lt_of_le hi)
  · have hempty : s.nested? name = none := by
      rcases new_cases hs with ⟨-, rfl⟩ | ⟨-, rfl⟩ <;> exact Std.TreeMap.getElem?_emptyc
    rw [hempty] at hinner
    cases hinner
  · exact (Array.getElem?_eq_some_iff.1 hs).1
  · rcases new_cases hs with ⟨-, rfl⟩ | ⟨-, rfl⟩ <;>
      exact ⟨SlotSet.consistent_empty, fun _ h => (by cases h), ⟨nofun, nofun⟩⟩

theorem sound_new {id : StoreId} (hid : id ≠ .shared) : ({ id } : ScopeTree).Sound :=
  soundUpTo_new hid fun _ hnone => hnone.elim

theorem SoundUpTo.two_le_size (h : t.SoundUpTo F) : 2 ≤ t.size :=
  Nat.le_trans h.retained.1 h.retained.2

theorem SoundUpTo.index_lt (h : t.SoundUpTo F) {id : ScopeId} (ho : t.owns id = true) :
    id.index < t.size := by
  have := h.two_le_size
  rcases owns_eq_true_iff.1 ho with ho | ho <;> omega

theorem get_eq_ok_iff {id : ScopeId} {s : Scope} :
    t.get id = .ok s ↔ t.get? id = some s := by
  unfold get
  cases t.get? id <;> simp

theorem get?_eq_some_iff {id : ScopeId} {s : Scope} :
    t.get? id = some s ↔ t.owns id = true ∧ t.scopes[id.index]? = some s := by
  unfold get?
  split <;> simp [*]

theorem SoundUpTo.exists_get (h : t.SoundUpTo F) {id : ScopeId} (ho : t.owns id = true) :
    ∃ s, t.get id = .ok s := by
  have hlt := h.index_lt ho
  exact ⟨t.scopes[id.index], get_eq_ok_iff.2 (get?_eq_some_iff.2
    ⟨ho, Array.getElem?_eq_getElem hlt⟩)⟩

theorem SoundUpTo.get_ne_error (h : t.SoundUpTo F) {id : ScopeId} (ho : t.owns id = true)
    {v : Violation} (he : t.get id = .error v) : False := by
  obtain ⟨s, hs⟩ := h.exists_get ho
  rw [hs] at he
  cases he

/-- A shared handle addresses a scope that is its own parent. -/
theorem SoundUpTo.parent_of_shared (h : t.SoundUpTo F) {id : ScopeId} {s : Scope}
    (hs : t.scopes[id.index]? = some s) (htree : id.tree = .shared) (hlt : id.index < 2) :
    s.parent = id := by
  obtain ⟨tree, index⟩ := id
  obtain rfl : tree = .shared := htree
  have hindex : index = 0 ∨ index = 1 := by
    change index < 2 at hlt
    omega
  rcases hindex with rfl | rfl
  · obtain ⟨s0, h0, -, hparent⟩ := h.undefined
    rw [h0] at hs
    cases hs
    exact hparent
  · obtain ⟨s1, h1, -, hparent⟩ := h.global
    rw [h1] at hs
    cases hs
    exact hparent

/-- The parent of one of the first two scopes is a shared handle. -/
theorem SoundUpTo.parent_shared (h : t.SoundUpTo F) {i : Nat} {s : Scope}
    (hs : t.scopes[i]? = some s) (hlt : i < 2) : s.parent.tree = .shared ∧ s.parent.index < 2 := by
  have hself : s.parent = ⟨.shared, i⟩ :=
    h.parent_of_shared (show t.scopes[(⟨.shared, i⟩ : ScopeId).index]? = some s from hs) rfl hlt
  rw [hself]
  exact ⟨rfl, hlt⟩

/-! ## Looking names up -/

/-- The computation met a handle of another tree. -/
def Strays {α : Type} (F : ScopeId → Prop) (e : Except (Stop Fault) α) : Prop :=
  ∃ id, F id ∧ e = .error (.breach (.deadScope id.index))

theorem not_strays {α : Type} {e : Except (Stop Fault) α} : ¬ Strays (fun _ => False) e :=
  fun ⟨_, hnone, _⟩ => hnone

theorem Strays.bind {α β : Type} {e : Except (Stop Fault) α} (h : Strays F e)
    (f : α → Except (Stop Fault) β) : Strays F (e >>= f) := by
  obtain ⟨id, hid, rfl⟩ := h
  exact ⟨id, hid, rfl⟩

theorem SoundUpTo.get_of_foreign (h : t.SoundUpTo F) {id : ScopeId} (hid : F id) :
    t.get id = .error (.deadScope id.index) := by
  obtain ⟨hshared, hother⟩ := h.foreign id hid
  unfold get get?
  rw [if_neg (not_owns_of_foreign hshared hother)]

/-- A walk outwards ends, or meets a handle of another tree; what it finds, it finds in a live
scope. -/
theorem SoundUpTo.searchWithin_cases {α : Type} (h : t.SoundUpTo F)
    {f : Scope → Except Violation (Option α)} (hf : ∀ s, s.Sound → ∃ r, f s = .ok r)
    {steps : Nat} {id : ScopeId} (ho : t.owns id = true)
    (hsteps : id.index + 2 ≤ steps ∨ id.tree = .shared ∧ 1 ≤ steps) :
    (∃ r, t.searchWithin f steps id = .ok r ∧
      ∀ a, r = some a → ∃ (i : Nat) (s : Scope), t.scopes[i]? = some s ∧ f s = .ok (some a)) ∨
      Strays F (t.searchWithin f steps id) := by
  induction steps generalizing id with
  | zero => omega
  | succ steps ih =>
    obtain ⟨s, hs⟩ := h.exists_get ho
    have hget := (get?_eq_some_iff.1 (get_eq_ok_iff.1 hs)).2
    obtain ⟨r, hr⟩ := hf s (h.slots _ _ hget)
    unfold searchWithin
    simp only [hs, hr, bind, Except.bind, liftM, monadLift, MonadLift.monadLift]
    cases r with
    | some a => exact Or.inl ⟨some a, rfl, fun b hb => ⟨id.index, s, hget, hb ▸ hr⟩⟩
    | none =>
      by_cases hp : s.parent = id
      · rw [if_pos hp]
        exact Or.inl ⟨none, rfl, fun _ hb => by cases hb⟩
      · rw [if_neg hp]
        rcases owns_eq_true_iff.1 ho with ⟨htree, hlt⟩ | ⟨htree, -, -⟩
        · exact absurd (h.parent_of_shared hget htree hlt) hp
        · have hsteps' : id.index + 2 ≤ steps + 1 :=
            hsteps.resolve_right fun hshared => htree hshared.1
          -- the parent is shared, comes from another tree, or lies before the scope
          rcases Nat.lt_or_ge id.index 2 with hlt | hge
          · have hshared := h.parent_shared hget hlt
            exact ih (owns_eq_true_iff.2 (Or.inl hshared)) (Or.inr ⟨hshared.1, by omega⟩)
          · rcases h.parent _ _ hget hge with hforeign | ⟨hown, hless⟩
            · obtain ⟨k, rfl⟩ : ∃ k, steps = k + 1 := ⟨steps - 1, by omega⟩
              refine Or.inr ⟨s.parent, hforeign, ?_⟩
              unfold searchWithin
              rw [h.get_of_foreign hforeign]
              rfl
            · exact ih hown (Or.inl (by omega))

theorem SoundUpTo.search_cases {α : Type} (h : t.SoundUpTo F)
    {f : Scope → Except Violation (Option α)} (hf : ∀ s, s.Sound → ∃ r, f s = .ok r)
    {start : ScopeId} (ho : t.owns start = true) :
    (∃ r, t.search f start = .ok r ∧
      ∀ a, r = some a → ∃ (i : Nat) (s : Scope), t.scopes[i]? = some s ∧ f s = .ok (some a)) ∨
      Strays F (t.search f start) := by
  unfold search
  split
  · exact Or.inl ⟨none, rfl, fun _ hb => by cases hb⟩
  · have hlt := h.index_lt ho
    exact h.searchWithin_cases hf ho (Or.inl (by omega))

theorem Sound.search_eq_ok {α : Type} (h : t.Sound)
    {f : Scope → Except Violation (Option α)} (hf : ∀ s, s.Sound → ∃ r, f s = .ok r)
    {start : ScopeId} (ho : t.owns start = true) :
    ∃ r, t.search f start = .ok r ∧
      ∀ a, r = some a → ∃ (i : Nat) (s : Scope), t.scopes[i]? = some s ∧ f s = .ok (some a) :=
  (h.search_cases hf ho).resolve_right not_strays

theorem SoundUpTo.resolve_cases (h : t.SoundUpTo F) {start : ScopeId} (ho : t.owns start = true)
    (name : Name) : Settled (t.resolve start name) ∨ Strays F (t.resolve start name) := by
  rcases h.search_cases (fun s hs => Scope.findLocal?_isOk hs name) ho with ⟨r, hr, -⟩ | hstray
  · refine Or.inl ?_
    unfold resolve
    rw [hr]
    cases r with
    | none => exact settled_fault _
    | some target => exact settled_ok _
  · exact Or.inr (hstray.bind _)

theorem Sound.resolve_settled (h : t.Sound) {start : ScopeId} (ho : t.owns start = true)
    (name : Name) : Settled (t.resolve start name) :=
  (h.resolve_cases ho name).resolve_right not_strays

/-- A name of a scope means a live namespace or class, or nothing, unless a handle of another tree
lies on the way. -/
theorem SoundUpTo.resolveScope_cases (h : t.SoundUpTo F) {start : ScopeId}
    (ho : t.owns start = true) (name : Name) :
    ((∃ id i, t.resolveScope start name = .ok id ∧ t.Declares i name id) ∨
      t.resolveScope start name = .error (.fault (.scopeNotDeclared name))) ∨
      Strays F (t.resolveScope start name) := by
  rcases h.search_cases (f := fun s => return s.nested? name) (fun s _ => ⟨_, rfl⟩) ho with
    ⟨r, hr, hfound⟩ | hstray
  · refine Or.inl ?_
    unfold resolveScope
    rw [hr]
    cases r with
    | none => exact Or.inr rfl
    | some id =>
      obtain ⟨i, s, hs, hid⟩ := hfound id rfl
      exact Or.inl ⟨id, i, rfl, h.nested i s hs name id (Except.ok.inj hid)⟩
  · exact Or.inr (hstray.bind _)

theorem Declares.exists_get {i : Nat} {name : Name} {id : ScopeId} (h : t.Declares i name id) :
    ∃ inner, t.get id = .ok inner ∧ inner.isOpen = true := by
  obtain ⟨inner, hget, hopen, -⟩ := h
  exact ⟨inner, get_eq_ok_iff.2 hget, hopen⟩

/-- What a name of a scope means is live. -/
theorem SoundUpTo.exists_inner (h : t.SoundUpTo F) {start id : ScopeId} {name : Name}
    (ho : t.owns start = true) (hid : t.resolveScope start name = .ok id) :
    ∃ inner, t.get id = .ok inner := by
  rcases h.resolveScope_cases ho name with (⟨id', i, hid', hdecl⟩ | hid') | ⟨_, _, hid'⟩
  · rw [hid] at hid'
    cases hid'
    obtain ⟨inner, hget, -⟩ := hdecl.exists_get
    exact ⟨inner, hget⟩
  · rw [hid] at hid'
    cases hid'
  · rw [hid] at hid'
    cases hid'

theorem SoundUpTo.resolveClass_cases (h : t.SoundUpTo F) {start : ScopeId}
    (ho : t.owns start = true) (name : Name) :
    Settled (t.resolveClass start name) ∨ Strays F (t.resolveClass start name) := by
  rcases h.resolveScope_cases ho name with (⟨id, i, hid, hdecl⟩ | hid) | hstray
  · obtain ⟨inner, hget, -⟩ := hdecl.exists_get
    refine Or.inl ?_
    unfold resolveClass
    rw [hid]
    simp only [bind, Except.bind, hget, liftM, monadLift, MonadLift.monadLift]
    split
    · exact settled_ok _
    · exact settled_fault _
  · refine Or.inl ?_
    unfold resolveClass
    rw [hid]
    exact settled_fault _
  · exact Or.inr (hstray.bind _)

theorem resolveClass_eq_ok {start id : ScopeId} {name : Name}
    (h : t.resolveClass start name = .ok id) :
    ∃ s, t.get? id = some s ∧ s.isClass = true := by
  obtain ⟨found, -, h⟩ := bind_eq_ok_iff.1 h
  obtain ⟨s, hs, h⟩ := bind_eq_ok_iff.1 h
  have hget : t.get found = .ok s := by
    cases hg : t.get found with
    | error v =>
      rw [hg] at hs
      cases hs
    | ok s' =>
      rw [hg] at hs
      cases hs
      rfl
  split at h
  · cases h
    exact ⟨s, get_eq_ok_iff.1 hget, ‹_›⟩
  · cases h

/-! ## Operations -/

@[simp] theorem size_set (id : ScopeId) (s : Scope) : (t.set id s).size = t.size := by
  unfold size set
  rw [Array.size_setIfInBounds]

@[simp] theorem owns_set (id other : ScopeId) (s : Scope) :
    (t.set id s).owns other = t.owns other := by
  unfold owns
  rw [size_set]
  rfl

theorem getElem?_set {id : ScopeId} {s : Scope} (h : id.index < t.size) (i : Nat) :
    (t.set id s).scopes[i]? = if i = id.index then some s else t.scopes[i]? := by
  unfold set size at *
  rw [Array.getElem?_setIfInBounds]
  by_cases hi : i = id.index
  · rw [if_pos hi, if_pos hi.symm, if_pos (hi ▸ h)]
  · rw [if_neg hi, if_neg (Ne.symm hi)]

/-- The tree `u` is `t` after further declarations: every scope of `t` is still there. -/
structure Extends (t u : ScopeTree) : Prop where
  id : u.id = t.id
  scope : ∀ (i : Nat) (s : Scope), t.scopes[i]? = some s →
    ∃ s' : Scope, u.scopes[i]? = some s' ∧ s.Extends s'

theorem Extends.refl (t : ScopeTree) : t.Extends t := ⟨rfl, fun _ s hs => ⟨s, hs, .refl s⟩⟩

theorem Extends.trans {u v : ScopeTree} (h1 : t.Extends u) (h2 : u.Extends v) : t.Extends v := by
  refine ⟨h2.id.trans h1.id, fun i s hs => ?_⟩
  obtain ⟨s', hs', he⟩ := h1.scope i s hs
  obtain ⟨s'', hs'', he'⟩ := h2.scope i s' hs'
  exact ⟨s'', hs'', he.trans he'⟩

theorem Extends.size_le {u : ScopeTree} (h : t.Extends u) : t.size ≤ u.size := by
  rcases Nat.lt_or_ge u.size t.size with hlt | hge
  · obtain ⟨s', hs', -⟩ := h.scope u.size _ (Array.getElem?_eq_getElem hlt)
    exact absurd (Array.getElem?_eq_some_iff.1 hs').1 (Nat.lt_irrefl _)
  · exact hge

theorem Extends.owns {u : ScopeTree} (h : t.Extends u) {id : ScopeId} (ho : t.owns id = true) :
    u.owns id = true := by
  have hsize := h.size_le
  rw [owns_eq_true_iff] at ho ⊢
  rw [h.id]
  exact ho.imp_right fun ho => ⟨ho.1, ho.2.1, by omega⟩

theorem Extends.get? {u : ScopeTree} (h : t.Extends u) {id : ScopeId} {s : Scope}
    (hs : t.get? id = some s) : ∃ s', u.get? id = some s' ∧ s.Extends s' := by
  obtain ⟨ho, hs⟩ := get?_eq_some_iff.1 hs
  obtain ⟨s', hs', he⟩ := h.scope _ _ hs
  exact ⟨s', get?_eq_some_iff.2 ⟨h.owns ho, hs'⟩, he⟩

theorem Extends.declares {u : ScopeTree} (h : t.Extends u) {i : Nat} {name : Name} {id : ScopeId}
    (hd : t.Declares i name id) : u.Declares i name id := by
  obtain ⟨inner, hget, hopen, hname, hparent⟩ := hd
  obtain ⟨inner', hget', he⟩ := h.get? hget
  exact ⟨inner', hget', he.isOpen_eq.trans hopen, he.name.trans hname, by rw [he.parent, hparent]⟩

theorem extends_set {id : ScopeId} {s s' : Scope} (hs : t.scopes[id.index]? = some s)
    (he : s.Extends s') : t.Extends (t.set id s') := by
  refine ⟨rfl, fun i r hr => ?_⟩
  rw [getElem?_set (Array.getElem?_eq_some_iff.1 hs).1]
  split
  · subst i
    rw [hs] at hr
    cases hr
    exact ⟨s', rfl, he⟩
  · exact ⟨r, hr, .refl r⟩

/-- Changing one scope keeps the tree sound if the scope only grows and its new nested names lead
to scopes declared in it. -/
theorem SoundUpTo.set (h : t.SoundUpTo F) {id : ScopeId} {s s' : Scope}
    (hs : t.scopes[id.index]? = some s) (he : s.Extends s') (hsound : s'.Sound)
    (hnested : ∀ name inner, s'.nested? name = some inner →
      s.nested? name = some inner ∨ t.Declares id.index name inner) :
    (t.set id s').SoundUpTo F := by
  have hlt : id.index < t.size := (Array.getElem?_eq_some_iff.1 hs).1
  have hext := extends_set hs he
  have hold : ∀ (i : Nat) (r' : Scope), (t.set id s').scopes[i]? = some r' →
      ∃ r : Scope, t.scopes[i]? = some r ∧ r.Extends r' := by
    intro i r' hr'
    rw [getElem?_set hlt] at hr'
    split at hr'
    · subst i
      cases hr'
      exact ⟨s, hs, he⟩
    · exact ⟨r', hr', .refl r'⟩
  refine ⟨h.id, h.foreign, ?_, ?_, ?_, ?_, ?_, ?_, ?_⟩
  · obtain ⟨r, hr, hk, hp⟩ := h.undefined
    obtain ⟨r', hr', her⟩ := hext.scope 0 r hr
    exact ⟨r', hr', her.kind.trans hk, her.parent.trans hp⟩
  · obtain ⟨r, hr, hk, hp⟩ := h.global
    obtain ⟨r', hr', her⟩ := hext.scope 1 r hr
    exact ⟨r', hr', her.kind.trans hk, her.parent.trans hp⟩
  · rw [size_set]
    exact h.retained
  · intro i r' hr' hi
    obtain ⟨r, hr, her⟩ := hold i r' hr'
    rw [owns_set, her.parent]
    exact h.parent i r hr hi
  · intro i r' hr' name inner hinner
    have hdecl : t.Declares i name inner := by
      rw [getElem?_set hlt] at hr'
      split at hr'
      · subst i
        cases hr'
        exact (hnested name inner hinner).elim (h.nested _ s hs name inner) fun hd => hd
      · exact h.nested i r' hr' name inner hinner
    exact hext.declares hdecl
  · intro i r' hr' hcall
    obtain ⟨r, hr, her⟩ := hold i r' hr'
    exact h.kept i r hr (her.isCall_eq ▸ hcall)
  · intro i r' hr'
    rw [getElem?_set hlt] at hr'
    split at hr'
    · cases hr'
      exact hsound
    · exact h.slots i r' hr'

theorem getElem?_push (s : Scope) (i : Nat) :
    (t.push s).2.scopes[i]? = if i = t.size then some s else t.scopes[i]? := by
  unfold push size
  rw [Array.getElem?_push]

@[simp] theorem size_push (s : Scope) : (t.push s).2.size = t.size + 1 := by
  unfold push size
  rw [Array.size_push]

theorem extends_push (s : Scope) : t.Extends (t.push s).2 := by
  refine ⟨rfl, fun i r hr => ⟨r, ?_, .refl r⟩⟩
  have hlt : i < t.size := (Array.getElem?_eq_some_iff.1 hr).1
  rw [getElem?_push, if_neg (by omega)]
  exact hr

theorem extends_retain (id : ScopeId) : t.Extends (t.retain id) :=
  ⟨rfl, fun _ s hs => ⟨s, hs, .refl s⟩⟩

theorem owns_self_of_lt (h : t.SoundUpTo F) {i : Nat} (hi : i < t.size) : t.owns ⟨t.id, i⟩ = true :=
  owns_eq_true_iff.2 (Or.inr ⟨h.id, rfl, hi⟩)

/-- A new scope without declarations, kept for good unless it is the scope of a call. -/
theorem SoundUpTo.push (h : t.SoundUpTo F) {s : Scope} {retained : Nat}
    (hparent : F s.parent ∨ t.owns s.parent = true)
    (hlocals : s.locals = .empty) (htemplate : ∀ template, s.template? = some template →
      template = .empty) (hclassed : s.isClass = true ↔ s.kind = .classScope)
    (hnested : ∀ name, s.nested? name = none)
    (hretained : t.retained ≤ retained ∧ retained ≤ t.size + 1)
    (hkept : s.kind.isCall = false → retained = t.size + 1) :
    ({ (t.push s).2 with retained } : ScopeTree).SoundUpTo F := by
  have hext : t.Extends { (t.push s).2 with retained } :=
    ⟨rfl, (extends_push s).scope⟩
  have htwo := h.two_le_size
  have hlt : ∀ (i : Nat) (r : Scope), t.scopes[i]? = some r → i < t.size :=
    fun i r hr => (Array.getElem?_eq_some_iff.1 hr).1
  -- each scope is the new one or an old one
  have hcases : ∀ (i : Nat) (r : Scope), (t.push s).2.scopes[i]? = some r →
      i = t.size ∧ r = s ∨ t.scopes[i]? = some r := by
    intro i r hr
    rw [getElem?_push] at hr
    split at hr
    · cases hr
      exact Or.inl ⟨‹_›, rfl⟩
    · exact Or.inr hr
  refine ⟨h.id, h.foreign, ?_, ?_, ?_, ?_, ?_, ?_, ?_⟩
  · obtain ⟨r, hr, hk, hp⟩ := h.undefined
    exact ⟨r, by rw [getElem?_push, if_neg (by omega)]; exact hr, hk, hp⟩
  · obtain ⟨r, hr, hk, hp⟩ := h.global
    exact ⟨r, by rw [getElem?_push, if_neg (by omega)]; exact hr, hk, hp⟩
  · exact ⟨Nat.le_trans h.retained.1 hretained.1, by
      change retained ≤ (t.push s).2.size
      rw [size_push]
      exact hretained.2⟩
  · intro i r hr hi
    rcases hcases i r hr with ⟨rfl, rfl⟩ | hr
    · exact hparent.imp_right fun ho => ⟨hext.owns ho, h.index_lt ho⟩
    · exact (h.parent i r hr hi).imp_right fun ho => ⟨hext.owns ho.1, ho.2⟩
  · intro i r hr name id hid
    rcases hcases i r hr with ⟨rfl, rfl⟩ | hr
    · rw [hnested name] at hid
      cases hid
    · exact hext.declares (h.nested i r hr name id hid)
  · intro i r hr hcall
    rcases hcases i r hr with ⟨rfl, rfl⟩ | hr
    · exact (hkept hcall).symm ▸ Nat.lt_succ_self _
    · exact Nat.lt_of_lt_of_le (h.kept i r hr hcall) hretained.1
  · intro i r hr
    rcases hcases i r hr with ⟨rfl, rfl⟩ | hr
    · exact ⟨hlocals ▸ SlotSet.consistent_empty, fun template ht =>
        htemplate template ht ▸ SlotSet.consistent_empty, hclassed⟩
    · exact h.slots i r hr

theorem SoundUpTo.retain (h : t.SoundUpTo F) {id : ScopeId} (ho : t.owns id = true) :
    (t.retain id).SoundUpTo F := by
  have hlt := h.index_lt ho
  have hr := h.retained
  refine ⟨h.id, h.foreign, h.undefined, h.global, ?_, h.parent, h.nested, ?_, h.slots⟩
  · change 2 ≤ max t.retained (id.index + 1) ∧ max t.retained (id.index + 1) ≤ t.size
    omega
  · intro i s hs hcall
    have := h.kept i s hs hcall
    change i < max t.retained (id.index + 1)
    omega

/-- The scope of a call may lie in a scope of another tree. -/
theorem SoundUpTo.pushCallScope (h : t.SoundUpTo F) {lexical : ScopeId}
    (hlexical : F lexical ∨ t.owns lexical = true) (method : Name) :
    (t.pushCallScope lexical method).2.SoundUpTo F := by
  have hretained := h.retained.2
  exact h.push hlexical rfl (fun _ ht => by cases ht) ⟨nofun, nofun⟩
    (fun _ => Std.TreeMap.getElem?_emptyc)
    ⟨Nat.le_refl _, by omega⟩ fun hcall => by cases hcall

/-- The scope of a new call is live. -/
theorem SoundUpTo.get?_pushCallScope (h : t.SoundUpTo F) (lexical : ScopeId) (method : Name) :
    (t.pushCallScope lexical method).2.get? ⟨t.id, t.size⟩ = some (.call method lexical) := by
  have hlt : t.size < (t.pushCallScope lexical method).2.size :=
    Nat.lt_of_lt_of_eq (Nat.lt_succ_self _) (size_push _).symm
  exact get?_eq_some_iff.2 ⟨owns_eq_true_iff.2 (Or.inr ⟨h.id, rfl, hlt⟩),
    (getElem?_push _ _).trans (if_pos rfl)⟩

theorem size_shrink {n : Nat} (hsize : n ≤ t.size) :
    ({ t with scopes := t.scopes.shrink n } : ScopeTree).size = n := by
  change (t.scopes.shrink n).size = n
  rw [Array.size_shrink]
  exact Nat.min_eq_left hsize

theorem owns_shrink {n : Nat} (hsize : n ≤ t.size) {id : ScopeId} (ho : t.owns id = true)
    (hlt : id.index < n) :
    ({ t with scopes := t.scopes.shrink n } : ScopeTree).owns id = true := by
  rw [owns_eq_true_iff] at ho ⊢
  rw [size_shrink hsize]
  exact ho.imp_right fun ho => ⟨ho.1, ho.2.1, hlt⟩

/-- Taking away the scopes from `n` on, none of which is kept for good. -/
theorem SoundUpTo.shrink (h : t.SoundUpTo F) {n : Nat} (hn : t.retained ≤ n) (hsize : n ≤ t.size) :
    ({ t with scopes := t.scopes.shrink n } : ScopeTree).SoundUpTo F := by
  have htwo := h.retained.1
  have hget : ∀ i : Nat, i < n → (t.scopes.shrink n)[i]? = t.scopes[i]? := by
    intro i hi
    rw [getElem?_shrink, if_pos hi]
  have hold : ∀ (i : Nat) (s : Scope), (t.scopes.shrink n)[i]? = some s →
      i < n ∧ t.scopes[i]? = some s := by
    intro i s hs
    rw [getElem?_shrink] at hs
    split at hs
    · exact ⟨‹_›, hs⟩
    · cases hs
  refine ⟨h.id, h.foreign, ?_, ?_, ?_, ?_, ?_, ?_, ?_⟩
  · obtain ⟨s, hs, hk, hp⟩ := h.undefined
    exact ⟨s, (hget 0 (by omega)).trans hs, hk, hp⟩
  · obtain ⟨s, hs, hk, hp⟩ := h.global
    exact ⟨s, (hget 1 (by omega)).trans hs, hk, hp⟩
  · rw [size_shrink hsize]
    exact ⟨htwo, hn⟩
  · intro i s hs hi
    obtain ⟨hlt, hs⟩ := hold i s hs
    exact (h.parent i s hs hi).imp_right fun ⟨ho, hless⟩ =>
      ⟨owns_shrink hsize ho (by omega), hless⟩
  · intro i s hs name id hid
    obtain ⟨hlt, hs⟩ := hold i s hs
    obtain ⟨inner, hinner, hopen, hname, hparent⟩ := h.nested i s hs name id hid
    obtain ⟨ho, hinner⟩ := get?_eq_some_iff.1 hinner
    -- a namespace or class is kept for good, so it lies below `n`
    have hkept := h.kept _ _ hinner ((h.slots _ _ hinner).isCall_of_isOpen hopen)
    have hlow : id.index < n := by omega
    exact ⟨inner, get?_eq_some_iff.2 ⟨owns_shrink hsize ho hlow, (hget _ hlow).trans hinner⟩,
      hopen, hname, hparent⟩
  · intro i s hs hcall
    exact h.kept i s (hold i s hs).2 hcall
  · intro i s hs
    exact h.slots i s (hold i s hs).2

/-! ## Namespaces and classes -/

/-- The tree with a scope pushed for good and its name entered in its parent. -/
def declared (t : ScopeTree) (parent : ScopeId) (owner : Scope) (name : Name) (s : Scope) :
    ScopeTree :=
  ((t.push s).2.retain ⟨t.id, t.size⟩).set parent (owner.addNested name ⟨t.id, t.size⟩)

/-- Opening `name` in `parent` leads to the scope `id` of the tree `u`: one that was there, or a new
one. -/
inductive Opened (t : ScopeTree) (parent : ScopeId) (name : Name) : ScopeId → ScopeTree → Prop where
  | existing {id : ScopeId} (h : t.Declares parent.index name id) : Opened t parent name id t
  | fresh {owner s : Scope} (hget : t.get? parent = some owner)
      (hnew : owner.nested? name = none) (hs : s.Fresh name parent) :
      Opened t parent name ⟨t.id, t.size⟩ (t.declared parent owner name s)

theorem SoundUpTo.declare_eq (h : t.SoundUpTo F) {parent : ScopeId} {owner : Scope}
    (hget : t.get? parent = some owner) (name : Name) (s : Scope) :
    t.declare parent name s = .ok (⟨t.id, t.size⟩, t.declared parent owner name s) := by
  obtain ⟨s', hs', -⟩ := ((extends_push s).trans (extends_retain ⟨t.id, t.size⟩)).get? hget
  obtain ⟨howns, hold⟩ := get?_eq_some_iff.1 hget
  have hlt := h.index_lt howns
  have hsame : s' = owner := by
    have hnew : (t.push s).2.scopes[parent.index]? = some s' := (get?_eq_some_iff.1 hs').2
    rw [getElem?_push, if_neg (by omega), hold] at hnew
    exact (Option.some.inj hnew).symm
  unfold declare
  have hok := get_eq_ok_iff.2 hs'
  rw [hsame] at hok
  change (((t.push s).2.retain ⟨t.id, t.size⟩).get parent >>= fun owner =>
    pure ((⟨t.id, t.size⟩ : ScopeId), ((t.push s).2.retain ⟨t.id, t.size⟩).set parent
      (owner.addNested name ⟨t.id, t.size⟩))) = _
  rw [hok]
  rfl

theorem SoundUpTo.defineNamespace_cases (h : t.SoundUpTo F) {parent : ScopeId}
    (ho : t.owns parent = true) (name : Name) :
    (∃ id u, t.defineNamespace parent name = .ok (id, u) ∧ t.Opened parent name id u) ∨
      ∃ cause, t.defineNamespace parent name = .error (.fault cause) := by
  obtain ⟨owner, hget⟩ := h.exists_get ho
  have hslot := (get?_eq_some_iff.1 (get_eq_ok_iff.1 hget)).2
  unfold defineNamespace
  rw [hget]
  simp only [bind, Except.bind, liftM, monadLift, MonadLift.monadLift]
  cases hn : owner.nested? name with
  | none =>
    rw [h.declare_eq (get_eq_ok_iff.1 hget)]
    exact Or.inl ⟨_, _, rfl, .fresh (get_eq_ok_iff.1 hget) hn (Scope.fresh_nameSpace name parent)⟩
  | some id =>
    have hdecl := h.nested _ _ hslot name id hn
    obtain ⟨inner, hinner, -⟩ := hdecl.exists_get
    simp only [hinner]
    split
    · exact Or.inl ⟨id, t, rfl, .existing hdecl⟩
    · exact Or.inr ⟨_, rfl⟩

theorem SoundUpTo.defineClass_cases (h : t.SoundUpTo F) {parent : ScopeId}
    (ho : t.owns parent = true) (name : Name) (typeId : TypeId) :
    (∃ id u, t.defineClass parent name typeId = .ok (id, u) ∧ t.Opened parent name id u) ∨
      ∃ cause, t.defineClass parent name typeId = .error (.fault cause) := by
  obtain ⟨owner, hget⟩ := h.exists_get ho
  have hslot := (get?_eq_some_iff.1 (get_eq_ok_iff.1 hget)).2
  unfold defineClass
  rw [hget]
  simp only [bind, Except.bind, liftM, monadLift, MonadLift.monadLift]
  cases hn : owner.nested? name with
  | none =>
    rw [h.declare_eq (get_eq_ok_iff.1 hget)]
    exact Or.inl ⟨_, _, rfl,
      .fresh (get_eq_ok_iff.1 hget) hn (Scope.fresh_classNamed name parent typeId)⟩
  | some id =>
    obtain ⟨inner, hinner, -⟩ := (h.nested _ _ hslot name id hn).exists_get
    simp only [hinner]
    exact Or.inr ⟨_, rfl⟩

theorem getElem?_retain (id : ScopeId) (i : Nat) : (t.retain id).scopes[i]? = t.scopes[i]? := rfl

/-- Each scope of the new tree is the new one, the parent with one more name, or an old one. -/
theorem SoundUpTo.getElem?_declared (h : t.SoundUpTo F) {parent : ScopeId} {owner s : Scope}
    (hget : t.get? parent = some owner) (name : Name) (i : Nat) :
    (t.declared parent owner name s).scopes[i]? =
      if i = parent.index then some (owner.addNested name ⟨t.id, t.size⟩)
      else if i = t.size then some s else t.scopes[i]? := by
  have hlt := h.index_lt (get?_eq_some_iff.1 hget).1
  have hsize : parent.index < ((t.push s).2.retain ⟨t.id, t.size⟩).size := by
    change parent.index < (t.push s).2.size
    rw [size_push]
    omega
  unfold declared
  rw [getElem?_set hsize, getElem?_retain, getElem?_push]

theorem SoundUpTo.declared (h : t.SoundUpTo F) {parent : ScopeId} {owner s : Scope} {name : Name}
    (hget : t.get? parent = some owner) (hnew : owner.nested? name = none)
    (hs : s.Fresh name parent) : (t.declared parent owner name s).SoundUpTo F := by
  obtain ⟨howns, hold⟩ := get?_eq_some_iff.1 hget
  have hlt := h.index_lt howns
  have hretained := h.retained.2
  have hpush : ({ (t.push s).2 with retained := t.size + 1 } : ScopeTree).SoundUpTo F :=
    h.push (Or.inr (hs.parent ▸ howns)) hs.locals hs.template hs.classed hs.nested (by omega)
      fun _ => rfl
  have hmax : max t.retained (t.size + 1) = t.size + 1 := by omega
  have hpushed : ((t.push s).2.retain ⟨t.id, t.size⟩).SoundUpTo F := by
    change ({ (t.push s).2 with retained := max t.retained (t.size + 1) } : ScopeTree).SoundUpTo F
    rw [hmax]
    exact hpush
  have hslot : ((t.push s).2.retain ⟨t.id, t.size⟩).scopes[parent.index]? = some owner := by
    rw [getElem?_retain, getElem?_push, if_neg (by omega)]
    exact hold
  refine hpushed.set hslot (Scope.extends_addNested hnew _) ?_ ?_
  · exact ⟨(h.slots _ _ hold).locals, (h.slots _ _ hold).template, (h.slots _ _ hold).classed⟩
  · intro other inner hinner
    rw [Scope.nested?_addNested] at hinner
    split at hinner
    · subst other
      cases hinner
      refine Or.inr ⟨s, get?_eq_some_iff.2 ⟨?_, ?_⟩, hs.isOpen, hs.name, by rw [hs.parent]⟩
      · exact owns_self_of_lt hpushed (by
          change t.size < (t.push s).2.size
          rw [size_push]
          exact Nat.lt_succ_self _)
      · rw [getElem?_retain, getElem?_push, if_pos rfl]
    · exact Or.inl hinner

theorem Opened.sound {parent id : ScopeId} {name : Name} {u : ScopeTree}
    (ho : t.Opened parent name id u) (h : t.SoundUpTo F) : u.SoundUpTo F := by
  cases ho with
  | existing => exact h
  | fresh hget hnew hs => exact h.declared hget hnew hs

theorem Opened.extends {parent id : ScopeId} {name : Name} {u : ScopeTree}
    (ho : t.Opened parent name id u) (h : t.SoundUpTo F) : t.Extends u := by
  cases ho with
  | existing => exact .refl t
  | @fresh owner s hget hnew hs =>
    refine ⟨rfl, fun i r hr => ?_⟩
    have hlt : i < t.size := (Array.getElem?_eq_some_iff.1 hr).1
    rw [h.getElem?_declared hget]
    split
    · subst i
      rw [(get?_eq_some_iff.1 hget).2] at hr
      cases hr
      exact ⟨_, rfl, Scope.extends_addNested hnew _⟩
    · rw [if_neg (by omega)]
      exact ⟨r, hr, .refl r⟩

/-- Opening declares no local. -/
theorem Opened.locals_eq {parent id : ScopeId} {name : Name} {u : ScopeTree}
    (ho : t.Opened parent name id u) (h : t.SoundUpTo F) {i : Nat} {s s' : Scope}
    (hs : t.scopes[i]? = some s) (hs' : u.scopes[i]? = some s') : s'.locals = s.locals := by
  cases ho with
  | existing =>
    rw [hs] at hs'
    cases hs'
    rfl
  | @fresh owner new hget hnew hfresh =>
    have hlt : i < t.size := (Array.getElem?_eq_some_iff.1 hs).1
    rw [h.getElem?_declared hget] at hs'
    split at hs'
    · subst i
      rw [(get?_eq_some_iff.1 hget).2] at hs
      cases hs
      cases hs'
      rfl
    · rw [if_neg (by omega), hs] at hs'
      cases hs'
      rfl

/-- The scope that was opened is live, and not that of a call. -/
theorem Opened.exists_get? {parent id : ScopeId} {name : Name} {u : ScopeTree}
    (ho : t.Opened parent name id u) (h : t.SoundUpTo F) :
    ∃ inner, u.get? id = some inner ∧ inner.isOpen = true := by
  cases ho with
  | existing hd =>
    obtain ⟨inner, hget, hopen, -⟩ := hd
    exact ⟨inner, hget, hopen⟩
  | @fresh owner s hget hnew hs =>
    have hlt := h.index_lt (get?_eq_some_iff.1 hget).1
    have hslot : (t.declared parent owner name s).scopes[t.size]? = some s := by
      rw [h.getElem?_declared hget, if_neg (by omega), if_pos rfl]
    exact ⟨s, get?_eq_some_iff.2 ⟨owns_self_of_lt (h.declared hget hnew hs)
      (Array.getElem?_eq_some_iff.1 hslot).1, hslot⟩, hs.isOpen⟩

theorem Opened.retained_le {parent id : ScopeId} {name : Name} {u : ScopeTree}
    (ho : t.Opened parent name id u) : t.retained ≤ u.retained := by
  cases ho with
  | existing => exact Nat.le_refl _
  | fresh => exact Nat.le_max_left _ _

end ScopeTree

end ActionMachine
