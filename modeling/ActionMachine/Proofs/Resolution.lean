import ActionMachine.Proofs.Permanence
import ActionMachine.Proofs.TreeOperations

/-
  Looking names up. The way out of a scope leads over its parents to a scope that is its own parent,
  and in a sound tree each live scope has exactly one. Main statement: a name means what the first
  scope on the way declares it to be, whichever of the look-ups is asked, and a new declaration
  changes that only where it is the first one on the way.
-/

namespace ActionMachine

/-! ## What a scope declares -/

namespace Scope

variable {s : Scope} {name : Name} {target : CellRef}

/-- The scope itself declares the name, for this cell. -/
def Binds (s : Scope) (name : Name) (target : CellRef) : Prop := ⟨name, target⟩ ∈ s.locals.slots

/-- The scope itself has a namespace or class of this name. -/
def Nests (s : Scope) (name : Name) (id : ScopeId) : Prop := s.nested? name = some id

/-- The scope, if it declares the name. -/
def declaring? (s : Scope) (name : Name) : Option Scope :=
  if s.locals.contains name then some s else none

/-- The cell of the first local of this name. -/
def local? (s : Scope) (name : Name) : Option CellRef :=
  (s.locals.slots.find? (·.name == name)).map (·.target)

theorem findLocal?_eq (hs : s.Sound) (name : Name) : s.findLocal? name = .ok (s.local? name) := by
  unfold findLocal?
  rw [hs.locals.find?_eq]
  rfl

theorem local?_eq_some_iff (hs : s.Sound) : s.local? name = some target ↔ s.Binds name target := by
  unfold local? Binds
  rw [Option.map_eq_some_iff]
  constructor
  · rintro ⟨slot, hslot, rfl⟩
    have hname : slot.name = name := by simpa using Array.find?_some hslot
    exact hname ▸ Array.mem_of_find?_eq_some hslot
  · intro hmem
    cases hfind : s.locals.slots.find? (·.name == name) with
    | none => exact absurd (beq_self_eq_true name) (Array.find?_eq_none.1 hfind _ hmem)
    | some slot =>
      -- two slots of one name are one slot
      have hname : slot.name = name := by simpa using Array.find?_some hfind
      obtain ⟨i, hi, hslot⟩ := Array.mem_iff_getElem.1 (Array.mem_of_find?_eq_some hfind)
      obtain ⟨j, hj, htarget⟩ := Array.mem_iff_getElem.1 hmem
      have hslot? := Array.getElem?_eq_some_iff.2 ⟨hi, hslot⟩
      have htarget? := Array.getElem?_eq_some_iff.2 ⟨hj, htarget⟩
      obtain rfl := hs.locals.position_inj hslot? htarget? hname
      rw [hslot?] at htarget?
      exact ⟨slot, rfl, congrArg Slot.target (Option.some.inj htarget?)⟩

theorem local?_eq_none_iff (hs : s.Sound) :
    s.local? name = none ↔ s.locals.contains name = false := by
  rw [← findLocal?_eq_none_iff hs, findLocal?_eq hs, Except.ok.injEq]

theorem exists_local? (hs : s.Sound) (h : s.locals.contains name = true) :
    ∃ target, s.local? name = some target := by
  rw [← Option.isSome_iff_exists, Option.isSome_iff_ne_none, ne_eq, local?_eq_none_iff hs, h]
  exact Bool.noConfusion

/-- What is known to be declared is found in the scope. -/
theorem findBoundLocal_eq (hs : s.Sound) (h : s.local? name = some target) :
    s.findBoundLocal name = .ok target := by
  obtain ⟨slot, hslot, rfl⟩ := Option.map_eq_some_iff.1 h
  unfold findBoundLocal SlotSet.findBound
  rw [hs.locals.find?_eq, hslot]
  rfl

/-- One more local leaves the others as they are. -/
theorem local?_addLocal {s' : Scope} (hs : s.Sound) (hs' : s'.Sound)
    (h : s.addLocal name target = .ok s') (other : Name) :
    s'.local? other = if other = name then some target else s.local? other := by
  obtain ⟨locals, hinsert, hs''⟩ := bind_eq_ok_iff.1 h
  cases hs''
  obtain ⟨hnew, rfl⟩ := SlotSet.insert_eq_ok_iff.1 hinsert
  have hnone : s.local? name = none := (local?_eq_none_iff hs).2 hnew
  apply Option.ext
  intro found
  rw [local?_eq_some_iff hs']
  unfold Binds
  rw [Array.mem_push, Slot.mk.injEq]
  change s.Binds other found ∨ _ ↔ _
  rw [← local?_eq_some_iff hs]
  split
  · subst other
    rw [hnone, Option.some.injEq]
    simp [eq_comm]
  · simp [*]

end Scope

namespace ScopeTree

variable {t u : ScopeTree} {id start : ScopeId} {way : List ScopeId} {name : Name}
  {target : CellRef} {α : Type}

/-! ## The way out of a scope -/

/-- The scope itself, its parent, and so on up to a scope that is its own parent. -/
inductive Way (t : ScopeTree) : ScopeId → List ScopeId → Prop where
  | last {id : ScopeId} {s : Scope} (hs : t.get? id = some s) (hself : s.parent = id) :
    Way t id [id]
  | outwards {id : ScopeId} {s : Scope} {rest : List ScopeId} (hs : t.get? id = some s)
      (hnext : s.parent ≠ id) (h : Way t s.parent rest) : Way t id (id :: rest)

theorem Way.unique {way' : List ScopeId} (h : t.Way id way) (h' : t.Way id way') : way = way' := by
  induction h generalizing way' with
  | last hs hself =>
    cases h' with
    | last => rfl
    | outwards hs' hnext =>
      rw [hs] at hs'
      cases hs'
      exact absurd hself hnext
  | outwards hs hnext _ ih =>
    cases h' with
    | last hs' hself =>
      rw [hs] at hs'
      cases hs'
      exact absurd hself hnext
    | outwards hs' _ hrest =>
      rw [hs] at hs'
      cases hs'
      rw [ih hrest]

theorem Way.exists_get? (h : t.Way id way) {other : ScopeId} (hmem : other ∈ way) :
    ∃ s, t.get? other = some s := by
  induction h with
  | last hs => exact ⟨_, List.mem_singleton.1 hmem ▸ hs⟩
  | outwards hs _ _ ih =>
    rcases List.mem_cons.1 hmem with rfl | hmem
    · exact ⟨_, hs⟩
    · exact ih hmem

/-- Every live scope has a way out. It meets no scope twice, but for a shared one under its two
handles. -/
theorem Sound.exists_way (h : t.Sound) (ho : t.owns id = true) :
    ∃ way, t.Way id way ∧ way.length ≤ id.index + 2 := by
  induction hi : id.index using Nat.strongRecOn generalizing id with
  | ind i ih =>
    subst hi
    obtain ⟨s, hget⟩ := h.exists_get ho
    have hs := get_eq_ok_iff.1 hget
    have hslot := (get?_eq_some_iff.1 hs).2
    by_cases hself : s.parent = id
    · exact ⟨[id], .last hs hself, by simp⟩
    rcases Nat.lt_or_ge id.index 2 with hlt | hge
    · -- the parent is a shared scope, which is its own parent
      have hshared := h.parent_shared hslot hlt
      obtain ⟨r, hr⟩ := h.exists_get (owns_eq_true_iff.2 (Or.inl hshared))
      have hr := get_eq_ok_iff.1 hr
      have hroot := h.parent_of_shared (get?_eq_some_iff.1 hr).2 hshared.1 hshared.2
      exact ⟨[id, s.parent], .outwards hs hself (.last hr hroot), by simp⟩
    · obtain ⟨hown, hless⟩ := h.parent _ _ hslot hge
      obtain ⟨rest, hrest, hlength⟩ := ih _ hless hown rfl
      exact ⟨id :: rest, .outwards hs hself hrest, by rw [List.length_cons]; omega⟩

/-- A scope of a sound tree that is its own parent is one of the shared two. -/
theorem Sound.eq_shared_of_parent (h : t.Sound) {s : Scope} (hs : t.get? id = some s)
    (hself : s.parent = id) : id = .undefined ∨ id = .global := by
  obtain ⟨ho, hslot⟩ := get?_eq_some_iff.1 hs
  rcases owns_eq_true_iff.1 ho with ⟨htree, hlt⟩ | ⟨htree, -, -⟩
  · obtain ⟨tree, index⟩ := id
    obtain rfl : tree = .shared := htree
    obtain rfl | rfl : index = 0 ∨ index = 1 := by
      change index < 2 at hlt
      omega
    · exact Or.inl rfl
    · exact Or.inr rfl
  · rcases Nat.lt_or_ge id.index 2 with hlt | hge
    · exact absurd (hself ▸ (h.parent_shared hslot hlt).1) htree
    · have hless := (h.parent _ _ hslot hge).2
      rw [hself] at hless
      exact absurd hless (Nat.lt_irrefl _)

theorem Way.getLast?_eq (hway : t.Way id way) (h : t.Sound) :
    way.getLast? = some .undefined ∨ way.getLast? = some .global := by
  induction hway with
  | last hs hself =>
    rcases h.eq_shared_of_parent hs hself with rfl | rfl
    · exact Or.inl rfl
    · exact Or.inr rfl
  | @outwards id s rest _ _ hrest ih =>
    have hne : rest ≠ [] := by
      intro hnil
      rw [hnil] at hrest
      cases hrest
    rw [List.getLast?_cons_of_ne_nil hne]
    exact ih

/-- Declarations leave the way as it is. -/
theorem Way.of_extends (hway : t.Way id way) (h : t.Extends u) : u.Way id way := by
  induction hway with
  | last hs hself =>
    obtain ⟨s', hs', he⟩ := h.get? hs
    exact .last hs' (he.parent.trans hself)
  | outwards hs hnext _ ih =>
    obtain ⟨s', hs', he⟩ := h.get? hs
    exact .outwards hs' (he.parent ▸ hnext) (he.parent ▸ ih)

/-! ## The first scope that declares -/

/-- What `g` finds in the first scope on the way in which it finds something. -/
def nearest? (t : ScopeTree) (g : Scope → Option α) (way : List ScopeId) : Option α :=
  way.findSome? fun id => (t.get? id).bind g

/-- A search goes along the way. -/
theorem Way.searchWithin_eq {f : Scope → Except Violation (Option α)} {g : Scope → Option α}
    (hway : t.Way id way) (hf : ∀ other s, t.get? other = some s → f s = .ok (g s)) {steps : Nat}
    (hsteps : way.length ≤ steps) : t.searchWithin f steps id = .ok (t.nearest? g way) := by
  induction hway generalizing steps with
  | @last id s hs hself =>
    obtain ⟨k, rfl⟩ : ∃ k, steps = k + 1 := ⟨steps - 1, by simp at hsteps; omega⟩
    have hr := hf _ _ hs
    simp only [nearest?, List.findSome?_cons, hs, Option.bind_some]
    cases hg : g s with
    | some a =>
      rw [searchWithin_succ hs (hr.trans (congrArg _ hg))]
    | none =>
      rw [searchWithin_succ hs (hr.trans (congrArg _ hg))]
      exact if_pos hself
  | @outwards id s rest hs hnext _ ih =>
    obtain ⟨k, rfl⟩ : ∃ k, steps = k + 1 := ⟨steps - 1, by simp at hsteps; omega⟩
    have hr := hf _ _ hs
    simp only [nearest?, List.findSome?_cons, hs, Option.bind_some]
    cases hg : g s with
    | some a =>
      rw [searchWithin_succ hs (hr.trans (congrArg _ hg))]
    | none =>
      rw [searchWithin_succ hs (hr.trans (congrArg _ hg))]
      exact (if_neg hnext).trans (ih (by simpa using hsteps))

theorem Sound.search_eq (h : t.Sound) {f : Scope → Except Violation (Option α)}
    {g : Scope → Option α} (hf : ∀ s, s.Sound → f s = .ok (g s)) (hway : t.Way start way)
    (hstart : start ≠ .undefined) : t.search f start = .ok (t.nearest? g way) := by
  have ho : t.owns start = true := by
    cases hway with
    | last hs => exact (get?_eq_some_iff.1 hs).1
    | outwards hs => exact (get?_eq_some_iff.1 hs).1
  obtain ⟨way', hway', hlength⟩ := h.exists_way ho
  obtain rfl := hway.unique hway'
  have hlt := h.index_lt ho
  unfold search
  rw [if_neg hstart]
  exact hway.searchWithin_eq (fun other s hs => hf s (h.slots _ _ (get?_eq_some_iff.1 hs).2))
    (by omega)

/-- What `P` says of the first scope on the way of which it says something. -/
def Nearest (t : ScopeTree) (way : List ScopeId) (P : Scope → α → Prop) (a : α) : Prop :=
  ∃ nearer id farther s, way = nearer ++ id :: farther ∧ t.get? id = some s ∧ P s a ∧
    ∀ other ∈ nearer, ∀ r, t.get? other = some r → ∀ b, ¬ P r b

/-- The outcome `e` is what `P` says of the first scope on the way of which it says something, and
the fault if there is none. -/
structure Finds (t : ScopeTree) (way : List ScopeId) (P : Scope → α → Prop) (cause : Fault)
    (e : Except (Stop Fault) α) : Prop where
  found : ∀ a, e = .ok a ↔ t.Nearest way P a
  missing : e = .error (.fault cause) ↔ ∀ id ∈ way, ∀ s, t.get? id = some s → ∀ a, ¬ P s a
  settled : (∃ a, e = .ok a) ∨ e = .error (.fault cause)

section Nearest

variable {g : Scope → Option α} {P : Scope → α → Prop}

theorem bind_get?_eq_none (hg : ∀ other s, t.get? other = some s → ∀ a, g s = some a ↔ P s a)
    (id : ScopeId) :
    (t.get? id).bind g = none ↔ ∀ s, t.get? id = some s → ∀ a, ¬ P s a := by
  rw [Option.bind_eq_none_iff]
  constructor
  · intro h s hs a ha
    have hsome := (hg id s hs a).2 ha
    rw [h s hs] at hsome
    cases hsome
  · intro h s hs
    rw [Option.eq_none_iff_forall_ne_some]
    exact fun a ha => h s hs a ((hg id s hs a).1 ha)

theorem nearest?_eq_some_iff (hg : ∀ other s, t.get? other = some s → ∀ a, g s = some a ↔ P s a)
    {a : α} : t.nearest? g way = some a ↔ t.Nearest way P a := by
  unfold nearest? Nearest
  rw [List.findSome?_eq_some_iff]
  constructor
  · rintro ⟨nearer, id, farther, rfl, hfound, hnone⟩
    obtain ⟨s, hs, ha⟩ := Option.bind_eq_some_iff.1 hfound
    exact ⟨nearer, id, farther, s, rfl, hs, (hg id s hs a).1 ha, fun other hother =>
      (bind_get?_eq_none hg other).1 (hnone other hother)⟩
  · rintro ⟨nearer, id, farther, s, rfl, hs, ha, hnone⟩
    exact ⟨nearer, id, farther, rfl, Option.bind_eq_some_iff.2 ⟨s, hs, (hg id s hs a).2 ha⟩,
      fun other hother => (bind_get?_eq_none hg other).2 (hnone other hother)⟩

theorem nearest?_eq_none_iff (hg : ∀ other s, t.get? other = some s → ∀ a, g s = some a ↔ P s a) :
    t.nearest? g way = none ↔ ∀ id ∈ way, ∀ s, t.get? id = some s → ∀ a, ¬ P s a := by
  unfold nearest?
  rw [List.findSome?_eq_none_iff]
  exact forall₂_congr fun id _ => bind_get?_eq_none hg id

theorem finds_of_nearest? (hg : ∀ other s, t.get? other = some s → ∀ a, g s = some a ↔ P s a)
    (cause : Fault) :
    t.Finds way P cause ((t.nearest? g way).elim (.error (.fault cause)) .ok) := by
  refine ⟨fun a => ?_, ?_, ?_⟩
  · rw [← nearest?_eq_some_iff hg]
    cases t.nearest? g way <;> simp
  · rw [← nearest?_eq_none_iff hg]
    cases t.nearest? g way <;> simp
  · cases t.nearest? g way <;> simp

end Nearest

/-! ## The three look-ups -/

theorem Sound.resolve_eq (h : t.Sound) (hway : t.Way start way) (hstart : start ≠ .undefined)
    (name : Name) : t.resolve start name =
      (t.nearest? (·.local? name) way).elim (.error (.fault (.notDeclared name))) .ok := by
  unfold resolve
  rw [h.search_eq (fun s hs => Scope.findLocal?_eq hs name) hway hstart]
  cases t.nearest? (·.local? name) way <;> rfl

theorem Sound.resolveScope_eq (h : t.Sound) (hway : t.Way start way) (hstart : start ≠ .undefined)
    (name : Name) : t.resolveScope start name =
      (t.nearest? (·.nested? name) way).elim (.error (.fault (.scopeNotDeclared name))) .ok := by
  have hsearch := h.search_eq (f := fun s => return s.nested? name) (g := (·.nested? name))
    (fun _ _ => rfl) hway hstart
  unfold resolveScope
  rw [hsearch]
  cases t.nearest? (·.nested? name) way <;> rfl

theorem Sound.resolve_finds (h : t.Sound) (hway : t.Way start way) (hstart : start ≠ .undefined)
    (name : Name) : t.Finds way (·.Binds name) (.notDeclared name) (t.resolve start name) := by
  rw [h.resolve_eq hway hstart]
  refine finds_of_nearest? (fun other s hs a => ?_) _
  exact Scope.local?_eq_some_iff (h.slots _ _ (get?_eq_some_iff.1 hs).2)

theorem Sound.resolveScope_finds (h : t.Sound) (hway : t.Way start way)
    (hstart : start ≠ .undefined) (name : Name) :
    t.Finds way (·.Nests name) (.scopeNotDeclared name) (t.resolveScope start name) := by
  rw [h.resolveScope_eq hway hstart]
  exact finds_of_nearest? (fun _ _ _ _ => Iff.rfl) _

/-- The scope that declares the name, in place of what it declares. -/
theorem Sound.nearest?_declaring? (h : t.Sound) (name : Name) (way : List ScopeId) :
    t.nearest? (·.local? name) way =
      (t.nearest? (·.declaring? name) way).bind (·.local? name) := by
  unfold nearest?
  induction way with
  | nil => rfl
  | cons id way ih =>
    simp only [List.findSome?_cons]
    cases hs : t.get? id with
    | none => exact ih
    | some s =>
      have hsound := h.slots _ _ (get?_eq_some_iff.1 hs).2
      simp only [Option.bind_some, Scope.declaring?]
      cases hname : s.locals.contains name with
      | false =>
        rw [(Scope.local?_eq_none_iff hsound).2 hname]
        exact ih
      | true =>
        obtain ⟨target, htarget⟩ := Scope.exists_local? hsound hname
        rw [htarget]
        exact htarget.symm

/-- The look-up of a name that is taken to be visible differs in its failure only. -/
theorem Sound.resolveVisible_eq (h : t.Sound) (hway : t.Way start way)
    (hstart : start ≠ .undefined) (name : Name) : t.resolveVisible start name =
      (t.resolve start name).mapError fun _ => .breach (.notVisible name) := by
  have hsearch := h.search_eq (f := fun s => return s.declaring? name)
    (g := (·.declaring? name)) (fun _ _ => rfl) hway hstart
  rw [h.resolve_eq hway hstart, h.nearest?_declaring?]
  change (t.search (fun s => return s.declaring? name) start >>= _) = _
  rw [hsearch]
  cases hfound : t.nearest? (·.declaring? name) way with
  | none => rfl
  | some s =>
    obtain ⟨_, id, _, -, hid, -⟩ := List.findSome?_eq_some_iff.1 hfound
    obtain ⟨r, hr, hdeclares⟩ := Option.bind_eq_some_iff.1 hid
    obtain ⟨hname, hrs⟩ := Option.ite_none_right_eq_some.1 hdeclares
    cases hrs
    have hsound := h.slots _ _ (get?_eq_some_iff.1 hr).2
    obtain ⟨target, htarget⟩ := Scope.exists_local? hsound hname
    simp only [bind, Except.bind, Scope.findBoundLocal_eq hsound htarget, Option.bind, htarget]
    rfl

/-! ## A new declaration -/

/-- The scope of `id` lies on the way, and no scope before it declares the name. Shared scopes have
two handles, so the scope is told by its index. -/
def Exposes (t : ScopeTree) (way : List ScopeId) (id : ScopeId) (name : Name) : Prop :=
  ∃ nearer handle farther, way = nearer ++ handle :: farther ∧ handle.index = id.index ∧
    ∀ other ∈ nearer, ∀ s, t.get? other = some s → ∀ target, ¬ s.Binds name target

section Update

variable {P : ScopeId → Prop} {g g' : ScopeId → Option α} {a : α}

/-- A search finds what was put where `P` holds, if it comes there. -/
theorem findSome?_updated {nearer farther : List ScopeId} {handle : ScopeId}
    (hnew : ∀ id ∈ nearer ++ handle :: farther, P id → g' id = some a)
    (hold : ∀ id ∈ nearer ++ handle :: farther, ¬ P id → g' id = g id) (hhandle : P handle)
    (hnearer : ∀ other ∈ nearer, g other = none) :
    (nearer ++ handle :: farther).findSome? g' = some a := by
  induction nearer with
  | nil =>
    have hfound := hnew handle (List.mem_append_right [] (.head _)) hhandle
    rw [List.nil_append, List.findSome?_cons, hfound]
  | cons id nearer ih =>
    rw [List.cons_append] at hnew hold ⊢
    rw [List.findSome?_cons]
    by_cases hid : P id
    · rw [hnew id List.mem_cons_self hid]
    · rw [hold id List.mem_cons_self hid, hnearer id List.mem_cons_self]
      exact ih (fun other hother => hnew other (List.mem_cons_of_mem _ hother))
        (fun other hother => hold other (List.mem_cons_of_mem _ hother))
        fun other hother => hnearer other (List.mem_cons_of_mem _ hother)

/-- A search that has another result comes to a place where `P` holds. -/
theorem exists_updated_of_ne (hold : ∀ id ∈ way, ¬ P id → g' id = g id)
    (hne : way.findSome? g' ≠ way.findSome? g) :
    ∃ nearer handle farther, way = nearer ++ handle :: farther ∧ P handle ∧
      ∀ other ∈ nearer, g other = none := by
  induction way with
  | nil => exact absurd rfl hne
  | cons id way ih =>
    by_cases hid : P id
    · exact ⟨[], id, way, rfl, hid, fun _ hother => by cases hother⟩
    rw [List.findSome?_cons, List.findSome?_cons, hold id List.mem_cons_self hid] at hne
    cases hg : g id with
    | some b =>
      rw [hg] at hne
      exact absurd rfl hne
    | none =>
      rw [hg] at hne
      obtain ⟨nearer, handle, farther, rfl, hhandle, hnone⟩ :=
        ih (fun other hother => hold other (List.mem_cons_of_mem _ hother)) hne
      exact ⟨id :: nearer, handle, farther, rfl, hhandle, List.forall_mem_cons.2 ⟨hg, hnone⟩⟩

end Update

theorem Sound.addLocal (h : t.Sound) (hu : t.addLocal id name target = .ok u) :
    u.Sound ∧ t.Extends u := by
  obtain ⟨s, s', hs, hadd, rfl⟩ := Exec.addLocal_eq_ok_iff.1 hu
  have hslot := (get?_eq_some_iff.1 hs).2
  have hgains := Scope.gains_of_addLocal hadd
  exact ⟨h.gain hslot hgains, extends_set hslot hgains.ext⟩

/-- A scope declares what it did before, and the new local if it is the one that was given it. -/
theorem Sound.local?_addLocal (h : t.Sound) (hu : t.addLocal id name target = .ok u)
    {handle : ScopeId} {s : Scope} (hs : t.get? handle = some s) (other : Name) :
    (u.get? handle).bind (·.local? other) =
      if other = name ∧ handle.index = id.index then some target else s.local? other := by
  have hsound := (h.addLocal hu).1
  obtain ⟨r, r', hr, hadd, rfl⟩ := Exec.addLocal_eq_ok_iff.1 hu
  obtain ⟨ho, hslot⟩ := get?_eq_some_iff.1 hs
  have hrslot := (get?_eq_some_iff.1 hr).2
  have hget := getElem?_set (s := r') (Array.getElem?_eq_some_iff.1 hrslot).1 handle.index
  by_cases hindex : handle.index = id.index
  · rw [if_pos hindex] at hget
    have hsame : s = r := by
      rw [hindex, hrslot] at hslot
      exact (Option.some.inj hslot).symm
    have hr' : (t.set id r').get? handle = some r' :=
      get?_eq_some_iff.2 ⟨(owns_set _ _ _).trans ho, hget⟩
    have hlocal := Scope.local?_addLocal (h.slots _ _ hrslot) (hsound.slots _ _ hget) hadd other
    rw [hr', Option.bind_some, hlocal, hsame]
    simp [hindex]
  · rw [if_neg hindex, hslot] at hget
    have hs' : (t.set id r').get? handle = some s :=
      get?_eq_some_iff.2 ⟨(owns_set _ _ _).trans ho, hget⟩
    rw [hs', Option.bind_some, if_neg fun hboth => hindex hboth.2]

/-- No scope of the list declares the name. -/
theorem Sound.none_binds_iff (h : t.Sound) {ids : List ScopeId} :
    (∀ other ∈ ids, (t.get? other).bind (·.local? name) = none) ↔
      ∀ other ∈ ids, ∀ s, t.get? other = some s → ∀ target, ¬ s.Binds name target := by
  refine forall₂_congr fun other _ => bind_get?_eq_none (P := (·.Binds name)) ?_ other
  intro other s hs target
  exact Scope.local?_eq_some_iff (h.slots _ _ (get?_eq_some_iff.1 hs).2)

/-- Where it is exposed, a new local is what its name means. -/
theorem Sound.resolve_of_exposes (h : t.Sound) (hway : t.Way start way)
    (hstart : start ≠ .undefined) (hu : t.addLocal id name target = .ok u)
    (hexposed : t.Exposes way id name) : u.resolve start name = .ok target := by
  obtain ⟨hsound, hext⟩ := h.addLocal hu
  obtain ⟨nearer, handle, farther, rfl, hindex, hnearer⟩ := hexposed
  rw [hsound.resolve_eq (hway.of_extends hext) hstart]
  have hfound : u.nearest? (·.local? name) (nearer ++ handle :: farther) = some target := by
    refine findSome?_updated (P := (·.index = id.index))
      (g := fun other => (t.get? other).bind (·.local? name)) (fun other hother hsame => ?_)
      (fun other hother hdiffers => ?_) hindex (h.none_binds_iff.2 hnearer)
    · obtain ⟨s, hs⟩ := hway.exists_get? hother
      rw [h.local?_addLocal hu hs, if_pos ⟨rfl, hsame⟩]
    · obtain ⟨s, hs⟩ := hway.exists_get? hother
      rw [h.local?_addLocal hu hs, if_neg fun hboth => hdiffers hboth.2, hs, Option.bind_some]
  rw [hfound]
  rfl

/-- No other name changes its meaning, and this one only where it is exposed. -/
theorem Sound.exposes_of_resolve_ne (h : t.Sound) (hway : t.Way start way)
    (hstart : start ≠ .undefined) (hu : t.addLocal id name target = .ok u) {other : Name}
    (hne : u.resolve start other ≠ t.resolve start other) :
    other = name ∧ t.Exposes way id name := by
  obtain ⟨hsound, hext⟩ := h.addLocal hu
  rw [hsound.resolve_eq (hway.of_extends hext) hstart, h.resolve_eq hway hstart] at hne
  have hnearest : u.nearest? (·.local? other) way ≠ t.nearest? (·.local? other) way := by
    intro hsame
    rw [hsame] at hne
    exact hne rfl
  obtain ⟨nearer, handle, farther, rfl, ⟨hname, hindex⟩, hnearer⟩ :=
    exists_updated_of_ne (P := fun handle => other = name ∧ handle.index = id.index)
      (g := fun handle => (t.get? handle).bind (·.local? other))
      (fun handle hmem hdiffers => by
        obtain ⟨s, hs⟩ := hway.exists_get? hmem
        rw [h.local?_addLocal hu hs, if_neg hdiffers, hs, Option.bind_some]) hnearest
  subst hname
  exact ⟨rfl, nearer, handle, farther, rfl, hindex, h.none_binds_iff.1 hnearer⟩

end ScopeTree

open ScopeTree

/-- In a tree reached by operations on live scopes, each live scope but the undefined one has a way
out that ends at a shared scope. A name means the cell that the first scope on the way binds it to,
and is not declared exactly when none binds it; a name taken to be visible means the same cell, and
breaks the contract if there is none. Names of scopes are looked up the same way. A new local
changes the meaning of its own name only, and only where its scope lies on the way before all others
that declare the name; there it is what the name means. -/
theorem resolution_nearest {t : ScopeTree} (ht : Reached t) {start : ScopeId}
    (ho : t.owns start = true) (hstart : start ≠ .undefined) :
    ∃ way, t.Way start way ∧
      (way.getLast? = some .undefined ∨ way.getLast? = some .global) ∧
      ∀ name,
        t.Finds way (·.Binds name) (.notDeclared name) (t.resolve start name) ∧
        t.resolveVisible start name =
          (t.resolve start name).mapError (fun _ => .breach (.notVisible name)) ∧
        t.Finds way (·.Nests name) (.scopeNotDeclared name) (t.resolveScope start name) ∧
        ∀ id target u, t.addLocal id name target = .ok u →
          (t.Exposes way id name → u.resolve start name = .ok target) ∧
          ∀ other, u.resolve start other ≠ t.resolve start other →
            other = name ∧ t.Exposes way id name := by
  have h := ht.sound
  obtain ⟨way, hway, -⟩ := h.exists_way ho
  refine ⟨way, hway, hway.getLast?_eq h, fun name => ⟨h.resolve_finds hway hstart name,
    h.resolveVisible_eq hway hstart name, h.resolveScope_finds hway hstart name,
    fun id target u hu => ⟨h.resolve_of_exposes hway hstart hu, fun other hne => ?_⟩⟩⟩
  exact h.exposes_of_resolve_ne hway hstart hu hne

/-- A namespace inside the outermost scope. -/
def oneNamespace : ScopeTree :=
  match ({ id := ⟨2⟩ } : ScopeTree).defineNamespace .global "n" with
  | .ok (_, t) => t
  | .error _ => { id := ⟨2⟩ }

/-- The namespace sees a local that the outermost scope is given under its other handle. -/
theorem outermost_local_seen :
    Reached oneNamespace ∧ oneNamespace.Way ⟨⟨2⟩, 2⟩ [⟨⟨2⟩, 2⟩, .global] ∧
      oneNamespace.resolve ⟨⟨2⟩, 2⟩ "x" = .error (.fault (.notDeclared "x")) ∧
      ∃ u, oneNamespace.addLocal ⟨⟨2⟩, 1⟩ "x" (.stack 7) = .ok u ∧
        u.resolve ⟨⟨2⟩, 2⟩ "x" = .ok (.stack 7) := by
  have hnew : Reached { id := ⟨2⟩ } := .new (by decide)
  have hreached : Reached oneNamespace :=
    @Reached.step _ _ (.defineNamespace .global "n") hnew rfl rfl
  have hway : oneNamespace.Way ⟨⟨2⟩, 2⟩ [⟨⟨2⟩, 2⟩, .global] :=
    .outwards rfl (by decide) (.last rfl rfl)
  have hfree : ∀ other ∈ [⟨⟨2⟩, 2⟩, ScopeId.global], ∀ s, oneNamespace.get? other = some s →
      ∀ target, ¬ s.Binds "x" target := by
    intro other hother s hs target hbinds
    have hempty : s.locals.slots = #[] := by
      have hcases : other = ⟨⟨2⟩, 2⟩ ∨ other = .global := by simpa using hother
      rcases hcases with rfl | rfl <;> cases hs <;> rfl
    unfold Scope.Binds at hbinds
    rw [hempty] at hbinds
    exact Array.not_mem_empty _ hbinds
  have ho : oneNamespace.owns ⟨⟨2⟩, 2⟩ = true := rfl
  obtain ⟨way, hway', -, hname⟩ := resolution_nearest hreached ho (by decide)
  obtain rfl := hway.unique hway'
  obtain ⟨hresolve, -, -, hadd⟩ := hname "x"
  refine ⟨hreached, hway, hresolve.missing.2 hfree, _, rfl, (hadd ⟨⟨2⟩, 1⟩ (.stack 7) _ rfl).1 ?_⟩
  exact ⟨[⟨⟨2⟩, 2⟩], .global, [], rfl, rfl, fun other hother =>
    hfree other (List.mem_cons.2 (Or.inl (List.mem_singleton.1 hother)))⟩

end ActionMachine
