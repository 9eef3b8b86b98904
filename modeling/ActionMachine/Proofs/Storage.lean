import ActionMachine.Proofs.Memory
import ActionMachine.Proofs.Tree

/-
  Where the cells of a program are bound. A site is one slot of one live scope, among its locals or
  in its template. Storage is exact if the sites of calls and the cells of the frame correspond one
  to one and all other sites lead to cells of the arena, no two to the same one. A declaration adds
  one site and one cell; the end of a call takes both away together.
-/

namespace ActionMachine

/-! ## Sites -/

/-- One slot of the scope at an index: of its template, or else of its locals. -/
structure Site where
  scope : Nat
  template : Bool
  position : Nat
  deriving DecidableEq

namespace Scope

/-- The slots of the template, or else the locals. -/
def slots (s : Scope) : Bool → Array Slot
  | false => s.locals.slots
  | true => (s.template?.getD .empty).slots

theorem slots_of_isClass {s : Scope} (h : s.isClass = false) : s.slots true = #[] := by
  obtain ⟨kind, name, parent, locals, nested, layout?⟩ := s
  cases layout? with
  | none => rfl
  | some layout => cases h

/-- The scope `s'` is `s` with one more slot. -/
structure Gains (s : Scope) (template : Bool) (slot : Slot) (s' : Scope) : Prop where
  ext : s.Extends s'
  sound : s.Sound → s'.Sound
  nested : s'.nested = s.nested
  added : s'.slots template = (s.slots template).push slot
  others : s'.slots (!template) = s.slots (!template)

theorem gains_of_addLocal {s s' : Scope} {name : Name} {target : CellRef}
    (h : s.addLocal name target = .ok s') : s.Gains false ⟨name, target⟩ s' := by
  obtain ⟨locals, hlocals, hs'⟩ := bind_eq_ok_iff.1 h
  cases hs'
  obtain ⟨-, rfl⟩ := SlotSet.insert_eq_ok_iff.1 hlocals
  refine ⟨⟨rfl, .refl _, rfl, rfl, ?_, fun _ _ h => h⟩,
    fun hs => ⟨hs.locals.insert hlocals, hs.template, hs.classed⟩, rfl, rfl, rfl⟩
  rw [Array.toList_push]
  exact List.prefix_append _ _

theorem gains_of_setTemplate {s : Scope} {template template' : SlotSet} {name : Name}
    {target : CellRef} (ht : s.template? = some template)
    (h : template.insert name target = .ok template') :
    s.Gains true ⟨name, target⟩ (s.setTemplate template') := by
  obtain ⟨kind, sname, parent, locals, nested, layout?⟩ := s
  cases layout? with
  | some layout =>
    obtain rfl : layout.template = template := Option.some.inj ht
    refine ⟨⟨rfl, ⟨rfl, ?_⟩, rfl, rfl, List.prefix_refl _, fun _ _ h => h⟩,
      fun hs => ⟨hs.locals, ?_, hs.classed⟩, rfl, ?_, rfl⟩
    · obtain ⟨-, rfl⟩ := SlotSet.insert_eq_ok_iff.1 h
      show layout.template.slots.toList <+: (layout.template.slots.push ⟨name, target⟩).toList
      rw [Array.toList_push]
      exact List.prefix_append _ _
    · intro other hother
      cases hother
      exact (hs.template _ rfl).insert h
    · obtain ⟨-, rfl⟩ := SlotSet.insert_eq_ok_iff.1 h
      rfl
  | none => cases ht

end Scope

namespace ScopeTree

variable {t u : ScopeTree} {site : Site}

/-- The cell that a site is bound to. -/
def target? (t : ScopeTree) (site : Site) : Option CellRef :=
  (t.scopes[site.scope]?.bind fun s => (s.slots site.template)[site.position]?).map (·.target)

/-- Whether the scope at an index is that of a call. -/
def isCallAt (t : ScopeTree) (i : Nat) : Bool := t.scopes[i]?.any (·.kind.isCall)

theorem isCallAt_eq_true_iff {i : Nat} :
    t.isCallAt i = true ↔ ∃ s, t.scopes[i]? = some s ∧ s.kind.isCall = true := by
  unfold isCallAt
  cases t.scopes[i]? with
  | none => simp
  | some s => simp

theorem target?_eq_some_iff {target : CellRef} :
    t.target? site = some target ↔ ∃ s slot, t.scopes[site.scope]? = some s ∧
      (s.slots site.template)[site.position]? = some slot ∧ slot.target = target := by
  unfold target?
  cases t.scopes[site.scope]? with
  | none => simp
  | some s => simp

theorem Extends.isCallAt_eq (h : t.Extends u) {i : Nat} (hi : i < t.size) :
    u.isCallAt i = t.isCallAt i := by
  obtain ⟨s', hs', he⟩ := h.scope i _ (Array.getElem?_eq_getElem hi)
  unfold isCallAt
  rw [hs', Array.getElem?_eq_getElem hi, Option.any_some, Option.any_some, he.isCall_eq]

theorem lt_size_of_target? {target : CellRef} (h : t.target? site = some target) :
    site.scope < t.size := by
  obtain ⟨s, -, hs, -⟩ := target?_eq_some_iff.1 h
  exact (Array.getElem?_eq_some_iff.1 hs).1

/-- A scope that gains a slot adds one site to the tree. -/
theorem target?_set {id : ScopeId} {s s' : Scope} {template : Bool} {slot : Slot}
    (hs : t.scopes[id.index]? = some s) (h : s.Gains template slot s') (site : Site) :
    (t.set id s').target? site =
      if site = ⟨id.index, template, (s.slots template).size⟩ then some slot.target
      else t.target? site := by
  obtain ⟨i, b, j⟩ := site
  unfold target?
  rw [getElem?_set (Array.getElem?_eq_some_iff.1 hs).1]
  by_cases hi : i = id.index
  · subst i
    simp only [if_true, hs, Option.bind_some, Site.mk.injEq, true_and]
    by_cases hb : b = template
    · subst b
      rw [h.added, Array.getElem?_push]
      by_cases hj : j = (s.slots template).size
      · rw [if_pos hj, if_pos ⟨rfl, hj⟩, Option.map_some]
      · rw [if_neg hj, if_neg fun hc => hj hc.2]
    · obtain rfl : b = !template := Bool.eq_not_of_ne hb
      rw [h.others, if_neg fun hc => hb hc.1]
  · rw [if_neg hi, if_neg fun hc => hi (congrArg Site.scope hc)]

theorem target?_eq_none_of_size {id : ScopeId} {s : Scope} (hs : t.scopes[id.index]? = some s)
    (template : Bool) : t.target? ⟨id.index, template, (s.slots template).size⟩ = none := by
  unfold target?
  simp only [hs, Option.bind_some, Array.getElem?_eq_none (Nat.le_refl _), Option.map_none]

theorem target?_push {s : Scope} (hs : ∀ template, s.slots template = #[]) (site : Site) :
    (t.push s).2.target? site = t.target? site := by
  unfold target?
  rw [getElem?_push]
  split
  · have hnone : t.scopes[t.size]? = none := Array.getElem?_eq_none (Nat.le_refl t.scopes.size)
    rw [‹site.scope = t.size›, hnone, Option.bind_some, hs, Array.getElem?_empty]
    rfl
  · rfl

theorem slots_of_fresh {s : Scope} {name : Name} {parent : ScopeId} (h : s.Fresh name parent)
    (template : Bool) : s.slots template = #[] := by
  cases template with
  | false => exact congrArg SlotSet.slots h.locals
  | true =>
    show (s.template?.getD .empty).slots = #[]
    cases ht : s.template? with
    | none => rfl
    | some slots => exact congrArg SlotSet.slots (h.template slots ht)

/-- Opening a namespace or class adds no site. -/
theorem Opened.target?_eq {parent id : ScopeId} {name : Name} (ho : t.Opened parent name id u)
    (h : t.Sound) (site : Site) : u.target? site = t.target? site := by
  cases ho with
  | existing => rfl
  | @fresh owner s hget hnew hs =>
    have hold := (get?_eq_some_iff.1 hget).2
    have hpush := target?_push (slots_of_fresh hs) (t := t) site
    unfold target? at hpush ⊢
    rw [getElem?_push] at hpush
    rw [h.getElem?_declared hget]
    split
    · rw [‹site.scope = parent.index›, hold]
      rfl
    · exact hpush

theorem target?_shrink (n : Nat) (site : Site) :
    ({ t with scopes := t.scopes.shrink n } : ScopeTree).target? site =
      if site.scope < n then t.target? site else none := by
  unfold target?
  rw [getElem?_shrink]
  split <;> rfl

end ScopeTree

/-! ## Exact storage -/

/-- The sites of calls lead to the cells of the frame, one to one; all other sites lead to
different cells of the arena. -/
structure Storage (t : ScopeTree) (m : Memory) : Prop where
  frame : ∀ site target, t.target? site = some target → t.isCallAt site.scope = true →
    ∃ k < m.frame.size, target = .frame k
  arena : ∀ site target, t.target? site = some target → t.isCallAt site.scope = false →
    ∃ k < m.arena.size, target = m.staticRef k
  inj : ∀ a b target, t.target? a = some target → t.target? b = some target → a = b
  onto : ∀ k < m.frame.size, ∃ site, t.target? site = some (.frame k)

namespace Storage

variable {t u : ScopeTree} {m : Memory}

/-- Cells of the arena that nothing is bound to do no harm. -/
theorem mono {m' : Memory} (h : Storage t m) (hid : m'.id = m.id)
    (harena : m.arena.size ≤ m'.arena.size) (hframe : m'.frame.size = m.frame.size) :
    Storage t m' := by
  refine ⟨fun site target ht hc => ?_, fun site target ht hc => ?_, h.inj, fun k hk => ?_⟩
  · rw [hframe]
    exact h.frame site target ht hc
  · obtain ⟨k, hk, he⟩ := h.arena site target ht hc
    refine ⟨k, Nat.lt_of_lt_of_le hk harena, ?_⟩
    unfold Memory.staticRef at *
    rw [hid]
    exact he
  · exact h.onto k (hframe ▸ hk)

theorem of_same_sites (h : Storage t m) (htarget : ∀ site, u.target? site = t.target? site)
    (hcall : ∀ i < t.size, u.isCallAt i = t.isCallAt i) : Storage u m := by
  have hkind : ∀ site target, t.target? site = some target →
      u.isCallAt site.scope = t.isCallAt site.scope :=
    fun site target ht => hcall _ (ScopeTree.lt_size_of_target? ht)
  refine ⟨fun site target ht hc => ?_, fun site target ht hc => ?_, fun a b target ha hb => ?_,
    fun k hk => ?_⟩
  · rw [htarget] at ht
    exact h.frame site target ht (hkind site target ht ▸ hc)
  · rw [htarget] at ht
    exact h.arena site target ht (hkind site target ht ▸ hc)
  · rw [htarget] at ha hb
    exact h.inj a b target ha hb
  · obtain ⟨site, hsite⟩ := h.onto k hk
    exact ⟨site, (htarget site).trans hsite⟩

/-- A site that leads to a cell of the frame is one of a call. -/
theorem isCallAt_of_frame (h : Storage t m) {site : Site} {k : Nat}
    (ht : t.target? site = some (.frame k)) : t.isCallAt site.scope = true := by
  cases hc : t.isCallAt site.scope with
  | true => rfl
  | false =>
    obtain ⟨k', -, he⟩ := h.arena site _ ht hc
    cases he

/-- No site leads to the next cell of the frame. -/
theorem frame_fresh (h : Storage t m) {site : Site} {k : Nat} (hk : m.frame.size ≤ k) :
    t.target? site ≠ some (.frame k) := by
  intro ht
  cases hc : t.isCallAt site.scope with
  | true =>
    obtain ⟨k', hk', he⟩ := h.frame site _ ht hc
    cases he
    omega
  | false =>
    obtain ⟨k', -, he⟩ := h.arena site _ ht hc
    cases he

theorem arena_fresh (h : Storage t m) {site : Site} {k : Nat} (hk : m.arena.size ≤ k) :
    t.target? site ≠ some (m.staticRef k) := by
  intro ht
  cases hc : t.isCallAt site.scope with
  | true =>
    obtain ⟨k', -, he⟩ := h.frame site _ ht hc
    cases he
  | false =>
    obtain ⟨k', hk', he⟩ := h.arena site _ ht hc
    cases he
    omega

/-- One more site, bound to a new cell of the kind that its scope asks for. -/
theorem add (h : Storage t m) {m' : Memory} {site : Site} {target : CellRef}
    (hkind : ∀ i < t.size, u.isCallAt i = t.isCallAt i) (hsite : site.scope < t.size)
    (hfree : t.target? site = none) (hnew : ∀ other, t.target? other ≠ some target)
    (hadd : ∀ other, u.target? other = if other = site then some target else t.target? other)
    (hid : m'.id = m.id) (hframe : m.frame.size ≤ m'.frame.size)
    (harena : m.arena.size ≤ m'.arena.size)
    (hcall : t.isCallAt site.scope = true → ∃ k < m'.frame.size, target = .frame k)
    (hopen : t.isCallAt site.scope = false → ∃ k < m'.arena.size, target = m'.staticRef k)
    (honto : ∀ k < m'.frame.size, k < m.frame.size ∨ target = .frame k) : Storage u m' := by
  -- a site of the new tree is the new one or an old one of the same kind
  have hcases : ∀ other found, u.target? other = some found →
      other = site ∧ found = target ∨ t.target? other = some found := by
    intro other found hfound
    rw [hadd] at hfound
    split at hfound
    · exact Or.inl ⟨‹_›, (Option.some.inj hfound).symm⟩
    · exact Or.inr hfound
  refine ⟨fun other found hfound hc => ?_, fun other found hfound hc => ?_,
    fun a b found ha hb => ?_, fun k hk => ?_⟩
  · obtain ⟨rfl, rfl⟩ | hold := hcases other found hfound
    · exact hcall (hkind _ hsite ▸ hc)
    · rw [hkind _ (ScopeTree.lt_size_of_target? hold)] at hc
      obtain ⟨k, hk, he⟩ := h.frame other found hold hc
      exact ⟨k, by omega, he⟩
  · obtain ⟨rfl, rfl⟩ | hold := hcases other found hfound
    · exact hopen (hkind _ hsite ▸ hc)
    · rw [hkind _ (ScopeTree.lt_size_of_target? hold)] at hc
      obtain ⟨k, hk, he⟩ := h.arena other found hold hc
      refine ⟨k, by omega, ?_⟩
      unfold Memory.staticRef at *
      rw [hid]
      exact he
  · obtain ⟨rfl, rfl⟩ | ha := hcases a found ha <;> obtain ⟨rfl, hb⟩ | hb := hcases b found hb
    · rfl
    · exact absurd hb (hnew b)
    · exact absurd (hb ▸ ha) (hnew a)
    · exact h.inj a b found ha hb
  · rcases honto k hk with hk | rfl
    · obtain ⟨other, hother⟩ := h.onto k hk
      refine ⟨other, ?_⟩
      rw [hadd, if_neg]
      · exact hother
      · rintro rfl
        rw [hfree] at hother
        cases hother
    · exact ⟨site, by rw [hadd, if_pos rfl]⟩

/-- A name is bound in the scope of a call. -/
theorem bindFrame (h : Storage t m) {site : Site} (hcall : t.isCallAt site.scope = true)
    (hkind : ∀ i < t.size, u.isCallAt i = t.isCallAt i) (hsite : site.scope < t.size)
    (hfree : t.target? site = none)
    (hadd : ∀ other, u.target? other =
      if other = site then some (.frame m.frame.size) else t.target? other)
    (v : Value) (constant : Bool) : Storage u (m.allocateFrame v constant).2 := by
  have hsize : (m.allocateFrame v constant).2.frame.size = m.frame.size + 1 := Cells.size_push _ _
  refine h.add hkind hsite hfree (fun other => h.frame_fresh (Nat.le_refl _)) hadd rfl (by omega)
    (Nat.le_refl _) (fun _ => ⟨m.frame.size, by omega, rfl⟩) (fun hopen => ?_) fun k hk => ?_
  · rw [hcall] at hopen
    cases hopen
  · rcases Nat.lt_or_ge k m.frame.size with hlt | hge
    · exact Or.inl hlt
    · obtain rfl : k = m.frame.size := by omega
      exact Or.inr rfl

/-- A name is bound outside calls, or added to a template. -/
theorem bindArena (h : Storage t m) {site : Site} (hcall : t.isCallAt site.scope = false)
    (hkind : ∀ i < t.size, u.isCallAt i = t.isCallAt i) (hsite : site.scope < t.size)
    (hfree : t.target? site = none)
    (hadd : ∀ other, u.target? other =
      if other = site then some (m.staticRef m.arena.size) else t.target? other)
    (v : Value) (constant : Bool) : Storage u (m.allocate v constant).2 := by
  have hsize : (m.allocate v constant).2.arena.size = m.arena.size + 1 := Cells.size_push _ _
  refine h.add hkind hsite hfree (fun other => h.arena_fresh (Nat.le_refl _)) hadd rfl
    (Nat.le_refl _) (by omega) (fun hc => ?_) (fun _ => ⟨m.arena.size, by omega, rfl⟩)
    fun k hk => Or.inl hk
  rw [hcall] at hc
  cases hc

/-- The scopes from `n` on go with the cells from `cells` on, if these are the cells that those
scopes bind. -/
theorem release (h : Storage t m) {n cells : Nat} (hcells : cells ≤ m.frame.size)
    (hsplit : ∀ site k, t.target? site = some (.frame k) → (site.scope < n ↔ k < cells)) :
    Storage { t with scopes := t.scopes.shrink n } { m with frame := m.frame.truncate cells } := by
  have hsize : (m.frame.truncate cells).size = cells := Cells.size_truncate hcells
  have hold : ∀ site target,
      ({ t with scopes := t.scopes.shrink n } : ScopeTree).target? site = some target →
        site.scope < n ∧ t.target? site = some target := by
    intro site target ht
    rw [ScopeTree.target?_shrink] at ht
    split at ht
    · exact ⟨‹_›, ht⟩
    · cases ht
  have hkind : ∀ i < n, ({ t with scopes := t.scopes.shrink n } : ScopeTree).isCallAt i =
      t.isCallAt i := by
    intro i hi
    unfold ScopeTree.isCallAt
    rw [getElem?_shrink, if_pos hi]
  refine ⟨fun site target ht hc => ?_, fun site target ht hc => ?_, fun a b target ha hb => ?_,
    fun k hk => ?_⟩
  · obtain ⟨hlt, ht⟩ := hold site target ht
    rw [hkind _ hlt] at hc
    obtain ⟨k, -, rfl⟩ := h.frame site target ht hc
    exact ⟨k, by rw [hsize]; exact (hsplit site k ht).1 hlt, rfl⟩
  · obtain ⟨hlt, ht⟩ := hold site target ht
    rw [hkind _ hlt] at hc
    exact h.arena site target ht hc
  · exact h.inj a b target (hold a target ha).2 (hold b target hb).2
  · have hk' : k < cells := hsize ▸ hk
    obtain ⟨site, hsite⟩ := h.onto k (by omega)
    refine ⟨site, ?_⟩
    rw [ScopeTree.target?_shrink, if_pos ((hsplit site k hsite).2 hk')]
    exact hsite

end Storage

end ActionMachine
