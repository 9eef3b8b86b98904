import ActionMachine.Proofs.Requests

/-
  Bindings are permanent. Whatever a program has declared between two requests is still declared
  after any number of further requests: scopes are live under the same handles, slots lead to the
  same cells and the cells can be read. A name that resolves from the scope of a method goes on to
  resolve to the same cell, unless a scope on the way to its declaration comes to declare it too.
-/

namespace ActionMachine

open Exec

/-! ## Look-up in a tree that has grown -/

theorem SlotSet.Consistent.find?_of_prefix {s t : SlotSet} (hs : s.Consistent) (ht : t.Consistent)
    (h : s.slots.toList <+: t.slots.toList) {name : Name} {slot : Slot}
    (hslot : s.find? name = .ok (some slot)) : t.find? name = .ok (some slot) := by
  rw [hs.find?_eq] at hslot
  rw [ht.find?_eq]
  obtain ⟨rest, hrest⟩ := h
  rw [← Array.find?_toList] at hslot ⊢
  rw [← hrest, List.find?_append, Except.ok.inj hslot]
  rfl

theorem Scope.Extends.findLocal?_some {s s' : Scope} (h : s.Extends s') (hs : s.Sound)
    (hs' : s'.Sound) {name : Name} {target : CellRef}
    (hfound : s.findLocal? name = .ok (some target)) :
    s'.findLocal? name = .ok (some target) := by
  unfold Scope.findLocal? at hfound ⊢
  obtain ⟨slot?, hslot, hmap⟩ := bind_eq_ok_iff.1 hfound
  obtain ⟨slot, rfl, rfl⟩ := Option.map_eq_some_iff.1 (Except.ok.inj hmap)
  rw [hs.locals.find?_of_prefix hs'.locals h.locals hslot]
  rfl

theorem Scope.findLocal?_eq_none_iff {s : Scope} (hs : s.Sound) {name : Name} :
    s.findLocal? name = .ok none ↔ s.locals.contains name = false := by
  rw [← hs.locals.find?_eq_none_iff]
  unfold Scope.findLocal?
  rw [hs.locals.find?_eq]
  cases s.locals.slots.find? (·.name == name) with
  | none => simp [bind, Except.bind, pure, Except.pure]
  | some slot => simp [bind, Except.bind, pure, Except.pure]

namespace ScopeTree

variable {t u : ScopeTree} {name : Name} {target : CellRef}

/-- A look-up of the name comes from one scope to the other: no scope on the way declares it. -/
inductive Passes (t : ScopeTree) (name : Name) : ScopeId → ScopeId → Prop where
  | here {id : ScopeId} : Passes t name id id
  | outwards {id outer : ScopeId} {s : Scope} (hs : t.get? id = some s)
      (hfree : s.locals.contains name = false) (h : Passes t name s.parent outer) :
      Passes t name id outer

/-- No scope that a look-up of the name passes in `t` has come to declare it in `u`. -/
def NotShadowed (t u : ScopeTree) (name : Name) (id : ScopeId) : Prop :=
  ∀ outer s s', Passes t name id outer → t.get? outer = some s → u.get? outer = some s' →
    s.locals.contains name = false → s'.locals.contains name = false

/-- What a scope declares itself, nothing can shadow there. -/
theorem notShadowed_of_contains {id : ScopeId} {s : Scope} (hs : t.get? id = some s)
    (hname : s.locals.contains name = true) : NotShadowed t u name id := by
  intro outer r r' hpass hr _ hfree
  cases hpass with
  | here =>
    rw [hs] at hr
    cases hr
    rw [hname] at hfree
    cases hfree
  | outwards hs' hfree' _ =>
    rw [hs] at hs'
    cases hs'
    rw [hname] at hfree'
    cases hfree'

/-- One step of a walk outwards. -/
theorem searchWithin_succ {α : Type} {f : Scope → Except Violation (Option α)} {steps : Nat}
    {id : ScopeId} {s : Scope} (hs : t.get? id = some s) {r : Option α} (hr : f s = .ok r) :
    t.searchWithin f (steps + 1) id =
      match r with
      | some found => .ok (some found)
      | none => if s.parent = id then .ok none else t.searchWithin f steps s.parent := by
  rw [searchWithin]
  simp only [get_eq_ok_iff.2 hs, hr, bind, Except.bind, liftM, monadLift, MonadLift.monadLift]
  cases r <;> rfl

theorem exists_of_searchWithin {α : Type} {f : Scope → Except Violation (Option α)} {steps : Nat}
    {id : ScopeId} {a : α} (h : t.searchWithin f (steps + 1) id = .ok (some a)) :
    ∃ s, t.get? id = some s := by
  rw [searchWithin] at h
  cases hs : t.get id with
  | error v =>
    rw [hs] at h
    cases h
  | ok s => exact ⟨s, get_eq_ok_iff.1 hs⟩

/-- A walk that finds the name finds it in the larger tree too, with at least as many steps. -/
theorem Extends.searchWithin_eq (h : t.Extends u) (ht : t.Sound) (hu : u.Sound)
    {steps steps' : Nat} (hsteps : steps ≤ steps') {id : ScopeId}
    (hnew : NotShadowed t u name id)
    (hfound : t.searchWithin (·.findLocal? name) steps id = .ok (some target)) :
    u.searchWithin (·.findLocal? name) steps' id = .ok (some target) := by
  induction steps generalizing steps' id with
  | zero => cases hfound
  | succ steps ih =>
    obtain ⟨s, hs⟩ := exists_of_searchWithin hfound
    obtain ⟨s', hs', he⟩ := h.get? hs
    have hsound := ht.slots _ _ (get?_eq_some_iff.1 hs).2
    have hsound' := hu.slots _ _ (get?_eq_some_iff.1 hs').2
    obtain ⟨k, rfl⟩ : ∃ k, steps' = k + 1 := ⟨steps' - 1, by omega⟩
    obtain ⟨r, hr⟩ := Scope.findLocal?_isOk hsound name
    rw [searchWithin_succ hs hr] at hfound
    cases r with
    | some found =>
      cases hfound
      rw [searchWithin_succ hs' (he.findLocal?_some hsound hsound' hr)]
    | none =>
      have hfree := (Scope.findLocal?_eq_none_iff hsound).1 hr
      have hfree' := hnew id s s' .here hs hs' hfree
      rw [searchWithin_succ hs' ((Scope.findLocal?_eq_none_iff hsound').2 hfree')]
      by_cases hparent : s.parent = id
      · simp only [if_pos hparent] at hfound
        cases hfound
      · simp only [if_neg hparent] at hfound
        simp only [he.parent, if_neg hparent]
        exact ih (by omega) (fun outer r r' hpass => hnew outer r r' (.outwards hs hfree hpass))
          hfound

/-- What a walk finds is a local of some scope. -/
theorem exists_findLocal?_of_searchWithin (ht : t.Sound) {steps : Nat} {id : ScopeId}
    (hfound : t.searchWithin (·.findLocal? name) steps id = .ok (some target)) :
    ∃ outer s, t.get? outer = some s ∧ s.findLocal? name = .ok (some target) := by
  induction steps generalizing id with
  | zero => cases hfound
  | succ steps ih =>
    obtain ⟨s, hs⟩ := exists_of_searchWithin hfound
    obtain ⟨r, hr⟩ := Scope.findLocal?_isOk (ht.slots _ _ (get?_eq_some_iff.1 hs).2) name
    rw [searchWithin_succ hs hr] at hfound
    cases r with
    | some found =>
      cases hfound
      exact ⟨id, s, hs, hr⟩
    | none =>
      by_cases hparent : s.parent = id
      · simp only [if_pos hparent] at hfound
        cases hfound
      · simp only [if_neg hparent] at hfound
        exact ih hfound

theorem exists_site_of_findLocal? {id : ScopeId} {s : Scope} (hs : t.get? id = some s)
    (hsound : s.Sound) (hfound : s.findLocal? name = .ok (some target)) :
    ∃ j, t.target? ⟨id.index, false, j⟩ = some target := by
  unfold Scope.findLocal? at hfound
  rw [hsound.locals.find?_eq] at hfound
  obtain ⟨slot, hslot, rfl⟩ := Option.map_eq_some_iff.1 (Except.ok.inj hfound)
  obtain ⟨-, j, hj, hget, -⟩ := Array.find?_eq_some_iff_getElem.1 hslot
  refine ⟨j, target?_eq_some_iff.2 ⟨s, slot, (get?_eq_some_iff.1 hs).2, ?_, rfl⟩⟩
  exact Array.getElem?_eq_some_iff.2 ⟨hj, hget⟩

/-- In exact storage no two scopes declare the same cell. -/
theorem index_eq_of_findLocal? (hu : u.Sound) {m : Memory} (hstorage : Storage u m)
    {a b : ScopeId} {s s' : Scope} (ha : u.get? a = some s) (hb : u.get? b = some s')
    (hs : s.findLocal? name = .ok (some target)) (hs' : s'.findLocal? name = .ok (some target)) :
    a.index = b.index := by
  obtain ⟨i, hi⟩ := exists_site_of_findLocal? ha (hu.slots _ _ (get?_eq_some_iff.1 ha).2) hs
  obtain ⟨j, hj⟩ := exists_site_of_findLocal? hb (hu.slots _ _ (get?_eq_some_iff.1 hb).2) hs'
  exact congrArg Site.scope (hstorage.inj _ _ target hi hj)

/-- If both walks find the same cell, no scope on the way has come to declare the name. -/
theorem Extends.notShadowed (h : t.Extends u) (ht : t.Sound) (hu : u.Sound) {m : Memory}
    (hstorage : Storage u m) {steps steps' : Nat} {id : ScopeId}
    (hfound : t.searchWithin (·.findLocal? name) steps id = .ok (some target))
    (hfound' : u.searchWithin (·.findLocal? name) steps' id = .ok (some target)) :
    NotShadowed t u name id := by
  induction steps generalizing steps' id with
  | zero => cases hfound
  | succ steps ih =>
    obtain ⟨s, hs⟩ := exists_of_searchWithin hfound
    obtain ⟨s', hs', he⟩ := h.get? hs
    have hsound := ht.slots _ _ (get?_eq_some_iff.1 hs).2
    have hsound' := hu.slots _ _ (get?_eq_some_iff.1 hs').2
    cases hname : s.locals.contains name with
    | true => exact notShadowed_of_contains hs hname
    | false =>
      have hnone := (Scope.findLocal?_eq_none_iff hsound).2 hname
      rw [searchWithin_succ hs hnone] at hfound
      by_cases hparent : s.parent = id
      · simp only [if_pos hparent] at hfound
        cases hfound
      simp only [if_neg hparent] at hfound
      cases steps' with
      | zero => cases hfound'
      | succ k =>
        obtain ⟨r, hr⟩ := Scope.findLocal?_isOk hsound' name
        rw [searchWithin_succ hs' hr] at hfound'
        cases r with
        | some found =>
          -- the scope would declare the cell of a scope further out
          cases hfound'
          obtain ⟨outer, o, ho, hlocal⟩ := exists_findLocal?_of_searchWithin ht hfound
          obtain ⟨o', ho', heo⟩ := h.get? ho
          have hosound := ht.slots _ _ (get?_eq_some_iff.1 ho).2
          have hosound' := hu.slots _ _ (get?_eq_some_iff.1 ho').2
          have hindex := index_eq_of_findLocal? hu hstorage hs' ho' hr
            (heo.findLocal?_some hosound hosound' hlocal)
          have hsame : s = o := by
            have hold := (get?_eq_some_iff.1 hs).2
            rw [hindex, (get?_eq_some_iff.1 ho).2] at hold
            exact (Option.some.inj hold).symm
          rw [← hsame, hnone] at hlocal
          cases hlocal
        | none =>
          simp only [he.parent, if_neg hparent] at hfound'
          intro outer o o' hpass ho ho' hfree
          cases hpass with
          | here =>
            rw [hs'] at ho'
            cases ho'
            exact (Scope.findLocal?_eq_none_iff hsound').1 hr
          | outwards hs2 _ hpass =>
            rw [hs] at hs2
            cases hs2
            exact ih hfound hfound' outer o o' hpass ho ho' hfree

theorem resolve_eq_ok_iff {id : ScopeId} :
    t.resolve id name = .ok target ↔ id ≠ .undefined ∧
      t.searchWithin (·.findLocal? name) (t.size + 3) id = .ok (some target) := by
  unfold resolve search
  by_cases hid : id = .undefined
  · simp [hid, bind, Except.bind, pure, Except.pure, throw, throwThe, MonadExceptOf.throw]
  · simp only [ne_eq, hid, not_false_eq_true, true_and]
    cases t.searchWithin (·.findLocal? name) (t.size + 3) id with
    | error e => simp [bind, Except.bind]
    | ok r =>
      cases r with
      | none => simp [bind, Except.bind, throw, throwThe, MonadExceptOf.throw]
      | some found => simp [bind, Except.bind, pure, Except.pure]

/-- A name resolves to the same cell in the larger tree if and only if no scope on the way to its
declaration has come to declare it. -/
theorem Extends.resolve_eq_iff (h : t.Extends u) (ht : t.Sound) (hu : u.Sound) {m : Memory}
    (hstorage : Storage u m) {id : ScopeId} (hfound : t.resolve id name = .ok target) :
    u.resolve id name = .ok target ↔ NotShadowed t u name id := by
  obtain ⟨hid, hfound⟩ := resolve_eq_ok_iff.1 hfound
  have hsize := h.size_le
  constructor
  · intro hfound'
    exact h.notShadowed ht hu hstorage hfound (resolve_eq_ok_iff.1 hfound').2
  · intro hnew
    exact resolve_eq_ok_iff.2 ⟨hid, h.searchWithin_eq ht hu (by omega) hnew hfound⟩

end ScopeTree

/-! ## Requests -/

theorem Scope.Extends.slots_prefix {s s' : Scope} (h : s.Extends s') (template : Bool) :
    (s.slots template).toList <+: (s'.slots template).toList := by
  cases template with
  | false => exact h.locals
  | true =>
    unfold slots template?
    cases hs : s.layout? with
    | none => exact List.nil_prefix
    | some layout =>
      obtain ⟨layout', hs', -, htemplate⟩ := ClassLayout.Extends.exists_layout (hs ▸ h.layout)
      rw [hs']
      exact htemplate

/-- Between requests nothing is ever taken back. Every live scope stays live under its handle, with
the same kind, name and parent; its locals, its template and its nested names only get longer, and
their cells can be read. Methods keep their scopes, and what a scope resolves stays resolved to the
same cell: its own locals in any case, and all other names if and only if no scope between it and
the declaration comes to declare them too. -/
theorem bindings_permanent {p q : Program} (hp : Reachable p)
    (h : Relation.ReflTransGen Serves p q) :
    (∀ id s, p.scopes.get? id = some s → ∃ s', q.scopes.get? id = some s' ∧ s.Extends s' ∧
      ∀ template, ∀ slot ∈ s.slots template, ∃ v, q.memory.read slot.target = some v) ∧
    p.memory.read.EachMethod (fun m => p.scopes.owns m.scope = true ∧
      q.scopes.owns m.scope = true) ∧
    (∀ id s name target, p.scopes.get? id = some s → s.locals.contains name = true →
      p.scopes.resolve id name = .ok target → q.scopes.resolve id name = .ok target) ∧
    ∀ id name target, p.scopes.resolve id name = .ok target →
      (q.scopes.resolve id name = .ok target ↔
        ScopeTree.NotShadowed p.scopes q.scopes name id) := by
  have hrest := hp.atRest
  obtain ⟨hq, hext⟩ := extends_of_requests h hrest
  have hresolve : ∀ id name target, p.scopes.resolve id name = .ok target →
      (q.scopes.resolve id name = .ok target ↔
        ScopeTree.NotShadowed p.scopes q.scopes name id) := fun id name target hfound =>
    hext.resolve_eq_iff hrest.sound.tree hq.sound.tree hq.sound.storage hfound
  refine ⟨fun id s hs => ?_, ?_, fun id s name target hs hname hfound => ?_, hresolve⟩
  · obtain ⟨s', hs', he⟩ := hext.get? hs
    refine ⟨s', hs', he, fun template slot hslot => ?_⟩
    obtain ⟨j, hj⟩ := List.mem_iff_getElem?.1 (Array.mem_toList_iff.2 hslot)
    have hj' : (s'.slots template)[j]? = some slot := by
      obtain ⟨rest, hrest⟩ := he.slots_prefix template
      rw [← Array.getElem?_toList, ← hrest,
        List.getElem?_append_left (List.getElem?_eq_some_iff.1 hj).1]
      exact hj
    have hsite : q.scopes.target? ⟨id.index, template, j⟩ = some slot.target :=
      ScopeTree.target?_eq_some_iff.2 ⟨s', slot, (ScopeTree.get?_eq_some_iff.1 hs').2, hj', rfl⟩
    obtain ⟨v, hv, -⟩ := hq.sound.exists_read hsite
    exact ⟨v, hv⟩
  · exact Memory.eachMethod_mono hrest.sound.methods
      fun m hm => ⟨hm.live, hext.owns hm.live⟩
  · exact (hresolve id name target hfound).2 (ScopeTree.notShadowed_of_contains hs hname)

/-- A block that makes a method inside a call and keeps it. -/
def makeCounter : List Action :=
  [.defineMethod "make" [] [.declareLocal "x", .assignLocal "x" (.literal (.int 7)),
      .defineMethod "get" [] [.resolveLocal "x", .ret], .resolveLocal "get", .ret],
    .declareLocal "g", .call "make" 0, .assignLocal "g" .pop]

/-- The method that a call returned still finds the variable of that call after another run. -/
theorem captured_variable_stays :
    ∃ p q, Reachable p ∧ Relation.ReflTransGen Serves p q ∧
      p.scopes.resolve ⟨⟨2⟩, 2⟩ "x" = .ok (.frame 0) ∧
      q.scopes.resolve ⟨⟨2⟩, 2⟩ "x" = .ok (.frame 0) := by
  have hfirst : Serves .silent (after (runIn 3 .global makeCounter) .silent) :=
    .run rfl (completes_after (by decide +kernel))
  have hsecond : Serves (after (runIn 3 .global makeCounter) .silent)
      (after (runIn 3 .global [.call "g" 0]) (after (runIn 3 .global makeCounter) .silent)) :=
    .run rfl (completes_after (by decide +kernel))
  have hp := reachable_silent.step hfirst
  have hx : (after (runIn 3 .global makeCounter) .silent).scopes.resolve ⟨⟨2⟩, 2⟩ "x" =
      .ok (.frame 0) := eq_ok_of_toOption (by decide +kernel)
  refine ⟨_, _, hp, .single hsecond, hx, ?_⟩
  have hscope : ((after (runIn 3 .global makeCounter) .silent).scopes.get? ⟨⟨2⟩, 2⟩).any
      (·.locals.contains "x") = true := by decide +kernel
  obtain ⟨s, hs, hname⟩ := (Option.any_eq_true _ _).1 hscope
  exact (bindings_permanent hp (.single hsecond)).2.2.1 _ s _ _ hs hname hx

end ActionMachine
