import ActionMachine.Proofs.Calls

/-
  Histories of a scope tree on its own. Whatever operations are applied to live scopes, in whatever
  order, the tree stays sound: its links go from later scopes to earlier ones or to scopes that stay
  for good. So the scopes that leave with a call are scopes of calls, and no link leads to them.
-/

namespace ActionMachine

namespace ScopeTree

/-! ## Operations -/

/-- What can be done to a tree. -/
inductive Operation where
  | defineNamespace (parent : ScopeId) (name : Name)
  | defineClass (parent : ScopeId) (name : Name) (typeId : TypeId)
  | addLocal (id : ScopeId) (name : Name) (target : CellRef)
  | addInstanceMember (id : ScopeId) (name : Name) (target : CellRef)
  | pushCallScope (lexical : ScopeId) (method : Name)
  | retain (id : ScopeId)
  | releaseCallScope (id : ScopeId)

namespace Operation

/-- The scope that the operation is given. -/
def scope : Operation → ScopeId
  | .defineNamespace parent _ => parent
  | .defineClass parent _ _ => parent
  | .addLocal id _ _ => id
  | .addInstanceMember id _ _ => id
  | .pushCallScope lexical _ => lexical
  | .retain id => id
  | .releaseCallScope id => id

/-- The scope that the operation is given is live, and that of a call if it is to be released. -/
def isAllowed (t : ScopeTree) (op : Operation) : Bool :=
  t.owns op.scope &&
    match op with
    | .releaseCallScope id => (t.get? id).any (·.kind.isCall)
    | _ => true

def apply (t : ScopeTree) : Operation → Except (Stop Fault) ScopeTree
  | .defineNamespace parent name => return (← t.defineNamespace parent name).2
  | .defineClass parent name typeId => return (← t.defineClass parent name typeId).2
  | .addLocal id name target => t.addLocal id name target
  | .addInstanceMember id name target => t.addInstanceMember id name target
  | .pushCallScope lexical method => return (t.pushCallScope lexical method).2
  | .retain id => return t.retain id
  | .releaseCallScope id => return (← t.releaseCallScope id).2

end Operation

/-- A tree that has come from a new one by operations on live scopes. One that fails changes
nothing. -/
inductive Reached : ScopeTree → Prop where
  | new {id : StoreId} (h : id ≠ .shared) : Reached { id }
  | step {t u : ScopeTree} {op : Operation} (h : Reached t) (ho : op.isAllowed t = true)
      (hu : op.apply t = .ok u) : Reached u

/-! ## One operation -/

variable {t u : ScopeTree} {op : Operation}

/-- The operation has a sound result or fails. -/
def Yields (e : Except (Stop Fault) ScopeTree) : Prop :=
  (∃ u, e = .ok u ∧ u.Sound) ∨ ∃ cause, e = .error (.fault cause)

theorem Sound.addLocal_yields (h : t.Sound) {id : ScopeId} (ho : t.owns id = true) (name : Name)
    (target : CellRef) : Yields (t.addLocal id name target) := by
  obtain ⟨s, hget⟩ := h.exists_get ho
  have hs := get_eq_ok_iff.1 hget
  cases hadd : s.addLocal name target with
  | ok s' =>
    refine Or.inl ⟨_, Exec.addLocal_eq_ok_iff.2 ⟨s, s', hs, hadd, rfl⟩, ?_⟩
    exact h.gain (get?_eq_some_iff.1 hs).2 (Scope.gains_of_addLocal hadd)
  | error e =>
    refine Or.inr ⟨e.toFault, ?_⟩
    unfold ScopeTree.addLocal
    rw [hget]
    simp only [bind, Except.bind, liftM, monadLift, MonadLift.monadLift, hadd]

theorem Sound.addInstanceMember_yields (h : t.Sound) {id : ScopeId} (ho : t.owns id = true)
    (name : Name) (target : CellRef) : Yields (t.addInstanceMember id name target) := by
  obtain ⟨s, hget⟩ := h.exists_get ho
  have hs := get_eq_ok_iff.1 hget
  cases ht : s.template? with
  | none =>
    refine Or.inr ⟨.notAClass s.name s.kind.text, ?_⟩
    unfold ScopeTree.addInstanceMember
    rw [hget]
    simp only [bind, Except.bind, liftM, monadLift, MonadLift.monadLift, ht]
    rfl
  | some template =>
    rw [Exec.addInstanceMember_eq hs ht]
    cases hi : template.insert name target with
    | ok template' =>
      exact Or.inl ⟨_, rfl, h.gain (get?_eq_some_iff.1 hs).2 (Scope.gains_of_setTemplate ht hi)⟩
    | error e => exact Or.inr ⟨_, rfl⟩

/-- What a release does to a tree: at most scopes of calls go that nothing keeps, the rest stays as
it is, and no link leads to a scope that has gone. -/
structure Releases (t : ScopeTree) (id : ScopeId) (released : Bool) (u : ScopeTree) : Prop where
  sound : u.Sound
  flag : released = true ↔ t.retained ≤ id.index
  size : u.size = if released then id.index else t.size
  retained : u.retained = t.retained
  stays : ∀ i : Nat, i < u.size → u.scopes[i]? = t.scopes[i]?
  goes : ∀ (i : Nat) (s : Scope), t.scopes[i]? = some s → u.size ≤ i →
    s.kind.isCall = true ∧ t.retained ≤ i
  parent : ∀ (i : Nat) (s : Scope), u.scopes[i]? = some s → u.owns s.parent = true
  nested : ∀ (i : Nat) (s : Scope), u.scopes[i]? = some s → ∀ name inner,
    s.nested? name = some inner → u.owns inner = true

theorem Sound.owns_parent (h : t.Sound) {i : Nat} {s : Scope} (hs : t.scopes[i]? = some s) :
    t.owns s.parent = true := by
  rcases Nat.lt_or_ge i 2 with hlt | hge
  · exact owns_eq_true_iff.2 (Or.inl (h.parent_shared hs hlt))
  · exact (h.parent i s hs hge).1

theorem Sound.owns_nested (h : t.Sound) {i : Nat} {s : Scope} (hs : t.scopes[i]? = some s)
    {name : Name} {inner : ScopeId} (hi : s.nested? name = some inner) : t.owns inner = true := by
  obtain ⟨_, hget, -⟩ := h.nested i s hs name inner hi
  exact (get?_eq_some_iff.1 hget).1

theorem Sound.releases (h : t.Sound) {id : ScopeId} {s : Scope} (hget : t.get? id = some s)
    (hcall : s.kind.isCall = true) :
    ∃ released u, t.releaseCallScope id = .ok (released, u) ∧ t.Releases id released u := by
  have hlt := h.index_lt (get?_eq_some_iff.1 hget).1
  rw [Exec.releaseCallScope_eq hget hcall]
  by_cases hkept : id.index < t.retained
  · rw [if_pos hkept]
    refine ⟨false, t, rfl, h, ⟨nofun, fun hle => absurd hkept (Nat.not_lt_of_le hle)⟩, rfl, rfl,
      fun _ _ => rfl, fun i s hs hle => ?_, fun _ _ => h.owns_parent, fun _ _ hs _ _ =>
      h.owns_nested hs⟩
    exact absurd (Array.getElem?_eq_some_iff.1 hs).1 (Nat.not_lt_of_le hle)
  · rw [if_neg hkept]
    have hle := Nat.le_of_not_lt hkept
    have hsound : ({ t with scopes := t.scopes.shrink id.index } : ScopeTree).Sound :=
      h.shrink hle (Nat.le_of_lt hlt)
    have hsize : (t.scopes.shrink id.index).size = id.index := size_shrink (Nat.le_of_lt hlt)
    refine ⟨true, _, rfl, hsound, ⟨fun _ => hle, fun _ => rfl⟩, hsize, rfl, fun i hi => ?_,
      fun i s hs hi => ?_, fun _ _ => hsound.owns_parent, fun _ _ hs _ _ =>
      hsound.owns_nested hs⟩
    · exact (getElem?_shrink _ _ _).trans (if_pos (hsize ▸ hi))
    · have hi : id.index ≤ i := hsize ▸ hi
      refine ⟨?_, Nat.le_trans hle hi⟩
      -- scopes that are not of calls lie below the retained ones
      cases hk : s.kind.isCall with
      | true => rfl
      | false => exact absurd (h.kept i s hs hk) (by omega)

/-- Every operation on a live scope of a sound tree has a sound result or fails. -/
theorem Sound.apply_yields (h : t.Sound) (ho : op.isAllowed t = true) : Yields (op.apply t) := by
  obtain ⟨ho, hrelease⟩ := Bool.and_eq_true_iff.1 ho
  cases op with
  | defineNamespace parent name =>
    change t.owns parent = true at ho
    rcases h.defineNamespace_cases ho name with ⟨id, u, he, hopened⟩ | ⟨cause, he⟩
    · exact Or.inl ⟨u, by rw [Operation.apply, he]; rfl, hopened.sound h⟩
    · exact Or.inr ⟨cause, by rw [Operation.apply, he]; rfl⟩
  | defineClass parent name typeId =>
    change t.owns parent = true at ho
    rcases h.defineClass_cases ho name typeId with ⟨id, u, he, hopened⟩ | ⟨cause, he⟩
    · exact Or.inl ⟨u, by rw [Operation.apply, he]; rfl, hopened.sound h⟩
    · exact Or.inr ⟨cause, by rw [Operation.apply, he]; rfl⟩
  | addLocal id name target => exact h.addLocal_yields ho name target
  | addInstanceMember id name target => exact h.addInstanceMember_yields ho name target
  | pushCallScope lexical method => exact Or.inl ⟨_, rfl, h.pushCallScope (Or.inr ho) method⟩
  | retain id => exact Or.inl ⟨_, rfl, h.retain ho⟩
  | releaseCallScope id =>
    obtain ⟨s, hget, hcall⟩ := (Option.any_eq_true _ _).1 hrelease
    obtain ⟨released, u, he, hu⟩ := h.releases hget hcall
    exact Or.inl ⟨u, by rw [Operation.apply, he]; rfl, hu.sound⟩

theorem Reached.sound (h : Reached t) : t.Sound := by
  induction h with
  | new hid => exact sound_new hid
  | step _ ho hu ih =>
    rcases ih.apply_yields ho with ⟨u, he, hsound⟩ | ⟨cause, he⟩
    · rw [hu] at he
      cases he
      exact hsound
    · rw [hu] at he
      cases he

end ScopeTree

open ScopeTree

/-- A tree reached by operations on live scopes is sound: among the rest, each scope past the first
two has a live parent that lies before it. Exactly its classes have a template. No further operation
on live scopes breaks a contract. In particular a call can be released, and then at most scopes of
calls go that nothing keeps, and no link of the others leads to them. -/
theorem reached_tree_sound {t : ScopeTree} (ht : Reached t) :
    t.Sound ∧
      (∀ (i : Nat) (s : Scope), t.scopes[i]? = some s → 2 ≤ i →
        t.owns s.parent = true ∧ s.parent.index < i) ∧
      (∀ (i : Nat) (s : Scope), t.scopes[i]? = some s →
        ((∃ template, s.template? = some template) ↔ s.kind = .classScope)) ∧
      (∀ op : Operation, op.isAllowed t = true →
        (∃ u, op.apply t = .ok u) ∨ ∃ cause, op.apply t = .error (.fault cause)) ∧
      ∀ id s, t.get? id = some s → s.kind.isCall = true →
        ∃ released u, t.releaseCallScope id = .ok (released, u) ∧ t.Releases id released u := by
  refine ⟨ht.sound, ht.sound.parent, fun i s hs => ?_, fun op ho => ?_,
    fun id s hget hcall => ht.sound.releases hget hcall⟩
  · exact Scope.isClass_iff_exists_template.symm.trans (ht.sound.slots i s hs).classed
  · exact (ht.sound.apply_yields ho).imp_left fun ⟨u, hu, _⟩ => ⟨u, hu⟩

/-- A namespace is opened inside a call, which keeps the call; a call of something in it follows. -/
def namespaceInCall : ScopeTree :=
  let (outer, t) := ({ id := ⟨2⟩ } : ScopeTree).pushCallScope .global "f"
  match t.defineNamespace outer "n" with
  | .ok (inner, t) => (t.pushCallScope inner "g").2
  | .error _ => t

/-- The outer call stays, the inner one goes. -/
theorem namespaceInCall_releases :
    namespaceInCall.size = 5 ∧
      (∃ u, namespaceInCall.releaseCallScope ⟨⟨2⟩, 2⟩ = .ok (false, u) ∧
        namespaceInCall.Releases ⟨⟨2⟩, 2⟩ false u) ∧
      ∃ u, namespaceInCall.releaseCallScope ⟨⟨2⟩, 4⟩ = .ok (true, u) ∧
        namespaceInCall.Releases ⟨⟨2⟩, 4⟩ true u := by
  have hnew : Reached { id := ⟨2⟩ } := .new (by decide)
  have houter := @Reached.step _ _ (.pushCallScope .global "f") hnew rfl rfl
  have hnamespace := @Reached.step _ _ (.defineNamespace ⟨⟨2⟩, 2⟩ "n") houter rfl rfl
  have hreached : Reached namespaceInCall :=
    @Reached.step _ _ (.pushCallScope ⟨⟨2⟩, 3⟩ "g") hnamespace rfl rfl
  have hrelease := (reached_tree_sound hreached).2.2.2.2
  obtain ⟨outer, u, hu, houter⟩ := hrelease ⟨⟨2⟩, 2⟩ _ rfl rfl
  obtain ⟨inner, w, hw, hinner⟩ := hrelease ⟨⟨2⟩, 4⟩ _ rfl rfl
  cases hu
  cases hw
  exact ⟨rfl, ⟨_, rfl, houter⟩, _, rfl, hinner⟩

end ActionMachine
