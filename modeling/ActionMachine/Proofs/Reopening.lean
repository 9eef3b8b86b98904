import ActionMachine.Proofs.Blocks
import ActionMachine.Proofs.SoundHistory

/-
  A namespace that is defined again is opened again: its two bodies do what one body does that has
  the actions of both. What makes this work is that nothing a body does changes what the name of the
  namespace means in the scope around it (`ScopeTree.HasNameSpace`), because scopes only ever gain
  names.
-/

namespace ActionMachine

/-! ## Nested namespaces -/

namespace ScopeTree

variable {F : ScopeId → Prop} {t u : ScopeTree} {parent id : ScopeId} {name : Name}

/-- In `parent` the name means the namespace `id`. -/
def HasNameSpace (t : ScopeTree) (parent : ScopeId) (name : Name) (id : ScopeId) : Prop :=
  ∃ owner inner, t.get? parent = some owner ∧ owner.nested? name = some id ∧
    t.get? id = some inner ∧ inner.kind.isNameSpace = true

theorem HasNameSpace.extends (h : t.HasNameSpace parent name id) (he : t.Extends u) :
    u.HasNameSpace parent name id := by
  obtain ⟨owner, inner, howner, hname, hinner, hkind⟩ := h
  obtain ⟨owner', howner', heowner⟩ := he.get? howner
  obtain ⟨inner', hinner', heinner⟩ := he.get? hinner
  exact ⟨owner', inner', howner', heowner.nested name id hname, hinner',
    heinner.isNameSpace_eq.trans hkind⟩

/-- Defining a namespace that is there finds it and changes nothing. -/
theorem HasNameSpace.defineNamespace_eq (h : t.HasNameSpace parent name id) :
    t.defineNamespace parent name = .ok (id, t) := by
  obtain ⟨owner, inner, howner, hname, hinner, hkind⟩ := h
  unfold defineNamespace
  rw [get_eq_ok_iff.2 howner]
  simp only [bind, Except.bind, liftM, monadLift, MonadLift.monadLift, hname,
    get_eq_ok_iff.2 hinner, if_pos hkind]
  rfl

theorem hasNameSpace_declared (h : t.SoundUpTo F) {owner s : Scope}
    (howner : t.get? parent = some owner) (hnew : owner.nested? name = none)
    (hfresh : s.Fresh name parent) (hkind : s.kind.isNameSpace = true) :
    (t.declared parent owner name s).HasNameSpace parent name ⟨t.id, t.size⟩ := by
  have hopened : t.Opened parent name ⟨t.id, t.size⟩ (t.declared parent owner name s) :=
    .fresh howner hnew hfresh
  have hext := hopened.extends h
  obtain ⟨howns, hslot⟩ := get?_eq_some_iff.1 howner
  have hlt : parent.index < t.size := h.index_lt howns
  obtain ⟨inner, hinner, -⟩ := hopened.exists_get? h
  have hindex := (get?_eq_some_iff.1 hinner).2
  rw [h.getElem?_declared howner, if_neg (Nat.ne_of_gt hlt), if_pos rfl] at hindex
  cases hindex
  refine ⟨owner.addNested name ⟨t.id, t.size⟩, _, get?_eq_some_iff.2 ⟨hext.owns howns, ?_⟩, ?_,
    hinner, hkind⟩
  · rw [h.getElem?_declared howner, if_pos rfl]
  · rw [Scope.nested?_addNested, if_pos rfl]

/-- What was defined as a namespace is nested as one. -/
theorem hasNameSpace_of_defineNamespace (h : t.SoundUpTo F) (ho : t.owns parent = true)
    (hdefine : t.defineNamespace parent name = .ok (id, u)) : u.HasNameSpace parent name id := by
  obtain ⟨owner, hget⟩ := h.exists_get ho
  have howner := get_eq_ok_iff.1 hget
  unfold defineNamespace at hdefine
  rw [hget] at hdefine
  simp only [bind, Except.bind, liftM, monadLift, MonadLift.monadLift] at hdefine
  cases hname : owner.nested? name with
  | none =>
    rw [hname] at hdefine
    simp only [h.declare_eq howner] at hdefine
    cases hdefine
    exact hasNameSpace_declared h howner hname (Scope.fresh_nameSpace name parent) rfl
  | some found =>
    rw [hname] at hdefine
    obtain ⟨inner, hinner, -⟩ :=
      (h.nested _ _ (get?_eq_some_iff.1 howner).2 name found hname).exists_get
    simp only [hinner] at hdefine
    split at hdefine
    · cases hdefine
      exact ⟨owner, inner, howner, hname, get_eq_ok_iff.1 hinner, ‹_›⟩
    · cases hdefine

end ScopeTree

/-- The code that a failure is reported with. -/
def Failure.code (f : Failure) : ErrorCode := f.fault.code

namespace Exec

variable {scope id : ScopeId} {p q r : Program} {name : Name} {n k : Nat} {as bs : List Action}
  {x : Exec Failure Flow} {run : Body}

theorem openNamespace_eq_ok (h : openNamespace scope name p = .ok id q) :
    p.scopes.defineNamespace scope name = .ok (id, q.scopes) := by
  have hends : Ends (openNamespace scope name) p
      (fun id q => p.scopes.defineNamespace scope name = .ok (id, q.scopes)) fun _ _ => True := by
    simp only [openNamespace, ends_bind, ends_get, ends_liftStop, ends_setScopes, ends_pure]
    exact ⟨fun _ hdefine => hdefine, fun _ _ => trivial⟩
  exact hends.of_ok h

theorem openNamespace_of_hasNameSpace (h : p.scopes.HasNameSpace scope name id) :
    openNamespace scope name p = .ok id p := by
  apply Ends.eq_ok
  simp only [openNamespace, ends_bind, ends_get, ends_liftStop, ends_setScopes, ends_pure]
  rw [h.defineNamespace_eq]
  refine ⟨fun b hb => ?_, fun s hs => by cases hs⟩
  cases hb
  exact ⟨rfl, rfl⟩

/-- After its body has run, the name of a namespace still means it, and opening it changes
nothing. -/
theorem openNamespace_again (hp : p.Sound) (ho : p.scopes.owns scope = true)
    (hfree : Action.allMethodFree as = true) (hopen : openNamespace scope name p = .ok id q)
    {flow : Flow} (hbody : performAll (enter n) id 0 as q = .ok flow r) :
    openNamespace scope name r = .ok id r := by
  have hname := ScopeTree.hasNameSpace_of_defineNamespace hp.tree ho (openNamespace_eq_ok hopen)
  have hopens := (openNamespace_ends hp ho name).of_ok hopen
  have hkeeps := Ends.of_ok (run_safe.2 n id as q (hopens.keeps 0).sound hopens.live hfree 0) hbody
  exact openNamespace_of_hasNameSpace (hname.extends hkeeps.grows.tree)

/-! ## Outcomes up to reports -/

/-- An outcome with only the code of its failure. -/
def coded {ε : Type} (code : ε → ErrorCode) :
    EStateM.Result (Stop ε) Program Flow → EStateM.Result (Stop ErrorCode) Program Flow
  | .ok flow q => .ok flow q
  | .error stop q => .error (stop.map code) q

theorem coded_eq_ok_iff {ε : Type} {code : ε → ErrorCode}
    {outcome : EStateM.Result (Stop ε) Program Flow} {flow : Flow} :
    coded code outcome = .ok flow q ↔ outcome = .ok flow q := by
  cases outcome with
  | ok flow' r => exact ⟨fun h => by cases h; rfl, fun h => by cases h; rfl⟩
  | error s r => exact ⟨nofun, nofun⟩

/-- Outcomes with one code leave one program, and both succeed or both fail. -/
theorem coded_eq_coded {ε ε' : Type} {code : ε → ErrorCode} {code' : ε' → ErrorCode}
    {outcome : EStateM.Result (Stop ε) Program Flow}
    {outcome' : EStateM.Result (Stop ε') Program Flow}
    (h : coded code outcome = coded code' outcome') :
    (∃ flow q, outcome = .ok flow q ∧ outcome' = .ok flow q) ∨
      ∃ s s' q, outcome = .error s q ∧ outcome' = .error s' q ∧ s.map code = s'.map code' := by
  cases outcome with
  | ok flow q =>
    cases outcome' with
    | ok flow' q' =>
      cases h
      exact .inl ⟨flow, q, rfl, rfl⟩
    | error s q' => cases h
  | error s q =>
    cases outcome' with
    | ok flow q' => cases h
    | error s' q' =>
      obtain ⟨hs, rfl⟩ := EStateM.Result.error.inj h
      exact .inr ⟨s, s', q, rfl, rfl, hs⟩

theorem coded_reportLater : coded Failure.code (reportLater k x p) = coded Failure.code (x p) := by
  unfold reportLater
  cases x p with
  | ok flow q => rfl
  | error s q => cases s <;> rfl

/-- The index that a block begins with does not count. -/
theorem coded_performAll (index : Nat) :
    coded Failure.code (performAll run scope index as p) =
      coded Failure.code (performAll run scope 0 as p) := by
  rw [← Nat.zero_add index, performAll_add, coded_reportLater]

theorem coded_inside {place : Place} {y : Exec Failure Flow}
    (h : coded Failure.code (x p) = coded Failure.code (y q)) :
    coded Fault.code (inside place x p) = coded Fault.code (inside place y q) := by
  obtain ⟨flow, r, hx, hy⟩ | ⟨s, s', r, hx, hy, hs⟩ := coded_eq_coded h
  · rw [inside_of_ok hx, inside_of_ok hy]
  · rw [inside_of_error hx, inside_of_error hy]
    cases s <;> cases s' <;> exact congrArg (EStateM.Result.error · r) hs

/-- What a block does after its first action is up to the outcome of that action. -/
theorem coded_cons {a b : Action} {index index' : Nat}
    (h : coded Fault.code (attempt run scope a p) = coded Fault.code (attempt run scope b q)) :
    coded Failure.code (performAll run scope index (a :: as) p) =
      coded Failure.code (performAll run scope index' (b :: as) q) := by
  obtain ⟨flow, r, hx, hy⟩ | ⟨s, s', r, hx, hy, hs⟩ := coded_eq_coded h
  · cases flow with
    | next =>
      rw [performAll_cons_of_next hx, performAll_cons_of_next hy, coded_performAll,
        coded_performAll (index' + 1)]
    | ret => rw [performAll_cons_of_ret hx, performAll_cons_of_ret hy]
  · rw [performAll_cons_of_error hx, performAll_cons_of_error hy]
    cases s <;> cases s' <;> exact congrArg (EStateM.Result.error · r) hs

/-! ## Two bodies and one -/

/-- Once the first body has run, the second does what it does behind the first. -/
theorem coded_reopened (hopen : openNamespace scope name p = .ok id q)
    (hbody : performAll run id 0 as q = .ok .next r)
    (hagain : openNamespace scope name r = .ok id r) :
    coded Fault.code (attempt run scope (.defineNamespace name (as ++ bs)) p) =
      coded Fault.code (attempt run scope (.defineNamespace name bs) r) := by
  rw [attempt_of_openNamespace hopen, attempt_of_openNamespace hagain]
  apply coded_inside
  rw [performAll_append, andThen_of_next hbody, coded_performAll]

end Exec

open Exec

/-- A namespace that is opened again takes up where it was left. In a live scope of any state that a
program passes through, let a namespace be defined with a first body that runs to its end without
leaving it. Then a second definition of the namespace right behind the first does what one
definition with both bodies does: whatever follows, the same program is left, with the same flow or
a failure with the same code. -/
theorem reopened_namespace_merges {start p q r : Program} (hstart : Reachable start)
    {requests : List Request} (hfree : ∀ request ∈ requests, request.methodFree = true)
    {earlier later : List Step} (hsplit : history requests start = earlier ++ later)
    (hp : p = final start earlier) {scope id : ScopeId} (ho : p.scopes.owns scope = true)
    {name : Name} {first : List Action} (hfirst : Action.allMethodFree first = true)
    (hopen : openNamespace scope name p = .ok id q) {n : Nat}
    (hbody : performAll (enter n) id 0 first q = .ok .next r) (second rest : List Action) :
    coded Failure.code
        (block n scope (.defineNamespace name first :: .defineNamespace name second :: rest) p) =
      coded Failure.code (block n scope (.defineNamespace name (first ++ second) :: rest) p) := by
  subst hp
  have hsound : (final start earlier).Sound :=
    (segment_of_history hstart.atRest.healthy hfree
      (hsplit.trans (List.append_nil _).symm)).start.sound
  have hagain := openNamespace_again hsound ho hfirst hopen hbody
  have hdone : attempt (enter n) scope (.defineNamespace name first) (final start earlier) =
      .ok .next r := by
    rw [attempt_of_openNamespace hopen, inside_of_ok hbody]
  unfold block
  rw [performAll_cons_of_next hdone]
  exact coded_cons (coded_reopened hopen hbody hagain).symm

/-- A namespace that is opened again for a reference to what it declared before. -/
def reopenToResolve : List Action :=
  [.defineNamespace "outer" [.declareLocal "x"], .defineNamespace "outer" [.resolveLocal "x"]]

theorem reopenToResolve_merges :
    ∃ t, block 1 .global reopenToResolve .silent = .ok .next t ∧
      block 1 .global [.defineNamespace "outer" [.declareLocal "x", .resolveLocal "x"]] .silent =
        .ok .next t ∧ t.memory.stack.size = 1 := by
  obtain ⟨q, hopen⟩ : ∃ q, openNamespace .global "outer" .silent = .ok ⟨⟨2⟩, 2⟩ q := ⟨_, rfl⟩
  obtain ⟨r, hbody⟩ : ∃ r, performAll (enter 1) ⟨⟨2⟩, 2⟩ 0 [.declareLocal "x"] q =
      .ok .next r := by
    cases hopen
    exact ⟨_, rfl⟩
  have hmerges := reopened_namespace_merges reachable_silent (fun _ hnone => by cases hnone)
    (List.append_nil (history [] .silent)).symm (rfl : Program.silent = _) (by decide) (by decide)
    hopen hbody [.resolveLocal "x"] []
  obtain ⟨t, hone, hsize⟩ : ∃ t, block 1 .global
      [.defineNamespace "outer" [.declareLocal "x", .resolveLocal "x"]] .silent = .ok .next t ∧
        t.memory.stack.size = 1 := ⟨_, rfl, rfl⟩
  exact ⟨t, coded_eq_ok_iff.1 (hmerges.trans (coded_eq_ok_iff.2 hone)), hone, hsize⟩

end ActionMachine
