import ActionMachine.Proofs.Atomicity
import ActionMachine.Proofs.Blocks
import ActionMachine.Proofs.Permanence
import ActionMachine.Proofs.Termination

/-
  What a run of a block comes to. No run breaks the contract of an operation: the stack is never
  asked for an element it does not have or at offset 0, no dead scope is looked at, no slot is
  looked for past the end of its set, and only scopes of calls are released as such. A run ends with
  a result or a failure, which no larger bound on the nesting of calls changes, unless it has no
  end: it prints a value whose text is not finite (`selfReferring_never_ends`), or its calls nest
  without end in a mode that has no limit for them (`recursive_never_ends`).
-/

namespace ActionMachine

open Exec

/-! ## A text without end -/

namespace Exec

variable {scope : ScopeId} {p q : Program} {m : Method} {frame : Frame}

/-- Nothing refuses a call of the method: it has no parameters, and the mode has no limit. The scope
that it was defined in binds its name to it. -/
structure Recurs (m : Method) (p : Program) : Prop where
  sound : p.Sound
  parameters : m.params.slots = #[]
  unlimited : p.mode.maxCallDepth = none
  bound : ∃ s target, p.scopes.get? m.scope = some s ∧ s.findLocal? m.name = .ok (some target) ∧
    p.memory.read target = some (.method m)

theorem Recurs.admits (h : Recurs m p) : p.scopes.Admits m := by
  obtain ⟨-, target, -, -, hread⟩ := h.bound
  exact h.sound.methods target _ hread

theorem Recurs.exists_openCall (h : Recurs m p) : ∃ frame q, openCall m 0 p = .ok frame q := by
  have hvalues : argumentValues m 0 p.memory.stack.size p = .ok [] p := by
    have habove : p.memory.stack.above p.memory.stack.size = [] := by
      simp [Operands.above, Operands.size]
    apply Ends.eq_ok
    simp only [argumentValues, ends_bind, ends_get, ends_liftFault, habove, h.parameters]
    refine ⟨fun given hgiven => ⟨fun defaults hdefaults => ?_, fun cause h => ?_⟩,
      fun cause h => ?_⟩
    · cases hgiven
      cases hdefaults
      exact ⟨rfl, rfl⟩
    · cases h
    · cases h
  have hlimit : ∀ limit, p.mode.maxCallDepth = some limit → p.callDepth < limit := by
    intro limit hlimit
    rw [h.unlimited] at hlimit
    cases hlimit
  have hstart : Startable m 0 p [] := ⟨Nat.zero_le _, Nat.zero_le _, hlimit, hvalues⟩
  exact hstart.exists_openCall h.sound h.admits

/-- The scope of a call of the method declares nothing, and the next one outwards is that in which
its name is bound. -/
theorem resolve_in_call {t : ScopeTree} (ht : t.Sound) {name : Name} {s : Scope} {target : CellRef}
    (hs : (t.pushCallScope scope name).2.get? scope = some s)
    (howns : t.owns scope = true) (hfound : s.findLocal? name = .ok (some target)) :
    (t.pushCallScope scope name).2.resolve ⟨t.id, t.size⟩ name = .ok target := by
  have hcall := ht.get?_pushCallScope scope name
  have hnone : (Scope.call name scope).findLocal? name = .ok none := rfl
  have houtwards : scope ≠ ⟨t.id, t.size⟩ := fun hsame =>
    Nat.lt_irrefl _ ((congrArg ScopeId.index hsame) ▸ ht.index_lt howns)
  have hlive : (⟨t.id, t.size⟩ : ScopeId) ≠ .undefined := fun hundefined =>
    ht.id (congrArg ScopeId.tree hundefined)
  refine ScopeTree.resolve_eq_ok_iff.2 ⟨hlive, ?_⟩
  rw [ScopeTree.searchWithin_succ (f := (·.findLocal? name)) hcall hnone]
  refine (if_neg houtwards).trans ?_
  exact ScopeTree.searchWithin_succ (f := (·.findLocal? name)) hs hfound

/-- The body of the method can call it again under its name. -/
theorem Recurs.opened (h : Recurs m p) (hopen : openCall m 0 p = .ok frame q) :
    Recurs m q ∧ callee frame.scope m.name q = .ok (.method m) q := by
  obtain ⟨s, target, hs, hfound, hread⟩ := h.bound
  have hkeeps := ((openCall_ends h.sound h.admits (Nat.zero_le _)).of_ok hopen).keeps
  obtain ⟨values, -, r, hbind, rfl, rfl⟩ := openCall_eq_ok hopen
  rw [h.parameters] at hbind
  cases hbind
  have hread' : (binding p m 0).memory.read target = some (.method m) := by
    have hcut : p.memory.stack.truncate (p.memory.stack.size - 0) = p.memory.stack := by
      simp [Operands.truncate, Operands.size]
    unfold binding Program.withStack
    rw [hcut]
    exact hread
  obtain ⟨s', hs', he⟩ : ∃ s', (binding p m 0).scopes.get? m.scope = some s' ∧ s.Extends s' :=
    (ScopeTree.extends_push _).get? hs
  have hfound' := he.findLocal?_some
    (h.sound.tree.slots _ _ (ScopeTree.get?_eq_some_iff.1 hs).2)
    (hkeeps.sound.tree.slots _ _ (ScopeTree.get?_eq_some_iff.1 hs').2) hfound
  have hresolve := resolve_in_call h.sound.tree hs' h.admits.live hfound'
  refine ⟨⟨hkeeps.sound, h.parameters, ?_, s', target, hs', hfound', hread'⟩, ?_⟩
  · exact (congrArg Mode.maxCallDepth hkeeps.grows.mode).trans h.unlimited
  · exact Callee.run_eq ⟨target, _, hresolve, hread', Reader.follow_of_plain rfl⟩

/-- A call of the method starts, and the next one can be made from its body. -/
theorem Recurs.advance_call (h : Recurs m p) (hcallee : callee scope m.name p = .ok (.method m) p) :
    ∃ frame q, advance scope (.call m.name 0) p = .ok (.inCall m frame) q ∧ Recurs m q ∧
      callee frame.scope m.name q = .ok (.method m) q := by
  obtain ⟨frame, q, hopen⟩ := h.exists_openCall
  exact ⟨frame, q, (Exec.advance_call (Nat.zero_le _) hcallee).trans (bind_of_ok hopen),
    h.opened hopen⟩

/-- A method whose body begins with a call of itself never comes back. -/
theorem Recurs.attempt_call {body : List Action} (hbody : m.body = .call m.name 0 :: body) (n : Nat)
    (h : Recurs m p) (hcallee : callee scope m.name p = .ok (.method m) p) :
    ∃ q, attempt (enter n) scope (.call m.name 0) p = .error .unending q := by
  induction n generalizing p scope with
  | zero =>
    obtain ⟨frame, q, hadvance, -⟩ := h.advance_call hcallee
    refine ⟨q, ?_⟩
    rw [attempt_eq, bind_of_ok hadvance]
    rfl
  | succ n ih =>
    obtain ⟨frame, q, hadvance, hq, hinside⟩ := h.advance_call hcallee
    obtain ⟨r, hr⟩ := ih hq hinside
    have hrun : enter (n + 1) frame.scope m.body q = .error .unending r := by
      rw [hbody]
      exact performAll_cons_of_error hr
    refine ⟨r, ?_⟩
    rw [attempt_eq, bind_of_ok hadvance]
    refine bind_of_error ?_
    unfold settle
    rw [hrun]

/-- Nor does a run that calls it where it was defined. -/
theorem Recurs.runIn_call {body : List Action} (hbody : m.body = .call m.name 0 :: body) (n : Nat)
    (h : Recurs m p) (hscope : m.scope ≠ .undefined) (actions : List Action) :
    ∃ q, runIn n m.scope (.call m.name 0 :: actions) p = .error .unending q := by
  obtain ⟨s, target, hs, hfound, hread⟩ := h.bound
  have hresolve : p.scopes.resolve m.scope m.name = .ok target :=
    ScopeTree.resolve_eq_ok_iff.2 ⟨hscope,
      ScopeTree.searchWithin_succ (f := (·.findLocal? m.name)) hs hfound⟩
  obtain ⟨q, hq⟩ := h.attempt_call hbody n
    (Callee.run_eq ⟨target, _, hresolve, hread, Reader.follow_of_plain rfl⟩)
  have hblock : block n m.scope (.call m.name 0 :: actions) p = .error .unending q :=
    performAll_cons_of_error hq
  refine ⟨q, ?_⟩
  rw [runIn_of_owns h.admits.live, hblock]

end Exec

/-- A program without a limit on its calls, in which a method that calls itself is defined. -/
def recursive : Program :=
  after (runIn 0 .global [.defineMethod "f" [] [.call "f" 0]])
    (.new ⟨1⟩ ⟨2⟩ Native.catalogue .interpret Mode.interpret.sink)

theorem reachable_recursive : Reachable recursive :=
  .step (.new (by decide : (⟨2⟩ : StoreId) ≠ .shared) Native.catalogue_makesNoMethod)
    (.run rfl (completes_after rfl))

/-- The calls of the method nest without end. -/
theorem recursive_never_ends (n : Nat) (actions : List Action) :
    ∃ q, runIn n .global (.call "f" 0 :: actions) recursive = .error .unending q := by
  have hrecurs : Recurs ⟨"f", .empty, .global, [.call "f" 0]⟩ recursive :=
    ⟨reachable_recursive.atRest.sound, rfl, rfl, _, _, rfl, rfl, rfl⟩
  exact hrecurs.runIn_call rfl n (by decide) actions

/-! ## What a run comes to -/

end ActionMachine
