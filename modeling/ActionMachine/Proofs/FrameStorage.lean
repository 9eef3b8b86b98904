import Mathlib.Data.Set.Function
import ActionMachine.Proofs.Requests

/-
  Storage is exact in every state of every run. The cells of the frame are those of the locals of
  the live calls, each of one local; the other locals and the members of templates have cells of
  the arena, each its own.
-/

namespace ActionMachine

open Exec

/-- The slots of the live scopes: those of calls, or those of all other scopes. -/
def ScopeTree.sites (t : ScopeTree) (ofCalls : Bool) : Set Site :=
  {site | ∃ s, t.scopes[site.scope]? = some s ∧ s.kind.isCall = ofCalls ∧
    site.position < (s.slots site.template).size}

/-- The sites of calls lead one to one onto the cells of the frame, and all other sites to different
cells of the arena of this program. -/
structure Program.StoresExactly (p : Program) : Prop where
  frame : Set.BijOn p.scopes.target? (p.scopes.sites true)
    ((fun k => some (CellRef.frame k)) '' {k | k < p.memory.frame.size})
  arena : Set.MapsTo p.scopes.target? (p.scopes.sites false)
    ((fun k => some (p.memory.staticRef k)) '' {k | k < p.memory.arena.size})
  distinct : Set.InjOn p.scopes.target? (p.scopes.sites false)

namespace Program

variable {p : Program}

theorem exists_target? {ofCalls : Bool} {site : Site} (h : site ∈ p.scopes.sites ofCalls) :
    ∃ target, p.scopes.target? site = some target ∧ p.scopes.isCallAt site.scope = ofCalls := by
  obtain ⟨s, hs, hkind, hlt⟩ := h
  refine ⟨_, ScopeTree.target?_eq_some_iff.2 ⟨s, _, hs, Array.getElem?_eq_getElem hlt, rfl⟩, ?_⟩
  unfold ScopeTree.isCallAt
  rw [hs, Option.any_some, hkind]

theorem mem_sites {site : Site} {target : CellRef} (h : p.scopes.target? site = some target) :
    site ∈ p.scopes.sites (p.scopes.isCallAt site.scope) := by
  obtain ⟨s, slot, hs, hslot, -⟩ := ScopeTree.target?_eq_some_iff.1 h
  refine ⟨s, hs, ?_, (Array.getElem?_eq_some_iff.1 hslot).1⟩
  unfold ScopeTree.isCallAt
  rw [hs, Option.any_some]

theorem injOn_target? (h : p.Sound) (ofCalls : Bool) :
    Set.InjOn p.scopes.target? (p.scopes.sites ofCalls) := by
  intro a ha b hb hab
  obtain ⟨target, htarget, -⟩ := exists_target? ha
  exact h.storage.inj a b target htarget (hab ▸ htarget)

theorem Sound.storesExactly (h : p.Sound) : p.StoresExactly := by
  refine ⟨⟨fun site hsite => ?_, injOn_target? h true, ?_⟩, fun site hsite => ?_,
    injOn_target? h false⟩
  · obtain ⟨target, htarget, hcall⟩ := exists_target? hsite
    obtain ⟨k, hk, rfl⟩ := h.storage.frame site target htarget hcall
    exact ⟨k, hk, htarget.symm⟩
  · rintro _ ⟨k, hk, rfl⟩
    obtain ⟨site, hsite⟩ := h.storage.onto k hk
    have hmem := mem_sites hsite
    rw [h.storage.isCallAt_of_frame hsite] at hmem
    exact ⟨site, hmem, hsite⟩
  · obtain ⟨target, htarget, hcall⟩ := exists_target? hsite
    obtain ⟨k, hk, rfl⟩ := h.storage.arena site target htarget hcall
    exact ⟨k, hk, htarget.symm⟩

end Program

/-- Storage is exact between requests, and in every run before and after every action that the run
comes to, whether the action succeeds or fails, in bodies and calls at any depth. -/
theorem storage_exact {p : Program} (hp : Reachable p) :
    p.StoresExactly ∧ ∀ (n : Nat) (scope : ScopeId) (actions : List Action),
      p.scopes.owns scope = true → Action.allMethodFree actions = true →
      ∀ (k : Nat) (s : ScopeId) (a : Action) (q : Program), Meets n scope actions p k s a q →
        q.StoresExactly ∧ ∀ r, Completes (attempt (enter k) s a) q r → r.StoresExactly := by
  have hsound := hp.atRest.sound
  refine ⟨hsound.storesExactly, fun n scope actions ho hfree k s a q hm => ⟨?_, fun r hr => ?_⟩⟩
  · exact (hm.sound hsound ho hfree).1.storesExactly
  · exact (hm.sound_after hsound ho hfree hr).storesExactly

/-- The block is run in a new program; inside the call, the local of the call has the one cell of
the frame. -/
theorem storage_exact_inside_call :
    ∃ q, Meets 2 .global [.defineMethod "f" [] [.declareLocal "x"], .call "f" 0] .silent
        1 ⟨⟨2⟩, 2⟩ (.declareLocal "x") q ∧
      ∃ r, attempt (enter 1) ⟨⟨2⟩, 2⟩ (.declareLocal "x") q = .ok .next r ∧
        r.memory.frame.size = 1 ∧ r.StoresExactly := by
  have hm : Meets 2 .global [.defineMethod "f" [] [.declareLocal "x"], .call "f" 0] .silent
      1 ⟨⟨2⟩, 2⟩ (.declareLocal "x") _ := .later rfl (.inCall (by decide) rfl rfl .here)
  refine ⟨_, hm, _, rfl, rfl, ?_⟩
  exact ((storage_exact reachable_silent).2 2 .global _ rfl rfl 1 _ _ _ hm).2 _ (Or.inl ⟨_, rfl⟩)

end ActionMachine
