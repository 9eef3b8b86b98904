import Mathlib.Logic.Relation
import ActionMachine.Proofs.Runs

/-
  The life of a program. It starts without declarations and serves requests one after the other:
  native methods are registered and blocks are run, each with a result or a fault. Every program
  reached this way is sound and has no call in progress, and so is every program in which a run
  meets an action.
-/

namespace ActionMachine

/-! ## New programs -/

namespace Program

variable {arena tree : StoreId} {host : Host} {mode : Mode} {sink : Sink}

/-- A new program with the catalogue as its host that prints nothing. -/
def silent : Program := new ⟨1⟩ ⟨2⟩ Native.catalogue .silent Mode.silent.sink

theorem target?_new (site : Site) : (new arena tree host mode sink).scopes.target? site = none := by
  cases ht : (new arena tree host mode sink).scopes.target? site with
  | none => rfl
  | some target =>
    obtain ⟨s, slot, hs, hslot, -⟩ := ScopeTree.target?_eq_some_iff.1 ht
    have hempty : s.slots site.template = #[] := by
      rcases ScopeTree.new_cases hs with ⟨-, rfl⟩ | ⟨-, rfl⟩ <;> cases site.template <;> rfl
    rw [hempty, Array.getElem?_empty] at hslot
    cases hslot

theorem sound_new (htree : tree ≠ .shared) (hhost : host.MakesNoMethod) :
    (new arena tree host mode sink).Sound := by
  refine ⟨ScopeTree.sound_new htree, ⟨fun site target ht => ?_, fun site target ht => ?_,
    fun a b target ha => ?_, fun k hk => absurd hk (Nat.not_lt_zero k)⟩,
    Memory.eachMethod_read_iff.2 ⟨Cells.all_empty, Cells.all_empty, Operands.all_empty⟩, trivial,
    ⟨Cells.all_empty, Cells.all_empty⟩, hhost⟩
  · rw [target?_new] at ht
    cases ht
  · rw [target?_new] at ht
    cases ht
  · rw [target?_new] at ha
    cases ha

end Program

namespace Exec

variable {p q : Program}

/-! ## Requests -/

/-- The computation came to its end in `q`, with a result or a fault. -/
def Completes {ε α : Type} (x : Exec ε α) (p q : Program) : Prop :=
  (∃ a, x p = .ok a q) ∨ ∃ cause, x p = .error (.fault cause) q

/-- The program that a computation leaves behind. -/
def after {ε α : Type} (x : Exec ε α) (p : Program) : Program :=
  match x p with
  | .ok _ q => q
  | .error _ q => q

def isComplete {ε α : Type} (x : Exec ε α) (p : Program) : Bool :=
  match x p with
  | .ok _ _ => true
  | .error (.fault _) _ => true
  | .error _ _ => false

theorem completes_after {ε α : Type} {x : Exec ε α} (h : isComplete x p = true) :
    Completes x p (after x p) := by
  unfold isComplete at h
  unfold Completes after
  cases hx : x p with
  | ok a q => exact Or.inl ⟨a, rfl⟩
  | error s q =>
    rw [hx] at h
    cases s with
    | fault cause => exact Or.inr ⟨cause, rfl⟩
    | breach v => cases h
    | unending => cases h

theorem Ends.of_completes {ε α : Type} {x : Exec ε α} {K E : Program → Prop}
    (h : Ends x p (fun _ q => K q) (Halts (fun _ q => K q) E)) (hx : Completes x p q) : K q := by
  rcases hx with ⟨a, hx⟩ | ⟨cause, hx⟩
  · exact h.of_ok hx
  · exact h.of_error hx

/-- One request, served to its end. -/
inductive Serves (p q : Program) : Prop where
  | registerNative {native : NativeMethod} (h : Completes (registerNative native) p q)
  | run {n : Nat} {scope : ScopeId} {actions : List Action}
      (hfree : Action.allMethodFree actions = true) (h : Completes (runIn n scope actions) p q)

/-- A program that has served some requests since it was new. Its host makes no methods. -/
inductive Reachable : Program → Prop where
  | new {arena tree : StoreId} {host : Host} {mode : Mode} {sink : Sink} (htree : tree ≠ .shared)
      (hhost : host.MakesNoMethod) : Reachable (.new arena tree host mode sink)
  | step {p q : Program} (h : Reachable p) (hs : Serves p q) : Reachable q

theorem reachable_silent : Reachable .silent :=
  .new (by decide) Native.catalogue_makesNoMethod

/-- A native method is bound in the outermost scope, or its name is taken. -/
theorem registerNative_bound {F : ScopeId → Prop} (ht : p.scopes.SoundUpTo F)
    (native : NativeMethod) :
    Ends (registerNative native) p
      (fun _ q => Bound p .global native.name (.native native) true q)
      (Halts (fun _ q => q = p) fun _ => False) := by
  obtain ⟨s, hs, hkind, -⟩ := ht.global
  have hget : p.scopes.get? .global = some s := ScopeTree.get?_eq_some_iff.2 ⟨rfl, hs⟩
  have hok := ScopeTree.get_eq_ok_iff.2 hget
  have hcall : s.kind.isCall = false := by
    rw [hkind]
    rfl
  have hcontains : p.scopes.containsLocal .global native.name =
      .ok (s.locals.contains native.name) := by
    unfold ScopeTree.containsLocal
    rw [hok]
    rfl
  simp only [registerNative, ends_bind, ends_get, ends_liftViolation, hcontains, Except.ok.injEq,
    forall_eq', reduceCtorEq, false_implies, implies_true, and_true, ends_ite, ends_fault,
    ends_allocate, ends_liftStop, ends_setScopes, ends_pure]
  refine ⟨fun _ => rfl, fun hnew => ?_⟩
  obtain ⟨s', hs'⟩ := exists_addLocal (eq_false_of_ne_true hnew)
    (p.memory.allocate (.native native) true).1
  have hadd := addLocal_eq_ok_iff.2 ⟨s, s', hget, hs', rfl⟩
  rw [hadd]
  refine ⟨fun u hu => ?_, fun stop hstop => by cases hstop⟩
  cases hu
  exact .inArena hget hcall hs'

theorem registerNative_ends (hp : p.Sound) (native : NativeMethod) :
    Ends (registerNative native) p
      (fun _ q => Keeps ScopeId.global.index p q ∧ q.returned = p.returned)
      (Halts (fun _ q => q = p) fun _ => False) :=
  (registerNative_bound hp.tree native).imp
    (fun _ _ hq => ⟨hq.keeps hp trivial rfl fun _ _ _ => rfl, hq.returned_eq⟩) fun _ _ hs => hs

/-- A run keeps the program sound and leaves nothing in the slot for returned values. -/
theorem runIn_ends (hp : p.Sound) {actions : List Action}
    (hfree : Action.allMethodFree actions = true) (n : Nat) (scope : ScopeId) :
    Ends (runIn n scope actions) p
      (fun _ q => Keeps scope.index p q ∧ q.returned = .undefined)
      (Halts (fun _ q => q = p ∨ Keeps scope.index p q ∧ q.returned = .undefined)
        fun q => Overruns n p q ∨ Endless q) := by
  simp only [runIn, ends_bind, ends_get]
  cases hcheck : p.scopes.check scope with
  | error cause =>
    rw [ends_throw]
    exact Or.inl rfl
  | ok id =>
    have hlive : p.scopes.owns scope = true := by
      unfold ScopeTree.check at hcheck
      split at hcheck
      · assumption
      · cases hcheck
    -- emptying the slot for the returned value changes nothing else
    have hempty : ∀ q, Keeps scope.index p q →
        Keeps scope.index p { q with returned := .undefined } := by
      intro q hq
      exact hq.trans (.of_same hq.sound rfl rfl rfl rfl rfl trivial)
    simp only [ends_bind, ends_settle_halts, ends_get, ends_modify]
    refine Ends.imp (run_safe.2 n scope actions p hp hlive hfree 0) (fun flow q hq => ?_) ?_
    · exact ⟨hempty q hq, rfl⟩
    · intro s q hs
      exact hs.imp (fun _ hq => Or.inr ⟨hempty q hq, rfl⟩) fun he => he

/-- The program is sound, no call is in progress and nothing waits to be returned. -/
structure AtRest (p : Program) : Prop where
  sound : p.Sound
  depth : p.callDepth = 0
  returned : p.returned = .undefined

theorem Serves.keeps (h : Serves p q) (hp : AtRest p) :
    (∃ current, Keeps current p q) ∧ q.returned = .undefined := by
  have hsame : (∃ current, Keeps current p p) ∧ p.returned = .undefined :=
    ⟨⟨0, .refl 0 hp.sound⟩, hp.returned⟩
  cases h with
  | @registerNative native h =>
    refine Ends.of_completes (K := fun q => (∃ current, Keeps current p q) ∧
      q.returned = .undefined) (E := fun _ => False) ?_ h
    refine (registerNative_ends hp.sound native).imp
      (fun _ q hq => ⟨⟨_, hq.1⟩, hq.2.trans hp.returned⟩) fun s q hs => ?_
    refine hs.imp (fun _ hq => ?_) fun he => he
    subst hq
    exact hsame
  | @run n scope actions hfree h =>
    refine Ends.of_completes (K := fun q => (∃ current, Keeps current p q) ∧
      q.returned = .undefined) (E := fun _ => True) ?_ h
    refine (runIn_ends hp.sound hfree n scope).imp (fun _ q hq => ⟨⟨_, hq.1⟩, hq.2⟩)
      fun s q hs => ?_
    refine hs.imp (fun _ hq => ?_) fun _ => trivial
    rcases hq with rfl | hq
    · exact hsame
    · exact ⟨⟨_, hq.1⟩, hq.2⟩

theorem Serves.atRest (h : Serves p q) (hp : AtRest p) : AtRest q := by
  obtain ⟨⟨current, hk⟩, hreturned⟩ := h.keeps hp
  exact ⟨hk.sound, hk.grows.depth.trans hp.depth, hreturned⟩

theorem Reachable.atRest (h : Reachable p) : AtRest p := by
  induction h with
  | new htree hhost => exact ⟨Program.sound_new htree hhost, rfl, rfl⟩
  | step _ hs ih => exact hs.atRest ih

/-- Every scope is still there after any number of requests. -/
theorem extends_of_requests (h : Relation.ReflTransGen Serves p q) (hp : AtRest p) :
    AtRest q ∧ p.scopes.Extends q.scopes := by
  induction h with
  | refl => exact ⟨hp, .refl _⟩
  | tail _ hs ih =>
    obtain ⟨⟨current, hk⟩, -⟩ := hs.keeps ih.1
    exact ⟨hs.atRest ih.1, ih.2.trans hk.grows.tree⟩

/-! ## Actions met in a run -/

/-- `Meets n scope as p k s a q`: a run of the block from `p`, with `n` calls to nest, comes to
perform the action `a` in the scope `s` of the program `q`, with `k` calls left to nest. -/
inductive Meets :
    Nat → ScopeId → List Action → Program → Nat → ScopeId → Action → Program → Prop where
  | here {n : Nat} {scope : ScopeId} {a : Action} {as : List Action} {p : Program} :
      Meets n scope (a :: as) p n scope a p
  | later {n k : Nat} {scope s : ScopeId} {a b : Action} {as : List Action} {p q r : Program}
      (h : attempt (enter n) scope a p = .ok .next q) (hm : Meets n scope as q k s b r) :
      Meets n scope (a :: as) p k s b r
  | inNamespace {n k : Nat} {scope id s : ScopeId} {name : Name} {body as : List Action}
      {b : Action} {p q r : Program} (h : openNamespace scope name p = .ok id q)
      (hm : Meets n id body q k s b r) :
      Meets n scope (.defineNamespace name body :: as) p k s b r
  | inClass {n k : Nat} {scope id s : ScopeId} {name : Name} {body as : List Action}
      {b : Action} {p q r : Program} (h : openClass scope name p = .ok id q)
      (hm : Meets n id body q k s b r) :
      Meets n scope (.defineClass name body :: as) p k s b r
  | inCall {n k arity : Nat} {scope s : ScopeId} {name : Name} {as : List Action} {m : Method}
      {frame : Frame} {b : Action} {p q r : Program} (harity : arity ≤ p.memory.stack.size)
      (hcallee : callee scope name p = .ok (.method m) p)
      (hopen : openCall m arity p = .ok frame q) (hm : Meets n frame.scope m.body q k s b r) :
      Meets (n + 1) scope (.call name arity :: as) p k s b r

/-- An action that a run meets finds a sound program and a live scope. -/
theorem Meets.sound {n k : Nat} {scope s : ScopeId} {as : List Action} {a : Action}
    (h : Meets n scope as p k s a q) (hp : p.Sound) (ho : p.scopes.owns scope = true)
    (hfree : Action.allMethodFree as = true) :
    q.Sound ∧ q.scopes.owns s = true ∧ a.methodFree = true := by
  induction h with
  | here => exact ⟨hp, ho, (Bool.and_eq_true_iff.1 hfree).1⟩
  | @later n k scope s a b as p q r h _ ih =>
    obtain ⟨ha, has⟩ := Bool.and_eq_true_iff.1 hfree
    have hk : Keeps scope.index p q := Ends.of_ok (run_safe.1 n scope a p hp ho ha) h
    exact ih hk.sound (hk.grows.tree.owns ho) has
  | @inNamespace n k scope id s name body as b p q r h _ ih =>
    have hopens := (openNamespace_ends hp ho name).of_ok h
    exact ih (hopens.keeps 0).sound hopens.live (Bool.and_eq_true_iff.1 hfree).1
  | @inClass n k scope id s name body as b p q r h _ ih =>
    have hopens := (openClass_ends hp ho name).of_ok h
    exact ih (hopens.keeps 0).sound hopens.live (Bool.and_eq_true_iff.1 hfree).1
  | @inCall n k arity scope s name as m frame b p q r harity hcallee hopen _ ih =>
    have hm := ((callee_ends hp.tree ho name).of_ok hcallee).2.admits hp
    have hentered := (openCall_ends hp hm harity).of_ok hopen
    exact ih hentered.keeps.sound (hentered.live hp) hm.body

/-- So does the next action: whatever one action leaves behind is sound again. -/
theorem Meets.sound_after {n k : Nat} {scope s : ScopeId} {as : List Action} {a : Action}
    {r : Program} (h : Meets n scope as p k s a q) (hp : p.Sound)
    (ho : p.scopes.owns scope = true) (hfree : Action.allMethodFree as = true)
    (hr : Completes (attempt (enter k) s a) q r) : r.Sound := by
  obtain ⟨hq, hs, ha⟩ := h.sound hp ho hfree
  exact (Ends.of_completes (run_safe.1 k s a q hq hs ha) hr).sound

end Exec

end ActionMachine
