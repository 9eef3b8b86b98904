import ActionMachine.Proofs.History
import ActionMachine.Proofs.Restoration

/-
  Sound histories. If no method comes from outside, every state of a history is sound
  (`sound_history`), and what its steps do to the arena is simple: cells are added, or one cell that
  a name leads to is written (`Step.Sound.arena_cases`).
-/

namespace ActionMachine.Exec

variable {scope id : ScopeId} {p q r t : Program} {a : Action}

/-! ## What advancing does -/

/-- What an action that advances in a sound program does. -/
inductive Advances (scope : ScopeId) (p : Program) : Action → Stage → Program → Prop where
  | finished {a : Action} {flow : Flow} {q : Program} (h : Performs scope p a flow q) :
      Advances scope p a (.finished flow) q
  | inBody {a : Action} {id : ScopeId} {q : Program} (hbody : a.body?.isSome = true)
      (h : Opens scope p id q) : Advances scope p a (.inBody id) q
  | inCall {name : Name} {arity : Nat} {m : Method} {frame : Frame} {q : Program}
      (hm : p.scopes.Admits m) (hopen : openCall m arity p = .ok frame q)
      (h : Entered m arity p frame q) : Advances scope p (.call name arity) (.inCall m frame) q

theorem advance_ends (hp : p.Sound) (ho : p.scopes.owns scope = true) :
    Ends (advance scope a) p (Advances scope p a)
      (Halts (fun _ q => Refuses p a q) fun q => q = p ∧ Endless p) := by
  refine ends_advance (fun _ => Refuses.same) fun hdepth hzero => ?_
  have hready : Ready scope p a := ⟨hp.tree, ho, hdepth, hzero⟩
  have hsame : ∀ (s : Stop Fault) (q : Program), Halts (fun _ q => q = p) (fun _ => False) s q →
      Halts (fun _ q => Refuses p a q) (fun q => q = p ∧ Endless p) s q := fun _ _ => Halts.refuses
  cases a with
  | defineNamespace name body =>
    simp only [dispatch, ends_bind, ends_pure]
    exact (openNamespace_ends hp ho name).imp (fun _ _ hq => .inBody rfl hq) hsame
  | defineClass name body =>
    simp only [dispatch, ends_bind, ends_pure]
    refine (openClass_ends hp ho name).imp (fun _ _ hq => .inBody rfl hq) fun s q hs => ?_
    refine hs.imp (fun _ hq => ?_) False.elim
    subst hq
    exact .numbered
  | call name arity =>
    rw [dispatch, ends_bind]
    refine (callee_ends hp.tree ho name).imp ?_ hsame
    rintro v _ ⟨rfl, hv⟩
    cases v with
    | method m =>
      simp only [ends_bind, ends_pure]
      have hm := hv.admits hp
      exact (openCall_ends hp hm hdepth).with_run.imp
        (fun _ _ hq => .inCall hm hq.1 hq.2) fun s q hs => hsame s q hs.2
    | native native =>
      simp only [ends_bind, ends_pure]
      refine (callNative_ends hready native).imp (fun _ _ hq => .finished hq) fun s q hs => ?_
      exact hs.imp (fun _ hq => hq) False.elim
    | _ => exact Refuses.same
  | _ =>
    simp only [dispatch, ends_bind, ends_pure]
    exact (perform_effective hready rfl (by simp)).imp (fun _ _ hq => .finished hq) fun _ _ hs => hs

/-- The program is sound and the slot for returned values holds no reference. -/
structure Healthy (p : Program) : Prop where
  sound : p.Sound
  returned : p.returned.isReference = false

theorem AtRest.healthy (h : AtRest p) : Healthy p := ⟨h.sound, by rw [h.returned]; rfl⟩

theorem Advances.healthy {stage : Stage} (h : Advances scope p a stage q) (hp : Healthy p)
    (ho : p.scopes.owns scope = true) (hfree : a.methodFree = true) : Healthy q := by
  cases h with
  | finished h => exact ⟨(h.keeps hp.sound ho hfree).sound, h.returned_plain hp.returned⟩
  | inBody _ h =>
    refine ⟨(h.keeps 0).sound, ?_⟩
    obtain ⟨name, u, n, -, rfl⟩ := h.opened
    exact hp.returned
  | inCall _ _ h => exact ⟨h.keeps.sound, by rw [h.empty]; rfl⟩

theorem Refuses.healthy (h : Refuses p a q) (hp : Healthy p) (hfree : a.methodFree = true) :
    Healthy q :=
  ⟨(h.keeps hp.sound hfree 0).sound, h.returned_eq ▸ hp.returned⟩

theorem attempt_healthy {n : Nat} (hp : Healthy p) (ho : p.scopes.owns scope = true)
    (hfree : a.methodFree = true) (h : Completes (attempt (enter n) scope a) p q) :
    Healthy q ∧ q.scopes.owns scope = true := by
  have hk := Ends.of_completes (run_safe.1 n scope a p hp.sound ho hfree) h
  have hreturned := Ends.of_completes ((run_carried carried_returned).1 n scope a p hp.sound ho
    hfree fun _ _ _ _ _ => trivial) h
  exact ⟨⟨hk.sound, hreturned hp.returned⟩, hk.grows.tree.owns ho⟩

theorem performAll_healthy {n index : Nat} {as : List Action} (hp : Healthy p)
    (ho : p.scopes.owns scope = true) (hfree : Action.allMethodFree as = true)
    (h : Completes (performAll (enter n) scope index as) p q) :
    Healthy q ∧ q.callDepth = p.callDepth := by
  have hk := Ends.of_completes (run_safe.2 n scope as p hp.sound ho hfree index) h
  have hreturned := Ends.of_completes ((run_carried carried_returned).2 n scope as p hp.sound ho
    hfree (fun _ _ _ _ _ => trivial) index) h
  exact ⟨⟨hk.sound, hreturned hp.returned⟩, hk.grows.depth⟩

/-- An action is performed in a live scope and holds no method. A call that ends was in
progress. -/
def Event.Admissible (p : Program) : Event → Prop
  | .advanced scope a _ | .refused scope a => p.scopes.owns scope = true ∧ a.methodFree = true
  | .left _ _ => 0 < p.callDepth
  | _ => True

structure Step.Sound (s : Step) : Prop where
  before : Healthy s.before
  after : Healthy s.after
  admissible : s.event.Admissible s.before

theorem eq_of_mem_step {ε α : Type} {event : Event} {x : Exec ε α} {s : Step}
    (h : s ∈ step event x p) : ∃ q, Completes x p q ∧ s = ⟨p, event, q⟩ := by
  unfold step at h
  split at h
  · exact ⟨_, completes_after ‹_›, List.mem_singleton.1 h⟩
  · cases h

theorem sound_leaving {n : Nat} {m : Method} {frame : Frame} (hp : Healthy p)
    (ho : p.scopes.owns scope = true) (hfree : a.methodFree = true)
    (hadvance : advance scope a p = .ok (.inCall m frame) q) {s : Step}
    (hs : s ∈ leaving (enter n) m frame q) : s.Sound := by
  unfold leaving at hs
  cases hbody : (settle (enter n frame.scope m.body) : Exec Fault _) q with
  | error stop r =>
    rw [hbody] at hs
    cases hs
  | ok outcome r =>
    rw [hbody] at hs
    obtain ⟨t, ht, rfl⟩ := eq_of_mem_step hs
    have hcall : Completes (attempt (enter n) scope a) p t := by
      rw [attempt_eq, completes_iff, ends_bind, ends_of_ok hadvance, complete, ends_bind,
        ends_of_ok hbody, ends_bind]
      exact completes_iff.1 ht
    have hr : Healthy r ∧ 0 < r.callDepth := by
      cases n with
      | zero => cases completes_iff.1 (completes_of_settle hbody)
      | succ k =>
        have hadvances := (advance_ends hp.sound ho).of_ok hadvance
        have hq := hadvances.healthy hp ho hfree
        cases hadvances with
        | inCall hm _ h =>
          obtain ⟨hhealthy, hdepth⟩ := performAll_healthy hq (h.live hp.sound) hm.body
            (completes_of_settle hbody)
          have hopened : q.callDepth = p.callDepth + 1 := h.keeps.grows.depth
          exact ⟨hhealthy, by omega⟩
    exact ⟨hr.1, (attempt_healthy hp ho hfree hcall).1, hr.2⟩

theorem sound_around {n : Nat} {tell : Telling} {opened : ScopeId → Program → List Step}
    (hp : Healthy p) (ho : p.scopes.owns scope = true) (hfree : a.methodFree = true)
    (htell : ∀ m frame q, advance scope a p = .ok (.inCall m frame) q →
      ∀ s ∈ tell frame.scope m.body q, s.Sound)
    (hopened : ∀ id q, advance scope a p = .ok (.inBody id) q → ∀ s ∈ opened id q, s.Sound) :
    ∀ s ∈ stepsAround (enter n) tell scope a opened p, s.Sound := by
  have hends := advance_ends (a := a) hp.sound ho
  unfold stepsAround
  intro s hs
  cases hadvance : advance scope a p with
  | ok stage q =>
    simp only [hadvance] at hs
    rcases List.mem_cons.1 hs with rfl | hs
    · exact ⟨hp, (hends.of_ok hadvance).healthy hp ho hfree, ho, hfree⟩
    · cases stage with
      | finished flow => cases hs
      | inBody id => exact hopened id q hadvance s hs
      | inCall m frame =>
        rcases List.mem_append.1 hs with hs | hs
        · exact htell m frame q hadvance s hs
        · exact sound_leaving hp ho hfree hadvance hs
  | error stop q =>
    simp only [hadvance] at hs
    have hrefused := hends.of_error hadvance
    cases stop with
    | fault cause =>
      rw [List.mem_singleton.1 hs]
      exact ⟨hp, Refuses.healthy hrefused hp hfree, ho, hfree⟩
    | breach v => cases hs
    | unending => cases hs

/-- All steps of a run that starts in a healthy program are sound. -/
theorem run_steps_sound :
    (∀ n scope a p, Healthy p → p.scopes.owns scope = true → a.methodFree = true →
      ∀ s ∈ actionSteps (enter n) (bodySteps n) scope a p, s.Sound) ∧
    ∀ n scope as p, Healthy p → p.scopes.owns scope = true → Action.allMethodFree as = true →
      ∀ s ∈ blockSteps (enter n) (bodySteps n) scope as p, s.Sound := by
  refine run_induction ?nil ?cons ?body ?plain
  case nil =>
    intro n scope p _ _ _ s hs
    rw [blockSteps] at hs
    cases hs
  case cons =>
    intro n scope a as p ha has hp ho hfree s hs
    have hfree : a.methodFree = true ∧ Action.allMethodFree as = true :=
      Bool.and_eq_true_iff.1 hfree
    rw [blockSteps] at hs
    rcases List.mem_append.1 hs with hs | hs
    · exact ha hp ho hfree.1 s hs
    · unfold following at hs
      split at hs
      · rename_i q hq
        obtain ⟨hhealthy, hlive⟩ := attempt_healthy hp ho hfree.1 (Or.inl ⟨_, hq⟩)
        exact has q hhealthy hlive hfree.2 s hs
      · cases hs
  case body =>
    intro n scope a as p hbody hL hp ho hfree
    rw [actionSteps_of_body hbody]
    refine sound_around hp ho hfree (fun m frame q h => ?_) fun id q h => ?_
    · obtain ⟨name, arity, rfl, -⟩ := advance_eq_inCall h
      cases hbody
    · have hadvances := (advance_ends hp.sound ho).of_ok h
      have hq := hadvances.healthy hp ho hfree
      cases hadvances with
      | inBody _ hopens => exact hL id q hq hopens.live (Action.allMethodFree_body hbody hfree)
  case plain =>
    intro n scope a p hbody hL hp ho hfree
    rw [actionSteps_of_plain hbody]
    refine sound_around hp ho hfree (fun m frame q h => ?_) fun id q _ s hs => by cases hs
    cases n with
    | zero =>
      intro s hs
      cases hs
    | succ k =>
      have hadvances := (advance_ends hp.sound ho).of_ok h
      have hq := hadvances.healthy hp ho hfree
      cases hadvances with
      | inCall hm _ hentered =>
        exact hL k rfl frame.scope m.body q hq (hentered.live hp.sound) hm.body

/-! ## Sound histories -/

theorem Healthy.answered (h : Healthy p) : Healthy { p with returned := .undefined } :=
  ⟨h.sound.congr rfl rfl rfl trivial, rfl⟩

theorem registerNative_healthy {native : NativeMethod} (hp : Healthy p)
    (h : Completes (registerNative native) p q) : Healthy q := by
  refine Ends.of_completes (K := Healthy) (E := fun _ => False) ?_ h
  refine (registerNative_ends hp.sound native).imp
    (fun _ q hq => ⟨hq.1.sound, hq.2 ▸ hp.returned⟩) fun s q hs => ?_
  refine hs.imp (fun _ hq => ?_) fun he => he
  subst hq
  exact hp

theorem Request.sound_steps {request : Request} (hp : Healthy p)
    (hfree : request.methodFree = true) :
    (∀ s ∈ request.steps p, s.Sound) ∧ ∀ q, request.served? p = some q → Healthy q := by
  cases request with
  | register native =>
    refine ⟨fun s hs => ?_, fun q hq => registerNative_healthy hp (after?_eq_some_iff.1 hq)⟩
    obtain ⟨q, hq, rfl⟩ := eq_of_mem_step hs
    exact ⟨hp, registerNative_healthy hp hq, trivial⟩
  | run n scope actions =>
    by_cases ho : p.scopes.owns scope = true
    · have hend : ∀ q, Completes (block n scope actions) p q → Healthy q :=
        fun q hq => (performAll_healthy hp ho hfree hq).1
      refine ⟨fun s hs => ?_, fun q hq => ?_⟩
      · rw [Request.steps, if_pos ho] at hs
        rcases List.mem_append.1 hs with hs | hs
        · exact run_steps_sound.2 n scope actions p hp ho hfree s hs
        · split at hs
          · have hq := hend _ (after?_eq_some_iff.1 ‹_›)
            rw [List.mem_singleton.1 hs]
            exact ⟨hq, hq.answered, trivial⟩
          · cases hs
      · obtain ⟨r, hr, rfl⟩ := completes_runIn ho (after?_eq_some_iff.1 hq)
        exact (hend r hr).answered
    · refine ⟨fun s hs => ?_, fun q hq => ?_⟩
      · rw [Request.steps, if_neg ho] at hs
        cases hs
      · exact runIn_of_not_owns ho (after?_eq_some_iff.1 hq) ▸ hp

/-- All steps of a history are sound if no request brings a method. -/
theorem sound_history {requests : List Request} (hp : Healthy p)
    (hfree : ∀ request ∈ requests, request.methodFree = true) :
    ∀ s ∈ history requests p, s.Sound := by
  induction requests generalizing p with
  | nil =>
    intro s hs
    cases hs
  | cons request requests ih =>
    obtain ⟨hsteps, hserved⟩ := Request.sound_steps hp (hfree request List.mem_cons_self)
    intro s hs
    unfold history at hs
    rcases List.mem_append.1 hs with hs | hs
    · exact hsteps s hs
    · split at hs
      · exact ih (hserved _ ‹_›) (fun r hr => hfree r (List.mem_cons_of_mem _ hr)) s hs
      · cases hs

/-! ## Effects of sound steps -/

/-- What a step of a sound history does. -/
inductive Effect (p : Program) : Event → Program → Prop where
  | registered {native : NativeMethod} {q : Program}
      (h : Bound p .global native.name (.native native) true q) :
      Effect p (.registered native) q
  /-- The name of a native method was taken. -/
  | taken {native : NativeMethod} : Effect p (.registered native) p
  | advanced {scope : ScopeId} {a : Action} {stage : Stage} {q : Program}
      (h : Advances scope p a stage q) : Effect p (.advanced scope a stage) q
  | refused {scope : ScopeId} {a : Action} {q : Program} (h : Refuses p a q) :
      Effect p (.refused scope a) q
  | left {m : Method} {frame : Frame} {q : Program} (h : Leaves frame p q) :
      Effect p (.left m frame) q
  | answered : Effect p .answered { p with returned := .undefined }

theorem Step.Sound.effect {s : Step} (hs : s.Sound) (h : Happens s) :
    Effect s.before s.event s.after := by
  have hp := hs.before.sound
  cases h with
  | @registered native p q h =>
    rcases h with ⟨target, h⟩ | ⟨cause, h⟩
    · exact .registered ((registerNative_bound hp.tree native).of_ok h)
    · have hsame : q = p := (registerNative_bound hp.tree native).of_error h
      exact hsame ▸ .taken
  | advanced h => exact .advanced ((advance_ends hp hs.admissible.1).of_ok h)
  | refused h => exact .refused ((advance_ends hp hs.admissible.1).of_error h)
  | left h => exact .left (leaves_of_closeCall h)
  | answered => exact .answered

theorem Healthy.final {steps : List Step} (hp : Healthy p) (hsound : ∀ s ∈ steps, s.Sound) :
    Healthy (final p steps) := by
  induction steps generalizing p with
  | nil => exact hp
  | cons s steps ih =>
    exact ih (hsound s List.mem_cons_self).after fun t ht => hsound t (List.mem_cons_of_mem _ ht)

/-- Some consecutive steps of a history that start in `p`. -/
structure Segment (p : Program) (steps : List Step) : Prop where
  start : Healthy p
  linked : Linked p steps
  happens : ∀ s ∈ steps, Happens s
  sound : ∀ s ∈ steps, s.Sound

/-- The first step has its effect, and the others lead on from there. -/
theorem Segment.cons {s : Step} {steps : List Step} (h : Segment p (s :: steps)) :
    (s.before = p ∧ s.event.Admissible p ∧ Effect p s.event s.after) ∧ Segment s.after steps := by
  obtain ⟨hstart, ⟨rfl, hlinked⟩, hhappens, hsound⟩ := h
  have hs := hsound s List.mem_cons_self
  exact ⟨⟨rfl, hs.admissible, hs.effect (hhappens s List.mem_cons_self)⟩, hs.after, hlinked,
    fun t ht => hhappens t (List.mem_cons_of_mem _ ht),
    fun t ht => hsound t (List.mem_cons_of_mem _ ht)⟩

theorem segment_of_history {requests : List Request} {earlier between later : List Step}
    (hp : Healthy p) (hfree : ∀ request ∈ requests, request.methodFree = true)
    (h : history requests p = earlier ++ between ++ later) :
    Segment (final p earlier) between := by
  have hsound := sound_history hp hfree
  have hhappens := (linked_history requests p).2
  rw [h] at hsound hhappens
  have hmem : ∀ s ∈ between, s ∈ earlier ++ between ++ later :=
    fun s hs => List.mem_append_left _ (List.mem_append_right _ hs)
  refine ⟨hp.final fun s hs => hsound s ?_, linked_segment h, fun s hs => hhappens s (hmem s hs),
    fun s hs => hsound s (hmem s hs)⟩
  exact List.mem_append_left _ (List.mem_append_left _ hs)

/-! ## What steps do to the arena -/

/-- The cells of the arena of `p` are there in `q`, with the same values. -/
structure ArenaKept (p q : Program) : Prop where
  id : q.memory.id = p.memory.id
  cells : ∀ i v, p.memory.arena.get? i = some v → q.memory.arena.get? i = some v

theorem ArenaKept.of_eq (hid : q.memory.id = p.memory.id)
    (harena : q.memory.arena = p.memory.arena) : ArenaKept p q :=
  ⟨hid, fun _ _ hv => harena ▸ hv⟩

theorem ArenaKept.trans (h1 : ArenaKept p q) (h2 : ArenaKept q r) : ArenaKept p r :=
  ⟨h2.id.trans h1.id, fun i v hv => h2.cells i v (h1.cells i v hv)⟩

/-- A new cell comes after all others. -/
theorem ArenaKept.of_push (hid : q.memory.id = p.memory.id) {w : Value} {constant : Bool}
    (harena : q.memory.arena = p.memory.arena.push w constant) : ArenaKept p q := by
  refine ⟨hid, fun i v hv => ?_⟩
  have hlt : i < p.memory.arena.size := Cells.lt_size_of_get? hv
  rw [harena, Cells.get?_push, if_neg (Nat.ne_of_lt hlt)]
  exact hv

theorem Bound.arenaKept {name : Name} {v : Value} {constant : Bool}
    (h : Bound p id name v constant q) : ArenaKept p q := by
  cases h with
  | inFrame => exact .of_eq rfl rfl
  | inArena => exact .of_push rfl rfl

theorem Defaults.arenaKept {params : List Parameter} (h : Defaults p params q) :
    ArenaKept p q := by
  induction h with
  | stop => exact .of_eq rfl rfl
  | @next p q param params w hw hnone hrest ih =>
    have hfirst : ArenaKept p { p with memory := (p.memory.allocate w true).2 } := .of_push rfl rfl
    exact hfirst.trans ih

theorem bindArguments_arena (args : List (Slot × Value)) :
    Ends (bindArguments id args) p
      (fun _ q => q.memory.id = p.memory.id ∧ q.memory.arena = p.memory.arena)
      fun _ q => q.memory.id = p.memory.id ∧ q.memory.arena = p.memory.arena :=
  bindArguments_induction ⟨rfl, rfl⟩ (fun _ _ _ hq => hq) fun _ _ _ _ hq _ => hq

theorem openCall_arena {m : Method} {arity : Nat} {frame : Frame}
    (h : openCall m arity p = .ok frame q) : ArenaKept p q := by
  obtain ⟨values, -, r, hbind, -, rfl⟩ := openCall_eq_ok h
  obtain ⟨hid, harena⟩ := (bindArguments_arena _).of_ok hbind
  exact .of_eq hid harena

/-- The action stores into a cell, and nothing else happens. -/
inductive Stored (p : Program) : Event → Program → Prop where
  | intro {scope : ScopeId} {a : Action} {target : CellRef} {v : Value} {s : Operands}
      (h : Stores scope p a target v s) :
      Stored p (.advanced scope a (.finished .next))
        { p with memory := { p.memory.set target v with stack := s } }

/-- A step keeps the cells of the arena, or it is a store. -/
theorem Effect.arena_cases {event : Event} (h : Effect p event q) :
    ArenaKept p q ∨ Stored p event q := by
  cases h with
  | registered h => exact Or.inl h.arenaKept
  | taken | answered => exact Or.inl (.of_eq rfl rfl)
  | left h => exact Or.inl (.of_eq h.id h.arena)
  | refused h =>
    refine Or.inl ?_
    cases h with
    | same | numbered | placed => exact .of_eq rfl rfl
    | defaulted h => exact h.arenaKept
  | advanced h =>
    cases h with
    | inBody _ h =>
      obtain ⟨name, u, n, -, rfl⟩ := h.opened
      exact Or.inl (.of_eq rfl rfl)
    | inCall _ hopen _ => exact Or.inl (openCall_arena hopen)
    | finished h =>
      cases h with
      | restack | ret | debugPrint => exact Or.inl (.of_eq rfl rfl)
      | bind _ h => exact Or.inl h.arenaKept
      | store h _ _ => exact Or.inr (.intro h)
      | addInstanceMember => exact Or.inl (.of_push rfl rfl)
      | defineMethod _ _ hd h =>
        have hbound := h.arenaKept
        exact Or.inl (hd.arenaKept.trans ⟨hbound.id, hbound.cells⟩)

end ActionMachine.Exec
