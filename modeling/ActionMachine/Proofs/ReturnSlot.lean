import ActionMachine.Proofs.History
import ActionMachine.Proofs.Restoration

/-
  The slot for returned values. All calls of a program share one slot: a call empties it when it
  begins and puts the old content back when it ends, the body of a namespace or class leaves it as
  it is. Steps that end every call they begin are `Balanced`; the steps of a run that comes to an
  end are. Over balanced steps the slot follows the `ret`s at the depth of their start and no
  others (`Balanced.slot`), so the answer of a run is what its last `ret` outside all calls handed
  over. Nothing is asked of the actions, the literals or the host.
-/

namespace ActionMachine.Exec

variable {scope : ScopeId} {p q r t : Program} {a : Action} {m : Method} {frame : Frame}

/-! ## What is handed over -/

/-- What the event hands over: the value that the top of the stack leads to, if it is a `ret`. -/
def Event.handed? (p : Program) : Event → Option Value
  | .advanced _ .ret _ =>
    p.memory.stack.top.toOption.bind fun top => (p.memory.follow top).toOption
  | _ => none

/-- The step performs a `ret` while `depth` calls are in progress. -/
def Step.Returns (depth : Nat) (s : Step) : Prop :=
  s.before.callDepth = depth ∧ ∃ scope stage, s.event = .advanced scope .ret stage

/-- What the steps hand over while `depth` calls are in progress, in their order. -/
def handed (depth : Nat) (steps : List Step) : List Value :=
  steps.filterMap fun s => if s.before.callDepth = depth then s.event.handed? s.before else none

theorem handed_append (depth : Nat) (steps steps' : List Step) :
    handed depth (steps ++ steps') = handed depth steps ++ handed depth steps' :=
  List.filterMap_append

/-- Deeper calls hand nothing over at this depth. -/
theorem handed_eq_nil {depth : Nat} {steps : List Step}
    (h : ∀ s ∈ steps, s.before.callDepth ≠ depth ∨ s.event.handed? s.before = none) :
    handed depth steps = [] := by
  refine List.filterMap_eq_nil_iff.2 fun s hs => ?_
  rcases h s hs with hdepth | hnone
  · rw [if_neg hdepth]
  · split
    · exact hnone
    · rfl

theorem handed?_of_ne_ret {stage : Stage} (h : a ≠ .ret) :
    (Event.advanced scope a stage).handed? p = none := by
  cases a with
  | ret => exact absurd rfl h
  | _ => rfl

/-! ## What single steps do to the slot -/

/-- No call has begun or ended, and the slot was left alone. -/
structure SameSlot (p q : Program) : Prop where
  depth : q.callDepth = p.callDepth
  returned : q.returned = p.returned

theorem SameSlot.refl (p : Program) : SameSlot p p := ⟨rfl, rfl⟩

theorem SameSlot.trans (h1 : SameSlot p q) (h2 : SameSlot q r) : SameSlot p r :=
  ⟨h2.depth.trans h1.depth, h2.returned.trans h1.returned⟩

theorem Bound.sameSlot {id : ScopeId} {name : Name} {v : Value} {constant : Bool}
    (h : Bound p id name v constant q) : SameSlot p q := by
  cases h <;> exact ⟨rfl, rfl⟩

theorem Defaults.sameSlot {params : List Parameter} (h : Defaults p params q) : SameSlot p q :=
  ⟨(show p.Grows 0 q from h.grows).depth, h.returned_eq⟩

theorem Performs.depth_eq {flow : Flow} (h : Performs scope p a flow q) :
    q.callDepth = p.callDepth := by
  cases h with
  | bind _ hbound => exact hbound.sameSlot.depth
  | defineMethod _ _ hd hbound => exact hbound.sameSlot.depth.trans hd.sameSlot.depth
  | _ => rfl

theorem Performs.sameSlot {flow : Flow} (h : Performs scope p a flow q) (ha : a ≠ .ret) :
    SameSlot p q := by
  refine ⟨h.depth_eq, ?_⟩
  cases h with
  | restack | store | addInstanceMember | debugPrint => rfl
  | bind _ hbound => exact hbound.returned_eq
  | defineMethod _ _ hd hbound => exact hbound.returned_eq.trans hd.returned_eq
  | ret => exact absurd rfl ha

/-- A `ret` hands over what the top of the stack leads to, which is defined. -/
theorem Performs.ret_hands {flow : Flow} (h : Performs scope p .ret flow q) :
    (∀ stage, (Event.advanced scope .ret stage).handed? p = some q.returned) ∧
      q.returned.isUndefined = false ∧ q.returned.isReference = false := by
  cases h with
  | restack h => cases h
  | bind h _ => cases h
  | store h _ _ => cases h
  | @ret v w s hv hw hs =>
    obtain ⟨u, hfollow, hdefined⟩ := bind_eq_ok_iff.1 (show Reader.owned _ _ _ = _ from hw)
    split at hdefined
    · cases hdefined
    · cases hdefined
      refine ⟨fun stage => ?_, eq_false_of_ne_true ‹_›, Reader.isReference_owned hw⟩
      have hfollow : p.memory.follow v = .ok w := hfollow
      simp only [Event.handed?, hv, hfollow, Except.toOption, Option.bind_some]

theorem Refuses.sameSlot (h : Refuses p a q) : SameSlot p q :=
  ⟨(h.grows 0).depth, h.returned_eq⟩

theorem bindArguments_sameSlot (id : ScopeId) (args : List (Slot × Value)) :
    Ends (bindArguments id args) p (fun _ q => SameSlot p q) fun _ q => SameSlot p q :=
  bindArguments_induction (.refl p) (fun _ _ _ hq => ⟨hq.depth, hq.returned⟩)
    fun _ _ _ _ hq _ => ⟨hq.depth, hq.returned⟩

theorem leave_sameSlot (id : ScopeId) (cells base : Nat) :
    Ends (leave id cells base) p (fun _ q => SameSlot p q) fun _ q => SameSlot p q := by
  simp only [leave, ends_bind, ends_modify, ends_get, ends_liftViolation, ends_setScopes, ends_ite,
    ends_pure]
  exact ⟨fun _ _ => ⟨fun _ => ⟨rfl, rfl⟩, fun _ => ⟨rfl, rfl⟩⟩, fun _ _ => ⟨rfl, rfl⟩⟩

/-- A call that begins puts the content of the slot into its frame and leaves the slot empty. -/
theorem openCall_slot (m : Method) (arity : Nat) (p : Program) :
    Ends (openCall m arity) p
      (fun frame q => q.callDepth = p.callDepth + 1 ∧ q.returned = .undefined ∧
        frame.returned = p.returned)
      (OnFault (SameSlot p)) := by
  rw [ends_openCall]
  refine ⟨fun _ _ _ => .refl p, fun _ => ⟨fun _ _ _ _ _ => .refl p, fun _ => ?_⟩⟩
  simp only [openChecked, ends_bind, ends_get, ends_liftViolation]
  refine ⟨fun base _ => (argumentValues_same arity base).imp (fun values r hr => ?_)
    fun s r hs cause hc => ?_, fun _ _ _ _ => .refl p⟩
  · subst hr
    simp only [ends_modify, pushCallScope, ends_modifyGet, ends_settle]
    refine (bindArguments_sameSlot _ _).imp (fun _ t ht => ?_) fun s t ht => ?_
    · simp only [ends_bind, ends_get, ends_modify, ends_pure]
      exact ⟨congrArg (· + 1) ht.depth, trivial, ht.returned⟩
    · have ht : SameSlot r t := ⟨ht.depth, ht.returned⟩
      cases s with
      | fault cause =>
        change Ends (_ >>= _) t _ _
        rw [ends_bind]
        exact (leave_sameSlot _ _ _).imp (fun _ _ hu _ _ => ht.trans hu)
          fun _ _ hu _ _ => ht.trans hu
      | breach v | unending => exact fun _ _ => ht
  · subst hc
    exact (show r = p from hs) ▸ .refl p

/-- What an action does to slot and depth before a body of its own runs. -/
def Event.Slots (p q : Program) : Event → Prop
  | .advanced _ _ (.inCall _ frame) =>
    q.callDepth = p.callDepth + 1 ∧ q.returned = .undefined ∧ frame.returned = p.returned
  | event => q.callDepth = p.callDepth ∧ q.returned = (event.handed? p).getD p.returned

theorem SameSlot.slots {stage : Stage} (h : SameSlot p q) (ha : a ≠ .ret)
    (hstage : ∀ m frame, stage ≠ .inCall m frame) : (Event.advanced scope a stage).Slots p q := by
  cases stage with
  | inCall m frame => exact absurd rfl (hstage m frame)
  | _ => exact ⟨h.depth, by rw [handed?_of_ne_ret ha]; exact h.returned⟩

theorem advance_slot (scope : ScopeId) (a : Action) (p : Program) :
    Ends (advance scope a) p (fun stage q => (Event.advanced scope a stage).Slots p q)
      (OnFault (SameSlot p)) := by
  refine ends_advance (fun _ _ _ => .refl p) fun _ _ => ?_
  cases a with
  | defineNamespace name body =>
    simp only [dispatch, openNamespace, ends_bind, ends_get, ends_liftStop, ends_setScopes,
      ends_pure]
    exact ⟨fun _ _ => ⟨rfl, rfl⟩, fun _ _ _ _ => .refl p⟩
  | defineClass name body =>
    simp only [dispatch, openClass, ends_bind, ends_modify, ends_get, ends_liftStop,
      ends_setScopes, ends_pure]
    exact ⟨fun _ _ => ⟨rfl, rfl⟩, fun _ _ _ _ => ⟨rfl, rfl⟩⟩
  | call name arity =>
    rw [dispatch, ends_bind]
    refine (callee_same scope name).imp ?_ fun _ _ hq _ _ => hq ▸ .refl p
    rintro v _ rfl
    cases v with
    | method m =>
      simp only [ends_bind, ends_pure]
      exact openCall_slot m arity _
    | native native =>
      simp only [ends_bind, ends_pure]
      exact (callNative_effects native).imp
        (fun _ _ (hq : Performs scope _ (.call name arity) _ _) =>
          (hq.sameSlot (by simp)).slots (by simp) (by simp))
        fun _ _ hq _ _ => hq.1.sameSlot
    | _ => exact fun _ _ => .refl _
  | ret =>
    simp only [dispatch, ends_bind, ends_pure]
    refine (perform_effects rfl fun _ _ he => by cases he).imp (fun _ q hq => ?_)
      fun _ _ hq _ _ => hq.1.sameSlot
    exact ⟨hq.depth_eq, by rw [hq.ret_hands.1]; rfl⟩
  | _ =>
    simp only [dispatch, ends_bind, ends_pure]
    exact (perform_effects rfl fun _ _ he => by cases he).imp
      (fun _ _ hq => (hq.sameSlot (by simp)).slots (by simp) (by simp))
      fun _ _ hq _ _ => hq.1.sameSlot

/-- A `ret` that was performed handed something over. -/
theorem Happens.handed {s : Step} {depth : Nat} (h : Happens s) (hs : s.Returns depth) :
    ∃ v, s.event.handed? s.before = some v ∧ v.isUndefined = false ∧ v.isReference = false := by
  obtain ⟨-, scope, stage, hevent⟩ := hs
  cases h with
  | @advanced scope' a stage' p q hadvance =>
    cases hevent
    have hends : Ends (advance scope .ret) p (fun _ q => ∃ flow, Performs scope p .ret flow q)
        fun _ _ => True := by
      refine ends_advance (fun _ => trivial) fun _ _ => ?_
      simp only [dispatch, ends_bind, ends_pure]
      exact (perform_effects rfl fun _ _ he => by cases he).imp (fun flow _ hq => ⟨flow, hq⟩)
        fun _ _ _ => trivial
    obtain ⟨flow, hperforms⟩ := hends.of_ok hadvance
    obtain ⟨hhanded, hplain⟩ := hperforms.ret_hands
    exact ⟨q.returned, hhanded stage, hplain⟩
  | _ => cases hevent

theorem returns_of_handed? {s : Step} {v : Value} (h : s.event.handed? s.before = some v) :
    s.Returns s.before.callDepth := by
  refine ⟨rfl, ?_⟩
  unfold Event.handed? at h
  split at h
  · exact ⟨_, _, ‹_›⟩
  · cases h

theorem mem_handed_iff {steps : List Step} {depth : Nat} {v : Value} :
    v ∈ handed depth steps ↔
      ∃ s ∈ steps, s.before.callDepth = depth ∧ s.event.handed? s.before = some v := by
  unfold handed
  rw [List.mem_filterMap]
  refine exists_congr fun s => and_congr_right fun _ => ?_
  by_cases hdepth : s.before.callDepth = depth <;> simp [hdepth]

/-- What is handed over is neither undefined nor a reference. -/
theorem plain_of_mem_handed {steps : List Step} {depth : Nat} (hsteps : ∀ s ∈ steps, Happens s)
    {v : Value} (hv : v ∈ handed depth steps) : v.isUndefined = false ∧ v.isReference = false := by
  obtain ⟨s, hs, -, hhanded⟩ := mem_handed_iff.1 hv
  obtain ⟨w, hw, hplain⟩ := (hsteps s hs).handed (returns_of_handed? hhanded)
  rw [hhanded] at hw
  cases hw
  exact hplain

theorem handed_eq_nil_iff {steps : List Step} {depth : Nat} (hsteps : ∀ s ∈ steps, Happens s) :
    handed depth steps = [] ↔ ∀ s ∈ steps, ¬ s.Returns depth := by
  constructor
  · intro hnil s hs hreturns
    obtain ⟨v, hv, -⟩ := (hsteps s hs).handed hreturns
    have hmem : v ∈ handed depth steps := mem_handed_iff.2 ⟨s, hs, hreturns.1, hv⟩
    rw [hnil] at hmem
    cases hmem
  · intro hnone
    refine handed_eq_nil fun s hs => ?_
    cases hv : s.event.handed? s.before with
    | none => exact Or.inr rfl
    | some v =>
      refine Or.inl fun hdepth => hnone s hs ?_
      exact hdepth ▸ returns_of_handed? hv

/-! ## Balanced steps -/

/-- The steps lead from `p` to `q` and end each call that they begin. -/
inductive Balanced : Program → List Step → Program → Prop where
  | nil {p : Program} : Balanced p [] p
  | advanced {scope : ScopeId} {a : Action} {stage : Stage} {p q : Program}
      (h : advance scope a p = .ok stage q) (hstage : ∀ m frame, stage ≠ .inCall m frame) :
      Balanced p [⟨p, .advanced scope a stage, q⟩] q
  | refused {scope : ScopeId} {a : Action} {cause : Fault} {p q : Program}
      (h : advance scope a p = .error (.fault cause) q) :
      Balanced p [⟨p, .refused scope a, q⟩] q
  | call {scope : ScopeId} {a : Action} {m : Method} {frame : Frame}
      {outcome : Except Failure Flow} {steps : List Step} {p q r t : Program}
      (hopen : advance scope a p = .ok (.inCall m frame) q) (hbody : Balanced q steps r)
      (hclose : Completes (closeCall frame m.name outcome) r t) :
      Balanced p
        (⟨p, .advanced scope a (.inCall m frame), q⟩ :: (steps ++ [⟨r, .left m frame, t⟩])) t
  | append {steps steps' : List Step} {p q r : Program} (h : Balanced p steps q)
      (h' : Balanced q steps' r) : Balanced p (steps ++ steps') r

/-- What balanced steps do to slot and depth. -/
structure Tracks (p : Program) (steps : List Step) (q : Program) : Prop where
  depth : q.callDepth = p.callDepth
  above : ∀ s ∈ steps, p.callDepth ≤ s.before.callDepth
  returned : q.returned = (handed p.callDepth steps).getLast?.getD p.returned

theorem Tracks.single {event : Event} (hdepth : q.callDepth = p.callDepth)
    (hreturned : q.returned = (event.handed? p).getD p.returned) :
    Tracks p [⟨p, event, q⟩] q := by
  refine ⟨hdepth, fun s hs => ?_, ?_⟩
  · cases List.mem_singleton.1 hs
    exact Nat.le_refl _
  · rw [hreturned]
    unfold handed
    cases he : event.handed? p with
    | none => simp [he]
    | some v => simp [he]

theorem Tracks.append {steps steps' : List Step} (h : Tracks p steps q)
    (h' : Tracks q steps' r) : Tracks p (steps ++ steps') r := by
  refine ⟨h'.depth.trans h.depth, fun s hs => ?_, ?_⟩
  · rcases List.mem_append.1 hs with hs | hs
    · exact h.above s hs
    · exact h.depth ▸ h'.above s hs
  · have hreturned := h'.returned
    rw [h.depth, h.returned] at hreturned
    rw [hreturned, handed_append, List.getLast?_append]
    cases (handed p.callDepth steps').getLast? <;> rfl

/-- What a call hands over stays inside it. -/
theorem Tracks.call {outcome : Except Failure Flow} {steps : List Step}
    (hopen : advance scope a p = .ok (.inCall m frame) q) (h : Tracks q steps r)
    (hclose : Completes (closeCall frame m.name outcome) r t) :
    Tracks p
      (⟨p, .advanced scope a (.inCall m frame), q⟩ :: (steps ++ [⟨r, .left m frame, t⟩])) t := by
  obtain ⟨hinner, -, hsaved⟩ := (advance_slot scope a p).of_ok hopen
  obtain ⟨hleft, hback, -⟩ := restores_of_closeCall hclose
  have hrdepth : r.callDepth = p.callDepth + 1 := h.depth.trans hinner
  have hcall : a ≠ .ret := by
    rintro rfl
    obtain ⟨name, arity, he, -⟩ := advance_eq_inCall hopen
    cases he
  have hdeep : ∀ s ∈ steps, p.callDepth < s.before.callDepth := fun s hs => by
    have := h.above s hs
    omega
  refine ⟨by omega, fun s hs => ?_, ?_⟩
  · rcases List.mem_cons.1 hs with rfl | hs
    · exact Nat.le_refl _
    · rcases List.mem_append.1 hs with hs | hs
      · exact Nat.le_of_lt (hdeep s hs)
      · rw [List.mem_singleton.1 hs]
        exact Nat.le_of_lt (by omega : p.callDepth < r.callDepth)
  · have hnone : handed p.callDepth (⟨p, .advanced scope a (.inCall m frame), q⟩ ::
        (steps ++ [⟨r, .left m frame, t⟩])) = [] := by
      refine handed_eq_nil fun s hs => ?_
      rcases List.mem_cons.1 hs with rfl | hs
      · exact Or.inr (handed?_of_ne_ret hcall)
      · rcases List.mem_append.1 hs with hs | hs
        · exact Or.inl (Nat.ne_of_gt (hdeep s hs))
        · rw [List.mem_singleton.1 hs]
          exact Or.inr rfl
    rw [hnone, hback, hsaved]
    rfl

/-- Over balanced steps the slot holds what the last `ret` at the depth of their start handed
over, and what it held before if there was none. -/
theorem Balanced.slot {steps : List Step} (h : Balanced p steps q) : Tracks p steps q := by
  induction h with
  | nil => exact ⟨rfl, fun _ hs => (by cases hs), rfl⟩
  | @advanced scope a stage p q h hstage =>
    have hslots := (advance_slot scope a p).of_ok h
    cases stage with
    | inCall m frame => exact absurd rfl (hstage m frame)
    | finished | inBody => exact .single hslots.1 hslots.2
  | refused h =>
    have hsame := (advance_slot _ _ _).of_error h _ rfl
    exact .single hsame.depth hsame.returned
  | call hopen _ hclose ih => exact ih.call hopen hclose
  | append _ _ ih ih' => exact ih.append ih'

/-! ## Runs -/

/-- A call that comes to its end is one whose body does. -/
theorem completes_inCall {run : Body}
    (h : Completes (complete run a (.inCall m frame)) q t) :
    ∃ outcome r, (settle (run frame.scope m.body) : Exec Fault _) q = .ok outcome r ∧
      Completes (closeCall frame m.name outcome) r t := by
  rw [completes_iff, complete, ends_bind] at h
  cases hbody : (settle (run frame.scope m.body) : Exec Fault _) q with
  | ok outcome r =>
    rw [ends_of_ok hbody, ends_bind] at h
    exact ⟨outcome, r, rfl, completes_iff.2 h⟩
  | error s r =>
    rw [ends_of_error hbody] at h
    cases s with
    | fault cause =>
      unfold settle at hbody
      split at hbody <;> cases hbody
    | breach v => exact h.elim
    | unending => exact h.elim

/-- The steps of an action are balanced if those of its body are. -/
theorem balanced_around {run : Body} {tell : Telling} {opened : ScopeId → Program → List Step}
    (htell : ∀ m frame q r, advance scope a p = .ok (.inCall m frame) q →
      Completes (run frame.scope m.body) q r → Balanced q (tell frame.scope m.body q) r)
    (hopened : ∀ id q r, advance scope a p = .ok (.inBody id) q →
      Completes (complete run a (.inBody id)) q r → Balanced q (opened id q) r)
    (h : Completes (attempt run scope a) p t) :
    Balanced p (stepsAround run tell scope a opened p) t := by
  rw [attempt_eq, completes_iff, ends_bind] at h
  unfold stepsAround
  cases hadvance : advance scope a p with
  | ok stage q =>
    rw [ends_of_ok hadvance] at h
    have hrest := completes_iff.2 h
    cases stage with
    | finished flow =>
      rw [complete, completes_iff, ends_pure] at hrest
      subst hrest
      exact .advanced hadvance (by simp)
    | inBody id =>
      exact .append (.advanced hadvance (by simp)) (hopened id q t hadvance hrest)
    | inCall m frame =>
      obtain ⟨outcome, r, hbody, hclose⟩ := completes_inCall hrest
      have hleaving : leaving run m frame q = [⟨r, .left m frame, t⟩] := by
        obtain ⟨hcomplete, hafter⟩ := isComplete_of_completes hclose
        simp only [leaving, hbody, step, hcomplete, hafter, if_true]
      simp only [hleaving]
      exact .call hadvance (htell m frame q r hadvance (completes_of_settle hbody)) hclose
  | error s q =>
    rw [ends_of_error hadvance] at h
    cases s with
    | fault cause =>
      obtain rfl : q = t := h
      exact .refused hadvance
    | breach v => exact h.elim
    | unending => exact h.elim

/-- Each run that comes to its end ends the calls that it begins. -/
theorem run_balanced :
    (∀ n scope a p, ∀ q, Completes (attempt (enter n) scope a) p q →
      Balanced p (actionSteps (enter n) (bodySteps n) scope a p) q) ∧
    ∀ n scope as p, ∀ index q, Completes (performAll (enter n) scope index as) p q →
      Balanced p (blockSteps (enter n) (bodySteps n) scope as p) q := by
  refine run_induction ?nil ?cons ?body ?plain
  case nil =>
    intro n scope p index q h
    rw [performAll, completes_iff, ends_pure] at h
    rw [h, blockSteps]
    exact .nil
  case cons =>
    intro n scope a as p ha has index r h
    rw [blockSteps]
    rcases completes_cons h with ⟨q, hnext, hrest⟩ | ⟨hnot, hend⟩
    · rw [hnext]
      exact (ha q (Or.inl ⟨_, hnext⟩)).append (has q (index + 1) r hrest)
    · rw [following_eq_nil hnot, List.append_nil]
      exact ha r hend
  case body =>
    intro n scope a as p hbody hL t h
    rw [actionSteps_of_body hbody]
    refine balanced_around (fun m frame q r hcall _ => ?_) (fun id q r _ hr => ?_) h
    · obtain ⟨name, arity, rfl, -⟩ := advance_eq_inCall hcall
      cases hbody
    · cases a with
      | defineNamespace name body | defineClass name body =>
        cases hbody
        rw [complete, completes_iff, ends_inside] at hr
        refine hL id q 0 r (completes_iff.2 (hr.imp (fun _ _ h => h) fun s r hs => ?_))
        exact halts_map.1 hs
      | _ => cases hbody
  case plain =>
    intro n scope a p hbody hL t h
    rw [actionSteps_of_plain hbody]
    refine balanced_around (fun m frame q r _ hr => ?_) (fun id q r _ hr => ?_) h
    · cases n with
      | zero => cases completes_iff.1 hr
      | succ k => exact hL k rfl frame.scope m.body q 0 r hr
    · cases a with
      | defineNamespace | defineClass => cases hbody
      | _ =>
        obtain rfl : q = r := completes_iff.1 hr
        exact .nil

/-! ## Programs at rest -/

/-- No call is in progress and the slot is empty. -/
structure Idle (p : Program) : Prop where
  depth : p.callDepth = 0
  returned : p.returned = .undefined

theorem registerNative_sameSlot (native : NativeMethod) :
    Ends (registerNative native) p (fun _ q => SameSlot p q) (OnFault (SameSlot p)) := by
  simp only [registerNative, ends_bind, ends_get, ends_liftViolation, ends_ite, ends_fault,
    ends_allocate, ends_liftStop, ends_setScopes, ends_pure]
  exact ⟨fun b _ => ⟨fun _ _ _ => .refl p, fun _ => ⟨fun _ _ => ⟨rfl, rfl⟩,
    fun _ _ _ _ => ⟨rfl, rfl⟩⟩⟩, fun _ _ _ _ => .refl p⟩

theorem Idle.served {request : Request} (hp : Idle p) (h : request.served? p = some q) :
    Idle q := by
  cases request with
  | register native =>
    have hsame := (registerNative_sameSlot native).at_end (after?_eq_some_iff.1 h)
    exact ⟨hsame.depth.trans hp.depth, hsame.returned.trans hp.returned⟩
  | run n scope actions =>
    have h : Completes (runIn n scope actions) p q := after?_eq_some_iff.1 h
    by_cases ho : p.scopes.owns scope = true
    · obtain ⟨r, hr, rfl⟩ := completes_runIn ho h
      exact ⟨(run_balanced.2 n scope actions p 0 r hr).slot.depth.trans hp.depth, rfl⟩
    · exact runIn_of_not_owns ho h ▸ hp

theorem Idle.servedAll {requests : List Request} (hp : Idle p)
    (h : servedAll? requests p = some q) : Idle q :=
  servedAll?_induction (fun _ _ _ _ hp hq => hp.served hq) hp h

/-- The answer of a run is what its block left in the slot. -/
theorem runIn_eq_ok {n : Nat} {actions : List Action} {v : Value}
    (h : runIn n scope actions p = .ok v q) :
    p.scopes.owns scope = true ∧
      ∃ flow r, block n scope actions p = .ok flow r ∧ v = r.returned := by
  by_cases ho : p.scopes.owns scope = true
  · refine ⟨ho, ?_⟩
    have hcheck : p.scopes.check scope = .ok scope := if_pos ho
    have hends : Ends (runIn n scope actions) p
        (fun v _ => ∃ flow r, block n scope actions p = .ok flow r ∧ v = r.returned)
        fun _ _ => True := by
      rw [runIn, ends_bind, ends_get, hcheck]
      simp only [ends_bind, ends_settle, ends_get, ends_modify]
      refine (Ends.anyhow _ _).with_run.imp (fun flow r hr => ⟨flow, r, hr.1, rfl⟩) fun s r _ => ?_
      cases s <;> trivial
    exact hends.of_ok h
  · rw [runIn_refused ho] at h
    cases h

/-- The answer of a run is what its last `ret` outside all calls handed over. -/
theorem Idle.answer {n : Nat} {actions : List Action} {v : Value} (hp : Idle p)
    (h : runIn n scope actions p = .ok v q) :
    v = (handed 0 ((Request.run n scope actions).steps p)).getLast?.getD .undefined := by
  obtain ⟨ho, flow, r, hblock, rfl⟩ := runIn_eq_ok h
  have hended : Completes (block n scope actions) p r := Or.inl ⟨flow, hblock⟩
  have hslot := (run_balanced.2 n scope actions p 0 r hended).slot.returned
  rw [hp.depth, hp.returned] at hslot
  -- the taking of the answer is a step, too, but hands nothing over
  have hanswered : ∀ t, handed 0 [⟨r, .answered, t⟩] = [] := fun t =>
    handed_eq_nil fun s hs => Or.inr (by rw [List.mem_singleton.1 hs]; rfl)
  rw [Request.steps, if_pos ho, after?_eq_some_iff.2 hended, handed_append, hanswered,
    List.append_nil]
  exact hslot

end Exec

open Exec

/-- A new program has been asked for anything whatever, and each request came to its end with a
result or a failure. Then no call is in progress and the slot for returned values is empty. The
answer of a run that now succeeds is what the last `ret` that it performs outside all calls hands
over; it is undefined exactly if there is no such `ret`, and it is never a reference. -/
theorem answer_is_last_return {arena tree : StoreId} {host : Host} {mode : Mode} {sink : Sink}
    {requests : List Request} {p : Program}
    (hp : servedAll? requests (.new arena tree host mode sink) = some p) :
    (p.callDepth = 0 ∧ p.returned = .undefined) ∧
      ∀ n scope actions v q steps, runIn n scope actions p = .ok v q →
        steps = (Request.run n scope actions).steps p →
          v = (handed 0 steps).getLast?.getD .undefined ∧
            (v = .undefined ↔ ∀ s ∈ steps, ¬ s.Returns 0) ∧ v.isReference = false := by
  have hidle : Idle p := Idle.servedAll ⟨rfl, rfl⟩ hp
  refine ⟨⟨hidle.depth, hidle.returned⟩, fun n scope actions v q steps hrun hsteps => ?_⟩
  have hv : v = (handed 0 steps).getLast?.getD .undefined := hsteps ▸ hidle.answer hrun
  have hhappens : ∀ s ∈ steps, Happens s := hsteps ▸ (told_run n scope actions p).happens
  refine ⟨hv, ?_⟩
  rw [← handed_eq_nil_iff hhappens]
  cases hlast : (handed 0 steps).getLast? with
  | none =>
    rw [hlast] at hv
    have hnil : handed 0 steps = [] := List.getLast?_eq_none_iff.1 hlast
    exact ⟨⟨fun _ => hnil, fun _ => hv⟩, by rw [hv]; rfl⟩
  | some w =>
    rw [hlast] at hv
    obtain rfl : v = w := hv
    have hmem : v ∈ handed 0 steps := List.mem_of_getLast? hlast
    obtain ⟨hdefined, hplain⟩ := plain_of_mem_handed hhappens hmem
    refine ⟨⟨fun he => ?_, fun hnil => ?_⟩, hplain⟩
    · rw [he] at hdefined
      cases hdefined
    · rw [hnil] at hmem
      cases hmem

/-- One method hands over what another one hands over to it; then a run fails after a `ret`. -/
def earlierReturns : List Request :=
  [.run 3 .global [.defineMethod "inner" [] [.pushLiteral (.int 1), .ret],
    .defineMethod "outer" [] [.call "inner" 0, .ret]],
    .run 3 .global [.defineNamespace "N" [.pushLiteral (.int 5), .ret], .pop]]

/-- The last `ret` outside all calls stands in the body of a namespace, and a call follows it. -/
def returnThenCall : List Action :=
  [.pushLiteral (.int 6), .defineNamespace "N" [.pushLiteral (.int 7), .ret, .pop],
    .call "outer" 0, .pop, .pop]

theorem exists_ok_of_run' {ε α : Type} {x : Exec ε α} {p : Program} {v : α}
    (h : x.run' p = some v) : ∃ q, x p = .ok v q := by
  delta EStateM.run' EStateM.run at h
  cases hx : x p with
  | ok w q =>
    rw [hx] at h
    cases h
    exact ⟨q, rfl⟩
  | error stop q =>
    rw [hx] at h
    cases h

theorem answer_survives_call : ∃ p v q, servedAll? earlierReturns .silent = some p ∧
    runIn 3 .global returnThenCall p = .ok v q ∧ v.display = "7" ∧ p.returned = .undefined ∧
      v = (handed 0 ((Request.run 3 .global returnThenCall).steps p)).getLast?.getD
        .undefined := by
  have hruns : (servedAll? earlierReturns .silent).any (fun p =>
      ((runIn 3 .global returnThenCall).run' p).any (·.display == "7")) = true := by
    decide +kernel
  obtain ⟨p, hp, hanswer⟩ := (Option.any_eq_true _ _).1 hruns
  obtain ⟨v, hv, hdisplay⟩ := (Option.any_eq_true _ _).1 hanswer
  obtain ⟨q, hrun⟩ := exists_ok_of_run' hv
  obtain ⟨⟨-, hempty⟩, hlast⟩ := answer_is_last_return hp
  exact ⟨p, v, q, hp, hrun, eq_of_beq hdisplay, hempty,
    (hlast 3 .global returnThenCall _ q _ hrun rfl).1⟩

end ActionMachine
