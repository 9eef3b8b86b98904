import ActionMachine.Proofs.SoundHistory

/-
  Invariants of histories. `Invariant K I` lists what has to be shown of single steps so that `I`
  holds in every state of a history, inside calls and outside, whatever becomes of the runs
  (`Invariant.history`). The literals of all requests satisfy `K`, and `I` says of the methods that
  a program holds that those of their bodies do.

  Most invariants are about the values that a program holds, where the property of a value may
  depend on the scopes. For these `Contents` says what has to be shown of values, trees and the
  host; steps are not spoken of there (`Contents.history`).
-/

namespace ActionMachine.Exec

variable {scope : ScopeId} {p q r t : Program} {a : Action} {m : Method} {frame : Frame}
  {K : Value → Prop} {I : Program → Prop}

/-! ## What single steps have to keep -/

structure Invariant (K : Value → Prop) (I : Program → Prop) : Prop where
  advances : ∀ {scope : ScopeId} {a : Action} {stage : Stage} {p q : Program}, Healthy p →
    p.scopes.owns scope = true → a.methodFree = true → a.EachLiteral K → I p →
    advance scope a p = .ok stage q → I q
  refuses : ∀ {scope : ScopeId} {a : Action} {cause : Fault} {p q : Program}, Healthy p →
    p.scopes.owns scope = true → a.methodFree = true → a.EachLiteral K → I p →
    advance scope a p = .error (.fault cause) q → I q
  body : ∀ {scope : ScopeId} {name : Name} {m : Method} {p : Program}, I p →
    Callee scope p name (.method m) → Action.AllLiterals K m.body
  /-- The body of the call ran from `q` to `r`, and the caller goes on in `t`. -/
  closes : ∀ {m : Method} {arity : Nat} {frame : Frame} {outcome : Except Failure Flow}
    {p q r t : Program}, Healthy p → I p → Entered m arity p frame q →
    Keeps frame.scope.index q r → I r → Completes (closeCall frame m.name outcome) r t → I t
  registers : ∀ {native : NativeMethod} {p q : Program}, Healthy p → I p →
    Completes (registerNative native) p q → I q
  answers : ∀ {p : Program}, I p → I { p with returned := .undefined }

/-! ## Runs -/

theorem final_of_forall {steps : List Step} (hp : I p)
    (h : ∀ s ∈ steps, I s.before ∧ I s.after) : I (final p steps) := by
  induction steps generalizing p with
  | nil => exact hp
  | cons s steps ih =>
    exact ih (h s List.mem_cons_self).2 fun t ht => h t (List.mem_cons_of_mem _ ht)

theorem Told.final_of_forall {ε α : Type} {x : Exec ε α} {steps : List Step} (ht : Told p x steps)
    (hp : I p) (h : ∀ s ∈ steps, I s.before ∧ I s.after) (hx : Completes x p q) : I q :=
  ht.final q hx ▸ Exec.final_of_forall hp h

/-- The end of a call keeps the invariant if the steps of the body do. -/
theorem Invariant.leaving (h : Invariant K I) {n arity : Nat} (hp : Healthy p) (hI : I p)
    (hm : p.scopes.Admits m) (hentered : Entered m arity p frame q) (hq : I q)
    (hbody : ∀ s ∈ bodySteps n frame.scope m.body q, I s.before ∧ I s.after) {s : Step}
    (hs : s ∈ leaving (enter n) m frame q) : I s.before ∧ I s.after := by
  unfold Exec.leaving at hs
  cases hsettled : (settle (enter n frame.scope m.body) : Exec Fault _) q with
  | error stop r =>
    rw [hsettled] at hs
    cases hs
  | ok outcome r =>
    rw [hsettled] at hs
    obtain ⟨t, ht, rfl⟩ := eq_of_mem_step hs
    cases n with
    | zero => cases completes_iff.1 (completes_of_settle hsettled)
    | succ k =>
      have hend : Completes (performAll (enter k) frame.scope 0 m.body) q r :=
        completes_of_settle hsettled
      have hr : I r := (run_told.2 k frame.scope m.body q 0).final_of_forall hq hbody hend
      have hkeeps : Keeps frame.scope.index q r :=
        Ends.of_completes (run_safe.2 k frame.scope m.body q hentered.keeps.sound
          (hentered.live hp.sound) hm.body 0) hend
      exact ⟨hr, h.closes hp hI hentered hkeeps hr ht⟩

/-- The steps of an action keep the invariant if those of its body do. -/
theorem Invariant.around (h : Invariant K I) {n : Nat} {opened : ScopeId → Program → List Step}
    (hp : Healthy p) (ho : p.scopes.owns scope = true) (hfree : a.methodFree = true)
    (hK : a.EachLiteral K) (hI : I p)
    (htell : ∀ m frame q, Healthy q → q.scopes.owns frame.scope = true →
      Action.allMethodFree m.body = true → Action.AllLiterals K m.body → I q →
      advance scope a p = .ok (.inCall m frame) q →
      ∀ s ∈ bodySteps n frame.scope m.body q, I s.before ∧ I s.after)
    (hopened : ∀ id q, Healthy q → q.scopes.owns id = true → I q →
      advance scope a p = .ok (.inBody id) q → ∀ s ∈ opened id q, I s.before ∧ I s.after) :
    ∀ s ∈ stepsAround (enter n) (bodySteps n) scope a opened p, I s.before ∧ I s.after := by
  intro s hs
  unfold stepsAround at hs
  cases hadvance : advance scope a p with
  | ok stage q =>
    simp only [hadvance] at hs
    have hq := h.advances hp ho hfree hK hI hadvance
    have hadvances := (advance_ends hp.sound ho).of_ok hadvance
    have hhealthy := hadvances.healthy hp ho hfree
    rcases List.mem_cons.1 hs with rfl | hrest
    · exact ⟨hI, hq⟩
    · cases hadvances with
      | finished => cases hrest
      | inBody _ hopens => exact hopened _ q hhealthy hopens.live hq hadvance s hrest
      | @inCall name arity m frame _ hm hopen hentered =>
        obtain ⟨_, _, he, -, hcallee, -⟩ := advance_eq_inCall hadvance
        cases he
        have hliterals := h.body hI ((callee_cases scope p name).of_ok hcallee).2
        have hbody := htell m frame q hhealthy (hentered.live hp.sound) hm.body hliterals hq
          hadvance
        rcases List.mem_append.1 hrest with hinner | hlast
        · exact hbody s hinner
        · exact h.leaving hp hI hm hentered hq hbody hlast
  | error stop q =>
    simp only [hadvance] at hs
    cases stop with
    | fault cause =>
      rw [List.mem_singleton.1 hs]
      exact ⟨hI, h.refuses hp ho hfree hK hI hadvance⟩
    | breach v => cases hs
    | unending => cases hs

/-- All steps of a run keep the invariant. -/
theorem Invariant.run (h : Invariant K I) :
    (∀ n scope a p, Healthy p → p.scopes.owns scope = true → a.methodFree = true →
      a.EachLiteral K → I p →
      ∀ s ∈ actionSteps (enter n) (bodySteps n) scope a p, I s.before ∧ I s.after) ∧
    ∀ n scope as p, Healthy p → p.scopes.owns scope = true → Action.allMethodFree as = true →
      Action.AllLiterals K as → I p →
      ∀ s ∈ blockSteps (enter n) (bodySteps n) scope as p, I s.before ∧ I s.after := by
  refine run_induction ?nil ?cons ?body ?plain
  case nil =>
    intro n scope p _ _ _ _ _ s hs
    rw [blockSteps] at hs
    cases hs
  case cons =>
    intro n scope a as p ha has hp ho hfree hK hI s hs
    have hfree : a.methodFree = true ∧ Action.allMethodFree as = true :=
      Bool.and_eq_true_iff.1 hfree
    have hfirst := ha hp ho hfree.1 hK.1 hI
    rw [blockSteps] at hs
    rcases List.mem_append.1 hs with hs | hs
    · exact hfirst s hs
    · unfold following at hs
      split at hs
      · rename_i q hq
        have hend : Completes (attempt (enter n) scope a) p q := Or.inl ⟨_, hq⟩
        obtain ⟨hhealthy, hlive⟩ := attempt_healthy hp ho hfree.1 hend
        exact has q hhealthy hlive hfree.2 hK.2
          ((run_told.1 n scope a p).final_of_forall hI hfirst hend) s hs
      · cases hs
  case body =>
    intro n scope a as p hbody hL hp ho hfree hK hI
    rw [actionSteps_of_body hbody]
    refine h.around hp ho hfree hK hI (fun m frame q _ _ _ _ _ hcall => ?_)
      fun id q hq hlive hIq _ => ?_
    · obtain ⟨name, arity, rfl, -⟩ := advance_eq_inCall hcall
      cases hbody
    · exact hL id q hq hlive (Action.allMethodFree_body hbody hfree) (hK.body hbody) hIq
  case plain =>
    intro n scope a p hbody hL hp ho hfree hK hI
    rw [actionSteps_of_plain hbody]
    refine h.around hp ho hfree hK hI (fun m frame q hq hlive hmfree hmK hIq _ => ?_)
      fun id q _ _ _ _ s hs => by cases hs
    cases n with
    | zero =>
      intro s hs
      cases hs
    | succ k => exact hL k rfl frame.scope m.body q hq hlive hmfree hmK hIq

/-! ## Histories -/

theorem Request.healthy_served {request : Request} (hp : Healthy p)
    (hfree : request.methodFree = true) (hq : request.served? p = some q) : Healthy q :=
  (Request.sound_steps hp hfree).2 q hq

theorem Invariant.request (h : Invariant K I) {request : Request} (hp : Healthy p) (hI : I p)
    (hfree : request.methodFree = true) (hK : request.EachLiteral K) :
    ∀ s ∈ request.steps p, I s.before ∧ I s.after := by
  intro s hs
  cases request with
  | register native =>
    obtain ⟨q, hq, rfl⟩ := eq_of_mem_step hs
    exact ⟨hI, h.registers hp hI hq⟩
  | run n scope actions =>
    rw [Request.steps] at hs
    split at hs
    · have hblock := h.run.2 n scope actions p hp ‹_› hfree hK hI
      rcases List.mem_append.1 hs with hs | hs
      · exact hblock s hs
      · split at hs
        · have hend := after?_eq_some_iff.1 ‹_›
          have hq := (run_told.2 n scope actions p 0).final_of_forall hI hblock hend
          rw [List.mem_singleton.1 hs]
          exact ⟨hq, h.answers hq⟩
        · cases hs
    · cases hs

/-- In every state of a history the invariant holds. -/
theorem Invariant.history (h : Invariant K I) {requests : List Request} (hp : Healthy p) (hI : I p)
    (hfree : ∀ request ∈ requests, request.methodFree = true)
    (hK : ∀ request ∈ requests, request.EachLiteral K) :
    ∀ s ∈ history requests p, I s.before ∧ I s.after := by
  induction requests generalizing p with
  | nil =>
    intro s hs
    cases hs
  | cons request requests ih =>
    have hfreeFirst := hfree request List.mem_cons_self
    have hfirst := h.request hp hI hfreeFirst (hK request List.mem_cons_self)
    intro s hs
    unfold Exec.history at hs
    rcases List.mem_append.1 hs with hs | hs
    · exact hfirst s hs
    · split at hs
      · rename_i q hserved
        have hq : I q := (request.linked_steps p).2.2 q hserved ▸ final_of_forall hI hfirst
        exact ih (Request.healthy_served hp hfreeFirst hserved) hq
          (fun r hr => hfree r (List.mem_cons_of_mem _ hr))
          (fun r hr => hK r (List.mem_cons_of_mem _ hr)) s hs
      · cases hs

/-- A state of a history is sound, and the invariant holds in it. -/
theorem Invariant.final_history (h : Invariant K I) {requests : List Request}
    {earlier later : List Step} (hp : Healthy p) (hI : I p)
    (hfree : ∀ request ∈ requests, request.methodFree = true)
    (hK : ∀ request ∈ requests, request.EachLiteral K)
    (hsplit : Exec.history requests p = earlier ++ later) :
    Healthy (final p earlier) ∧ I (final p earlier) := by
  have hsound := sound_history hp hfree
  have hsteps := h.history hp hI hfree hK
  rw [hsplit] at hsound hsteps
  exact ⟨hp.final fun s hs => hsound s (List.mem_append_left _ hs),
    final_of_forall hI fun s hs => hsteps s (List.mem_append_left _ hs)⟩

/-! ## Invariants of values -/

variable {host : Host} {C : ScopeTree → Value → Prop}

/-- What makes `C` a property of all values that a program holds, where `C u v` is about the value
`v` in a program with the scopes `u`. -/
structure Contents (host : Host) (K : Value → Prop) (C : ScopeTree → Value → Prop) : Prop where
  hereditary : ∀ u, Hereditary (C u)
  grow : ∀ {u u' : ScopeTree} {v : Value}, u.Extends u' → C u v → C u' v
  /-- Scopes of calls may go. -/
  shrink : ∀ {u : ScopeTree} {v : Value} {n : Nat}, u.Sound → u.retained ≤ n → C u v →
    C { u with scopes := u.scopes.shrink n } v
  literal : ∀ {u : ScopeTree} {v : Value}, (∀ P, v.EachMethod P) → K v → v.Loose (C u)
  method : ∀ {u : ScopeTree} {m : Method}, C u (.method m) ↔ Action.AllLiterals K m.body
  host : ∀ u, host.Conveys (C u)
  constructs : ∀ {p : Program}, p.Sound → p.Holds (C p.scopes) → p.Constructs (C p.scopes)

/-- Everything that the program holds has the property. -/
structure Contains (host : Host) (C : ScopeTree → Value → Prop) (p : Program) : Prop where
  host : p.host = host
  holds : p.Holds (C p.scopes)

namespace Contents

variable (h : Contents host K C)

include h

theorem holds_of_extends (hq : q.Holds (C p.scopes)) (he : p.scopes.Extends q.scopes) :
    q.Holds (C q.scopes) := hq.mono fun _ hv => h.grow he hv

theorem advances {stage : Stage} (hp : Healthy p) (ho : p.scopes.owns scope = true)
    (hfree : a.methodFree = true) (hK : a.EachLiteral K) (hI : Contains host C p)
    (hadvance : advance scope a p = .ok stage q) : Contains host C q := by
  have hC := h.hereditary p.scopes
  cases (advance_ends hp.sound ho).of_ok hadvance with
  | finished hperforms =>
    have hgrows := hperforms.grows hp.sound.tree
    refine ⟨hgrows.host.trans hI.host, h.holds_of_extends ?_ hgrows.tree⟩
    refine hperforms.holds hC hI.holds (hI.host ▸ h.host _) (h.constructs hp.sound hI.holds)
      (fun v hv => ?_) ?_
    · exact h.literal (fun P => Action.eachMethod_literals hfree v hv) (hK.literals v hv)
    · rintro name params body slots rfl
      exact h.method.2 hK.2
  | inBody _ hopens =>
    have hgrows := (hopens.keeps 0).grows
    refine ⟨hgrows.host.trans hI.host, h.holds_of_extends ?_ hgrows.tree⟩
    obtain ⟨_, _, _, -, rfl⟩ := hopens.opened
    exact ⟨hI.holds.memory, hI.holds.returned⟩
  | inCall _ hopen hentered =>
    refine ⟨hentered.keeps.grows.host.trans hI.host, ?_⟩
    exact h.holds_of_extends ((openCall_holds hC hI.holds).of_ok hopen).1 hentered.enters.extends

theorem refuses {cause : Fault} (hp : Healthy p) (ho : p.scopes.owns scope = true)
    (hfree : a.methodFree = true) (hK : a.EachLiteral K) (hI : Contains host C p)
    (hadvance : advance scope a p = .error (.fault cause) q) : Contains host C q := by
  have hrefuses : Refuses p a q := (advance_ends hp.sound ho).of_error hadvance
  refine ⟨(hrefuses.grows 0).host.trans hI.host, hrefuses.scopes_eq.symm ▸ ?_⟩
  refine hrefuses.holds (h.hereditary _) hI.holds fun v hv => ?_
  exact h.literal (fun P => Action.eachMethod_literals hfree v hv) (hK.literals v hv)

theorem body {name : Name} (hI : Contains host C p) (hm : Callee scope p name (.method m)) :
    Action.AllLiterals K m.body := by
  have hloose : (Value.method m).Loose (C p.scopes) := hm.of_all hI.holds.memory
  exact h.method.1 (hloose.resolve rfl)

/-- What the slot for returned values held when the call began, it holds again; it has the property
still, since no scope is lost but those of calls. -/
theorem closes {arity : Nat} {outcome : Except Failure Flow} (hI : Contains host C p)
    (hentered : Entered m arity p frame q) (hkeeps : Keeps frame.scope.index q r)
    (hr : Contains host C r) (hclose : Completes (closeCall frame m.name outcome) r t) :
    Contains host C t := by
  have hreturned : frame.returned.Loose (C r.scopes) := by
    rw [hentered.handed]
    exact hI.holds.returned.imp_right
      (h.grow (hentered.enters.extends.trans hkeeps.grows.tree))
  have hheld : t.Holds (C r.scopes) := by
    refine Ends.at_end ?_ hclose
    exact (closeCall_holds (h.hereditary _) hr.holds hreturned).imp (fun _ _ ht => ht)
      fun _ _ ht _ _ => ht
  refine ⟨(restores_of_closeCall hclose).host.trans hr.host, ?_⟩
  rcases (leaves_of_closeCall hclose).cases with ⟨-, hscopes, -⟩ | ⟨hkept, hscopes, -⟩
  · rw [hscopes]
    exact hheld
  · rw [hscopes]
    exact hheld.mono fun _ hv => h.shrink hkeeps.sound.tree hkept hv

theorem registers {native : NativeMethod} (hp : Healthy p) (hI : Contains host C p)
    (hregister : Completes (registerNative native) p q) : Contains host C q := by
  refine Ends.of_completes (K := Contains host C) (E := fun _ => False) ?_ hregister
  refine (registerNative_bound hp.sound.tree native).imp (fun _ q hbound => ?_) fun s q hs => ?_
  · have hgrows : Program.Grows ScopeId.global.index p q :=
      hbound.grows fun _ _ _ => rfl
    refine ⟨hgrows.host.trans hI.host, h.holds_of_extends ?_ hgrows.tree⟩
    exact hbound.holds hI.holds (Or.inr ((h.hereditary _).simple _ rfl))
  · refine hs.imp (fun _ hq => ?_) fun he => he
    subst hq
    exact hI

theorem invariant : Invariant K (Contains host C) where
  advances := h.advances
  refuses := h.refuses
  body := h.body
  closes _ := h.closes
  registers := h.registers
  answers hI := ⟨hI.host, hI.holds.memory, Or.inr ((h.hereditary _).simple _ rfl)⟩

/-- Everything that a program holds in some state of its history has the property. -/
theorem history {arena tree : StoreId} {mode : Mode} {sink : Sink} {requests : List Request}
    {earlier later : List Step} (htree : tree ≠ .shared) (hhost : host.MakesNoMethod)
    (hfree : ∀ request ∈ requests, request.methodFree = true)
    (hK : ∀ request ∈ requests, request.EachLiteral K)
    (hsplit : Exec.history requests (.new arena tree host mode sink) = earlier ++ later) :
    Healthy (final (.new arena tree host mode sink) earlier) ∧
      Contains host C (final (.new arena tree host mode sink) earlier) := by
  refine h.invariant.final_history (Reachable.new htree hhost).atRest.healthy ?_ hfree hK hsplit
  exact ⟨rfl, .new ((h.hereditary _).simple _ rfl)⟩

end Contents

end ActionMachine.Exec
