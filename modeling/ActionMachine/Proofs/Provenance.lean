import Mathlib.Data.List.Induction
import ActionMachine.Proofs.Definitions
import ActionMachine.Proofs.SoundHistory

/-
  Where methods come from. If no method is brought in from outside, each one that a program holds
  was made by a definition among the steps before (`held_methods_defined`). A step hands on what was
  there or makes a method (`Happens.holds_methods`). The end of a call also puts back what the slot
  for returned values held when the call began, so for each call that ends its beginning is found
  among the steps before (`opened_history`).
-/

namespace ActionMachine.Exec

variable {scope : ScopeId} {p q : Program} {a : Action} {m : Method} {frame : Frame} {s : Step}
  {steps steps' : List Step}

/-! ## Calls that end -/

/-- With this step a call of the method begins. -/
def Step.Opens (s : Step) (m : Method) (frame : Frame) : Prop :=
  ∃ scope a, s.event = .advanced scope a (.inCall m frame)

/-- Each call that ends has begun at an earlier one of the steps. -/
def EndsOpened (steps : List Step) : Prop :=
  ∀ earlier s later, steps = earlier ++ s :: later → ∀ m frame, s.event = .left m frame →
    ∃ t ∈ earlier, t.Opens m frame

theorem endsOpened_nil : EndsOpened [] := by
  intro earlier s later h
  cases earlier <;> cases h

theorem endsOpened_singleton (h : ∀ m frame, s.event ≠ .left m frame) : EndsOpened [s] := by
  intro earlier t later hsplit m frame ht
  cases earlier with
  | nil =>
    cases hsplit
    exact absurd ht (h m frame)
  | cons u earlier =>
    cases earlier <;> cases hsplit

/-- A step of two rows lies in the first, or the first comes before it. -/
theorem split_append {earlier later : List Step} (h : steps ++ steps' = earlier ++ s :: later) :
    (∃ rest, steps = earlier ++ s :: rest) ∨
      ∃ between, earlier = steps ++ between ∧ steps' = between ++ s :: later := by
  rcases List.append_eq_append_iff.1 h with ⟨between, he, hs⟩ | ⟨rest, hs, he⟩
  · exact Or.inr ⟨between, he, hs⟩
  · cases rest with
    | nil => exact Or.inr ⟨[], by simpa using hs.symm, by simpa using he.symm⟩
    | cons t rest =>
      cases he
      exact Or.inl ⟨rest, hs⟩

theorem EndsOpened.append (h : EndsOpened steps) (h' : EndsOpened steps') :
    EndsOpened (steps ++ steps') := by
  intro earlier s later hsplit m frame hs
  rcases split_append hsplit with ⟨rest, hfirst⟩ | ⟨between, rfl, hsecond⟩
  · exact h earlier s rest hfirst m frame hs
  · obtain ⟨t, ht, hopens⟩ := h' between s later hsecond m frame hs
    exact ⟨t, List.mem_append_right _ ht, hopens⟩

/-- The call that ends after its body has begun before it. -/
theorem EndsOpened.call (h : EndsOpened steps) (hs : s.Opens m frame)
    (hlast : ∀ t ∈ steps', t.event = .left m frame) : EndsOpened (s :: (steps ++ steps')) := by
  intro earlier t later hsplit m' frame' ht
  cases earlier with
  | nil =>
    cases hsplit
    obtain ⟨_, _, hevent⟩ := hs
    rw [hevent] at ht
    cases ht
  | cons u earlier =>
    obtain ⟨rfl, hrest⟩ := List.cons.inj hsplit
    rcases split_append hrest with ⟨rest, hbody⟩ | ⟨between, -, hend⟩
    · obtain ⟨w, hw, hopens⟩ := h earlier t rest hbody m' frame' ht
      exact ⟨w, List.mem_cons_of_mem _ hw, hopens⟩
    · have hevent := hlast t (hend ▸ List.mem_append_right _ List.mem_cons_self)
      rw [hevent] at ht
      cases ht
      exact ⟨s, List.mem_cons_self, hs⟩

theorem opened_around {run : Body} {tell : Telling} {opened : ScopeId → Program → List Step}
    (htell : ∀ m frame q, advance scope a p = .ok (.inCall m frame) q →
      EndsOpened (tell frame.scope m.body q))
    (hopened : ∀ id q, EndsOpened (opened id q)) :
    EndsOpened (stepsAround run tell scope a opened p) := by
  unfold stepsAround
  cases hadvance : advance scope a p with
  | ok stage q =>
    cases stage with
    | finished flow => exact endsOpened_singleton (by simp)
    | inBody id => exact (endsOpened_singleton (by simp)).append (hopened id q)
    | inCall m frame =>
      refine (htell m frame q hadvance).call ⟨scope, a, rfl⟩ fun t ht => ?_
      unfold leaving at ht
      split at ht
      · obtain ⟨r, -, rfl⟩ := eq_of_mem_step ht
        rfl
      · cases ht
  | error stop q =>
    cases stop with
    | fault cause => exact endsOpened_singleton (by simp)
    | breach v => exact endsOpened_nil
    | unending => exact endsOpened_nil

/-- A run ends no call but those that it has begun. -/
theorem run_opened :
    (∀ n scope a p, EndsOpened (actionSteps (enter n) (bodySteps n) scope a p)) ∧
    ∀ n scope as p, EndsOpened (blockSteps (enter n) (bodySteps n) scope as p) := by
  refine run_induction ?nil ?cons ?body ?plain
  case nil =>
    intro n scope p
    rw [blockSteps]
    exact endsOpened_nil
  case cons =>
    intro n scope a as p ha has
    rw [blockSteps]
    refine ha.append ?_
    unfold following
    split
    · exact has _
    · exact endsOpened_nil
  case body =>
    intro n scope a as p hbody hL
    rw [actionSteps_of_body hbody]
    refine opened_around (fun m frame q hcall => ?_) fun id q => hL id q
    obtain ⟨name, arity, rfl, -⟩ := advance_eq_inCall hcall
    cases hbody
  case plain =>
    intro n scope a p hbody hL
    rw [actionSteps_of_plain hbody]
    refine opened_around (fun m frame q _ => ?_) fun _ _ => endsOpened_nil
    cases n with
    | zero => exact endsOpened_nil
    | succ k => exact hL k rfl frame.scope m.body q

theorem Request.opened_steps (request : Request) (p : Program) : EndsOpened (request.steps p) := by
  cases request with
  | register native =>
    rw [Request.steps, step]
    split
    · exact endsOpened_singleton (by simp)
    · exact endsOpened_nil
  | run n scope actions =>
    rw [Request.steps]
    split
    · refine (run_opened.2 n scope actions p).append ?_
      split
      · exact endsOpened_singleton (by simp)
      · exact endsOpened_nil
    · exact endsOpened_nil

theorem opened_history (requests : List Request) (p : Program) :
    EndsOpened (history requests p) := by
  induction requests generalizing p with
  | nil => exact endsOpened_nil
  | cons request requests ih =>
    unfold history
    refine (request.opened_steps p).append ?_
    split
    · exact ih _
    · exact endsOpened_nil

/-! ## Methods that are made -/

/-- With this step the method is defined, with these parameters. -/
def Step.Defines (s : Step) (params : List Parameter) (m : Method) : Prop :=
  ∃ stage, s.event = .advanced m.scope (.defineMethod m.name params m.body) stage ∧
    m = definedMethod s.before m.scope m.name params m.body

/-- The method was defined by one of the steps. -/
def DefinedBy (steps : List Step) (m : Method) : Prop := ∃ s ∈ steps, ∃ params, s.Defines params m

theorem DefinedBy.append (h : DefinedBy steps m) : DefinedBy (steps ++ steps') m := by
  obtain ⟨s, hs, hdefines⟩ := h
  exact ⟨s, List.mem_append_left _ hs, hdefines⟩

variable {P : Method → Prop}

theorem constructs_eachMethod (hp : p.Holds (·.EachMethod P)) :
    p.Constructs (·.EachMethod P) :=
  constructs_of_fill (fun _ => Value.eachMethod_object.2)
    fun _ _ _ _ _ _ _ v hv => hp.eachMethod _ v hv

theorem defined_of_advance {name : Name} {params : List Parameter} {body : List Action}
    {stage : Stage} (h : advance scope (.defineMethod name params body) p = .ok stage q) :
    Defined p scope name params body q := by
  have hends : Ends (advance scope (.defineMethod name params body)) p
      (fun _ q => Defined p scope name params body q) fun _ _ => True := by
    refine ends_advance (fun _ => trivial) fun _ _ => ?_
    simp only [dispatch, ends_bind, ends_pure]
    exact defineMethod_stores.imp (fun _ _ hq => hq.2) fun _ _ _ => trivial
  exact hends.of_ok h

theorem advance_holds_methods {stage : Stage} (hp : Healthy p) (ho : p.scopes.owns scope = true)
    (hfree : a.methodFree = true) (hheld : p.Holds (·.EachMethod P))
    (hadvance : advance scope a p = .ok stage q)
    (hdefined : ∀ name params body, a = .defineMethod name params body →
      P (definedMethod p scope name params body)) : q.Holds (·.EachMethod P) := by
  have hliterals : ∀ v ∈ a.literals, v.Loose (·.EachMethod P) := fun v hv =>
    Or.inr (Action.eachMethod_literals hfree v hv)
  cases (advance_ends hp.sound ho).of_ok hadvance with
  | finished hperforms =>
    by_cases hdefine : ∃ name params body, a = .defineMethod name params body
    · obtain ⟨name, params, body, rfl⟩ := hdefine
      obtain ⟨r, hbound, rfl⟩ := (defined_of_advance hadvance).bound
      have hstored := (defaults_stored p [] params).holds (hereditary_eachMethod P) hheld hliterals
      have hr := hbound.holds hstored (Or.inr (hdefined name params body rfl))
      exact ⟨hr.memory, hr.returned⟩
    · refine hperforms.holds (hereditary_eachMethod P) hheld
        (Host.conveys_eachMethod hp.sound.host P) (constructs_eachMethod hheld) hliterals ?_
      exact fun name params body _ ha => absurd ⟨name, params, body, ha⟩ hdefine
  | inBody _ hopens =>
    obtain ⟨_, _, _, -, rfl⟩ := hopens.opened
    exact ⟨hheld.memory, hheld.returned⟩
  | inCall _ hopen _ => exact ((openCall_holds (hereditary_eachMethod P) hheld).of_ok hopen).1

/-- A step hands on what was there, or defines a method. When a call ends, what it puts back is
handed on, too. -/
theorem Happens.holds_methods (h : Happens s) (hs : s.Sound)
    (hheld : s.before.Holds (·.EachMethod P)) (hdefined : ∀ params m, s.Defines params m → P m)
    (hback : ∀ m frame, s.event = .left m frame → frame.returned.EachMethod P) :
    s.after.Holds (·.EachMethod P) := by
  have hC := hereditary_eachMethod P
  cases h with
  | @registered native p q h =>
    cases hs.effect (.registered h) with
    | registered hbound => exact hbound.holds hheld (Or.inr (hC.simple _ rfl))
    | taken => exact hheld
  | @advanced scope a stage p q h =>
    refine advance_holds_methods hs.before hs.admissible.1 hs.admissible.2 hheld h ?_
    rintro name params body rfl
    exact hdefined params _ ⟨stage, rfl, rfl⟩
  | @refused scope a cause p q h =>
    have hrefuses : Refuses p a q :=
      (advance_ends hs.before.sound hs.admissible.1).of_error h
    exact hrefuses.holds hC hheld fun v hv =>
      Or.inr (Action.eachMethod_literals hs.admissible.2 v hv)
  | @left m frame outcome p q h =>
    refine Ends.at_end ?_ h
    exact (closeCall_holds hC hheld (Or.inr (hback m frame rfl))).imp (fun _ _ hq => hq)
      fun _ _ hq _ _ => hq
  | answered => exact ⟨hheld.memory, Or.inr trivial⟩

theorem Happens.advance_eq {stage : Stage} (h : Happens s)
    (hevent : s.event = .advanced scope a stage) :
    advance scope a s.before = .ok stage s.after := by
  cases h with
  | advanced h =>
    cases hevent
    exact h
  | _ => cases hevent

/-- A call that begins hands on what the slot for returned values held. -/
theorem Happens.returned_methods (h : Happens s) (hheld : s.before.Holds (·.EachMethod P))
    (hs : s.Opens m frame) : frame.returned.EachMethod P := by
  obtain ⟨scope, a, hevent⟩ := hs
  obtain ⟨_, _, -, -, -, hopen⟩ := advance_eq_inCall (h.advance_eq hevent)
  have hreturned := ((openCall_holds (hereditary_eachMethod P) hheld).of_ok hopen).2
  rwa [Value.loose_eachMethod] at hreturned

/-! ## Histories -/

/-- Each method that is held in a state of a history was defined by one of the steps before it, and
so was each method that an open call has taken from the slot for returned values. -/
theorem held_methods_defined {requests : List Request} {earlier later : List Step}
    (hp : Healthy p) (hheld : p.Holds (·.EachMethod fun _ => False))
    (hfree : ∀ request ∈ requests, request.methodFree = true)
    (hsplit : history requests p = earlier ++ later) :
    (final p earlier).Holds (·.EachMethod (DefinedBy earlier)) ∧
      ∀ s ∈ earlier, ∀ m frame, s.Opens m frame →
        frame.returned.EachMethod (DefinedBy earlier) := by
  -- the steps are looked at from the last one back, since what is defined by then depends on all
  induction earlier using List.reverseRecOn generalizing later with
  | nil => exact ⟨hheld.mono (Value.EachMethod.mono fun _ h => h.elim), fun _ hs => (by cases hs)⟩
  | append_singleton earlier s ih =>
    have hsplit' : history requests p = earlier ++ s :: later := by simpa using hsplit
    obtain ⟨hholds, hframes⟩ := ih hsplit'
    have hmem : s ∈ history requests p := hsplit' ▸ List.mem_append_right _ List.mem_cons_self
    have hbefore : s.before = final p earlier := by
      have hlinked := (linked_history requests p).1
      rw [hsplit', linked_append] at hlinked
      exact hlinked.2.1
    have hmono : ∀ v : Value, v.EachMethod (DefinedBy earlier) →
        v.EachMethod (DefinedBy (earlier ++ [s])) := Value.EachMethod.mono fun _ h => h.append
    have hbegin : s.before.Holds (·.EachMethod (DefinedBy (earlier ++ [s]))) :=
      hbefore ▸ hholds.mono hmono
    have hhappens := (linked_history requests p).2 s hmem
    constructor
    · rw [final_append]
      refine hhappens.holds_methods (sound_history hp hfree s hmem) hbegin
        (fun params m hdefines => ?_) fun m frame hleft => ?_
      · exact ⟨s, List.mem_append_right _ List.mem_cons_self, params, hdefines⟩
      · obtain ⟨t, ht, hopens⟩ := opened_history requests p earlier s later hsplit' m frame hleft
        exact hmono _ (hframes t ht m frame hopens)
    · intro t ht m frame hopens
      rcases List.mem_append.1 ht with ht | ht
      · exact hmono _ (hframes t ht m frame hopens)
      · cases List.mem_singleton.1 ht
        exact hhappens.returned_methods hbegin hopens

/-- A new program holds no methods, so all that it comes to hold were defined. -/
theorem new_methods_defined {arena tree : StoreId} {host : Host} {mode : Mode} {sink : Sink}
    (htree : tree ≠ .shared) (hhost : host.MakesNoMethod) {requests : List Request}
    (hfree : ∀ request ∈ requests, request.methodFree = true) {earlier later : List Step}
    (hsplit : history requests (.new arena tree host mode sink) = earlier ++ later) :
    (final (.new arena tree host mode sink) earlier).Holds (·.EachMethod (DefinedBy earlier)) :=
  (held_methods_defined (Reachable.new htree hhost).atRest.healthy (.new trivial) hfree hsplit).1

end ActionMachine.Exec
