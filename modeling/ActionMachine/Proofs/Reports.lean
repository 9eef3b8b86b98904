import ActionMachine.Proofs.Atomicity
import ActionMachine.Proofs.Blocks
import ActionMachine.Proofs.History

/-
  What the report of a failed run says. `FailsAt` follows a failing run inwards, through the bodies
  of namespaces, classes and called methods, to the action that failed by itself, and lists the
  bodies it stands in from the inside out (`Context`). It does not look at the report. The report is
  then read off it: the code and the message of the innermost action, behind one note for each body
  around it, under the index and the name of the action of the outermost block. Nothing is assumed
  of the program.
-/

namespace ActionMachine

/-- A body that was running when something inside failed: its place, and the action of it that did
not come to its end. -/
structure Context where
  place : Place
  index : Nat
  action : Action

/-- What the report says of a body around the failure. -/
def Context.note (c : Context) : String :=
  "in " ++ c.place.text ++ ", action #" ++ toString c.index ++ " (" ++ c.action.label ++ "): "

namespace Fault

/-- No fault has the code of success. -/
theorem code_ne_noError (f : Fault) : f.code ≠ .noError := by
  induction f with
  | within place index action cause ih => exact ih
  | _ => rintro ⟨⟩

/-- The fault as it is reported from inside the bodies, innermost first. -/
def wrapped (leaf : Fault) (contexts : List Context) : Fault :=
  contexts.foldl (fun cause c => .within c.place c.index c.action.label cause) leaf

theorem wrapped_append (leaf : Fault) (contexts : List Context) (c : Context) :
    leaf.wrapped (contexts ++ [c]) =
      .within c.place c.index c.action.label (leaf.wrapped contexts) := List.foldl_append

theorem code_wrapped (leaf : Fault) (contexts : List Context) :
    (leaf.wrapped contexts).code = leaf.code := by
  induction contexts generalizing leaf with
  | nil => rfl
  | cons c contexts ih => exact ih _

theorem message_wrapped (leaf : Fault) (contexts : List Context) :
    (leaf.wrapped contexts).message =
      contexts.foldl (fun message c => c.note ++ message) leaf.message := by
  induction contexts generalizing leaf with
  | nil => rfl
  | cons c contexts ih => exact ih _

end Fault

namespace Exec

variable {n i : Nat} {scope : ScopeId} {p q r : Program} {a b : Action} {as : List Action}
  {contexts : List Context} {cause leaf : Fault} {failure : Failure} {run : Body}

/-! ## Failing runs -/

/-- `FailsAt n scope as p i a contexts leaf`: a run of the block from `p`, with `n` calls to nest,
fails at its action `a`, the one at `i`, because an action inside the bodies `contexts`, from the
inside out, fails by itself with the fault `leaf`. It is `a` itself if there are none. -/
inductive FailsAt :
    Nat → ScopeId → List Action → Program → Nat → Action → List Context → Fault → Prop where
  | here {n : Nat} {scope : ScopeId} {a : Action} {as : List Action} {p q : Program} {leaf : Fault}
      (h : advance scope a p = .error (.fault leaf) q) : FailsAt n scope (a :: as) p 0 a [] leaf
  | later {n i : Nat} {scope : ScopeId} {a b : Action} {as : List Action} {p q : Program}
      {contexts : List Context} {leaf : Fault} (h : attempt (enter n) scope a p = .ok .next q)
      (hf : FailsAt n scope as q i b contexts leaf) :
      FailsAt n scope (a :: as) p (i + 1) b contexts leaf
  | inNamespace {n i : Nat} {scope id : ScopeId} {name : Name} {body as : List Action} {b : Action}
      {p q : Program} {contexts : List Context} {leaf : Fault}
      (h : openNamespace scope name p = .ok id q) (hf : FailsAt n id body q i b contexts leaf) :
      FailsAt n scope (.defineNamespace name body :: as) p 0 (.defineNamespace name body)
        (contexts ++ [⟨.nameSpace name, i, b⟩]) leaf
  | inClass {n i : Nat} {scope id : ScopeId} {name : Name} {body as : List Action} {b : Action}
      {p q : Program} {contexts : List Context} {leaf : Fault}
      (h : openClass scope name p = .ok id q) (hf : FailsAt n id body q i b contexts leaf) :
      FailsAt n scope (.defineClass name body :: as) p 0 (.defineClass name body)
        (contexts ++ [⟨.classBody name, i, b⟩]) leaf
  | inCall {n i arity : Nat} {scope : ScopeId} {name : Name} {as : List Action} {m : Method}
      {frame : Frame} {b : Action} {p q : Program} {contexts : List Context} {leaf : Fault}
      (harity : arity ≤ p.memory.stack.size) (hcallee : callee scope name p = .ok (.method m) p)
      (hopen : openCall m arity p = .ok frame q)
      (hf : FailsAt n frame.scope m.body q i b contexts leaf) :
      FailsAt (n + 1) scope (.call name arity :: as) p 0 (.call name arity)
        (contexts ++ [⟨.method m.name, i, b⟩]) leaf

/-- The action of the outermost block is the one that the index says. -/
theorem FailsAt.getElem? (h : FailsAt n scope as p i a contexts leaf) : as[i]? = some a := by
  induction h with
  | later _ _ ih => exact ih
  | _ => rfl

/-- The innermost action is one that the run comes to. -/
theorem FailsAt.meets (h : FailsAt n scope as p i a contexts leaf) :
    ∃ k s b q r, Meets n scope as p k s b q ∧ advance s b q = .error (.fault leaf) r := by
  induction h with
  | here h => exact ⟨_, _, _, _, _, .here, h⟩
  | later h _ ih =>
    obtain ⟨k, s, b, q, r, hm, hleaf⟩ := ih
    exact ⟨k, s, b, q, r, .later h hm, hleaf⟩
  | inNamespace h _ ih =>
    obtain ⟨k, s, b, q, r, hm, hleaf⟩ := ih
    exact ⟨k, s, b, q, r, .inNamespace h hm, hleaf⟩
  | inClass h _ ih =>
    obtain ⟨k, s, b, q, r, hm, hleaf⟩ := ih
    exact ⟨k, s, b, q, r, .inClass h hm, hleaf⟩
  | inCall harity hcallee hopen _ ih =>
    obtain ⟨k, s, b, q, r, hm, hleaf⟩ := ih
    exact ⟨k, s, b, q, r, .inCall harity hcallee hopen hm, hleaf⟩

/-! ## From the failure to the report -/

/-- The computation does not succeed, and a fault that it reports is this one. -/
def Reports {ε α : Type} (x : Exec ε α) (p : Program) (cause : ε) : Prop :=
  Ends x p (fun _ _ => False) fun s _ => ∀ c, s = .fault c → c = cause

theorem Reports.eq {ε α : Type} {x : Exec ε α} {c cause : ε} (h : Reports x p cause)
    (hx : x p = .error (.fault c) q) : c = cause := h.of_error hx c rfl

/-- A computation that does what another one does reports what that reports. -/
theorem Reports.of_eq {ε α : Type} {x y : Exec ε α} {cause : ε} (h : Reports y q cause)
    (hxy : x p = y q) : Reports x p cause := by
  unfold Reports Ends at h ⊢
  rw [hxy]
  exact h

theorem reports_inside {place : Place} {x : Exec Failure Flow} (h : Reports x p failure) :
    Reports (inside place x) p (failure.within place) := by
  rw [Reports, ends_inside]
  refine Ends.imp h (fun _ _ hnot => hnot) fun s q hs c hc => ?_
  cases s with
  | fault d =>
    cases hc
    rw [hs d rfl]
  | breach v => cases hc
  | unending => cases hc

/-- The end of a call fails if the body did, and reports nothing but that. -/
theorem closeCall_ends (frame : Frame) (name : Name) (outcome : Except Failure Flow) :
    Ends (closeCall frame name outcome) p (fun _ _ => ∃ flow, outcome = .ok flow) fun s _ =>
      ∀ c, s = .fault c → ∃ failure, outcome = .error failure ∧
        c = failure.within (.method name) := by
  simp only [closeCall, leave, ends_bind, ends_get, ends_modify, ends_liftViolation,
    ends_setScopes, ends_ite, ends_pure]
  refine ⟨fun b _ => ?_, fun v _ c hc => by cases hc⟩
  cases outcome with
  | ok flow => exact ⟨fun _ => ⟨flow, rfl⟩, fun _ => ⟨flow, rfl⟩⟩
  | error failure =>
    exact ⟨fun _ c hc => ⟨failure, rfl, (Stop.fault.inj hc).symm⟩,
      fun _ c hc => ⟨failure, rfl, (Stop.fault.inj hc).symm⟩⟩

theorem reports_inCall {m : Method} {frame : Frame}
    (h : Reports (run frame.scope m.body) p failure) :
    Reports (complete run a (.inCall m frame)) p (failure.within (.method m.name)) := by
  simp only [Reports, complete, ends_bind, ends_settle, ends_pure]
  refine Ends.imp h (fun _ _ hnot => hnot.elim) fun s q hs => ?_
  cases s with
  | fault c =>
    obtain rfl := hs c rfl
    refine (closeCall_ends frame m.name (.error c)).imp (fun flow r hok => ?_) ?_
    · obtain ⟨_, hok⟩ := hok
      cases hok
    · rintro s r hs d hd
      obtain ⟨_, hc, rfl⟩ := hs d hd
      cases hc
      rfl
  | breach v => rintro d ⟨⟩
  | unending => rintro d ⟨⟩

theorem reports_cons {index : Nat} (h : Reports (attempt run scope a) p cause) :
    Reports (performAll run scope index (a :: as)) p ⟨index, a.label, cause⟩ := by
  rw [Reports, performAll_cons]
  simp only [ends_bind, ends_report]
  refine Ends.imp h (fun _ _ hnot => hnot.elim) fun s q hs c hc => ?_
  cases s with
  | fault d =>
    cases hc
    rw [hs d rfl]
  | breach v => cases hc
  | unending => cases hc

theorem attempt_of_openCall {name : Name} {arity : Nat} {m : Method} {frame : Frame}
    (harity : arity ≤ p.memory.stack.size) (hcallee : callee scope name p = .ok (.method m) p)
    (hopen : openCall m arity p = .ok frame q) :
    attempt run scope (.call name arity) p =
      complete run (.call name arity) (.inCall m frame) q := by
  have hadvance : advance scope (.call name arity) p = .ok (.inCall m frame) q := by
    rw [advance_eq_dispatch (a := .call name arity) harity rfl, dispatch, bind_of_ok hcallee]
    exact bind_of_ok hopen
  rw [attempt_eq, bind_of_ok hadvance]

/-- What a block reports when it fails. -/
theorem FailsAt.reports (h : FailsAt n scope as p i a contexts leaf) (index : Nat) :
    Reports (performAll (enter n) scope index as) p
      ⟨index + i, a.label, leaf.wrapped contexts⟩ := by
  induction h generalizing index with
  | @here n scope a as p q leaf h =>
    refine reports_cons ?_
    rw [attempt_eq, Reports, ends_bind, ends_of_error h]
    exact fun c hc => (Stop.fault.inj hc).symm
  | @later n i scope a b as p q contexts leaf h _ ih =>
    rw [Nat.add_comm i, ← Nat.add_assoc]
    exact (ih (index + 1)).of_eq (performAll_cons_of_next h)
  | inNamespace h _ ih =>
    refine reports_cons ?_
    rw [Fault.wrapped_append]
    have hbody := ih 0
    rw [Nat.zero_add] at hbody
    exact (reports_inside hbody).of_eq (attempt_of_openNamespace h)
  | inClass h _ ih =>
    refine reports_cons ?_
    rw [Fault.wrapped_append]
    have hbody := ih 0
    rw [Nat.zero_add] at hbody
    exact (reports_inside hbody).of_eq (attempt_of_openClass h)
  | @inCall n i arity scope name as m frame b p q contexts leaf harity hcallee hopen _ ih =>
    refine reports_cons ?_
    rw [Fault.wrapped_append]
    have hbody := ih 0
    rw [Nat.zero_add] at hbody
    have hcall : Reports (enter (n + 1) frame.scope m.body) q _ := hbody
    exact (reports_inCall hcall).of_eq (attempt_of_openCall harity hcallee hopen)

/-! ## From the report to the failure -/

theorem inside_eq_fault {place : Place} {x : Exec Failure Flow}
    (h : inside place x p = .error (.fault cause) q) : ∃ f r, x p = .error (.fault f) r := by
  cases hx : x p with
  | ok flow r =>
    rw [inside_of_ok hx] at h
    cases h
  | error s r =>
    rw [inside_of_error hx] at h
    cases s with
    | fault f => exact ⟨f, r, rfl⟩
    | breach v => cases h
    | unending => cases h

theorem inCall_eq_fault {m : Method} {frame : Frame}
    (h : complete run a (.inCall m frame) p = .error (.fault cause) q) :
    ∃ f r, run frame.scope m.body p = .error (.fault f) r := by
  have hends : Ends (complete run a (.inCall m frame)) p (fun _ _ => True) fun s _ =>
      (∃ c, s = .fault c) → ∃ f r, run frame.scope m.body p = .error (.fault f) r := by
    simp only [complete, ends_bind, ends_settle, ends_pure]
    refine (Ends.anyhow _ _).with_run.imp (fun flow r _ => ?_) fun s r hs => ?_
    · refine (closeCall_ends frame m.name (.ok flow)).imp (fun _ _ _ => trivial) ?_
      rintro s t hs ⟨c, hc⟩
      obtain ⟨_, hnot, -⟩ := hs c hc
      cases hnot
    · cases s with
      | fault f =>
        exact (Ends.anyhow _ _).imp (fun _ _ _ => trivial) fun _ _ _ _ => ⟨f, r, hs.1⟩
      | breach v => rintro ⟨_, ⟨⟩⟩
      | unending => rintro ⟨_, ⟨⟩⟩
  exact hends.of_error h ⟨cause, rfl⟩

/-- An action fails by itself, or it has reached a body and what is left of it fails. -/
theorem attempt_eq_fault (h : attempt run scope a p = .error (.fault cause) q) :
    advance scope a p = .error (.fault cause) q ∨
      ∃ stage r, Reaches scope p a stage r ∧ complete run a stage r = .error (.fault cause) q := by
  rw [attempt_eq] at h
  cases hadvance : advance scope a p with
  | error s r =>
    rw [bind_of_error hadvance] at h
    cases h
    exact .inl rfl
  | ok stage r =>
    rw [bind_of_ok hadvance] at h
    exact .inr ⟨stage, r, advance_reaches.of_ok hadvance, h⟩

/-- Every failure has a way to it. -/
theorem exists_failsAt :
    (∀ n scope a p, ∀ cause q, attempt (enter n) scope a p = .error (.fault cause) q →
      ∀ as, ∃ contexts leaf, FailsAt n scope (a :: as) p 0 a contexts leaf) ∧
    ∀ n scope as p, ∀ index failure q,
      performAll (enter n) scope index as p = .error (.fault failure) q →
      ∃ i a contexts leaf, FailsAt n scope as p i a contexts leaf := by
  refine run_induction ?nil ?cons ?body ?plain
  case nil =>
    intro n scope p index failure q h
    rw [performAll] at h
    cases h
  case cons =>
    intro n scope a as p ha has index failure q h
    cases hx : attempt (enter n) scope a p with
    | ok flow r =>
      cases flow with
      | next =>
        rw [performAll_cons_of_next hx] at h
        obtain ⟨i, b, contexts, leaf, hf⟩ := has r _ _ _ h
        exact ⟨i + 1, b, contexts, leaf, .later hx hf⟩
      | ret =>
        rw [performAll_cons_of_ret hx] at h
        cases h
    | error s r =>
      rw [performAll_cons_of_error hx] at h
      cases s with
      | fault cause =>
        obtain ⟨contexts, leaf, hf⟩ := ha _ _ hx as
        exact ⟨0, a, contexts, leaf, hf⟩
      | breach v => cases h
      | unending => cases h
  case body =>
    intro n scope a body p hbody hL cause q h as
    rcases attempt_eq_fault h with h | ⟨stage, r, hreaches, h⟩
    · exact ⟨[], cause, .here h⟩
    cases hreaches with
    | finished => cases h
    | inNamespace hopen =>
      cases hbody
      obtain ⟨f, t, ht⟩ := inside_eq_fault h
      obtain ⟨i, b, contexts, leaf, hf⟩ := hL _ _ _ _ _ ht
      exact ⟨_, leaf, .inNamespace hopen hf⟩
    | inClass hopen =>
      cases hbody
      obtain ⟨f, t, ht⟩ := inside_eq_fault h
      obtain ⟨i, b, contexts, leaf, hf⟩ := hL _ _ _ _ _ ht
      exact ⟨_, leaf, .inClass hopen hf⟩
    | inCall => cases hbody
  case plain =>
    intro n scope a p hbody hL cause q h as
    rcases attempt_eq_fault h with h | ⟨stage, r, hreaches, h⟩
    · exact ⟨[], cause, .here h⟩
    cases hreaches with
    | finished => cases h
    | inNamespace => cases hbody
    | inClass => cases hbody
    | @inCall name arity m frame _ harity hcallee hopen =>
      obtain ⟨f, t, ht⟩ := inCall_eq_fault h
      cases n with
      | zero => cases ht
      | succ k =>
        obtain ⟨i, b, contexts, leaf, hf⟩ := hL k rfl _ _ _ _ _ _ ht
        exact ⟨_, leaf, .inCall harity hcallee hopen hf⟩

end Exec

open Exec

/-- A failure report keeps the root cause. A run against a live scope that fails has come to an
action that failed by itself, inside some bodies. The report has the code of that failure, which is
never the one of success, the index and the name of the action of the block that it happened in, and
the message of the failure behind one note for each body around it, put in front from the inside
out. -/
theorem report_keeps_root_cause {n : Nat} {scope : ScopeId} {as : List Action} {p q : Program}
    {failure : Failure} (ho : p.scopes.owns scope = true)
    (h : runIn n scope as p = .error (.fault failure) q) :
    (∃ i a contexts leaf, FailsAt n scope as p i a contexts leaf) ∧
    ∀ i a contexts leaf, FailsAt n scope as p i a contexts leaf →
      (∃ k s b r t, Meets n scope as p k s b r ∧ advance s b r = .error (.fault leaf) t) ∧
      failure.fault.code = leaf.code ∧ failure.fault.code ≠ .noError ∧
      failure.index = i ∧ as[i]? = some a ∧ failure.action = a.label ∧
      failure.fault.message =
        contexts.foldl (fun message c => c.note ++ message) leaf.message := by
  obtain ⟨r, hblock⟩ : ∃ r, block n scope as p = .error (.fault failure) r := by
    rw [runIn_of_owns ho] at h
    cases hblock : block n scope as p with
    | ok flow r =>
      rw [hblock] at h
      cases h
    | error s r =>
      rw [hblock] at h
      cases s with
      | fault f =>
        cases h
        exact ⟨r, rfl⟩
      | breach v => cases h
      | unending => cases h
  refine ⟨exists_failsAt.2 n scope as p 0 failure r hblock, fun i a contexts leaf hf => ?_⟩
  have hreport := (hf.reports 0).eq hblock
  rw [Nat.zero_add] at hreport
  subst hreport
  exact ⟨hf.meets, Fault.code_wrapped leaf contexts, Fault.code_ne_noError _, rfl, hf.getElem?, rfl,
    Fault.message_wrapped leaf contexts⟩

/-- A method of a namespace that swaps what is not there, called in the namespace. -/
def swapInNamespace : List Action :=
  [.pushLiteral (.int 7),
    .defineNamespace "outer" [.defineMethod "flip" [] [.swap 2], .call "flip" 0]]

theorem swapInNamespace_report :
    ∃ failure q, runIn 2 .global swapInNamespace .silent = .error (.fault failure) q ∧
      failure.index = 1 ∧ failure.action = "DefineNamespace" ∧
      failure.fault.code = .stackUnderflow ∧
      failure.fault.message = "in namespace `outer`, action #1 (Call): " ++
        ("in method `flip`, action #0 (Swap): " ++ "Swap needs 2 operand(s), stack holds 1") := by
  obtain ⟨q, h⟩ : ∃ q, runIn 2 .global swapInNamespace .silent =
      .error (.fault ⟨1, "DefineNamespace", .within (.nameSpace "outer") 1 "Call"
        (.within (.method "flip") 0 "Swap" (.stackUnderflow "Swap" 2 1))⟩) q := ⟨_, rfl⟩
  have hfails : FailsAt 2 .global swapInNamespace .silent 1 _
      [⟨.method "flip", 0, .swap 2⟩, ⟨.nameSpace "outer", 1, .call "flip" 0⟩]
      (.stackUnderflow "Swap" 2 1) :=
    .later rfl (@FailsAt.inNamespace _ _ _ _ _ _ _ _ _ _ [⟨.method "flip", 0, .swap 2⟩] _ rfl
      (.later rfl (@FailsAt.inCall 1 0 _ _ _ _ ⟨"flip", .empty, ⟨⟨2⟩, 2⟩, [.swap 2]⟩ _ (.swap 2)
        _ _ [] _ (Nat.zero_le _) rfl rfl (.here rfl))))
  obtain ⟨-, hreport⟩ := report_keeps_root_cause rfl h
  obtain ⟨-, hcode, -, hindex, -, haction, hmessage⟩ := hreport _ _ _ _ hfails
  exact ⟨_, q, h, hindex, haction, hcode, hmessage⟩

end ActionMachine
