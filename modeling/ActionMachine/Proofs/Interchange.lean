import ActionMachine.Native.Catalogue
import ActionMachine.Proofs.Mirroring
import ActionMachine.Proofs.Requests

/-
  Operators that push their result and operators that work in place may be exchanged in any block.
  Where this leaves methods alone, a run leaves the same program (`runIn_of_levelled_eq`); where it
  goes into methods, the programs left differ in the bodies of methods only, as the programs before
  may (`runIn_endAlike`). For that native functions must not look into bodies: one that does can
  answer differently (`inspected_body_tells_forms`).
-/

namespace ActionMachine

/-! ## Hosts that see no bodies -/

namespace Arguments

variable (slots : SlotSet) (read : Reader)

theorem get?_pushing (name : Name) :
    get? ⟨slots, read.pushing⟩ name = (get? ⟨slots, read⟩ name).map Value.pushing := by
  unfold get?
  cases (slots.find name).toOption <;> rfl

theorem at?_pushing (position : Nat) :
    at? ⟨slots, read.pushing⟩ position = (at? ⟨slots, read⟩ position).map Value.pushing := by
  unfold at?
  show Option.bind (slots.get? position) _ = Option.map _ (Option.bind (slots.get? position) _)
  cases slots.get? position <;> rfl

theorem toList_pushing :
    toList ⟨slots, read.pushing⟩ = (toList ⟨slots, read⟩).map Value.pushing := by
  unfold toList
  rw [List.map_filterMap]
  congr 1
  funext position
  exact at?_pushing slots read position

end Arguments

namespace Native

theorem getD_pushing (o : Option Value) :
    (o.map Value.pushing).getD .none = (o.getD .none).pushing := by
  cases o <;> rfl

theorem isYes_pushing (o : Option Value) : isYes (o.map Value.pushing) = isYes o := by
  cases o with
  | none => rfl
  | some v => cases v <;> rfl

theorem sum_pushing (slots : SlotSet) (read : Reader) :
    sum ⟨slots, read.pushing⟩ = (sum ⟨slots, read⟩).pushing := by
  unfold sum
  rw [Arguments.get?_pushing, Arguments.get?_pushing]
  cases Arguments.get? ⟨slots, read⟩ "a" with
  | none => rfl
  | some v =>
    cases v with
    | int a =>
      cases Arguments.get? ⟨slots, read⟩ "b" with
      | none => rfl
      | some w => cases w <;> rfl
    | _ => rfl

theorem choose_pushing (slots : SlotSet) (read : Reader) :
    choose ⟨slots, read.pushing⟩ = (choose ⟨slots, read⟩).pushing := by
  simp only [choose, Arguments.at?_pushing, isYes_pushing]
  split <;> exact getD_pushing _

theorem firstDisplay_pushing (slots : SlotSet) (read : Reader) :
    firstDisplay ⟨slots, read.pushing⟩ = (firstDisplay ⟨slots, read⟩).pushing := by
  unfold firstDisplay
  rw [Arguments.at?_pushing]
  cases Arguments.at? ⟨slots, read⟩ 0 with
  | none => rfl
  | some v => exact congrArg Value.str v.display_pushing

theorem catalogue_pushing (entry : String) (slots : SlotSet) (read : Reader) :
    catalogue entry ⟨slots, read.pushing⟩ = (catalogue entry ⟨slots, read⟩).pushing := by
  unfold catalogue
  split
  case h_4 => exact sum_pushing slots read
  case h_7 => rw [Arguments.at?_pushing, getD_pushing]
  case h_8 => rw [Arguments.at?_pushing, getD_pushing, Arguments.size, Arguments.size]
  case h_9 => rw [Arguments.get?_pushing, getD_pushing]
  case h_10 => rw [Value.pushing_list, Arguments.toList_pushing]
  case h_11 =>
    rw [Value.pushing_list, Arguments.toList_pushing, List.map_map, List.map_map]
    simp only [Function.comp_def, Value.kind_pushing, Value.pushing]
  case h_12 => exact firstDisplay_pushing slots read
  case h_13 =>
    rw [Value.pushing_list, List.map_map]
    rfl
  case h_14 => exact choose_pushing slots read
  case h_15 =>
    simp only [firstReference]
    cases slots.get? 0 <;> rfl
  all_goals rfl

/-- No function of the catalogue looks into a body. -/
theorem catalogue_blind : Host.Blind catalogue := by
  intro entry slots read read' h
  rw [← catalogue_pushing, ← catalogue_pushing, h]

end Native

/-! ## Programs that differ in the form of operators -/

/-- The programs differ in the bodies of methods only, and there in the form of operators. -/
structure Program.Alike (p q : Program) : Prop where
  memory : p.memory.pushing = q.memory.pushing
  scopes : p.scopes = q.scopes
  returned : p.returned.pushing = q.returned.pushing
  mode : p.mode = q.mode
  sink : p.sink = q.sink
  callDepth : p.callDepth = q.callDepth
  lastTypeId : p.lastTypeId = q.lastTypeId
  host : p.host = q.host

theorem Program.alike_iff {p q : Program} :
    p.Alike q ↔ p.pushing = q.pushing ∧ p.host = q.host := by
  constructor
  · rintro ⟨hmemory, hscopes, hreturned, hmode, hsink, hdepth, htype, hhost⟩
    refine ⟨?_, hhost⟩
    simp only [pushing, hmemory, hscopes, hreturned, hmode, hsink, hdepth, htype, hhost]
  · rintro ⟨h, hhost⟩
    obtain ⟨hmemory, hscopes, hreturned, hmode, hsink, hdepth, htype, -⟩ := Program.mk.inj h
    exact ⟨hmemory, hscopes, hreturned, hmode, hsink, hdepth, htype, hhost⟩

/-- The same action failed with the same code, and other names of operators are all that the reports
differ in. -/
structure Failure.Alike (f g : Failure) : Prop where
  index : f.index = g.index
  code : f.fault.code = g.fault.code
  blurred : f.blurred = g.blurred

theorem Failure.alike_of_blurred {f g : Failure} (h : f.blurred = g.blurred) : f.Alike g := by
  obtain ⟨hindex, -, hfault⟩ := Failure.mk.inj h
  refine ⟨hindex, ?_, h⟩
  rw [← f.fault.code_blurred, hfault, g.fault.code_blurred]

/-- Two runs ended alike: with the same answer, but for the bodies of its methods, or with failures
that are alike. -/
inductive EndAlike : EStateM.Result (Stop Failure) Program Value →
    EStateM.Result (Stop Failure) Program Value → Prop where
  | answer {v w : Value} {p q : Program} (hv : v.pushing = w.pushing)
      (hfree : v.methodFree = true → v = w) (hpq : p.Alike q) : EndAlike (.ok v p) (.ok w q)
  | failure {f g : Failure} {p q : Program} (hfg : f.Alike g) (hpq : p.Alike q) :
      EndAlike (.error (.fault f) p) (.error (.fault g) q)
  | breach {violation : Violation} {p q : Program} (hpq : p.Alike q) :
      EndAlike (.error (.breach violation) p) (.error (.breach violation) q)
  | unending {p q : Program} (hpq : p.Alike q) :
      EndAlike (.error .unending p) (.error .unending q)

namespace Exec

/-- Two runs that one run mirrors end alike. -/
theorem Mirrored.endAlike {host : Host}
    {left right middle : EStateM.Result (Stop Failure) Program Value}
    (hleft : Mirrored Failure.blurred (fun v w => w = v.pushing) host left middle)
    (hright : Mirrored Failure.blurred (fun v w => w = v.pushing) host right middle) :
    EndAlike left right := by
  have halike : ∀ {p q : Program}, p.host = host → q.host = host → p.pushing = q.pushing →
      p.Alike q := fun hp hq h => Program.alike_iff.2 ⟨h, hp.trans hq.symm⟩
  cases hleft with
  | ok hl hm hv hp =>
    cases hright with
    | ok hr hm' hw hq =>
      obtain ⟨hanswer, hprogram⟩ := EStateM.Result.ok.inj (hm.symm.trans hm')
      subst hl hr hv hw
      exact .answer hanswer (Value.eq_of_pushing_eq hanswer) (halike hp hq hprogram)
    | fault _ hm' | breach _ hm' | unending _ hm' => cases hm.symm.trans hm'
  | fault hl hm hcause hp =>
    cases hright with
    | fault hr hm' hcause' hq =>
      obtain ⟨hstop, hprogram⟩ := EStateM.Result.error.inj (hm.symm.trans hm')
      cases hstop
      subst hl hr
      exact .failure (Failure.alike_of_blurred (hcause.trans hcause'.symm)) (halike hp hq hprogram)
    | ok _ hm' | breach _ hm' | unending _ hm' => cases hm.symm.trans hm'
  | breach hl hm hp =>
    cases hright with
    | breach hr hm' hq =>
      obtain ⟨hstop, hprogram⟩ := EStateM.Result.error.inj (hm.symm.trans hm')
      cases hstop
      subst hl hr
      exact .breach (halike hp hq hprogram)
    | ok _ hm' | fault _ hm' | unending _ hm' => cases hm.symm.trans hm'
  | unending hl hm hp =>
    cases hright with
    | unending hr hm' hq =>
      obtain ⟨-, hprogram⟩ := EStateM.Result.error.inj (hm.symm.trans hm')
      subst hl hr
      exact .unending (halike hp hq hprogram)
    | ok _ hm' | fault _ hm' | breach _ hm' => cases hm.symm.trans hm'

theorem runIn_endAlike {p q : Program} (hpq : p.Alike q) (hhost : p.host.Blind)
    {as bs : List Action} (has : Action.allPushing as = Action.allPushing bs) (n : Nat)
    (scope : ScopeId) : EndAlike (runIn n scope as p) (runIn n scope bs q) := by
  have hp := runIn_mirrors n scope as p hhost
  have hq := runIn_mirrors n scope bs q (hpq.host ▸ hhost)
  rw [has, (Program.alike_iff.1 hpq).1] at hp
  rw [← hpq.host] at hq
  exact hp.endAlike hq

end Exec

/-! ## Operators outside methods -/

mutual

/-- The action with operators that push, also in bodies of namespaces and classes; methods stay as
they are. -/
def Action.levelled : Action → Action
  | .binaryInPlace op => .binary op
  | .defineNamespace name body => .defineNamespace name (Action.allLevelled body)
  | .defineClass name body => .defineClass name (Action.allLevelled body)
  | action => action

def Action.allLevelled : List Action → List Action
  | [] => []
  | action :: actions => action.levelled :: Action.allLevelled actions

end

theorem Action.blurredLabel_levelled (a : Action) :
    blurredLabel a.levelled.label = blurredLabel a.label := by
  cases a with
  | binaryInPlace op => exact (Action.binaryInPlace op).blurredLabel_pushing
  | _ => rfl

namespace Exec

/-- The outcomes are the same, but for the names of operators in a fault. -/
inductive Retold {ε α : Type} (blur : ε → ε) (left right : EStateM.Result (Stop ε) Program α) :
    Prop where
  | same (h : left = right)
  | fault {c d : ε} {q : Program} (hleft : left = .error (.fault c) q)
      (hright : right = .error (.fault d) q) (h : blur c = blur d)

namespace Retold

variable {ε α β : Type} {blur : ε → ε} {p : Program}
  {left middle right : EStateM.Result (Stop ε) Program α}

theorem symm (h : Retold blur left right) : Retold blur right left := by
  cases h with
  | same h => exact .same h.symm
  | fault hleft hright h => exact .fault hright hleft h.symm

theorem trans (h : Retold blur left middle) (h' : Retold blur middle right) :
    Retold blur left right := by
  cases h with
  | same h => exact h ▸ h'
  | fault hleft hmiddle h =>
    cases h' with
    | same h' => exact .fault hleft (h' ▸ hmiddle) h
    | fault hmiddle' hright h' =>
      cases hmiddle.symm.trans hmiddle'
      exact .fault hleft hright (h.trans h')

theorem bind {x y : Exec ε α} {f g : α → Exec ε β} (h : Retold blur (x p) (y p))
    (hf : ∀ a q, Retold blur (f a q) (g a q)) : Retold blur ((x >>= f) p) ((y >>= g) p) := by
  cases h with
  | same h =>
    cases hx : x p with
    | ok a q =>
      rw [bind_of_ok hx, bind_of_ok (h.symm.trans hx)]
      exact hf a q
    | error s q => exact .same ((bind_of_error hx).trans (bind_of_error (h.symm.trans hx)).symm)
  | fault hleft hright h => exact .fault (bind_of_error hleft) (bind_of_error hright) h

theorem report {x y : Exec Fault α} (h : Retold Fault.blurred (x p) (y p)) (index : Nat)
    {label label' : String} (hlabel : blurredLabel label = blurredLabel label') :
    Retold Failure.blurred (Exec.report index label x p) (Exec.report index label' y p) := by
  have htold : ∀ c d : Fault, c.blurred = d.blurred →
      (Failure.mk index label c).blurred = (Failure.mk index label' d).blurred := fun c d hcd => by
    simp only [Failure.blurred, hlabel, hcd]
  unfold Exec.report
  cases h with
  | same h =>
    rw [← h]
    cases x p with
    | ok a q => exact .same rfl
    | error stop q =>
      cases stop with
      | fault c => exact .fault rfl rfl (htold c c rfl)
      | breach violation => exact .same rfl
      | unending => exact .same rfl
  | fault hleft hright h =>
    rw [hleft, hright]
    exact .fault rfl rfl (htold _ _ h)

/-- What is made of a settled outcome depends on the outcome alone. -/
theorem settle_bind {δ : Type} {x y : Exec ε α} {blur' : δ → δ} {f : Except ε α → Exec δ β}
    (h : Retold blur (x p) (y p))
    (hf : ∀ c d q, blur c = blur d → Retold blur' (f (.error c) q) (f (.error d) q)) :
    Retold blur' ((Exec.settle x >>= f) p) ((Exec.settle y >>= f) p) := by
  cases h with
  | same h =>
    have hsettle : (Exec.settle x : Exec δ _) p = Exec.settle y p := by
      unfold Exec.settle
      rw [h]
    refine .same ?_
    show EStateM.bind (Exec.settle x) f p = EStateM.bind (Exec.settle y) f p
    unfold EStateM.bind
    rw [hsettle]
  | @fault c d q hleft hright h =>
    have hsettle : ∀ {z : Exec ε α} {e : ε}, z p = .error (.fault e) q →
        (Exec.settle z : Exec δ _) p = .ok (.error e) q := fun hz => by
      unfold Exec.settle
      rw [hz]
    rw [bind_of_ok (hsettle hleft), bind_of_ok (hsettle hright)]
    exact hf c d q h

theorem inside {x y : Exec Failure Flow} (h : Retold Failure.blurred (x p) (y p)) (place : Place) :
    Retold Fault.blurred (Exec.inside place x p) (Exec.inside place y p) :=
  h.settle_bind fun _ _ _ hcd => .fault rfl rfl (Failure.blurred_within hcd place)

end Retold

theorem checkOperands_retold (op : BinaryOp) (p : Program) :
    Retold Fault.blurred (checkOperands (.binaryInPlace op) p) (checkOperands (.binary op) p) := by
  have hlabel := (Action.binaryInPlace op).blurredLabel_pushing.symm
  show Retold Fault.blurred
    ((if p.memory.stack.size < 2 then fault _ else pure () : Exec Fault Unit) p)
    ((if p.memory.stack.size < 2 then fault _ else pure () : Exec Fault Unit) p)
  split
  · exact .fault rfl rfl (congrArg (Fault.stackUnderflow · _ _) hlabel)
  · exact .same rfl

/-- Every action and every block does the same in levelled form. -/
theorem run_retold :
    (∀ n scope a p, Retold Fault.blurred (attempt (enter n) scope a p)
      (attempt (enter n) scope a.levelled p)) ∧
    ∀ n scope as p, ∀ index, Retold Failure.blurred (performAll (enter n) scope index as p)
      (performAll (enter n) scope index (Action.allLevelled as) p) := by
  refine run_induction ?nil ?cons ?body ?plain
  case nil => exact fun n scope p index => .same rfl
  case cons =>
    intro n scope a as p ha has index
    rw [Action.allLevelled, performAll_cons, performAll_cons]
    refine (ha.report index a.blurredLabel_levelled.symm).bind fun flow q => ?_
    cases flow with
    | next => exact has q (index + 1)
    | ret => exact .same rfl
  case body =>
    intro n scope a as p hbody hL
    cases a with
    | defineNamespace name body =>
      cases hbody
      exact .bind (.same rfl) fun _ q => .bind (.same rfl) fun id r => (hL id r 0).inside _
    | defineClass name body =>
      cases hbody
      exact .bind (.same rfl) fun _ q => .bind (.same rfl) fun id r => (hL id r 0).inside _
    | _ => cases hbody
  case plain =>
    intro n scope a p hbody _
    cases a with
    | binaryInPlace op =>
      refine .bind (checkOperands_retold op p) fun _ q => .same ?_
      rw [perform, Action.levelled, perform, binaryInPlace_eq]
    | defineNamespace name body => cases hbody
    | defineClass name body => cases hbody
    | _ => exact .same rfl

theorem runIn_retold (n : Nat) (scope : ScopeId) (as : List Action) (p : Program) :
    Retold Failure.blurred (runIn n scope as p) (runIn n scope (Action.allLevelled as) p) := by
  have hget : (get : Exec Failure Program) p = .ok p p := rfl
  rw [runIn, runIn, bind_of_ok hget, bind_of_ok hget]
  cases p.scopes.check scope with
  | error cause =>
    refine .fault rfl rfl ?_
    cases as with
    | nil => rfl
    | cons a as =>
      exact congrArg (Failure.mk 0 · cause.blurred) a.blurredLabel_levelled.symm
  | ok id => exact (run_retold.2 n scope as p 0).settle_bind fun _ _ _ hcd => .fault rfl rfl hcd

/-- Two blocks of one levelled form leave the same program. -/
theorem runIn_of_levelled_eq {as bs : List Action}
    (h : Action.allLevelled as = Action.allLevelled bs) (n : Nat) (scope : ScopeId) (p : Program) :
    runIn n scope as p = runIn n scope bs p ∨
      ∃ f g q, runIn n scope as p = .error (.fault f) q ∧
        runIn n scope bs p = .error (.fault g) q ∧ f.Alike g := by
  have has := runIn_retold n scope as p
  rw [h] at has
  cases has.trans (runIn_retold n scope bs p).symm with
  | same h => exact .inl h
  | fault hleft hright h => exact .inr ⟨_, _, _, hleft, hright, Failure.alike_of_blurred h⟩

end Exec

/-! ## Interchange -/

open Exec

/-- Tells whether the first argument is a method that begins with an operator that works in
place. -/
def Native.inspector : Host := fun _ args =>
  match args.at? 0 with
  | some (.method ⟨_, _, _, .binaryInPlace _ :: _⟩) => .bool true
  | _ => .bool false

/-- A program that has this function under a name. -/
def inspecting : Program :=
  after (registerNative ⟨"inspect", ["m"], "inspect"⟩)
    (.new ⟨1⟩ ⟨2⟩ Native.inspector .silent Mode.silent.sink)

/-- A method with an operator in one form or the other is defined and put on the stack. -/
def defineAdder (form : BinaryOp → Action) : List Action :=
  [.defineMethod "f" [] [form .add], .resolveLocal "f"]

/-- The forms differ in the body of the method only. A native function that reads the body answers
differently, and so does a program that hands the method over. -/
theorem inspected_body_tells_forms :
    Action.allPushing (defineAdder .binary) = Action.allPushing (defineAdder .binaryInPlace) ∧
      ((∃ q, runIn 1 .global (defineAdder .binary ++ [.call "inspect" 1, .ret]) inspecting =
          .ok (.bool false) q) ∧
        ∃ q, runIn 1 .global (defineAdder .binaryInPlace ++ [.call "inspect" 1, .ret]) inspecting =
          .ok (.bool true) q) ∧
      (∃ m q, runIn 1 .global (defineAdder .binary ++ [.ret]) .silent = .ok (.method m) q ∧
        m.body.map Action.label = ["BinaryAdd"]) ∧
      ∃ m q, runIn 1 .global (defineAdder .binaryInPlace ++ [.ret]) .silent = .ok (.method m) q ∧
        m.body.map Action.label = ["BinaryInPlace"] :=
  ⟨rfl, ⟨⟨_, rfl⟩, _, rfl⟩, ⟨_, _, rfl, rfl⟩, _, _, rfl, rfl⟩

/-- The form of an operator makes no difference. A single action does the same from every program
and in every scope. So does a block with operators of another form outside its methods: it answers
with the same value or fails alike, and it leaves the same program. With operators of another form
in methods too, those that the block defines and those of the program, the answer and the program
left are the same but for these bodies; here native functions are taken not to look into bodies. -/
theorem operator_forms_interchangeable {p q : Program} (hpq : p.Alike q) (hhost : p.host.Blind)
    {as bs : List Action} (has : Action.allPushing as = Action.allPushing bs) (n : Nat)
    (scope : ScopeId) :
    (∀ (run : Body) (op : BinaryOp) (r : Program),
      perform run scope (.binary op) r = perform run scope (.binaryInPlace op) r) ∧
    (∀ (r : Program) (cs ds : List Action), Action.allLevelled cs = Action.allLevelled ds →
      runIn n scope cs r = runIn n scope ds r ∨
        ∃ f g r', runIn n scope cs r = .error (.fault f) r' ∧
          runIn n scope ds r = .error (.fault g) r' ∧ f.Alike g) ∧
    EndAlike (runIn n scope as p) (runIn n scope bs q) := by
  refine ⟨fun run op r => ?_, fun r cs ds h => runIn_of_levelled_eq h n scope r,
    runIn_endAlike hpq hhost has n scope⟩
  rw [perform, perform, binaryInPlace_eq]

/-- A method that divides by zero in one form or the other, and a call of it. -/
def divideByZero (form : BinaryOp → Action) : List Action :=
  [.defineMethod "ratio" [] [.pushLiteral (.int 1), .pushLiteral (.int 0), form .div],
    .call "ratio" 0]

/-- Both forms fail in the body of the method; only the names of the operators tell them apart. -/
theorem divideByZero_fails_alike :
    Program.silent.Alike .silent ∧ Program.silent.host.Blind ∧
      Action.allPushing (divideByZero .binary) = Action.allPushing (divideByZero .binaryInPlace) ∧
      ∃ p q,
        runIn 2 .global (divideByZero .binary) .silent = .error (.fault ⟨1, "Call",
          .within (.method "ratio") 2 "BinaryDivide" .divisionByZero⟩) p ∧
        runIn 2 .global (divideByZero .binaryInPlace) .silent = .error (.fault ⟨1, "Call",
          .within (.method "ratio") 2 "BinaryInPlace" .divisionByZero⟩) q ∧
        p.Alike q := by
  have hsame : Program.silent.Alike .silent := Program.alike_iff.2 ⟨rfl, rfl⟩
  have hblind : Program.silent.host.Blind := Native.catalogue_blind
  have hforms : Action.allPushing (divideByZero .binary) =
      Action.allPushing (divideByZero .binaryInPlace) := rfl
  obtain ⟨-, -, hends⟩ := operator_forms_interchangeable hsame hblind hforms 2 .global
  obtain ⟨p, hp⟩ : ∃ p, runIn 2 .global (divideByZero .binary) .silent = .error (.fault ⟨1, "Call",
      .within (.method "ratio") 2 "BinaryDivide" .divisionByZero⟩) p := ⟨_, rfl⟩
  obtain ⟨q, hq⟩ : ∃ q, runIn 2 .global (divideByZero .binaryInPlace) .silent =
      .error (.fault ⟨1, "Call",
        .within (.method "ratio") 2 "BinaryInPlace" .divisionByZero⟩) q := ⟨_, rfl⟩
  rw [hp, hq] at hends
  cases hends with
  | failure _ hpq => exact ⟨hsame, hblind, hforms, p, q, hp, hq, hpq⟩

end ActionMachine
