import ActionMachine.Proofs.Flatness
import ActionMachine.Proofs.Invariants

/-
  Lines that show a variable. From flat literals and flat results of native functions a program
  makes no cell that holds a reference, at any depth of lists and objects and at any depth of calls
  (`contents_closed`). A line that shows a variable follows references, but there is none to be
  found: it is the name and the value's own text, and it is what the sink gains (`Sink.Gains`).
-/

namespace ActionMachine

/-- One line has gone out. The terminal and a buffer have it behind the lines that they had before,
and what can be read back from a buffer ends with it. -/
structure Sink.Gains (before after : Sink) (line : String) : Prop where
  destination : after.destination = before.destination
  lines : after.lines =
    if before.destination = .silent then before.lines else before.lines.push line
  captured : after.captured =
    if before.destination = .buffer then before.captured ++ (line ++ "\n") else ""

theorem Sink.gains_println (s : Sink) (line : String) : s.Gains (s.println line) line :=
  ⟨s.destination_println line, s.lines_println line, s.captured_println line⟩

namespace Exec

variable {scope : ScopeId} {p : Program}

/-- With a host that makes flat values, flat literals lead to closed values only. -/
theorem contents_closed {host : Host} (hmethod : host.MakesNoMethod)
    (hreference : host.MakesNoReference) :
    Contents host (·.isFlat = true) fun _ v => v.Closed where
  hereditary _ := Value.hereditary_closed
  grow _ hv := hv
  shrink _ _ hv := hv
  literal hmethods hflat := Value.loose_closed hflat (hmethods _)
  method := ⟨And.right, fun h => ⟨rfl, h⟩⟩
  host _ := Host.conveys_closed hmethod hreference
  constructs := constructs_closed

/-- Cells hold no reference themselves, so what they hold is free of references. -/
theorem cells_referenceFree (hp : p.Sound) (hheld : p.Holds Value.Closed) :
    p.memory.arena.All (·.referenceFree = true) ∧ p.memory.frame.All (·.referenceFree = true) := by
  obtain ⟨harena, hframe, -⟩ := Memory.all_read_iff.1 hheld.memory
  exact ⟨fun i v hv => ((harena i v hv).resolve (hp.plain.arena i v hv)).1,
    fun i v hv => ((hframe i v hv).resolve (hp.plain.frame i v hv)).1⟩

theorem attempt_debugPrint {name : Name} {target : CellRef} {v : Value} {text : String}
    (htarget : p.scopes.resolve scope name = .ok target) (hv : p.memory.read target = some v)
    (htext : p.memory.render? v = some text) (run : Body) :
    attempt run scope (.debugPrint name) p =
      .ok .next { p with sink := p.sink.println (name ++ " = " ++ text) } := by
  apply Ends.eq_ok
  simp only [attempt, checkOperands, perform, debugPrint, ends_bind, ends_ite, ends_fault, ends_get,
    ends_pure, ends_resolve, ends_liftFault]
  have hdepth : ¬ p.memory.stack.size < (Action.debugPrint name).operandArity := Nat.not_lt_zero _
  refine ⟨fun hzero => Bool.false_ne_true hzero, fun _ => ⟨fun hless => hdepth hless, fun _ =>
    ⟨fun found hfound => ⟨fun w hw => ?_, fun cause hcause => ?_⟩, fun stop hstop => ?_⟩⟩⟩
  · cases htarget.symm.trans hfound
    cases (Memory.fetch_eq_ok_iff.2 hv).symm.trans hw
    simp only [htext, ends_bind, ends_modify, ends_pure]
    exact ⟨trivial, trivial⟩
  · cases htarget.symm.trans hfound
    cases (Memory.fetch_eq_ok_iff.2 hv).symm.trans hcause
  · cases htarget.symm.trans hstop

theorem attempt_debugPrint_of_error {name : Name} {stop : Stop Fault}
    (h : p.scopes.resolve scope name = .error stop) (run : Body) :
    attempt run scope (.debugPrint name) p = .error stop p := by
  apply Ends.eq_error
  simp only [attempt, checkOperands, perform, debugPrint, ends_bind, ends_ite, ends_fault, ends_get,
    ends_pure, ends_resolve]
  have hdepth : ¬ p.memory.stack.size < (Action.debugPrint name).operandArity := Nat.not_lt_zero _
  refine ⟨fun hzero => absurd hzero Bool.false_ne_true, fun _ => ⟨fun hless => absurd hless hdepth,
    fun _ => ⟨fun found hfound => ?_, fun s hs => ?_⟩⟩⟩
  · cases h.symm.trans hfound
  · cases h.symm.trans hs
    exact ⟨rfl, trivial⟩

end Exec

open Exec

/-- A new program is asked for anything that brings no method with it and holds references only as
whole literals, with a host whose functions do the same, and `p` is some state of its history. Then
no cell of `p` holds a reference at any depth. In every live scope of `p`, showing a name sends one
line to the sink, the name and the text of the value in the cell that it resolves to, and nothing
else changes; a name that does not resolve is refused. -/
theorem debugPrint_shows_plain_value {arena tree : StoreId} {host : Host} {mode : Mode}
    {sink : Sink} (htree : tree ≠ .shared) (hmethod : host.MakesNoMethod)
    (hreference : host.MakesNoReference) {requests : List Request}
    (hfree : ∀ request ∈ requests, request.methodFree = true)
    (hflat : ∀ request ∈ requests, request.EachLiteral (·.isFlat = true))
    {earlier later : List Step} {start p : Program}
    (hstart : start = .new arena tree host mode sink)
    (hsplit : history requests start = earlier ++ later) (hp : p = final start earlier) :
    (p.memory.arena.All (·.referenceFree = true) ∧
      p.memory.frame.All (·.referenceFree = true)) ∧
    ∀ run scope name, p.scopes.owns scope = true →
      (∃ target v after, p.scopes.resolve scope name = .ok target ∧
        p.memory.read target = some v ∧ p.sink.Gains after (name ++ " = " ++ v.display) ∧
        attempt run scope (.debugPrint name) p = .ok .next { p with sink := after }) ∨
      ∃ cause, p.scopes.resolve scope name = .error (.fault cause) ∧
        attempt run scope (.debugPrint name) p = .error (.fault cause) p := by
  subst hstart hp
  obtain ⟨hhealthy, -, hheld⟩ :=
    (contents_closed hmethod hreference).history htree hmethod hfree hflat hsplit
  have hsound := hhealthy.sound
  refine ⟨cells_referenceFree hsound hheld, fun run scope name ho => ?_⟩
  generalize final _ earlier = p at hsound hheld ho ⊢
  cases hresolve : p.scopes.resolve scope name with
  | ok target =>
    obtain ⟨site, -, hsite⟩ := exists_site_of_resolve hsound ho hresolve
    obtain ⟨v, hv, -⟩ := hsound.exists_read hsite
    have hplain := (closed_of_site hsound hheld hsite hv).1
    exact Or.inl ⟨target, v, _, rfl, hv, p.sink.gains_println _,
      attempt_debugPrint hresolve hv (Memory.render?_eq _ hplain) run⟩
  | error stop =>
    obtain ⟨cause, rfl⟩ := hsound.tree.resolve_settled ho name stop hresolve
    exact Or.inr ⟨cause, rfl, attempt_debugPrint_of_error hresolve run⟩

/-- A new program whose lines can be read back. -/
def recorder : Program := .new ⟨1⟩ ⟨2⟩ Native.catalogue .capture Mode.capture.sink

/-- A method shows its argument, a list that was built from a reference to a variable. -/
def showReferred : List Request :=
  [.run 2 .global [.declareLocal "x", .assignLocal "x" (.literal (.int 4)),
    .defineMethod "show" [⟨"l", none⟩] [.debugPrint "l"], .resolveLocal "x", .buildList 1,
    .call "show" 1]]

/-- The state in which the call has begun. -/
def showing : Program := final recorder ((history showReferred recorder).take 6)

/-- The list is shown with what the variable held. The line can be read back. -/
theorem shows_referred_value :
    showing.callDepth = 1 ∧ showing.sink.lines = #[] ∧
      ∃ q, attempt (enter 1) ⟨⟨2⟩, 2⟩ (.debugPrint "l") showing = .ok .next q ∧
        q.sink.lines = #["l = [4]"] ∧ q.sink.captured = "l = [4]\n" := by
  have hflat : ∀ request ∈ showReferred, request.EachLiteral (·.isFlat = true) := by
    intro request hmem
    cases List.mem_singleton.1 hmem
    exact ⟨trivial, rfl, ⟨nofun, trivial, trivial⟩, trivial, trivial, trivial, trivial⟩
  have htext : ((showing.scopes.resolve ⟨⟨2⟩, 2⟩ "l").toOption.bind showing.memory.read).map
      Value.display = some "[4]" := by decide +kernel
  obtain ⟨target, v, after, hresolve, hv, hgains, hprints⟩ | ⟨cause, hresolve, -⟩ :=
    (debugPrint_shows_plain_value (by decide) Native.catalogue_makesNoMethod
      Native.catalogue_makesNoReference (by decide) hflat (rfl : recorder = _)
      (List.take_append_drop 6 _).symm (rfl : showing = _)).2 (enter 1) ⟨⟨2⟩, 2⟩ "l"
        (by decide +kernel)
  · have hshown : v.display = "[4]" := by
      simpa only [hresolve, Except.toOption, Option.bind_some, hv, Option.map_some,
        Option.some.injEq] using htext
    have hempty : showing.sink.lines = #[] := by decide +kernel
    have hbuffer : showing.sink.destination = .buffer := by decide +kernel
    have hcaptured : showing.sink.captured = "" := by decide +kernel
    refine ⟨by decide +kernel, hempty, _, hprints, ?_, ?_⟩
    · rw [hgains.lines, hbuffer, hempty, hshown]
      rfl
    · rw [hgains.captured, if_pos hbuffer, hcaptured, hshown]
      rfl
  · rw [hresolve] at htext
    cases htext

end ActionMachine
