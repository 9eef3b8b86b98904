/-
  Where printed lines go. A buffer keeps them to be read back; lines for the terminal wait here
  until the outer layer writes them out; silence drops them.
-/

namespace ActionMachine

inductive Destination where
  | terminal
  | buffer
  | silent
  deriving DecidableEq, Repr

structure Sink where
  destination : Destination
  lines : Array String := #[]
  deriving DecidableEq, Repr

namespace Sink

def println (s : Sink) (line : String) : Sink :=
  match s.destination with
  | .terminal | .buffer => { s with lines := s.lines.push line }
  | .silent => s

theorem destination_println (s : Sink) (line : String) :
    (s.println line).destination = s.destination := by
  unfold println
  cases h : s.destination <;> simp [h]

/-- The terminal and a buffer gain the line at the end; silence gains nothing. -/
theorem lines_println (s : Sink) (line : String) :
    (s.println line).lines = if s.destination = .silent then s.lines else s.lines.push line := by
  unfold println
  cases s.destination <;> simp

/-- The lines of a buffer, each ended by a line break. -/
def captured (s : Sink) : String :=
  match s.destination with
  | .buffer => String.join (s.lines.toList.map (· ++ "\n"))
  | .terminal | .silent => ""

/-- What is read back from a buffer gains the line and a line break. -/
theorem captured_println (s : Sink) (line : String) :
    (s.println line).captured =
      if s.destination = .buffer then s.captured ++ (line ++ "\n") else "" := by
  unfold captured
  rw [destination_println, lines_println]
  cases s.destination <;> simp [String.join_append]

end Sink

end ActionMachine
