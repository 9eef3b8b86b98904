import ActionMachine.Arithmetic
import ActionMachine.Proofs.Methods

/-
  What operators decide. Operands are followed, the left one first; then one rule after the other is
  tried, and the first that applies gives the outcome. `BinaryOp.decided` and `UnaryOp.decided` are
  these rules in their order, with the conversion of each kind of number to each other one written
  out (`Value.asInt64` and its siblings). Main statement: evaluation is this decision on what the
  operands lead to, so it sees nothing else of them, and a result is a defined value of the kind of
  the left operand unless one of the operands is empty.
-/

namespace ActionMachine

/-! ## Rules -/

/-- The kinds that operators compute with. -/
def ValueKind.isNumeric : ValueKind → Bool
  | .int | .uint | .byte | .float | .bool => true
  | _ => false

namespace Value

/-- The value as a signed word: words keep their bits, a float is cut to its whole part and kept in
range, a truth value is 0 or 1. -/
def asInt64 : Value → Int64
  | .int n => n
  | .uint n => n.toInt64
  | .byte n => n.toUInt64.toInt64
  | .float x => x.toInt64
  | .bool b => if b then 1 else 0
  | _ => 0

/-- The value as an unsigned word, in the same way. -/
def asUInt64 : Value → UInt64
  | .int n => n.toUInt64
  | .uint n => n
  | .byte n => n.toUInt64
  | .float x => x.toUInt64
  | .bool b => if b then 1 else 0
  | _ => 0

/-- The low byte of the unsigned word. -/
def asUInt8 (v : Value) : UInt8 := v.asUInt64.toUInt8

/-- The value as a float; a truth value is 0 or 1. -/
def asFloat : Value → Float
  | .int n => n.toFloat
  | .uint n => n.toFloat
  | .byte n => n.toUInt64.toFloat
  | .float x => x
  | .bool b => if b then Int64.toFloat 1 else Int64.toFloat 0
  | _ => 0

/-- The value is zero once it is converted to the kind; truth values are computed as integers, and
a float is no divisor to refuse. -/
def isZeroAs (v : Value) : ValueKind → Bool
  | .int | .bool => v.asInt64 = 0
  | .uint => v.asUInt64 = 0
  | .byte => v.asUInt8 = 0
  | _ => false

end Value

namespace BinaryOp

/-- The operation on two numbers of one type. -/
def apply {α : Type} [Add α] [Sub α] [Mul α] [Div α] (op : BinaryOp) (a b : α) : α :=
  match op with
  | .add => a + b
  | .sub => a - b
  | .mul => a * b
  | .div => a / b

/-- The operation in the kind of the left operand, to which the right one is converted. -/
def combine (op : BinaryOp) (left right : Value) : Value :=
  match left with
  | .int a => .int (op.apply a right.asInt64)
  | .uint a => .uint (op.apply a right.asUInt64)
  | .byte a => .byte (op.apply a right.asUInt8)
  | .float a => .float (op.apply a right.asFloat)
  | .bool a => .bool (op.apply (if a then 1 else 0) right.asInt64 != 0)
  | left => left

/-- The outcome for two operands that were followed. -/
def decided (op : BinaryOp) (left right : Value) : Except Fault Value :=
  if left.isUndefined || right.isUndefined then .error (.undefinedOperand op.symbol)
  else if left.kind = .none then .ok right
  else if right.kind = .none then .ok left
  else if !left.kind.isNumeric then .error (.notImplemented op.symbol left.kind)
  else if !right.kind.isNumeric then .error (.notImplemented op.symbol right.kind)
  else if op = .div && right.isZeroAs left.kind then .error .divisionByZero
  else .ok (op.combine left right)

end BinaryOp

/-- The value with its sign changed; the opposite of a truth value. -/
def Value.negated : Value → Value
  | .int n => .int (-n)
  | .uint n => .uint (-n)
  | .byte n => .byte (-n)
  | .float x => .float (-x)
  | .bool b => .bool (!b)
  | value => value

/-- The outcome for an operand that was followed. -/
def UnaryOp.decided (op : UnaryOp) (value : Value) : Except Fault Value :=
  if value.isUndefined then .error (.undefinedOperand op.symbol)
  else if value.kind = .none then .ok .none
  else if !value.kind.isNumeric then .error (.notImplemented op.symbol value.kind)
  else .ok value.negated

/-! ## Evaluation follows the rules -/

namespace Value

variable {v : Value}

/-- A value of a numeric kind is a number, and each conversion of it is that of the rules. -/
theorem exists_number (op : BinaryOp) (h : v.kind.isNumeric = true) :
    ∃ n, v.number op = .ok n ∧ n.toInt64 = v.asInt64 ∧ n.toUInt64 = v.asUInt64 ∧
      n.toUInt8 = v.asUInt8 ∧ n.toFloat = v.asFloat := by
  cases v with
  | int | uint | float | byte => exact ⟨_, rfl, rfl, rfl, rfl, rfl⟩
  | bool b => cases b <;> exact ⟨_, rfl, rfl, rfl, rfl, rfl⟩
  | _ => cases h

theorem number_eq_error (op : BinaryOp) (h : v.kind.isNumeric = false)
    (hdefined : v.isUndefined = false) :
    v.number op = .error (.notImplemented op.symbol v.kind) := by
  cases v with
  | int | uint | float | bool | byte => cases h
  | undefined => cases hdefined
  | _ => rfl

theorem kind_eq_none_iff : v.kind = .none ↔ v = .none := by
  cases v <;> simp [kind]

theorem kind_negated (v : Value) : v.negated.kind = v.kind := by
  cases v <;> rfl

end Value

namespace BinaryOp

variable {op : BinaryOp} {left right : Value}

theorem onWords_eq {α : Type} [Add α] [Sub α] [Mul α] [Div α] [OfNat α 0] [DecidableEq α]
    (op : BinaryOp) (a b : α) :
    op.onWords a b = if op = .div ∧ b = 0 then .error .divisionByZero else .ok (op.apply a b) := by
  cases op with
  | add | sub | mul => simp [onWords, apply]
  | div => simp [onWords, apply]

/-- As `onWords_eq`, with a value made of the result. -/
theorem onWords_bind {α : Type} [Add α] [Sub α] [Mul α] [Div α] [OfNat α 0] [DecidableEq α]
    (op : BinaryOp) (a b : α) (make : α → Value) :
    (do return make (← op.onWords a b)) =
      if op = .div ∧ b = 0 then .error .divisionByZero else .ok (make (op.apply a b)) := by
  rw [onWords_eq]
  split <;> rfl

theorem onFloats_eq (op : BinaryOp) (a b : Float) : op.onFloats a b = op.apply a b := by
  cases op <;> rfl

theorem kind_combine (op : BinaryOp) (left right : Value) :
    (op.combine left right).kind = left.kind := by
  cases left <;> rfl

/-- On a left operand of a numeric kind, the right one is looked at next, then the divisor. -/
theorem onValues_eq (hleft : left.kind.isNumeric = true) (hdefined : right.isUndefined = false) :
    op.onValues left right =
      if !right.kind.isNumeric then .error (.notImplemented op.symbol right.kind)
      else if op = .div && right.isZeroAs left.kind then .error .divisionByZero
      else .ok (op.combine left right) := by
  cases hright : right.kind.isNumeric with
  | false =>
    have hnumber := Value.number_eq_error op hright hdefined
    cases left with
    | int | uint | byte | float | bool =>
      unfold onValues
      rw [hnumber]
      rfl
    | _ => cases hleft
  | true =>
    obtain ⟨n, hnumber, hint, huint, hbyte, hfloat⟩ := Value.exists_number op hright
    cases left with
    | float a =>
      unfold onValues
      rw [hnumber]
      simp [bind, Except.bind, pure, Except.pure, Value.isZeroAs, Value.kind, combine, onFloats_eq,
        hfloat]
    | int a | uint a | byte a | bool a =>
      unfold onValues
      rw [hnumber]
      refine (onWords_bind op _ _ _).trans ?_
      simp [Value.isZeroAs, Value.kind, combine, hint, huint, hbyte, bit]
    | _ => cases hleft

theorem onValues_eq_error (hleft : left.kind.isNumeric = false) :
    op.onValues left right = .error (.notImplemented op.symbol left.kind) := by
  cases left with
  | int | uint | byte | float | bool => cases hleft
  | _ => rfl

theorem evaluate_eq (op : BinaryOp) (read : Reader) (left right : Value) :
    op.evaluate read left right = (do op.decided (← read.follow left) (← read.follow right)) := by
  refine bind_congr fun l => bind_congr fun r => ?_
  unfold decided
  split
  · rfl
  · rename_i hdefined
    have hright : r.isUndefined = false := by simp_all
    split
    · rfl
    · rename_i hleft
      exact (if_neg (mt Value.kind_eq_none_iff.1 hleft)).symm
    · rename_i hl hr
      rw [if_neg (mt Value.kind_eq_none_iff.1 hl), if_neg (mt Value.kind_eq_none_iff.1 hr)]
      cases hnumeric : l.kind.isNumeric with
      | false => exact onValues_eq_error hnumeric
      | true => exact onValues_eq hnumeric hright

end BinaryOp

theorem UnaryOp.evaluate_eq (op : UnaryOp) (read : Reader) (value : Value) :
    op.evaluate read value = (do op.decided (← read.follow value)) := by
  refine bind_congr fun v => ?_
  cases op
  cases v <;> rfl

/-! ## Results -/

theorem Value.settled_of_isNumeric {v : Value} (h : v.kind.isNumeric = true) :
    v.isUndefined = false ∧ v.isReference = false := by
  cases v with
  | int | uint | byte | float | bool => exact ⟨rfl, rfl⟩
  | _ => cases h

/-- A result is one operand, where the other is empty, or computed in the kind of the left one. -/
theorem BinaryOp.decided_eq_ok {op : BinaryOp} {left right v : Value}
    (h : op.decided left right = .ok v) :
    (left.isUndefined = false ∧ right.isUndefined = false) ∧
      ((left.kind = .none ∧ v = right) ∨ (right.kind = .none ∧ v = left) ∨
        (left.kind.isNumeric = true ∧ v.kind = left.kind)) := by
  unfold decided at h
  split at h
  · cases h
  · rename_i hdefined
    refine ⟨by simpa using hdefined, ?_⟩
    split at h
    · cases h
      exact .inl ⟨‹_›, rfl⟩
    · split at h
      · cases h
        exact .inr (.inl ⟨‹_›, rfl⟩)
      · split at h
        · cases h
        · rename_i hnumeric
          split at h
          · cases h
          · split at h
            · cases h
            · cases h
              exact .inr (.inr ⟨by simpa using hnumeric, kind_combine ..⟩)

theorem UnaryOp.kind_of_decided {op : UnaryOp} {value v : Value} (h : op.decided value = .ok v) :
    v.kind = value.kind := by
  unfold decided at h
  split at h
  · cases h
  · split at h
    · rename_i hnone
      cases h
      exact hnone.symm
    · split at h
      · cases h
      · cases h
        exact value.kind_negated

namespace BinaryOp

variable {op : BinaryOp} {read : Reader} {left right l r v : Value}

theorem settled_of_decided (hl : read.follow left = .ok l) (hr : read.follow right = .ok r)
    (h : op.decided l r = .ok v) : v.isUndefined = false ∧ v.isReference = false := by
  obtain ⟨⟨hldef, hrdef⟩, ⟨-, rfl⟩ | ⟨-, rfl⟩ | ⟨hnumeric, hkind⟩⟩ := decided_eq_ok h
  · exact ⟨hrdef, Reader.isReference_follow hr⟩
  · exact ⟨hldef, Reader.isReference_follow hl⟩
  · exact Value.settled_of_isNumeric (hkind ▸ hnumeric)

theorem kind_of_decided (h : op.decided l r = .ok v) (hl : l.kind ≠ .none) (hr : r.kind ≠ .none) :
    v.kind = l.kind := by
  obtain ⟨-, ⟨hnone, -⟩ | ⟨hnone, -⟩ | ⟨-, hkind⟩⟩ := decided_eq_ok h
  · exact absurd hnone hl
  · exact absurd hnone hr
  · exact hkind

end BinaryOp

/-! ## Numeric operands -/

theorem ValueKind.ne_none_of_isNumeric {kind : ValueKind} (h : kind.isNumeric = true) :
    kind ≠ .none := by
  rintro rfl
  cases h

/-- Two numeric operands are combined unless the second is refused as a divisor. -/
theorem BinaryOp.evaluate_of_isNumeric (op : BinaryOp) (read : Reader) {left right : Value}
    (hleft : left.kind.isNumeric = true) (hright : right.kind.isNumeric = true) :
    op.evaluate read left right =
      if op = .div && right.isZeroAs left.kind then .error .divisionByZero
      else .ok (op.combine left right) := by
  obtain ⟨hldef, hlref⟩ := Value.settled_of_isNumeric hleft
  obtain ⟨hrdef, hrref⟩ := Value.settled_of_isNumeric hright
  have hlnone := ValueKind.ne_none_of_isNumeric hleft
  have hrnone := ValueKind.ne_none_of_isNumeric hright
  rw [evaluate_eq, Reader.follow_of_plain hlref, Reader.follow_of_plain hrref]
  change op.decided left right = _
  simp only [decided, hldef, hrdef, hlnone, hrnone, hleft, hright, Bool.or_self, Bool.not_true,
    Bool.false_eq_true, if_false]

theorem UnaryOp.evaluate_of_isNumeric (op : UnaryOp) (read : Reader) {value : Value}
    (h : value.kind.isNumeric = true) : op.evaluate read value = .ok value.negated := by
  obtain ⟨hdef, href⟩ := Value.settled_of_isNumeric h
  have hnone := ValueKind.ne_none_of_isNumeric h
  rw [evaluate_eq, Reader.follow_of_plain href]
  change op.decided value = _
  simp only [decided, hdef, hnone, h, Bool.not_true, Bool.false_eq_true, if_false]

/-! ## Dispatch -/

/-- An operator is the decision on what its operands lead to, the left one followed first. So it
sees nothing else of them. What it gives is defined, no reference, and of the kind of the left
operand unless an operand is empty. Negation decides in the same order and keeps the kind. -/
theorem operators_dispatch (read : Reader) (left right : Value) :
    (∀ op : BinaryOp,
      op.evaluate read left right =
          (do op.decided (← read.follow left) (← read.follow right)) ∧
        (∀ (read' : Reader) (left' right' : Value), read'.follow left' = read.follow left →
          read'.follow right' = read.follow right →
          op.evaluate read' left' right' = op.evaluate read left right) ∧
        ∀ v, op.evaluate read left right = .ok v →
          v.isUndefined = false ∧ v.isReference = false ∧
            ∀ l r, read.follow left = .ok l → read.follow right = .ok r →
              l.kind ≠ .none → r.kind ≠ .none → v.kind = l.kind) ∧
      ∀ op : UnaryOp,
        op.evaluate read left = (do op.decided (← read.follow left)) ∧
          ∀ v, op.evaluate read left = .ok v →
            ∃ l, read.follow left = .ok l ∧ v.kind = l.kind := by
  constructor
  · intro op
    refine ⟨op.evaluate_eq .., fun read' left' right' hleft hright => ?_, fun v hv => ?_⟩
    · rw [op.evaluate_eq, op.evaluate_eq, hleft, hright]
    · rw [op.evaluate_eq] at hv
      obtain ⟨l, hl, hv⟩ := bind_eq_ok_iff.1 hv
      obtain ⟨r, hr, hv⟩ := bind_eq_ok_iff.1 hv
      obtain ⟨hundefined, hreference⟩ := BinaryOp.settled_of_decided hl hr hv
      refine ⟨hundefined, hreference, fun l' r' hl' hr' hlnone hrnone => ?_⟩
      cases hl.symm.trans hl'
      cases hr.symm.trans hr'
      exact BinaryOp.kind_of_decided hv hlnone hrnone
  · intro op
    refine ⟨op.evaluate_eq .., fun v hv => ?_⟩
    rw [op.evaluate_eq] at hv
    obtain ⟨l, hl, hv⟩ := bind_eq_ok_iff.1 hv
    exact ⟨l, hl, UnaryOp.kind_of_decided hv⟩

end ActionMachine
