import Mathlib.Data.Int.ModEq
import ActionMachine.Proofs.Dispatch

/-
  Integer arithmetic modulo the width. A value of a kind of integers stands for an integer of the
  range of its kind, and the range holds one integer of each residue (`ValueKind.Holds.eq`), so
  the kind has one value for every integer modulo its width: `ValueKind.ofInt`. Main statement:
  operators compute on these integers, and the kind of the left operand reduces what comes out.
-/

namespace ActionMachine

/-! ## Integers of values -/

namespace ValueKind

def isInteger : ValueKind → Bool
  | .int | .uint | .byte => true
  | _ => false

/-- Number of bits of an integer. -/
def width : ValueKind → Nat
  | .byte => 8
  | _ => 64

def least : ValueKind → Int
  | .int => -2 ^ 63
  | _ => 0

/-- The integer is in the range of the kind. -/
def Holds (kind : ValueKind) (n : Int) : Prop :=
  kind.least ≤ n ∧ n < kind.least + 2 ^ kind.width

/-- The value of the kind for an integer modulo the width. -/
def ofInt : ValueKind → Int → Value
  | .int, z => .int (Int64.ofInt z)
  | .uint, z => .uint (UInt64.ofInt z)
  | .byte, z => .byte (UInt8.ofInt z)
  | _, _ => .undefined

end ValueKind

/-- The integer that a value stands for; a truth value is 0 or 1. -/
def Value.integer? : Value → Option Int
  | .int n => some n.toInt
  | .uint n => some n.toNat
  | .byte n => some n.toNat
  | .bool b => some b.toNat
  | _ => .none

/-- The value is of the kind and stands for an integer of its range that is `z` modulo the width. -/
def Value.Represents (v : Value) (kind : ValueKind) (z : Int) : Prop :=
  v.kind = kind ∧ ∃ n, v.integer? = some n ∧ kind.Holds n ∧ n ≡ z [ZMOD 2 ^ kind.width]

/-- The outcome is the one value of the kind that stands for `z` modulo the width. -/
def ValueKind.Reduces (kind : ValueKind) (z : Int) (outcome : Except Fault Value) : Prop :=
  ∃ v, outcome = .ok v ∧ ∀ u : Value, u.Represents kind z ↔ u = v

/-- An integer as a truth value. -/
def Value.truth : Value → Value
  | .int n => .bool (n != 0)
  | value => value

/-! ## One value for each residue -/

theorem natCast_toNat_ofInt64 (z : Int) : ((UInt64.ofInt z).toNat : Int) = z % 2 ^ 64 := by
  rw [UInt64.ofInt, UInt64.toNat_ofNat']
  omega

theorem natCast_toNat_ofInt8 (z : Int) : ((UInt8.ofInt z).toNat : Int) = z % 2 ^ 8 := by
  rw [UInt8.ofInt, UInt8.toNat_ofNat']
  omega

theorem uint64_eq_ofInt_iff {n : UInt64} {z : Int} :
    n = UInt64.ofInt z ↔ (n.toNat : Int) = z % 2 ^ 64 := by
  rw [← natCast_toNat_ofInt64, Int.natCast_inj, UInt64.toNat_inj]

theorem uint8_eq_ofInt_iff {n : UInt8} {z : Int} :
    n = UInt8.ofInt z ↔ (n.toNat : Int) = z % 2 ^ 8 := by
  rw [← natCast_toNat_ofInt8, Int.natCast_inj, UInt8.toNat_inj]

theorem ofInt_toNat64 (n : UInt64) : UInt64.ofInt n.toNat = n := by
  have hlt := n.toNat_lt
  exact (uint64_eq_ofInt_iff.2 (by omega)).symm

theorem ofInt_toNat8 (n : UInt8) : UInt8.ofInt n.toNat = n := by
  have hlt := n.toNat_lt
  exact (uint8_eq_ofInt_iff.2 (by omega)).symm

/-- The range of a kind holds one integer of each residue. -/
theorem ValueKind.Holds.eq {kind : ValueKind} {m n : Int} (hm : kind.Holds m) (hn : kind.Holds n)
    (h : m ≡ n [ZMOD 2 ^ kind.width]) : m = n := by
  have hdvd := Int.modEq_iff_dvd.1 h
  have habs : |n - m| < 2 ^ kind.width := by
    unfold Holds at hm hn
    rw [abs_lt]
    constructor <;> omega
  have hzero := Int.eq_zero_of_abs_lt_dvd hdvd habs
  omega

namespace Value

variable {v : Value} {kind : ValueKind} {n z : Int}

theorem holds_integer (hkind : v.kind.isInteger = true) (h : v.integer? = some n) :
    v.kind.Holds n := by
  cases v with
  | int a =>
    cases h
    have := a.le_toInt
    have := a.toInt_lt
    constructor <;> simp only [kind, ValueKind.least, ValueKind.width] <;> omega
  | uint a =>
    cases h
    have := a.toNat_lt
    constructor <;> simp only [kind, ValueKind.least, ValueKind.width] <;> omega
  | byte a =>
    cases h
    have := a.toNat_lt
    constructor <;> simp only [kind, ValueKind.least, ValueKind.width] <;> omega
  | _ => cases hkind

theorem eq_ofInt (hkind : v.kind.isInteger = true) (h : v.integer? = some n) :
    v = v.kind.ofInt n := by
  cases v with
  | int a =>
    cases h
    exact congrArg Value.int (Int64.ofInt_toInt a).symm
  | uint a =>
    cases h
    exact congrArg Value.uint (ofInt_toNat64 a).symm
  | byte a =>
    cases h
    exact congrArg Value.byte (ofInt_toNat8 a).symm
  | _ => cases hkind

end Value

namespace ValueKind

variable {kind : ValueKind} {z : Int}

theorem kind_ofInt (h : kind.isInteger = true) (z : Int) : (kind.ofInt z).kind = kind := by
  cases kind with
  | int | uint | byte => rfl
  | _ => cases h

theorem integer_ofInt (h : kind.isInteger = true) (z : Int) :
    ∃ n, (kind.ofInt z).integer? = some n ∧ n ≡ z [ZMOD 2 ^ kind.width] := by
  cases kind with
  | int =>
    refine ⟨_, rfl, ?_⟩
    rw [Int64.toInt_ofInt]
    exact Int.bmod_emod
  | uint =>
    refine ⟨_, rfl, ?_⟩
    rw [natCast_toNat_ofInt64]
    exact Int.mod_modEq ..
  | byte =>
    refine ⟨_, rfl, ?_⟩
    rw [natCast_toNat_ofInt8]
    exact Int.mod_modEq ..
  | _ => cases h

theorem represents_ofInt (h : kind.isInteger = true) (z : Int) :
    (kind.ofInt z).Represents kind z := by
  obtain ⟨n, hn, hmod⟩ := integer_ofInt h z
  have hkind := kind_ofInt h z
  have hholds := Value.holds_integer (hkind.symm ▸ h) hn
  exact ⟨hkind, n, hn, hkind ▸ hholds, hmod⟩

end ValueKind

/-- For each residue there is one value of the kind. -/
theorem Value.represents_iff {kind : ValueKind} (h : kind.isInteger = true) (u : Value) (z : Int) :
    u.Represents kind z ↔ u = kind.ofInt z := by
  constructor
  · rintro ⟨rfl, n, hn, hholds, hmod⟩
    obtain ⟨hkind, m, hm, hholds', hmod'⟩ := ValueKind.represents_ofInt h z
    obtain rfl : n = m := hholds.eq hholds' (hmod.trans hmod'.symm)
    rw [Value.eq_ofInt h hn, ← hkind, ← Value.eq_ofInt (hkind.symm ▸ h) hm, hkind]
  · rintro rfl
    exact ValueKind.represents_ofInt h z

theorem ValueKind.reduces_iff {kind : ValueKind} (h : kind.isInteger = true) (z : Int)
    (outcome : Except Fault Value) : kind.Reduces z outcome ↔ outcome = .ok (kind.ofInt z) := by
  constructor
  · rintro ⟨v, rfl, hv⟩
    rw [(hv _).1 (represents_ofInt h z)]
  · rintro rfl
    exact ⟨_, rfl, fun u => Value.represents_iff h u z⟩

/-! ## Conversion -/

theorem toInt64_eq_ofInt (n : UInt64) : n.toInt64 = Int64.ofInt n.toNat := by
  rw [Int64.ofInt_eq_ofNat, ← UInt64.toInt64_ofNat', UInt64.ofNat_toNat]

theorem toUInt64_eq_ofInt (n : Int64) : n.toUInt64 = UInt64.ofInt n.toInt := by
  have hlt := n.toUInt64.toNat_lt
  have hmod : n.toInt % 2 ^ 64 = (n.toUInt64.toNat : Int) % 2 ^ 64 := by
    rw [← Int64.toInt_toBitVec, BitVec.toInt_eq_toNat_bmod]
    exact Int.bmod_emod
  rw [uint64_eq_ofInt_iff]
  omega

namespace Value

variable {v : Value} {n : Int}

theorem asInt64_of_integer (h : v.integer? = some n) : v.asInt64 = Int64.ofInt n := by
  cases v with
  | int a =>
    cases h
    exact (Int64.ofInt_toInt a).symm
  | uint a =>
    cases h
    exact toInt64_eq_ofInt a
  | byte a =>
    cases h
    exact toInt64_eq_ofInt a.toUInt64
  | bool b =>
    cases h
    cases b <;> rfl
  | _ => cases h

theorem asUInt64_of_integer (h : v.integer? = some n) : v.asUInt64 = UInt64.ofInt n := by
  cases v with
  | int a =>
    cases h
    exact toUInt64_eq_ofInt a
  | uint a =>
    cases h
    exact (ofInt_toNat64 a).symm
  | byte a =>
    cases h
    exact (ofInt_toNat64 a.toUInt64).symm
  | bool b =>
    cases h
    cases b <;> rfl
  | _ => cases h

/-- A byte takes the low bits of 64, which loses nothing modulo its width. -/
theorem asUInt8_of_integer (h : v.integer? = some n) : v.asUInt8 = UInt8.ofInt n := by
  rw [asUInt8, asUInt64_of_integer h, uint8_eq_ofInt_iff, UInt64.toNat_toUInt8]
  have hmod := natCast_toNat_ofInt64 n
  omega

end Value

/-! ## Operators on words -/

theorem ofInt64_sub (x y : Int) : UInt64.ofInt (x - y) = UInt64.ofInt x - UInt64.ofInt y := by
  rw [Int.sub_eq_add_neg, UInt64.ofInt_add, UInt64.ofInt_neg, ← UInt64.sub_eq_add_neg]

theorem ofInt8_sub (x y : Int) : UInt8.ofInt (x - y) = UInt8.ofInt x - UInt8.ofInt y := by
  rw [Int.sub_eq_add_neg, UInt8.ofInt_add, UInt8.ofInt_neg, ← UInt8.sub_eq_add_neg]

theorem int64_div_eq_ofInt (a b : Int64) : a / b = Int64.ofInt (a.toInt.tdiv b.toInt) := by
  rw [← Int64.toInt_inj, Int64.toInt_div, Int64.toInt_ofInt]

theorem natCast_tdiv_emod {m n k : Nat} (h : m < k) : (m : Int).tdiv n % k = (m / n : Nat) := by
  have hlt : m / n < k := Nat.lt_of_le_of_lt (m.div_le_self n) h
  rw [← Int.ofNat_tdiv, ← Int.natCast_emod, Nat.mod_eq_of_lt hlt]

theorem uint64_div_eq_ofInt (a b : UInt64) :
    a / b = UInt64.ofInt ((a.toNat : Int).tdiv b.toNat) := by
  rw [uint64_eq_ofInt_iff, UInt64.toNat_div]
  exact (natCast_tdiv_emod a.toNat_lt).symm

theorem uint8_div_eq_ofInt (a b : UInt8) :
    a / b = UInt8.ofInt ((a.toNat : Int).tdiv b.toNat) := by
  rw [uint8_eq_ofInt_iff, UInt8.toNat_div]
  exact (natCast_tdiv_emod a.toNat_lt).symm

namespace BinaryOp

variable {op : BinaryOp} {left right : Value} {x y d : Int}

/-- What respects sums, differences and products respects every operator but division. -/
theorem map_apply {α : Type} [Add α] [Sub α] [Mul α] [Div α] {f : Int → α}
    (hadd : ∀ x y, f (x + y) = f x + f y) (hsub : ∀ x y, f (x - y) = f x - f y)
    (hmul : ∀ x y, f (x * y) = f x * f y) (hop : op ≠ .div) (x y : Int) :
    f (op.apply x y) = op.apply (f x) (f y) := by
  cases op with
  | add => exact hadd x y
  | sub => exact hsub x y
  | mul => exact hmul x y
  | div => exact absurd rfl hop

theorem combine_eq_ofInt (hop : op ≠ .div) (hkind : left.kind.isInteger = true)
    (hx : left.integer? = some x) (hy : right.integer? = some y) :
    op.combine left right = left.kind.ofInt (op.apply x y) := by
  cases left with
  | int a =>
    obtain rfl := Option.some.inj hx
    rw [combine, Value.asInt64_of_integer hy, Value.kind, ValueKind.ofInt,
      map_apply Int64.ofInt_add Int64.ofInt_sub Int64.ofInt_mul hop, Int64.ofInt_toInt]
  | uint a =>
    obtain rfl := Option.some.inj hx
    rw [combine, Value.asUInt64_of_integer hy, Value.kind, ValueKind.ofInt,
      map_apply UInt64.ofInt_add ofInt64_sub UInt64.ofInt_mul hop, ofInt_toNat64]
  | byte a =>
    obtain rfl := Option.some.inj hx
    rw [combine, Value.asUInt8_of_integer hy, Value.kind, ValueKind.ofInt,
      map_apply UInt8.ofInt_add ofInt8_sub UInt8.ofInt_mul hop, ofInt_toNat8]
  | _ => cases hkind

/-- Division is by the integer `d` that the right operand becomes in the kind of the left one. -/
theorem combine_div_eq_ofInt (hkind : left.kind.isInteger = true) (hx : left.integer? = some x)
    (hy : right.integer? = some y) (hd : (left.kind.ofInt y).integer? = some d) :
    div.combine left right = left.kind.ofInt (x.tdiv d) := by
  cases left with
  | int a =>
    obtain rfl := Option.some.inj hx
    obtain rfl := Option.some.inj hd
    rw [combine, Value.asInt64_of_integer hy, apply, int64_div_eq_ofInt]
    rfl
  | uint a =>
    obtain rfl := Option.some.inj hx
    obtain rfl := Option.some.inj hd
    rw [combine, Value.asUInt64_of_integer hy, apply, uint64_div_eq_ofInt]
    rfl
  | byte a =>
    obtain rfl := Option.some.inj hx
    obtain rfl := Option.some.inj hd
    rw [combine, Value.asUInt8_of_integer hy, apply, uint8_div_eq_ofInt]
    rfl
  | _ => cases hkind

theorem isZeroAs_iff (hkind : left.kind.isInteger = true) (hy : right.integer? = some y)
    (hd : (left.kind.ofInt y).integer? = some d) :
    right.isZeroAs left.kind = true ↔ d = 0 := by
  cases left with
  | int a =>
    obtain rfl := Option.some.inj hd
    simp only [Value.isZeroAs, Value.kind, Value.asInt64_of_integer hy, decide_eq_true_iff]
    rw [← Int64.toInt_inj, Int64.toInt_zero]
  | uint a =>
    obtain rfl := Option.some.inj hd
    simp only [Value.isZeroAs, Value.kind, Value.asUInt64_of_integer hy, decide_eq_true_iff]
    rw [← UInt64.toNat_inj, UInt64.toNat_zero, Int.natCast_eq_zero]
  | byte a =>
    obtain rfl := Option.some.inj hd
    simp only [Value.isZeroAs, Value.kind, Value.asUInt8_of_integer hy, decide_eq_true_iff]
    rw [← UInt8.toNat_inj, UInt8.toNat_zero, Int.natCast_eq_zero]
  | _ => cases hkind

end BinaryOp

/-! ## Evaluation -/

theorem Value.isNumeric_of_integer {v : Value} {n : Int} (h : v.integer? = some n) :
    v.kind.isNumeric = true := by
  cases v with
  | int | uint | byte | bool => rfl
  | _ => cases h

namespace BinaryOp

variable {op : BinaryOp} {read : Reader} {left right : Value} {x y : Int}

theorem evaluate_reduces (hop : op ≠ .div) (hkind : left.kind.isInteger = true)
    (hx : left.integer? = some x) (hy : right.integer? = some y) :
    left.kind.Reduces (op.apply x y) (op.evaluate read left right) := by
  rw [ValueKind.reduces_iff hkind, evaluate_of_isNumeric op read (Value.isNumeric_of_integer hx)
    (Value.isNumeric_of_integer hy), if_neg (by simp [hop]), combine_eq_ofInt hop hkind hx hy]

theorem divide_reduces (hkind : left.kind.isInteger = true)
    (hx : left.integer? = some x) (hy : right.integer? = some y) :
    ∃ d, (∀ n, left.kind.Holds n ∧ n ≡ y [ZMOD 2 ^ left.kind.width] ↔ n = d) ∧
      (div.evaluate read left right = .error .divisionByZero ↔ d = 0) ∧
      (d ≠ 0 → left.kind.Reduces (x.tdiv d) (div.evaluate read left right)) := by
  obtain ⟨-, d, hd, hholds, hmod⟩ := ValueKind.represents_ofInt hkind y
  have hzero := isZeroAs_iff hkind hy hd
  have heval := evaluate_of_isNumeric div read (Value.isNumeric_of_integer hx)
    (Value.isNumeric_of_integer hy)
  refine ⟨d, fun n => ⟨fun h => h.1.eq hholds (h.2.trans hmod.symm), ?_⟩, ?_, fun hne => ?_⟩
  · rintro rfl
    exact ⟨hholds, hmod⟩
  · rw [heval, ← hzero]
    simp
  · rw [ValueKind.reduces_iff hkind, heval, if_neg (by simp [hzero, hne]),
      combine_div_eq_ofInt hkind hx hy hd]

/-- The outcome for a truth value is that for 0 or 1 in its place. -/
theorem decided_bool (op : BinaryOp) (b : Bool) (right : Value) :
    op.decided (.bool b) right = (op.decided (.int (bit b)) right).map Value.truth := by
  have hkeeps : .bool b = (Value.int (bit b)).truth := by
    cases b <;> rfl
  have hbool : (Value.bool b).kind ≠ .none := nofun
  have hint : (Value.int (bit b)).kind ≠ .none := nofun
  unfold decided
  rw [if_neg hbool, if_neg hint]
  simp only [apply_ite (Except.map Value.truth)]
  -- The same rule applies on both sides; only an empty right operand hands back the left one.
  refine if_congr Iff.rfl rfl (if_congr Iff.rfl ?_ rfl)
  exact congrArg Except.ok hkeeps

theorem evaluate_bool (op : BinaryOp) (read : Reader) (b : Bool) (right : Value) :
    op.evaluate read (.bool b) right =
      (op.evaluate read (.int (bit b)) right).map Value.truth := by
  rw [evaluate_eq, evaluate_eq, Reader.follow_of_plain (v := .bool b) rfl,
    Reader.follow_of_plain (v := .int (bit b)) rfl]
  cases read.follow right with
  | error fault => rfl
  | ok r => exact decided_bool op b r

end BinaryOp

namespace Value

variable {v : Value} {x : Int}

theorem negated_eq_ofInt (hkind : v.kind.isInteger = true) (hx : v.integer? = some x) :
    v.negated = v.kind.ofInt (-x) := by
  cases v with
  | int a =>
    obtain rfl := Option.some.inj hx
    rw [negated, kind, ValueKind.ofInt, Int64.ofInt_neg, Int64.ofInt_toInt]
  | uint a =>
    obtain rfl := Option.some.inj hx
    rw [negated, kind, ValueKind.ofInt, UInt64.ofInt_neg, ofInt_toNat64]
  | byte a =>
    obtain rfl := Option.some.inj hx
    rw [negated, kind, ValueKind.ofInt, UInt8.ofInt_neg, ofInt_toNat8]
  | _ => cases hkind

theorem negated_negated (hx : v.integer? = some x) : v.negated.negated = v := by
  cases v with
  | int | uint | byte | bool => simp [negated]
  | _ => cases hx

end Value

namespace UnaryOp

variable {op : UnaryOp} {read : Reader} {v : Value} {x : Int}

theorem evaluate_reduces (hkind : v.kind.isInteger = true) (hx : v.integer? = some x) :
    v.kind.Reduces (-x) (op.evaluate read v) := by
  rw [ValueKind.reduces_iff hkind, evaluate_of_isNumeric op read (Value.isNumeric_of_integer hx),
    Value.negated_eq_ofInt hkind hx]

theorem evaluate_twice (op : UnaryOp) (read : Reader) (hx : v.integer? = some x) :
    (op.evaluate read v >>= op.evaluate read) = .ok v := by
  have hnumeric := Value.isNumeric_of_integer hx
  rw [evaluate_of_isNumeric op read hnumeric]
  refine (evaluate_of_isNumeric op read (v.kind_negated ▸ hnumeric)).trans ?_
  rw [Value.negated_negated hx]

end UnaryOp

/-- Integer arithmetic is exact modulo the width of the left operand. Sums, differences and products
are the value of its kind for the result on integers. A divisor is first reduced to the range of
the kind; if that is not 0, the quotient is cut towards 0 and reduced. A truth value on the left
counts as 0 or 1, and the result as whether it is not 0. Negation changes the sign in the same
sense, so that twice is nothing. -/
theorem integer_arithmetic_exact (read : Reader) :
    (∀ (left right : Value) (x y : Int), left.kind.isInteger = true → left.integer? = some x →
      right.integer? = some y →
      left.kind.Reduces (x + y) (BinaryOp.add.evaluate read left right) ∧
        left.kind.Reduces (x - y) (BinaryOp.sub.evaluate read left right) ∧
        left.kind.Reduces (x * y) (BinaryOp.mul.evaluate read left right) ∧
        ∃ d, (∀ n, left.kind.Holds n ∧ n ≡ y [ZMOD 2 ^ left.kind.width] ↔ n = d) ∧
          (BinaryOp.div.evaluate read left right = .error .divisionByZero ↔ d = 0) ∧
          (d ≠ 0 → left.kind.Reduces (x.tdiv d) (BinaryOp.div.evaluate read left right))) ∧
      BinaryOp.div.evaluate read (.int Int64.minValue) (.int (-1)) = .ok (.int Int64.minValue) ∧
      (∀ (op : BinaryOp) (b : Bool) (right : Value),
        op.evaluate read (.bool b) right =
          (op.evaluate read (.int (bit b)) right).map Value.truth) ∧
      (∀ (v : Value) (x : Int), v.kind.isInteger = true → v.integer? = some x →
        v.kind.Reduces (-x) (UnaryOp.negate.evaluate read v)) ∧
      (∀ b : Bool, UnaryOp.negate.evaluate read (.bool b) = .ok (.bool !b)) ∧
      ∀ (v : Value) (x : Int), v.integer? = some x →
        (UnaryOp.negate.evaluate read v >>= UnaryOp.negate.evaluate read) = .ok v := by
  refine ⟨fun left right x y hkind hx hy => ⟨?_, ?_, ?_, ?_⟩, ?_, ?_, ?_, ?_, ?_⟩
  · exact BinaryOp.evaluate_reduces (by decide) hkind hx hy
  · exact BinaryOp.evaluate_reduces (by decide) hkind hx hy
  · exact BinaryOp.evaluate_reduces (by decide) hkind hx hy
  · exact BinaryOp.divide_reduces hkind hx hy
  · rfl
  · exact fun op b right => op.evaluate_bool read b right
  · exact fun v x hkind hx => UnaryOp.evaluate_reduces hkind hx
  · exact fun b => UnaryOp.evaluate_of_isNumeric .negate read rfl
  · exact fun v x hx => UnaryOp.evaluate_twice .negate read hx

/-- As an integer with a sign, the greatest unsigned word is -1. -/
example : BinaryOp.div.evaluate (fun _ => .none) (.int 7) (.uint (-1)) = .ok (.int (-7)) := rfl

end ActionMachine
