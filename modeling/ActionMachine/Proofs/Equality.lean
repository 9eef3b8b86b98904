import Mathlib.Data.List.Forall2
import ActionMachine.Proofs.SlotList
import ActionMachine.Value.Equality

/-
  Laws of equality. What equality sees of a value is its shape and its floats. The shape has zero
  for each float, each index is rebuilt from its entries, and the function of a native method is
  left out. Two values are equal exactly when they have the same shape and equal numbers in the
  same places (`Value.beq_iff`), so equality has the laws that it has on numbers: it is symmetric
  and transitive, and a value equals itself unless it holds a NaN.
-/

namespace ActionMachine

/-! ## Numbers -/

open Float.Model (UnpackedFloat)

/-- Either zero is read as the positive one. -/
def unsignedZero : UnpackedFloat → UnpackedFloat
  | .zero _ => .zero .positive
  | x => x

theorem finite_eq_iff {s : UnpackedFloat.Sign} {m n : Nat} {e f : Int} (hm : 0 < m) (hn : 0 < n) :
    (compare e f).then (compare m n) = .eq ↔
      UnpackedFloat.finite s m e hm = .finite s n f hn := by
  rw [Ordering.then_eq_eq, Std.LawfulEqOrd.compare_eq_iff_eq, Std.LawfulEqOrd.compare_eq_iff_eq]
  constructor
  · rintro ⟨rfl, rfl⟩
    rfl
  · intro h
    cases h
    exact ⟨rfl, rfl⟩

theorem compare_eq_iff (x y : UnpackedFloat) :
    x.compare y = some .eq ↔ x.isNaN = false ∧ unsignedZero x = unsignedZero y := by
  match x, y with
  | .finite .positive m e hm, .finite .positive n f hn =>
    show some ((compare e f).then (compare m n)) = some .eq ↔ _
    rw [Option.some.injEq]
    exact (finite_eq_iff hm hn).trans (and_iff_right rfl).symm
  | .finite .negative m e hm, .finite .negative n f hn =>
    show some ((compare e f).then (compare m n)).swap = some .eq ↔ _
    rw [Option.some.injEq, Ordering.swap_eq_eq]
    exact (finite_eq_iff hm hn).trans (and_iff_right rfl).symm
  | .infinity .positive, .infinity .positive | .infinity .negative, .infinity .negative
  | .zero _, .zero _ => exact ⟨fun _ => ⟨rfl, rfl⟩, fun _ => rfl⟩
  | .notANumber, _ | .infinity _, .notANumber | .zero _, .notANumber
  | .finite .positive .., .notANumber | .finite .negative .., .notANumber => exact ⟨nofun, nofun⟩
  -- what is left are numbers of two kinds or of two signs
  | .infinity .positive, .infinity .negative | .infinity .negative, .infinity .positive
  | .infinity .positive, .zero _ | .infinity .negative, .zero _
  | .infinity .positive, .finite .. | .infinity .negative, .finite ..
  | .zero _, .infinity .positive | .zero _, .infinity .negative
  | .zero _, .finite .positive .. | .zero _, .finite .negative ..
  | .finite .positive .., .infinity .positive | .finite .positive .., .infinity .negative
  | .finite .negative .., .infinity .positive | .finite .negative .., .infinity .negative
  | .finite .positive .., .zero _ | .finite .negative .., .zero _
  | .finite .positive .., .finite .negative .. | .finite .negative .., .finite .positive .. =>
    exact ⟨nofun, nofun⟩

theorem isNaN_congr {x y : UnpackedFloat} (h : unsignedZero x = unsignedZero y) :
    x.isNaN = y.isNaN := by
  have hsame : ∀ z, (unsignedZero z).isNaN = z.isNaN := fun z => by cases z <;> rfl
  rw [← hsame x, h, hsame]

/-- Numbers are equal if they differ in the sign of zero at most; a NaN equals nothing. -/
theorem float_beq_iff (x y : Float) : (x == y) = true ↔
    x.isNaN = false ∧ unsignedZero x.toModel.unpack = unsignedZero y.toModel.unpack := by
  show (x.toModel.unpack.compare y.toModel.unpack == some .eq) = true ↔ _
  rw [beq_iff_eq]
  exact compare_eq_iff _ _

theorem float_beq_symm {x y : Float} (h : (x == y) = true) : (y == x) = true := by
  obtain ⟨hx, hxy⟩ := (float_beq_iff x y).1 h
  exact (float_beq_iff y x).2 ⟨(isNaN_congr hxy).symm.trans hx, hxy.symm⟩

theorem float_beq_trans {x y z : Float} (hxy : (x == y) = true) (hyz : (y == z) = true) :
    (x == z) = true := by
  obtain ⟨hx, hxy⟩ := (float_beq_iff x y).1 hxy
  exact (float_beq_iff x z).2 ⟨hx, hxy.trans ((float_beq_iff y z).1 hyz).2⟩

theorem float_beq_self_iff (x : Float) : (x == x) = true ↔ x.isNaN = false :=
  (float_beq_iff x x).trans (and_iff_left rfl)

/-- The same number of floats, equal one by one. -/
abbrev Agree (xs ys : List Float) : Prop := List.Forall₂ (fun x y => (x == y) = true) xs ys

theorem Agree.symm {xs ys : List Float} (h : Agree xs ys) : Agree ys xs :=
  (List.Forall₂.flip h).imp fun _ _ => float_beq_symm

theorem Agree.trans {xs ys zs : List Float} (h : Agree xs ys) (h' : Agree ys zs) : Agree xs zs := by
  induction h generalizing zs with
  | nil => exact h'
  | cons hxy _ ih =>
    cases h' with
    | cons hyz h' => exact .cons (float_beq_trans hxy hyz) (ih h')

theorem agree_self_iff {xs : List Float} : Agree xs xs ↔ ∀ x ∈ xs, x.isNaN = false :=
  List.forall₂_same.trans (forall₂_congr fun x _ => float_beq_self_iff x)

/-- Two parts are compared apart if the first ones are equally long, which `P` sees to. -/
theorem agree_append_iff {xs ys xs' ys' : List Float} {P Q : Prop}
    (hlength : P → xs.length = ys.length) :
    (P ∧ Agree xs ys) ∧ Q ∧ Agree xs' ys' ↔ (P ∧ Q) ∧ Agree (xs ++ xs') (ys ++ ys') := by
  constructor
  · rintro ⟨⟨hP, h⟩, hQ, h'⟩
    exact ⟨⟨hP, hQ⟩, List.rel_append h h'⟩
  · rintro ⟨⟨hP, hQ⟩, h⟩
    have hfirst := List.forall₂_take xs.length h
    have hrest := List.forall₂_drop xs.length h
    rw [List.take_left, hlength hP, List.take_left] at hfirst
    rw [List.drop_left, hlength hP, List.drop_left] at hrest
    exact ⟨⟨hP, hfirst⟩, hQ, hrest⟩

/-! ## Indexes, slots and scopes -/

section Index

variable {α : Type} {s t : Std.TreeMap Name α}

/-- The index filled anew from its entries, in the order of names. -/
def rebuilt (s : Std.TreeMap Name α) : Std.TreeMap Name α := .ofList s.toList

theorem rebuilt_equiv (s : Std.TreeMap Name α) : (rebuilt s).Equiv s := by
  apply Std.TreeMap.Equiv.of_forall_constGet?_eq
  intro name
  show (rebuilt s)[name]? = s[name]?
  cases hname : s[name]? with
  | none =>
    apply Std.TreeMap.getElem?_ofList_of_contains_eq_false
    rw [Std.TreeMap.map_fst_toList_eq_keys, Std.TreeMap.contains_keys,
      Std.TreeMap.contains_eq_isSome_getElem?, hname, Option.isSome_none]
  | some a =>
    exact Std.TreeMap.getElem?_ofList_of_mem Std.ReflCmp.compare_self
      Std.TreeMap.distinct_keys_toList (Std.TreeMap.mem_toList_iff_getElem?_eq_some.2 hname)

/-- Indexes are rebuilt alike exactly when they have the same entries. -/
theorem rebuilt_eq_iff : rebuilt s = rebuilt t ↔ s.Equiv t := by
  constructor
  · intro h
    exact (rebuilt_equiv s).symm.trans (h ▸ rebuilt_equiv t)
  · intro h
    rw [rebuilt, rebuilt, Std.TreeMap.equiv_iff_toList_eq.1 h]

theorem beq_iff_rebuilt_eq [BEq α] [LawfulBEq α] : (s == t) = true ↔ rebuilt s = rebuilt t := by
  rw [Std.TreeMap.beq_iff_equiv, rebuilt_eq_iff]

end Index

/-- The set with its index rebuilt. -/
def SlotSet.shape (s : SlotSet) : SlotSet := { s with index := rebuilt s.index }

theorem SlotSet.beq_iff_shape (s t : SlotSet) : (s == t) = true ↔ s.shape = t.shape := by
  show (s.slots == t.slots && s.index == t.index) = true ↔ _
  rw [Bool.and_eq_true, beq_iff_eq, beq_iff_rebuilt_eq, shape, shape, SlotSet.mk.injEq]

def ClassLayout.shape (l : ClassLayout) : ClassLayout := { l with template := l.template.shape }

theorem ClassLayout.beq_iff_shape (a b : ClassLayout) : (a == b) = true ↔ a.shape = b.shape := by
  show (a.typeId == b.typeId && a.template == b.template) = true ↔ _
  rw [Bool.and_eq_true, beq_iff_eq, SlotSet.beq_iff_shape, shape, shape, ClassLayout.mk.injEq]

theorem ClassLayout.option_beq_iff_shape (a b : Option ClassLayout) :
    (a == b) = true ↔ a.map shape = b.map shape := by
  cases a <;> cases b <;> simp [ClassLayout.beq_iff_shape]

/-- The scope with all its indexes rebuilt. -/
def Scope.shape (s : Scope) : Scope :=
  { s with
    locals := s.locals.shape
    nested := rebuilt s.nested
    layout? := s.layout?.map ClassLayout.shape }

theorem Scope.beq_iff_shape (s t : Scope) : (s == t) = true ↔ s.shape = t.shape := by
  show (s.kind == t.kind && s.name == t.name && s.parent == t.parent && s.locals == t.locals &&
    s.nested == t.nested && s.layout? == t.layout?) = true ↔ _
  rw [Bool.and_eq_true, Bool.and_eq_true, Bool.and_eq_true, Bool.and_eq_true, Bool.and_eq_true,
    beq_iff_eq, beq_iff_eq, beq_iff_eq, SlotSet.beq_iff_shape, beq_iff_rebuilt_eq,
    ClassLayout.option_beq_iff_shape, shape, shape, Scope.mk.injEq, and_assoc, and_assoc, and_assoc,
    and_assoc]

/-! ## Floats and shape of a value -/

mutual

/-- The floats in the value: in items, in members, and in what the bodies of methods hold. -/
def Value.floats : Value → List Float
  | .float x => [x]
  | .list items => Value.itemsFloats items
  | .object o => o.floats
  | .method m => m.floats
  | _ => []

def Value.itemsFloats : List Value → List Float
  | [] => []
  | item :: items => item.floats ++ Value.itemsFloats items

def Object.floats : Object → List Float
  | ⟨_, _, _, members, _⟩ => Object.membersFloats members

def Object.membersFloats : List Member → List Float
  | [] => []
  | ⟨_, value⟩ :: members => value.floats ++ Object.membersFloats members

def Method.floats : Method → List Float
  | ⟨_, _, _, body⟩ => Action.bodyFloats body

def Operand.floats : Operand → List Float
  | .pop => []
  | .literal value => value.floats

/-- The floats in the literals and defaults of the action, also those of the bodies inside it. -/
def Action.floats : Action → List Float
  | .declareConstant _ value | .pushLiteral value | .addStaticMember _ _ value
  | .addInstanceMember _ _ value => value.floats
  | .assignLocal _ source => source.floats
  | .defineNamespace _ body | .defineClass _ body => Action.bodyFloats body
  | .defineMethod _ params body => Parameter.defaultFloats params ++ Action.bodyFloats body
  | _ => []

def Parameter.defaultFloats : List Parameter → List Float
  | [] => []
  | ⟨_, none⟩ :: params => Parameter.defaultFloats params
  | ⟨_, some value⟩ :: params => value.floats ++ Parameter.defaultFloats params

def Action.bodyFloats : List Action → List Float
  | [] => []
  | action :: actions => action.floats ++ Action.bodyFloats actions

end

def NativeMethod.shape (m : NativeMethod) : NativeMethod := { m with entry := "" }

mutual

/-- What equality sees of the value but for its floats, which are all zero here. -/
def Value.shape : Value → Value
  | .float _ => .float 0
  | .scope s => .scope s.shape
  | .native m => .native m.shape
  | .list items => .list (Value.itemsShape items)
  | .object o => .object o.shape
  | .method m => .method m.shape
  | v => v

def Value.itemsShape : List Value → List Value
  | [] => []
  | item :: items => item.shape :: Value.itemsShape items

def Object.shape : Object → Object
  | ⟨classScope, className, typeId, members, index⟩ =>
    ⟨classScope, className, typeId, Object.membersShape members, rebuilt index⟩

def Object.membersShape : List Member → List Member
  | [] => []
  | ⟨name, value⟩ :: members => ⟨name, value.shape⟩ :: Object.membersShape members

def Method.shape : Method → Method
  | ⟨name, params, scope, body⟩ => ⟨name, params.shape, scope, Action.bodyShape body⟩

def Operand.shape : Operand → Operand
  | .pop => .pop
  | .literal value => .literal value.shape

def Action.shape : Action → Action
  | .declareConstant name value => .declareConstant name value.shape
  | .pushLiteral value => .pushLiteral value.shape
  | .assignLocal name source => .assignLocal name source.shape
  | .addStaticMember owner name value => .addStaticMember owner name value.shape
  | .addInstanceMember owner name value => .addInstanceMember owner name value.shape
  | .defineNamespace name body => .defineNamespace name (Action.bodyShape body)
  | .defineClass name body => .defineClass name (Action.bodyShape body)
  | .defineMethod name params body =>
    .defineMethod name (Parameter.allShape params) (Action.bodyShape body)
  | a => a

def Parameter.allShape : List Parameter → List Parameter
  | [] => []
  | ⟨name, none⟩ :: params => ⟨name, none⟩ :: Parameter.allShape params
  | ⟨name, some value⟩ :: params => ⟨name, some value.shape⟩ :: Parameter.allShape params

def Action.bodyShape : List Action → List Action
  | [] => []
  | action :: actions => action.shape :: Action.bodyShape actions

end

theorem Value.kind_shape (v : Value) : v.shape.kind = v.kind := by
  cases v <;> simp [Value.shape, Value.kind]

theorem Value.kind_eq_of_beq {a b : Value} (h : a.beq b = true) : a.kind = b.kind := by
  fun_cases Value.beq a b <;> first | rfl | simp [Value.beq] at h

theorem Action.ctorIdx_shape (a : Action) : a.shape.ctorIdx = a.ctorIdx := by
  cases a <;> simp only [Action.shape] <;> rfl

theorem Action.ctorIdx_eq_of_beq {a b : Action} (h : a.beq b = true) : a.ctorIdx = b.ctorIdx := by
  fun_cases Action.beq a b <;> first | rfl | simp [Action.beq] at h

mutual

theorem Value.floats_shape (v : Value) : v.shape.floats = v.floats.map fun _ => 0 := by
  cases v with
  | list items => rw [Value.shape, Value.floats, Value.floats, Value.itemsFloats_shape items]
  | object o => rw [Value.shape, Value.floats, Value.floats, o.floats_shape]
  | method m => rw [Value.shape, Value.floats, Value.floats, m.floats_shape]
  | _ => simp [Value.shape, Value.floats]

theorem Value.itemsFloats_shape (items : List Value) :
    Value.itemsFloats (Value.itemsShape items) = (Value.itemsFloats items).map fun _ => 0 := by
  cases items with
  | nil => rw [Value.itemsShape, Value.itemsFloats, List.map_nil]
  | cons item items =>
    rw [Value.itemsShape, Value.itemsFloats, Value.itemsFloats, item.floats_shape,
      Value.itemsFloats_shape items, List.map_append]

theorem Object.floats_shape (o : Object) : o.shape.floats = o.floats.map fun _ => 0 := by
  obtain ⟨_, _, _, members, _⟩ := o
  rw [Object.shape, Object.floats, Object.floats, Object.membersFloats_shape members]

theorem Object.membersFloats_shape (members : List Member) :
    Object.membersFloats (Object.membersShape members) =
      (Object.membersFloats members).map fun _ => 0 := by
  match members with
  | [] => rw [Object.membersShape, Object.membersFloats, List.map_nil]
  | ⟨_, value⟩ :: members =>
    rw [Object.membersShape, Object.membersFloats, Object.membersFloats, value.floats_shape,
      Object.membersFloats_shape members, List.map_append]

theorem Method.floats_shape (m : Method) : m.shape.floats = m.floats.map fun _ => 0 := by
  obtain ⟨_, _, _, body⟩ := m
  rw [Method.shape, Method.floats, Method.floats, Action.bodyFloats_shape body]

theorem Operand.floats_shape (s : Operand) : s.shape.floats = s.floats.map fun _ => 0 := by
  cases s with
  | pop => rw [Operand.shape, Operand.floats, List.map_nil]
  | literal value => rw [Operand.shape, Operand.floats, Operand.floats, value.floats_shape]

theorem Action.floats_shape (a : Action) : a.shape.floats = a.floats.map fun _ => 0 := by
  cases a with
  | declareConstant _ value | pushLiteral value | addStaticMember _ _ value
  | addInstanceMember _ _ value =>
    rw [Action.shape, Action.floats, Action.floats, value.floats_shape]
  | assignLocal _ source => rw [Action.shape, Action.floats, Action.floats, source.floats_shape]
  | defineNamespace _ body | defineClass _ body =>
    rw [Action.shape, Action.floats, Action.floats, Action.bodyFloats_shape body]
  | defineMethod _ params body =>
    rw [Action.shape, Action.floats, Action.floats, Parameter.defaultFloats_allShape params,
      Action.bodyFloats_shape body, List.map_append]
  | _ => simp [Action.shape, Action.floats]

theorem Parameter.defaultFloats_allShape (params : List Parameter) :
    Parameter.defaultFloats (Parameter.allShape params) =
      (Parameter.defaultFloats params).map fun _ => 0 := by
  match params with
  | [] => rw [Parameter.allShape, Parameter.defaultFloats, List.map_nil]
  | ⟨_, none⟩ :: params =>
    rw [Parameter.allShape, Parameter.defaultFloats, Parameter.defaultFloats,
      Parameter.defaultFloats_allShape params]
  | ⟨_, some value⟩ :: params =>
    rw [Parameter.allShape, Parameter.defaultFloats, Parameter.defaultFloats, value.floats_shape,
      Parameter.defaultFloats_allShape params, List.map_append]

theorem Action.bodyFloats_shape (body : List Action) :
    Action.bodyFloats (Action.bodyShape body) = (Action.bodyFloats body).map fun _ => 0 := by
  cases body with
  | nil => rw [Action.bodyShape, Action.bodyFloats, List.map_nil]
  | cons action body =>
    rw [Action.bodyShape, Action.bodyFloats, Action.bodyFloats, action.floats_shape,
      Action.bodyFloats_shape body, List.map_append]

end

/-- What is mapped to one shape holds equally many floats. -/
theorem length_eq_of_shape {α : Type} {shape : α → α} {floats : α → List Float}
    (hfloats : ∀ a, floats (shape a) = (floats a).map fun _ => 0) {a b : α}
    (h : shape a = shape b) : (floats a).length = (floats b).length := by
  have hzeros := congrArg (List.length ∘ floats) h
  simpa only [Function.comp_apply, hfloats, List.length_map] using hzeros

theorem Value.length_floats_eq {a b : Value} (h : a.shape = b.shape) :
    a.floats.length = b.floats.length :=
  length_eq_of_shape Value.floats_shape h

/-- Values of two kinds differ, and so do their shapes. -/
theorem Value.beq_iff_of_kind_ne {a b : Value} (h : a.kind ≠ b.kind) :
    a.beq b = true ↔ a.shape = b.shape ∧ Agree a.floats b.floats := by
  refine iff_of_false (fun hbeq => h (kind_eq_of_beq hbeq)) fun hshape => h ?_
  rw [← kind_shape a, hshape.1, kind_shape]

theorem Action.beq_iff_of_ctorIdx_ne {a b : Action} (h : a.ctorIdx ≠ b.ctorIdx) :
    a.beq b = true ↔ a.shape = b.shape ∧ Agree a.floats b.floats := by
  refine iff_of_false (fun hbeq => h (ctorIdx_eq_of_beq hbeq)) fun hshape => h ?_
  rw [← ctorIdx_shape a, hshape.1, ctorIdx_shape]

mutual

/-- Values are equal if they have the same shape and equal numbers in the same places. -/
theorem Value.beq_iff (a b : Value) :
    a.beq b = true ↔ a.shape = b.shape ∧ Agree a.floats b.floats := by
  -- two constructors are told apart once for all pairs, before the cases
  by_cases hkind : a.kind = b.kind
  case neg => exact Value.beq_iff_of_kind_ne hkind
  cases a with
  | object o =>
    cases b with
    | object o' =>
      rw [Value.beq, o.beq_iff, Value.shape, Value.shape, Value.floats, Value.floats,
        Value.object.injEq]
    | _ => nomatch hkind
  | method m =>
    cases b with
    | method m' =>
      rw [Value.beq, m.beq_iff, Value.shape, Value.shape, Value.floats, Value.floats,
        Value.method.injEq]
    | _ => nomatch hkind
  | list items =>
    cases b with
    | list items' =>
      rw [Value.beq, Value.beqItems_iff items, Value.shape, Value.shape, Value.floats, Value.floats,
        Value.list.injEq]
    | _ => nomatch hkind
  | _ =>
    cases b <;> first
      | (cases hkind; done)
      | simp [Value.beq, Value.shape, Value.floats, Scope.beq_iff_shape, NativeMethod.shape]

theorem Value.beqItems_iff (as bs : List Value) : Value.beqItems as bs = true ↔
    Value.itemsShape as = Value.itemsShape bs ∧
      Agree (Value.itemsFloats as) (Value.itemsFloats bs) := by
  cases as with
  | nil => cases bs <;> simp [Value.beqItems, Value.itemsShape, Value.itemsFloats]
  | cons a as =>
    cases bs with
    | nil => simp [Value.beqItems, Value.itemsShape]
    | cons b bs =>
      rw [Value.beqItems, Bool.and_eq_true, a.beq_iff, Value.beqItems_iff as,
        agree_append_iff Value.length_floats_eq, Value.itemsShape, Value.itemsShape,
        Value.itemsFloats, Value.itemsFloats, List.cons.injEq]

theorem Object.beq_iff (o o' : Object) :
    o.beq o' = true ↔ o.shape = o'.shape ∧ Agree o.floats o'.floats := by
  obtain ⟨scope, name, typeId, members, index⟩ := o
  obtain ⟨scope', name', typeId', members', index'⟩ := o'
  simp only [Object.beq, Bool.and_eq_true, beq_iff_eq, Object.beqMembers_iff members,
    beq_iff_rebuilt_eq, Object.shape, Object.floats, Object.mk.injEq, and_assoc]
  tauto

theorem Object.beqMembers_iff (as bs : List Member) : Object.beqMembers as bs = true ↔
    Object.membersShape as = Object.membersShape bs ∧
      Agree (Object.membersFloats as) (Object.membersFloats bs) := by
  match as, bs with
  | [], [] => simp [Object.beqMembers, Object.membersShape, Object.membersFloats]
  | [], ⟨_, _⟩ :: _ => simp [Object.beqMembers, Object.membersShape]
  | ⟨_, _⟩ :: _, [] => simp [Object.beqMembers, Object.membersShape]
  | ⟨name, a⟩ :: as, ⟨name', b⟩ :: bs =>
    rw [Object.beqMembers, Bool.and_eq_true, Bool.and_eq_true, a.beq_iff, Object.beqMembers_iff as,
      and_assoc, agree_append_iff Value.length_floats_eq]
    simp [Object.membersShape, Object.membersFloats, and_assoc]

theorem Method.beq_iff (m m' : Method) :
    m.beq m' = true ↔ m.shape = m'.shape ∧ Agree m.floats m'.floats := by
  obtain ⟨name, params, scope, body⟩ := m
  obtain ⟨name', params', scope', body'⟩ := m'
  simp only [Method.beq, Bool.and_eq_true, beq_iff_eq, SlotSet.beq_iff_shape,
    Action.beqBody_iff body, Method.shape, Method.floats, Method.mk.injEq, and_assoc]

theorem Operand.beq_iff (s s' : Operand) :
    s.beq s' = true ↔ s.shape = s'.shape ∧ Agree s.floats s'.floats := by
  match s, s' with
  | .pop, .pop => simp [Operand.beq, Operand.shape, Operand.floats]
  | .pop, .literal _ => simp [Operand.beq, Operand.shape]
  | .literal _, .pop => simp [Operand.beq, Operand.shape]
  | .literal v, .literal w =>
    rw [Operand.beq, v.beq_iff, Operand.shape, Operand.shape, Operand.floats, Operand.floats,
      Operand.literal.injEq]

theorem Parameter.beqAll_iff (ps qs : List Parameter) : Parameter.beqAll ps qs = true ↔
    Parameter.allShape ps = Parameter.allShape qs ∧
      Agree (Parameter.defaultFloats ps) (Parameter.defaultFloats qs) := by
  match ps, qs with
  | [], [] => simp [Parameter.beqAll, Parameter.allShape, Parameter.defaultFloats]
  | [], ⟨_, none⟩ :: _ => simp [Parameter.beqAll, Parameter.allShape]
  | [], ⟨_, some _⟩ :: _ => simp [Parameter.beqAll, Parameter.allShape]
  | ⟨_, none⟩ :: _, [] => simp [Parameter.beqAll, Parameter.allShape]
  | ⟨_, some _⟩ :: _, [] => simp [Parameter.beqAll, Parameter.allShape]
  | ⟨name, none⟩ :: ps, ⟨name', none⟩ :: qs =>
    simp [Parameter.beqAll, Parameter.beqDefault, Parameter.allShape, Parameter.defaultFloats,
      Parameter.beqAll_iff ps, and_assoc]
  | ⟨_, none⟩ :: _, ⟨_, some _⟩ :: _ =>
    simp [Parameter.beqAll, Parameter.beqDefault, Parameter.allShape]
  | ⟨_, some _⟩ :: _, ⟨_, none⟩ :: _ =>
    simp [Parameter.beqAll, Parameter.beqDefault, Parameter.allShape]
  | ⟨name, some v⟩ :: ps, ⟨name', some w⟩ :: qs =>
    rw [Parameter.beqAll, Bool.and_eq_true, Bool.and_eq_true, Parameter.beqDefault, v.beq_iff,
      Parameter.beqAll_iff ps, and_assoc, agree_append_iff Value.length_floats_eq]
    simp [Parameter.allShape, Parameter.defaultFloats, and_assoc]

theorem Action.beq_iff (a b : Action) :
    a.beq b = true ↔ a.shape = b.shape ∧ Agree a.floats b.floats := by
  by_cases hctor : a.ctorIdx = b.ctorIdx
  case neg => exact Action.beq_iff_of_ctorIdx_ne hctor
  cases a with
  | declareConstant _ v | assignLocal _ v | pushLiteral v | addStaticMember _ _ v
  | addInstanceMember _ _ v =>
    cases b <;> first
      | (cases hctor; done)
      | simp [Action.beq, Action.shape, Action.floats, v.beq_iff, and_assoc]
  | defineNamespace _ body | defineClass _ body =>
    cases b <;> first
      | (cases hctor; done)
      | simp [Action.beq, Action.shape, Action.floats, Action.beqBody_iff body, and_assoc]
  | defineMethod m ps body =>
    cases b with
    | defineMethod n qs body' =>
      rw [Action.beq, Bool.and_eq_true, Bool.and_eq_true, Parameter.beqAll_iff ps,
        Action.beqBody_iff body, and_assoc, agree_append_iff
          (length_eq_of_shape Parameter.defaultFloats_allShape)]
      simp [Action.shape, Action.floats, and_assoc]
    | _ => nomatch hctor
  | _ => cases b <;> first | (cases hctor; done) | simp [Action.beq, Action.shape, Action.floats]

theorem Action.beqBody_iff (as bs : List Action) : Action.beqBody as bs = true ↔
    Action.bodyShape as = Action.bodyShape bs ∧
      Agree (Action.bodyFloats as) (Action.bodyFloats bs) := by
  cases as with
  | nil => cases bs <;> simp [Action.beqBody, Action.bodyShape, Action.bodyFloats]
  | cons a as =>
    cases bs with
    | nil => simp [Action.beqBody, Action.bodyShape]
    | cons b bs =>
      rw [Action.beqBody, Bool.and_eq_true, a.beq_iff, Action.beqBody_iff as,
        agree_append_iff (length_eq_of_shape Action.floats_shape), Action.bodyShape,
        Action.bodyShape, Action.bodyFloats, Action.bodyFloats, List.cons.injEq]

end

/-! ## Laws -/

/-- Equality is symmetric and transitive, and it is reflexive where no NaN is held. -/
structure EquivalenceOffNaN {α : Type} [BEq α] (floats : α → List Float) : Prop where
  symm : ∀ a b : α, (a == b) = (b == a)
  trans : ∀ a b c : α, (a == b) = true → (b == c) = true → (a == c) = true
  refl_iff : ∀ a : α, (a == a) = true ↔ ∀ x ∈ floats a, x.isNaN = false

/-- Equality has its laws where it compares shapes and floats. -/
theorem EquivalenceOffNaN.of_shape {α : Type} [BEq α] {shape : α → α} {floats : α → List Float}
    (hbeq : ∀ a b : α, (a == b) = true ↔ shape a = shape b ∧ Agree (floats a) (floats b)) :
    EquivalenceOffNaN floats where
  symm a b := by
    rw [Bool.eq_iff_iff, hbeq, hbeq]
    exact ⟨fun h => ⟨h.1.symm, h.2.symm⟩, fun h => ⟨h.1.symm, h.2.symm⟩⟩
  trans a b c hab hbc := by
    have hab := (hbeq a b).1 hab
    have hbc := (hbeq b c).1 hbc
    exact (hbeq a c).2 ⟨hab.1.trans hbc.1, hab.2.trans hbc.2⟩
  refl_iff a := (hbeq a a).trans ((and_iff_right rfl).trans agree_self_iff)

theorem Value.native_beq_iff (m n : NativeMethod) :
    (Value.native m == Value.native n) = true ↔ m.name = n.name ∧ m.params = n.params := by
  show (Value.native m).beq (.native n) = true ↔ _
  rw [Value.beq, Bool.and_eq_true, beq_iff_eq, beq_iff_eq]

/-- Indexes that find the same things are rebuilt alike. -/
theorem rebuilt_congr {α : Type} {s t : Std.TreeMap Name α}
    (h : ∀ name : Name, s[name]? = t[name]?) : rebuilt s = rebuilt t :=
  rebuilt_eq_iff.2 (Std.TreeMap.Equiv.of_forall_constGet?_eq h)

/-- Shape and floats are all that equality sees. -/
theorem Object.beq_congr {o p : Object} (hshape : o.shape = p.shape) (hfloats : o.floats = p.floats)
    (o' : Object) : (o == o') = (p == o') := by
  rw [Bool.eq_iff_iff]
  exact (o.beq_iff o').trans (by rw [hshape, hfloats]; exact (p.beq_iff o').symm)

theorem Object.beq_index (o o' : Object) {index : Std.TreeMap Name Nat}
    (h : ∀ name : Name, index[name]? = o.index[name]?) : ({ o with index } == o') = (o == o') := by
  obtain ⟨scope, name, typeId, members, _⟩ := o
  apply Object.beq_congr
  · rw [Object.shape, Object.shape, rebuilt_congr h]
  · rw [Object.floats, Object.floats]

theorem SlotSet.beq_index (s t : SlotSet) {index : Std.TreeMap Name Nat}
    (h : ∀ name : Name, index[name]? = s.index[name]?) : ({ s with index } == t) = (s == t) := by
  have hshape : ({ s with index } : SlotSet).shape = s.shape :=
    congrArg (SlotSet.mk s.slots) (rebuilt_congr h)
  rw [Bool.eq_iff_iff, beq_iff_shape, beq_iff_shape, hshape]

/-- Equality of values, and of everything that a value is made of, is an equivalence up to NaN. It
takes native methods by name and parameters, and indexes by what they find. -/
theorem equality_equivalence_off_nan :
    EquivalenceOffNaN Value.floats ∧ EquivalenceOffNaN Object.floats ∧
    EquivalenceOffNaN Method.floats ∧ EquivalenceOffNaN Action.floats ∧
    EquivalenceOffNaN Operand.floats ∧
    EquivalenceOffNaN (fun _ : Scope => []) ∧ EquivalenceOffNaN (fun _ : SlotSet => []) ∧
    (∀ m n : NativeMethod,
      (Value.native m == Value.native n) = true ↔ m.name = n.name ∧ m.params = n.params) ∧
    (∀ (o o' : Object) (index : Std.TreeMap Name Nat),
      (∀ name : Name, index[name]? = o.index[name]?) → ({ o with index } == o') = (o == o')) ∧
    ∀ (s t : SlotSet) (index : Std.TreeMap Name Nat),
      (∀ name : Name, index[name]? = s.index[name]?) → ({ s with index } == t) = (s == t) :=
  ⟨.of_shape Value.beq_iff, .of_shape Object.beq_iff, .of_shape Method.beq_iff,
    .of_shape Action.beq_iff, .of_shape Operand.beq_iff,
    .of_shape fun s t => (Scope.beq_iff_shape s t).trans (and_iff_left .nil).symm,
    .of_shape fun s t => (SlotSet.beq_iff_shape s t).trans (and_iff_left .nil).symm,
    Value.native_beq_iff, fun o o' _ => o.beq_index o', fun s t _ => s.beq_index t⟩

end ActionMachine
