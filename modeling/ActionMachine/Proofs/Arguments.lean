import Mathlib.Data.List.Forall2
import ActionMachine.Proofs.Carrying
import ActionMachine.Proofs.Definitions

/-
  Native calls. The arguments on top of the stack are followed first, all of them, and then written
  in their own places, one after the other, where the slots of the parameters lead. So an argument
  may refer to the place of another one and is still handed over as it was before the call
  (`native_handed_arguments`). The names of the parameters are looked at while the values are
  written: if one is there twice, the call fails after it has replaced the references up to that
  parameter by what they lead to (`native_failure_traceless_iff`).
-/

namespace ActionMachine

/-! ## What arguments lead to -/

namespace Reader

variable {read : Reader} {args values : List Value}

/-- The arguments lead to the values, one to one, and none of the values is undefined. -/
def LeadTo (read : Reader) (args values : List Value) : Prop :=
  List.Forall₂ (fun a v => read.follow a = .ok v ∧ v.isUndefined = false) args values

theorem owned_eq_ok_iff {op : String} {v w : Value} :
    read.owned op v = .ok w ↔ read.follow v = .ok w ∧ w.isUndefined = false := by
  refine ⟨owned_eq_ok, fun h => ?_⟩
  rw [owned, h.1]
  exact if_neg (Bool.eq_false_iff.1 h.2)

theorem ownedAll_eq_ok_iff {op : String} :
    read.ownedAll op args = .ok values ↔ read.LeadTo args values := by
  unfold ownedAll LeadTo
  induction args generalizing values with
  | nil =>
    rw [List.mapM_nil, List.forall₂_nil_left_iff]
    exact ⟨fun h => (Except.ok.inj h).symm, fun h => h ▸ rfl⟩
  | cons a args ih =>
    rw [List.mapM_cons, List.forall₂_cons_left_iff, bind_eq_ok_iff]
    constructor
    · rintro ⟨v, hv, hrest⟩
      obtain ⟨vs, hvs, heq⟩ := bind_eq_ok_iff.1 hrest
      exact ⟨v, vs, owned_eq_ok_iff.1 hv, ih.1 hvs, (Except.ok.inj heq).symm⟩
    · rintro ⟨v, vs, hv, hvs, rfl⟩
      exact ⟨v, owned_eq_ok_iff.2 hv, bind_eq_ok_iff.2 ⟨vs, ih.2 hvs, rfl⟩⟩

theorem LeadTo.length_eq (h : read.LeadTo args values) : args.length = values.length :=
  List.Forall₂.length_eq h

/-- Arguments lead to values together if each leads to one. -/
theorem exists_leadTo_iff :
    (∃ values, read.LeadTo args values) ↔
      ∀ a ∈ args, ∃ v, read.follow a = .ok v ∧ v.isUndefined = false := by
  induction args with
  | nil => simp [LeadTo]
  | cons a args ih =>
    rw [List.forall_mem_cons, ← ih]
    constructor
    · rintro ⟨_, h⟩
      cases h with
      | cons ha hargs => exact ⟨⟨_, ha⟩, _, hargs⟩
    · rintro ⟨⟨v, ha⟩, values, hargs⟩
      exact ⟨v :: values, .cons ha hargs⟩

/-- Arguments that lead to themselves are those that are no references. -/
theorem LeadTo.take_eq_iff (h : read.LeadTo args values) (n : Nat) :
    args.take n = values.take n ↔ ∀ v ∈ args.take n, v.isReference = false := by
  unfold LeadTo at h
  induction h generalizing n with
  | nil => simp
  | @cons a v args values hav _ ih =>
    cases n with
    | zero => simp
    | succ n =>
      rw [List.take_succ_cons, List.take_succ_cons, List.cons.injEq, ih n, List.forall_mem_cons]
      refine and_congr_left fun _ => ⟨fun heq => heq ▸ isReference_follow hav.1, fun hplain => ?_⟩
      exact Except.ok.inj ((follow_of_plain hplain).symm.trans hav.1)

end Reader

/-! ## Elements of the stack replaced by others -/

namespace Operands

variable {s : Operands} {index : Nat} {vs : List Value}

theorem length_above (index : Nat) : (s.above index).length = s.size - index := by
  simp [above, size]

theorem getElem?_above (index i : Nat) : (s.above index)[i]? = s.get? (index + i) := by
  rw [above, Array.getElem?_toList, Array.getElem?_extract, get?]
  split
  · rfl
  · rw [Array.getElem?_eq_none (by simp_all [size]; omega)]

/-- Put the values in the place of the elements from `index` up. -/
def overwrite (s : Operands) (index : Nat) : List Value → Operands
  | [] => s
  | v :: vs => overwrite ⟨s.values.setIfInBounds index v⟩ (index + 1) vs

theorem get?_overwrite (h : index + vs.length ≤ s.size) (i : Nat) :
    (s.overwrite index vs).get? i =
      if index ≤ i ∧ i < index + vs.length then vs[i - index]? else s.get? i := by
  induction vs generalizing s index with
  | nil => rw [overwrite, if_neg (by simp only [List.length_nil]; omega)]
  | cons v vs ih =>
    rw [List.length_cons] at h ⊢
    have hsize : (⟨s.values.setIfInBounds index v⟩ : Operands).size = s.size :=
      Array.size_setIfInBounds
    rw [overwrite, ih (by omega)]
    simp only [get?, size] at *
    rw [Array.getElem?_setIfInBounds]
    grind

/-- What lies below is not touched. -/
theorem truncate_overwrite (h : index + vs.length ≤ s.size) :
    (s.overwrite index vs).truncate index = s.truncate index :=
  truncate_eq_iff.2 fun i hi => by rw [get?_overwrite h, if_neg (by omega)]

/-- Values that are there already change nothing. -/
theorem overwrite_eq_self_iff (h : index + vs.length ≤ s.size) :
    s.overwrite index vs = s ↔ (s.above index).take vs.length = vs := by
  constructor
  · intro heq
    apply List.ext_getElem?
    intro i
    rw [List.getElem?_take, getElem?_above]
    split
    · next hi =>
      have hget := get?_overwrite h (index + i)
      rw [heq, if_pos (by omega), Nat.add_sub_cancel_left] at hget
      exact hget
    · next hi => exact (List.getElem?_eq_none (by omega)).symm
  · intro heq
    have hget : ∀ i, (s.overwrite index vs).get? i = s.get? i := by
      intro i
      rw [get?_overwrite h]
      split
      · next hi =>
        conv_lhs => rw [← heq]
        rw [List.getElem?_take, getElem?_above, if_pos (by omega), Nat.add_sub_of_le hi.1]
      · rfl
    exact congrArg Operands.mk (Array.ext_getElem? hget)

end Operands

/-! ## Names that are there twice -/

/-- Number of names up to the first that was there before, this one included; `taken` are there
from the start. -/
def countToRepeat (taken : List Name) : List Name → Nat
  | [] => 0
  | name :: names => if name ∈ taken then 1 else countToRepeat (name :: taken) names + 1

namespace Exec

variable {scope : ScopeId} {p q : Program} {slots : SlotSet} {taken : List Name} {index : Nat}

/-- The first value is written before its name is looked at. -/
theorem ends_placeArguments_cons {name : Name} {v : Value} {args : List (Name × Value)}
    (hindex : index < p.memory.stack.size) {done : SlotSet → Program → Prop}
    {stopped : Stop Fault → Program → Prop} :
    Ends (placeArguments index slots ((name, v) :: args)) p done stopped ↔
      (∀ e, slots.insert name (.stack index) = .error e →
        stopped (.fault e.toFault) (p.withStack ⟨p.memory.stack.values.setIfInBounds index v⟩)) ∧
      ∀ slots', slots.insert name (.stack index) = .ok slots' →
        Ends (placeArguments (index + 1) slots' args)
          (p.withStack ⟨p.memory.stack.values.setIfInBounds index v⟩) done stopped := by
  have hread : p.memory.read (.stack index) = some p.memory.stack.values[index] :=
    Array.getElem?_eq_getElem hindex
  have hwrite : p.memory.write (.stack index) v = .ok (p.memory.set (.stack index) v) :=
    Memory.update_eq_ok_iff.2 ⟨rfl, _, v, hread, rfl, rfl⟩
  simp only [placeArguments, ends_bind, ends_get, ends_liftFault, hwrite, ends_setMemory]
  refine ⟨fun h => ends_insert.1 (h.1 _ rfl), fun h => ⟨fun m hm => ?_, fun f hf => by cases hf⟩⟩
  cases hm
  exact ends_insert.2 h

/-- The values are written up to the first name that was there before. -/
theorem placeArguments_places {args : List (Name × Value)}
    (htaken : slots.Names taken)
    (hroom : index + args.length ≤ p.memory.stack.size) :
    Ends (placeArguments index slots args) p
      (fun slots' q => SlotSet.Fresh taken (args.map (·.1)) ∧
        q = p.withStack (p.memory.stack.overwrite index (args.map (·.2))) ∧
        slots' = slots.extend (Slot.row .stack index (args.map (·.1))))
      (Halts (fun _ q => ¬ SlotSet.Fresh taken (args.map (·.1)) ∧
        q = p.withStack (p.memory.stack.overwrite index
          ((args.map (·.2)).take (countToRepeat taken (args.map (·.1)))))) fun _ => False) := by
  induction args generalizing p slots taken index with
  | nil => exact ⟨SlotSet.fresh_nil taken, rfl, rfl⟩
  | cons arg args ih =>
    obtain ⟨name, v⟩ := arg
    rw [List.length_cons] at hroom
    rw [ends_placeArguments_cons (by omega)]
    simp only [List.map_cons, Slot.row_cons, countToRepeat, Operands.overwrite]
    refine ⟨fun e he => ?_, fun slots' hi => ?_⟩
    · have hname : name ∈ taken := htaken.mem_of_error he
      rw [if_pos hname]
      exact ⟨fun h => (SlotSet.fresh_cons.1 h).1 hname, rfl⟩
    · have hname : name ∉ taken := htaken.notMem_of_ok hi
      rw [if_neg hname, SlotSet.extend_cons hi, SlotSet.fresh_cons, and_iff_right hname,
        List.take_succ_cons]
      have hsize : (p.withStack ⟨p.memory.stack.values.setIfInBounds index v⟩).memory.stack.size =
          p.memory.stack.size := Array.size_setIfInBounds
      exact ih (htaken.insert hi) (by omega)

/-! ## Native calls -/

/-- The call has an argument for each parameter, and the arguments lead to the values. -/
structure Supplies (p : Program) (native : NativeMethod) (count : Nat) (values : List Value) :
    Prop where
  arity : count = native.arity
  operands : count ≤ p.memory.stack.size
  leads : p.memory.read.LeadTo (p.memory.stack.above (p.memory.stack.size - count)) values

theorem Supplies.length_eq {native : NativeMethod} {count : Nat} {values : List Value}
    (h : Supplies p native count values) : values.length = count := by
  rw [← h.leads.length_eq, Operands.length_above]
  exact Nat.sub_sub_self h.operands

/-- The values have room where the arguments lie. -/
theorem Supplies.room {native : NativeMethod} {count : Nat} {values : List Value}
    (h : Supplies p native count values) :
    p.memory.stack.size - count + values.length ≤ p.memory.stack.size := by
  rw [h.length_eq]
  exact Nat.le_of_eq (Nat.sub_add_cancel h.operands)

/-- What a native method is handed when the arguments on the stack lead to the values: each
parameter is bound to the place of its argument, where the value lies now. -/
def handedOver (p : Program) (native : NativeMethod) (values : List Value) : Arguments where
  slots := .ofSlots (Slot.row .stack (p.memory.stack.size - native.arity) native.params)
  read := (p.withStack (p.memory.stack.overwrite (p.memory.stack.size - native.arity)
    values)).memory.read

theorem callNative_hands {native : NativeMethod} {count : Nat} {values : List Value}
    (h : Supplies p native count values) :
    Ends (callNative native count) p
      (fun _ q => native.params.Nodup ∧
        q = p.withStack ((p.memory.stack.truncate (p.memory.stack.size - count)).push
          (p.host native.entry (handedOver p native values))))
      (Halts (fun _ q => ¬ native.params.Nodup ∧
        q = p.withStack (p.memory.stack.overwrite (p.memory.stack.size - count)
          (values.take (countToRepeat [] native.params)))) fun _ => False) := by
  have hroom := h.room
  have hlength := h.length_eq
  obtain ⟨rfl, harity, hleads⟩ := h
  simp only [callNative, ends_bind, ends_ite, ends_get, ends_liftViolation, ends_liftFault]
  refine ⟨fun hne => absurd rfl hne, fun _ => ⟨fun base hbase => ?_, fun v hv => ?_⟩⟩
  · obtain ⟨-, rfl⟩ := Operands.base_eq_ok_iff.1 hbase
    rw [Reader.ownedAll_eq_ok_iff.2 hleads]
    refine ⟨fun ws hws => ?_, fun f hf => by cases hf⟩
    cases hws
    have hzip : p.memory.stack.size - native.arity + (native.params.zip values).length ≤
        p.memory.stack.size := by
      rw [List.length_zip]
      omega
    have hplaces := placeArguments_places SlotSet.names_empty hzip
    rw [List.map_fst_zip (Nat.le_of_eq hlength.symm), List.map_snd_zip (Nat.le_of_eq hlength)]
      at hplaces
    refine hplaces.imp ?_ fun s q hs => hs.imp (fun _ hq => ⟨fun hnodup => ?_, hq.2⟩) id
    · rintro slots q ⟨hnew, rfl, rfl⟩
      refine ⟨hnew.1, ?_⟩
      rw [← Operands.truncate_overwrite hroom]
      rfl
    · exact hq.1 ⟨hnodup, fun _ _ => List.not_mem_nil⟩
  · rw [Operands.base_eq_ok_iff.2 ⟨harity, rfl⟩] at hv
    cases hv

/-- Arguments that are too many, too few, or lead nowhere are refused before any is written. -/
theorem callNative_refuses {native : NativeMethod} {arity : Nat}
    (h : ∀ values, ¬ Supplies p native arity values) :
    Ends (callNative native arity) p (fun _ _ => False) fun _ q => q = p := by
  simp only [callNative, ends_bind, ends_ite, ends_fault, ends_get, ends_liftViolation,
    ends_liftFault]
  refine ⟨fun _ => trivial, fun harity => ⟨fun base hbase => ⟨fun values hvalues => ?_,
    fun _ _ => trivial⟩, fun _ _ => trivial⟩⟩
  obtain ⟨hdepth, rfl⟩ := Operands.base_eq_ok_iff.1 hbase
  exact absurd ⟨Decidable.of_not_not harity, hdepth, Reader.ownedAll_eq_ok_iff.1 hvalues⟩ (h values)

/-- A call that has its operands and whose name leads to a native method is a native call. -/
theorem ends_attempt_native {run : Body} {name : Name} {native : NativeMethod} {arity : Nat}
    (hcallee : Callee scope p name (.native native)) (harity : arity ≤ p.memory.stack.size)
    {done : Flow → Program → Prop} {stopped : Stop Fault → Program → Prop} :
    Ends (attempt run scope (.call name arity)) p done stopped ↔
      Ends (callNative native arity) p (fun _ q => done .next q) stopped := by
  have hdepth : ¬ p.memory.stack.size < (Action.call name arity).operandArity :=
    Nat.not_lt_of_le harity
  simp only [attempt, checkOperands, Action.hasZeroOffset, Bool.false_eq_true, if_false, ends_bind,
    ends_pure, ends_get, if_neg hdepth]
  rw [perform, call, ends_bind, ends_of_ok hcallee.run_eq]
  simp only [ends_bind, ends_pure]

/-- What a native method finds: by name and by position, for each parameter its value, and nothing
else. -/
structure Hands (args : Arguments) (params : List Name) (values : List Value) : Prop where
  size : args.size = params.length
  byPosition : ∀ i : Nat, args.at? i = values[i]?
  byName : ∀ (i : Nat) (name : Name), params[i]? = some name → args.get? name = values[i]?
  other : ∀ name, name ∉ params → args.get? name = none

theorem hands_handedOver {native : NativeMethod} {values : List Value}
    (hnodup : native.params.Nodup) (harity : native.arity ≤ p.memory.stack.size)
    (hlength : values.length = native.arity) :
    Hands (handedOver p native values) native.params values := by
  obtain ⟨hconsistent, hslots⟩ : (handedOver p native values).slots.Consistent ∧
      (handedOver p native values).slots.slots.toList =
        Slot.row .stack (p.memory.stack.size - native.arity) native.params :=
    SlotSet.consistent_ofRow hnodup
  have hslot : ∀ i : Nat, (handedOver p native values).slots.slots[i]? = native.params[i]?.map
      fun name => Slot.mk name (.stack (p.memory.stack.size - native.arity + i)) := by
    intro i
    rw [← Slot.getElem?_row, ← Array.getElem?_toList, hslots]
  have hread : ∀ i, i < native.arity → (handedOver p native values).read
      (.stack (p.memory.stack.size - native.arity + i)) = values[i]? := by
    intro i hi
    show (p.memory.stack.overwrite _ values).get? _ = _
    rw [Operands.get?_overwrite (by omega), if_pos (by omega), Nat.add_sub_cancel_left]
  have hat : ∀ (i : Nat) name, native.params[i]? = some name →
      (handedOver p native values).read (.stack (p.memory.stack.size - native.arity + i)) =
        values[i]? := fun i name hname => hread i (List.getElem?_eq_some_iff.1 hname).1
  refine ⟨(congrArg List.length hslots).trans (Slot.length_row _), fun i => ?_,
    fun i name hname => ?_, fun name hname => ?_⟩
  · rw [Arguments.at?, SlotSet.get?, hslot]
    cases hname : native.params[i]? with
    | none =>
      have hi : native.params.length ≤ i := List.getElem?_eq_none_iff.1 hname
      exact (List.getElem?_eq_none (hlength ▸ hi)).symm
    | some name => exact hat i name hname
  · have hfind := hconsistent.find_name ((hslot i).trans (congrArg (Option.map _) hname))
    rw [Arguments.get?, hfind]
    exact hat i name hname
  · have hnone : (Slot.row .stack (p.memory.stack.size - native.arity) native.params).find?
        (·.name == name) = none := by
      rw [List.find?_eq_none]
      intro slot hslot heq
      apply hname
      have hmem := List.mem_map_of_mem (f := Slot.name) hslot
      rwa [Slot.map_name_row, eq_of_beq heq] at hmem
    have hfind := hconsistent.find_eq name
    rw [hslots, hnone] at hfind
    rw [Arguments.get?, hfind]
    rfl

/-- The first values written in the places of the arguments change nothing exactly if no reference
is among these. -/
theorem Supplies.withStack_eq_self_iff {native : NativeMethod} {count : Nat} {values : List Value}
    (h : Supplies p native count values) (n : Nat) :
    p.withStack (p.memory.stack.overwrite (p.memory.stack.size - count) (values.take n)) = p ↔
      ∀ v ∈ (p.memory.stack.above (p.memory.stack.size - count)).take n,
        v.isReference = false := by
  have hroom := h.room
  have hlength := h.leads.length_eq
  have hstack : ∀ s : Operands, p.withStack s = p ↔ s = p.memory.stack := fun s =>
    ⟨fun heq => congrArg (fun p => p.memory.stack) heq, fun heq => heq ▸ rfl⟩
  rw [hstack, Operands.overwrite_eq_self_iff (by rw [List.length_take]; omega),
    ← h.leads.take_eq_iff n, List.length_take, ← hlength, ← List.take_take, List.take_length]

/-- A native call that fails has been refused, or has written values up to the first name that is
there twice. -/
theorem attempt_native_error {run : Body} {name : Name} {native : NativeMethod} {arity : Nat}
    {stop : Stop Fault} (hcallee : Callee scope p name (.native native))
    (h : attempt run scope (.call name arity) p = .error stop q) :
    ((∀ values, ¬ Supplies p native arity values) → q = p) ∧
      ∀ values, Supplies p native arity values → ¬ native.params.Nodup ∧
        q = p.withStack (p.memory.stack.overwrite (p.memory.stack.size - arity)
          (values.take (countToRepeat [] native.params))) := by
  refine ⟨fun hnone => ?_, fun values hvalues => ?_⟩
  · have hends : Ends (attempt run scope (.call name arity)) p (fun _ _ => True)
        fun _ q => q = p := by
      by_cases hdepth : arity ≤ p.memory.stack.size
      · exact (ends_attempt_native hcallee hdepth).2
          ((callNative_refuses hnone).imp (fun _ _ hfalse => hfalse.elim) fun _ _ hq => hq)
      · exact attempt_ends_of_served (fun hserved => absurd hserved.operands hdepth) fun _ => rfl
    exact hends.of_error h
  · have hends : Ends (attempt run scope (.call name arity)) p (fun _ _ => True)
        (Halts (fun _ q => ¬ native.params.Nodup ∧
          q = p.withStack (p.memory.stack.overwrite (p.memory.stack.size - arity)
            (values.take (countToRepeat [] native.params)))) fun _ => False) :=
      (ends_attempt_native hcallee hvalues.operands).2
        ((callNative_hands hvalues).imp (fun _ _ _ => trivial) fun _ _ hs => hs)
    have hstop := hends.of_error h
    cases stop with
    | fault cause => exact hstop
    | breach v => exact hstop.elim
    | unending => exact hstop.elim

end Exec

open Exec

/-- In whatever program, a name leads to a native method whose parameters have different names, and
the call has an argument for each of them that leads to a value. Then the function is handed, by
name and by position, just these values, whatever the host is: what an argument leads to is found
out before any is replaced, so it may refer to the place of another one. Its result takes the place
of the arguments, and nothing else changes. -/
theorem native_handed_arguments {scope : ScopeId} {name : Name} {p : Program}
    {native : NativeMethod} {count : Nat} {values : List Value}
    (hcallee : Callee scope p name (.native native)) (hdistinct : native.params.Nodup)
    (hvalues : Supplies p native count values) :
    ∃ args, Hands args native.params values ∧
      ∀ run host, attempt run scope (.call name count) { p with host } =
        .ok .next (Program.withStack { p with host }
          ((p.memory.stack.truncate (p.memory.stack.size - count)).push
            (host native.entry args))) := by
  refine ⟨handedOver p native values, ?_, fun run host => Ends.eq_ok ?_⟩
  · exact hands_handedOver hdistinct (hvalues.arity ▸ hvalues.operands)
      (hvalues.length_eq.trans hvalues.arity)
  · have hcallee' : Callee scope { p with host } name (.native native) := hcallee
    have hvalues' : Supplies { p with host } native count values :=
      ⟨hvalues.arity, hvalues.operands, hvalues.leads⟩
    rw [ends_attempt_native hcallee' hvalues'.operands]
    refine (callNative_hands hvalues').imp (fun _ q hq => ⟨rfl, hq.2⟩) fun s q hs => ?_
    cases s with
    | fault cause => exact hs.1 hdistinct
    | breach v => exact hs
    | unending => exact hs

/-- The second argument of a call refers to the place of the first, which refers to a variable. -/
def referToArgument : Program :=
  after (runIn 0 .global [.declareLocal "x", .assignLocal "x" (.literal (.int 40)),
      .pushLiteral (.int 7), .resolveLocal "x", .pushLiteral (.reference (some (.stack 1)))])
    (after (registerNative ⟨"add", ["a", "b"], "add"⟩) .silent)

/-- Both are handed over as the value of the variable. -/
theorem referToArgument_adds :
    ∃ q, attempt (enter 0) .global (.call "add" 2) referToArgument = .ok .next q ∧
      q.memory.stack.values = #[.int 7, .int 80] := by
  have hcallee : Callee .global referToArgument "add" (.native ⟨"add", ["a", "b"], "add"⟩) :=
    ⟨.static ⟨⟨1⟩, 0⟩, _, rfl, rfl, rfl⟩
  have hvalues : Supplies referToArgument ⟨"add", ["a", "b"], "add"⟩ 2 [.int 40, .int 40] :=
    ⟨rfl, by decide, .cons ⟨rfl, rfl⟩ (.cons ⟨rfl, rfl⟩ .nil)⟩
  obtain ⟨args, hargs, hcall⟩ := native_handed_arguments hcallee (by decide) hvalues
  refine ⟨_, hcall (enter 0) Native.catalogue, ?_⟩
  have hsum : Native.sum args = .int 80 := by
    rw [Native.sum, hargs.byName 0 "a" rfl, hargs.byName 1 "b" rfl]
    rfl
  show #[_, Native.sum args] = _
  rw [hsum]

/-- In whatever program, a name leads to a native method and a call of it fails. If the names of its
parameters are different, the program is as it was. In general it is as it was unless all arguments
are there and lead to values, some name is there twice, and an argument up to that one is a
reference: these arguments have then been replaced by the values that they lead to. -/
theorem native_failure_traceless_iff {run : Body} {scope : ScopeId} {name : Name}
    {p q : Program} {native : NativeMethod} {count : Nat} {stop : Stop Fault}
    (hcallee : Callee scope p name (.native native))
    (h : attempt run scope (.call name count) p = .error stop q) :
    (native.params.Nodup → q = p) ∧
    (∀ values, Supplies p native count values →
      q = p.withStack (p.memory.stack.overwrite (p.memory.stack.size - count)
        (values.take (countToRepeat [] native.params)))) ∧
    (q = p ↔ ¬ ((∃ values, Supplies p native count values) ∧
      ∃ v ∈ (p.memory.stack.above (p.memory.stack.size - count)).take
        (countToRepeat [] native.params), v.isReference = true)) := by
  obtain ⟨hrefused, hwritten⟩ := attempt_native_error hcallee h
  by_cases hvalues : ∃ values, Supplies p native count values
  · obtain ⟨values, hvalues⟩ := hvalues
    obtain ⟨hrepeat, hq⟩ := hwritten values hvalues
    refine ⟨fun hnodup => absurd hnodup hrepeat, fun ws hws => (hwritten ws hws).2, ?_⟩
    rw [hq, hvalues.withStack_eq_self_iff]
    refine ⟨fun hplain hboth => ?_, fun hnot v hv => Bool.eq_false_iff.2 fun href => ?_⟩
    · obtain ⟨-, v, hv, href⟩ := hboth
      rw [hplain v hv] at href
      cases href
    · exact hnot ⟨⟨values, hvalues⟩, v, hv, href⟩
  · have hq : q = p := hrefused fun values hv => hvalues ⟨values, hv⟩
    exact ⟨fun _ => hq, fun values hv => absurd ⟨values, hv⟩ hvalues,
      fun _ hboth => hvalues hboth.1, fun _ => hq⟩

/-- The second argument of a call refers to a variable that has no value yet. -/
def referToUndefined : Program :=
  after (runIn 0 .global [.declareLocal "x", .pushLiteral (.int 7), .resolveLocal "x"])
    (after (registerNative ⟨"add", ["a", "b"], "add"⟩) .silent)

/-- The call is refused, and the reference is still on the stack. -/
theorem referToUndefined_leaves_no_trace :
    attempt (enter 0) .global (.call "add" 2) referToUndefined =
      .error (.fault (.undefinedOperand "argument")) referToUndefined := by
  have hcallee : Callee .global referToUndefined "add" (.native ⟨"add", ["a", "b"], "add"⟩) :=
    ⟨.static ⟨⟨1⟩, 0⟩, _, rfl, rfl, rfl⟩
  have hfails : attempt (enter 0) .global (.call "add" 2) referToUndefined =
      .error (.fault (.undefinedOperand "argument"))
        (after (attempt (enter 0) .global (.call "add" 2)) referToUndefined) := rfl
  rwa [(native_failure_traceless_iff hcallee hfails).1 (by decide)] at hfails

/-- A native method has two parameters of one name, and the first argument of its call refers to a
variable. -/
def nameTwice : Program :=
  after (runIn 0 .global [.declareLocal "x", .assignLocal "x" (.literal (.int 1)),
      .resolveLocal "x", .pushLiteral (.int 2)])
    (after (registerNative ⟨"f", ["a", "a"], "none"⟩) .silent)

/-- The call fails in a program that can be reached, and yet the reference is gone. -/
theorem nameTwice_loses_reference :
    Reachable nameTwice ∧
      Callee .global nameTwice "f" (.native ⟨"f", ["a", "a"], "none"⟩) ∧
      nameTwice.memory.stack.get? 0 = some (.reference (some (.static ⟨⟨1⟩, 1⟩))) ∧
      ∃ q, attempt (enter 0) .global (.call "f" 2) nameTwice =
          .error (.fault (.alreadyDeclared "a")) q ∧
        q.memory.stack.get? 0 = some (.int 1) := by
  have hregistered : Reachable (after (registerNative ⟨"f", ["a", "a"], "none"⟩) .silent) :=
    reachable_silent.step (.registerNative (completes_after rfl))
  exact ⟨hregistered.step (.run rfl (completes_after rfl)),
    ⟨.static ⟨⟨1⟩, 0⟩, _, rfl, rfl, rfl⟩, rfl, _, rfl, rfl⟩

end ActionMachine
