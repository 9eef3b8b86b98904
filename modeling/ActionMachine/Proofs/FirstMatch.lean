import ActionMachine.Proofs.Equality
import ActionMachine.Proofs.Objects

/-
  Objects as lists of members. An object is searched through its index, but what is found is what a
  search through its members finds first, after any writes and also where names repeat
  (`Object.members_found_first`). So the index adds nothing to the members, and an object is the one
  that is made anew of them.
-/

namespace ActionMachine

namespace Object

variable {members : List Member} {o o' : Object} {name : Name} {v : Value}

/-! ## Lists of members -/

/-- The members, of which the first of the name has another value. -/
def writeFirst (members : List Member) (name : Name) (v : Value) : List Member :=
  match members with
  | [] => []
  | member :: members =>
    if member.name = name then ⟨name, v⟩ :: members else member :: writeFirst members name v

theorem map_name_writeFirst (members : List Member) (name : Name) (v : Value) :
    (writeFirst members name v).map (·.name) = members.map (·.name) := by
  induction members with
  | nil => rfl
  | cons member members ih =>
    rw [writeFirst]
    split
    · next hname => rw [List.map_cons, List.map_cons, hname]
    · rw [List.map_cons, List.map_cons, ih]

/-- The one position that is written is the first of the name. -/
theorem writeFirst_eq (members : List Member) (name : Name) (v : Value) :
    writeFirst members name v =
      ((members.findIdx? (·.name == name)).map fun i => members.set i ⟨name, v⟩).getD members := by
  induction members with
  | nil => rfl
  | cons member members ih =>
    rw [writeFirst, List.findIdx?_cons]
    by_cases hname : member.name = name
    · rw [if_pos hname, hname, beq_self_eq_true]
      rfl
    · rw [if_neg hname, ih, beq_eq_false_iff_ne.2 hname]
      cases members.findIdx? (·.name == name) <;> rfl

/-! ## Look-ups and writes -/

theorem Indexed.getElem?_index (ho : o.Indexed) (name : Name) :
    o.index[name]? = o.members.findIdx? (·.name == name) := by
  rw [ho, getElem?_indexOf]

theorem Indexed.member?_eq (ho : o.Indexed) (name : Name) :
    o.member? name = (o.members.find? (·.name == name)).map (·.value) := by
  simp only [member?, ho.getElem?_index, List.find?_eq_bind_findIdx?_getElem?, bind, pure,
    Option.map_eq_bind, Option.bind_assoc, Function.comp_def]

theorem Indexed.setMember?_eq (ho : o.Indexed) (name : Name) (v : Value) :
    o.setMember? name v = (o.members.findIdx? (·.name == name)).map fun i =>
      { o with members := o.members.set i ⟨name, v⟩ } := by
  simp only [Object.setMember?, ho.getElem?_index, bind, pure]
  cases hindex : o.members.findIdx? (·.name == name) with
  | none => rfl
  | some i =>
    obtain ⟨hi, hname, -⟩ := List.findIdx?_eq_some_iff_getElem.1 hindex
    simp only [Option.bind_some, List.getElem?_eq_getElem hi, eq_of_beq hname, Option.map_some]

theorem findIdx?_eq_none_iff :
    o.members.findIdx? (·.name == name) = none ↔ ∀ member ∈ o.members, member.name ≠ name := by
  simp only [List.findIdx?_eq_none_iff, beq_eq_false_iff_ne]

/-- After a write the name leads to what was written, and all others lead where they did. -/
theorem Indexed.member?_setMember? (ho : o.Indexed) (h : o.setMember? name v = some o')
    (other : Name) : o'.member? other = if other = name then some v else o.member? other := by
  obtain ⟨before, old, after, hsplit, rfl⟩ := ho.setMember?_eq_some_iff.1 h
  rw [(ho.setMember? h).member?_eq, ho.member?_eq, hsplit.members, List.find?_append,
    List.find?_append, List.find?_cons, List.find?_cons]
  by_cases hother : other = name
  · have hnone : before.find? (·.name == name) = none :=
      List.find?_eq_none.2 fun member hmem hname => hsplit.first member hmem (eq_of_beq hname)
    rw [if_pos hother, hother, hnone, beq_self_eq_true]
    rfl
  · rw [if_neg hother, beq_eq_false_iff_ne.2 (Ne.symm hother)]

/-- What is held in the object stands at the first member of its name, so the index could be left
out. -/
structure FirstMatch (o : Object) : Prop where
  member : ∀ name, o.member? name = (o.members.find? (·.name == name)).map (·.value)
  write : ∀ name v, o.setMember? name v =
    (o.members.findIdx? (·.name == name)).map fun i =>
      { o with members := o.members.set i ⟨name, v⟩ }
  absent : ∀ name, (∀ member ∈ o.members, member.name ≠ name) ↔ o.member? name = none
  write_absent : ∀ name v,
    (∀ member ∈ o.members, member.name ≠ name) ↔ o.setMember? name v = none
  /-- A write leaves every position but one alone, whatever the names there. -/
  others : ∀ name v o', o.setMember? name v = some o' →
    ∃ i, o.members.findIdx? (·.name == name) = some i ∧ o'.members[i]? = some ⟨name, v⟩ ∧
      ∀ j, j ≠ i → o'.members[j]? = o.members[j]?
  member_write : ∀ name v o', o.setMember? name v = some o' →
    ∀ other, o'.member? other = if other = name then some v else o.member? other
  remade : o = ofMembers o.classScope o.className o.typeId o.members
  equal : (o == ofMembers o.classScope o.className o.typeId o.members) = true ↔
    ∀ x ∈ o.floats, x.isNaN = false

theorem Indexed.firstMatch (ho : o.Indexed) : o.FirstMatch := by
  have hremade : ofMembers o.classScope o.className o.typeId o.members = o := by
    obtain ⟨_, _, _, members, index⟩ := o
    obtain rfl : index = indexOf members := ho
    rfl
  refine { member := ho.member?_eq, write := ho.setMember?_eq, absent := fun name => ?_,
           write_absent := fun name v => ?_, others := fun name v o' h => ?_,
           member_write := fun name v o' => ho.member?_setMember?, remade := hremade.symm,
           equal := ?_ }
  · rw [ho.member?_eq, Option.map_eq_none_iff, List.find?_eq_none]
    simp only [beq_iff_eq, ne_eq]
  · rw [ho.setMember?_eq, Option.map_eq_none_iff, findIdx?_eq_none_iff]
  · rw [ho.setMember?_eq] at h
    obtain ⟨i, hi, rfl⟩ := Option.map_eq_some_iff.1 h
    obtain ⟨hlt, -⟩ := List.findIdx?_eq_some_iff_getElem.1 hi
    exact ⟨i, hi, List.getElem?_set_self hlt, fun j hj => List.getElem?_set_ne (Ne.symm hj)⟩
  · rw [hremade]
    exact (EquivalenceOffNaN.of_shape Object.beq_iff).refl_iff o

/-! ## Many writes -/

/-- The object after a write; a name that it does not have changes nothing. -/
def write (o : Object) (name : Name) (v : Value) : Object := (o.setMember? name v).getD o

/-- The object after writes one after another. -/
def writeAll (o : Object) (writes : List (Name × Value)) : Object :=
  writes.foldl (fun o w => o.write w.1 w.2) o

/-- A write to an object is a write to the list of its members. -/
theorem write_ofMembers (classScope : ScopeId) (className : Name) (typeId : TypeId)
    (members : List Member) (name : Name) (v : Value) :
    (ofMembers classScope className typeId members).write name v =
      ofMembers classScope className typeId (writeFirst members name v) := by
  have hindex : indexOf (writeFirst members name v) = indexOf members :=
    indexOf_congr (map_name_writeFirst members name v)
  rw [write, (indexed_ofMembers ..).setMember?_eq, ofMembers, ofMembers, hindex, writeFirst_eq]
  cases members.findIdx? (·.name == name) <;> rfl

example (first second v : Value) :
    (ofMembers .global "C" 1 [⟨"a", first⟩, ⟨"a", second⟩]).write "a" v =
      ofMembers .global "C" 1 [⟨"a", v⟩, ⟨"a", second⟩] := by
  rw [write_ofMembers]
  rfl

theorem writeAll_ofMembers (classScope : ScopeId) (className : Name) (typeId : TypeId)
    (members : List Member) (writes : List (Name × Value)) :
    (ofMembers classScope className typeId members).writeAll writes =
      ofMembers classScope className typeId
        (writes.foldl (fun members w => writeFirst members w.1 w.2) members) := by
  induction writes generalizing members with
  | nil => rfl
  | cons w writes ih =>
    rw [writeAll, List.foldl_cons, List.foldl_cons, write_ofMembers]
    exact ih _

/-- Writes rename, move, add and drop no member. -/
theorem map_name_foldl_writeFirst (members : List Member) (writes : List (Name × Value)) :
    (writes.foldl (fun members w => writeFirst members w.1 w.2) members).map (·.name) =
      members.map (·.name) := by
  induction writes generalizing members with
  | nil => rfl
  | cons w writes ih => rw [List.foldl_cons, ih, map_name_writeFirst]

/-- An object is made of any members, names may repeat, and written to. It is the object made of the
members that the writes leave when each goes to the first member of its name; their names are as
they were; and each look-up and each further write goes to the first member of its name. -/
theorem members_found_first (classScope : ScopeId) (className : Name) (typeId : TypeId)
    (members : List Member) (writes : List (Name × Value)) :
    (ofMembers classScope className typeId members).writeAll writes =
      ofMembers classScope className typeId
        (writes.foldl (fun members w => writeFirst members w.1 w.2) members) ∧
    ((ofMembers classScope className typeId members).writeAll writes).members.map (·.name) =
      members.map (·.name) ∧
    ((ofMembers classScope className typeId members).writeAll writes).FirstMatch := by
  rw [writeAll_ofMembers]
  exact ⟨rfl, map_name_foldl_writeFirst members writes, (indexed_ofMembers ..).firstMatch⟩

end Object

end ActionMachine
