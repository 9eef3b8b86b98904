import ActionMachine.Proofs.Instances
import Std.Data.TreeMap.Lemmas

/-
  The index of an object. It is filled once, when the object is made, and it leads from a name to
  the first member of that name (`Object.getElem?_indexOf`). A write gives a member another value
  and renames none, so the index stays the one of the members (`Object.Indexed.setMember?`), and the
  member that is written is the first of its name (`Object.Indexed.setMember?_eq_some_iff`). If this
  is so for the objects that come from outside, it is so for all that a program holds
  (`contents_indexed`).
-/

namespace ActionMachine

namespace Object

variable {members : List Member} {o o' : Object} {name : Name} {v : Value}

/-! ## The index of a list of members -/

/-- A name that has a place already keeps it. -/
theorem getElem?_foldl_insertIfNew (members : List Member) (offset : Nat)
    (index : Std.TreeMap Name Nat) (name : Name) :
    ((members.zipIdx offset).foldl
      (fun index (member, position) => index.insertIfNew member.name position) index)[name]? =
      index[name]?.or ((members.findIdx? (·.name == name)).map (· + offset)) := by
  induction members generalizing offset index with
  | nil => simp
  | cons member members ih =>
    have hplace : (index.insertIfNew member.name offset)[name]? =
        index[name]?.or (if member.name = name then some offset else none) := by
      rw [Std.TreeMap.getElem?_insertIfNew]
      simp only [Std.LawfulEqOrd.compare_eq_iff_eq, ← Std.TreeMap.contains_iff_mem,
        Std.TreeMap.contains_eq_isSome_getElem?]
      by_cases hname : member.name = name
      · subst hname
        cases index[member.name]? <;> simp
      · simp [hname]
    rw [List.zipIdx_cons, List.foldl_cons, ih, hplace, List.findIdx?_cons]
    by_cases hname : member.name = name
    · simp [hname]
    · simp [hname, Function.comp_def, Nat.add_comm, Nat.add_left_comm]

/-- The index leads from a name to the first member of that name. -/
theorem getElem?_indexOf (members : List Member) (name : Name) :
    (indexOf members)[name]? = members.findIdx? (·.name == name) := by
  rw [indexOf, getElem?_foldl_insertIfNew, Std.TreeMap.getElem?_emptyc, Option.none_or]
  exact Option.map_id_apply

/-- The index depends on the names of the members alone. -/
theorem indexOf_congr {members' : List Member}
    (h : members'.map (·.name) = members.map (·.name)) : indexOf members' = indexOf members := by
  have hnames : ∀ ms : List Member, indexOf ms = (ms.map (·.name)).zipIdx.foldl
      (fun index (name, position) => index.insertIfNew name position) {} := by
    intro ms
    rw [List.zipIdx_map, List.foldl_map]
    rfl
  rw [hnames, hnames, h]

/-! ## Writes -/

/-- The index is the one of the members, as it is in each object that is made by `ofMembers` and
changed by `setMember?` alone. -/
def Indexed (o : Object) : Prop := o.index = indexOf o.members

theorem indexed_ofMembers (classScope : ScopeId) (className : Name) (typeId : TypeId)
    (members : List Member) : (ofMembers classScope className typeId members).Indexed := rfl

/-- The first member of the name has the value `old`, and stands between `before` and `after`. -/
structure SplitsAt (o : Object) (name : Name) (before : List Member) (old : Value)
    (after : List Member) : Prop where
  members : o.members = before ++ ⟨name, old⟩ :: after
  first : ∀ other ∈ before, other.name ≠ name

variable {before after : List Member} {old : Value}

theorem SplitsAt.getElem?_index (h : o.SplitsAt name before old after) (ho : o.Indexed) :
    o.index[name]? = some before.length := by
  have hnone : before.findIdx? (·.name == name) = none :=
    List.findIdx?_eq_none_iff.2 fun other hother => beq_eq_false_iff_ne.2 (h.first other hother)
  rw [ho, getElem?_indexOf, h.members, List.findIdx?_append, hnone, List.findIdx?_cons]
  simp

theorem exists_splitsAt (ho : o.Indexed) {position : Nat} (h : o.index[name]? = some position) :
    ∃ before old after, o.SplitsAt name before old after := by
  rw [ho, getElem?_indexOf] at h
  have hsome : (o.members.find? (·.name == name)).isSome = true := by
    rw [List.find?_isSome, ← List.any_eq_true, ← List.findIdx?_isSome, h, Option.isSome_some]
  obtain ⟨⟨found, old⟩, hfound⟩ := Option.isSome_iff_exists.1 hsome
  obtain ⟨hname, before, after, hmembers, hfirst⟩ := List.find?_eq_some_iff_append.1 hfound
  obtain rfl : found = name := eq_of_beq hname
  exact ⟨before, old, after, hmembers, fun other hother => by simpa using hfirst other hother⟩

/-- A write gives the first member of that name another value, and that is all that it does. -/
theorem Indexed.setMember?_eq_some_iff (ho : o.Indexed) :
    o.setMember? name v = some o' ↔ ∃ before old after, o.SplitsAt name before old after ∧
      o' = { o with members := before ++ ⟨name, v⟩ :: after } := by
  have hset : ∀ {before old after}, o.SplitsAt name before old after →
      o.setMember? name v = some { o with members := before ++ ⟨name, v⟩ :: after } := by
    intro before old after h
    have hmember : o.members[before.length]? = some ⟨name, old⟩ := by
      rw [h.members]
      simp
    simp only [setMember?, h.getElem?_index ho, hmember, bind, Option.bind, pure]
    rw [h.members, List.set_append_right _ _ (Nat.le_refl _), Nat.sub_self, List.set_cons_zero]
  constructor
  · intro h
    obtain ⟨position, hposition, -⟩ := Option.bind_eq_some_iff.1 h
    obtain ⟨before, old, after, hsplit⟩ := exists_splitsAt ho hposition
    exact ⟨before, old, after, hsplit, Option.some.inj (h.symm.trans (hset hsplit))⟩
  · rintro ⟨before, old, after, hsplit, rfl⟩
    exact hset hsplit

/-- A write renames no member, so the index stays right. -/
theorem Indexed.setMember? (ho : o.Indexed) (h : o.setMember? name v = some o') : o'.Indexed := by
  obtain ⟨before, old, after, hsplit, rfl⟩ := ho.setMember?_eq_some_iff.1 h
  show o.index = indexOf (before ++ ⟨name, v⟩ :: after)
  rw [ho, hsplit.members]
  exact indexOf_congr (by simp only [List.map_append, List.map_cons])

end Object

/-! ## Objects of a program -/

/-- Each object that the host hands over has the index of its members, if those that its functions
can read have it. -/
def Host.KeepsIndexed (host : Host) : Prop :=
  ∀ (entry : String) (args : Arguments), args.read.All (·.EachObject Object.Indexed) →
    (host entry args).EachObject Object.Indexed

theorem Host.MakesNoObject.keepsIndexed {host : Host} (h : host.MakesNoObject) :
    host.KeepsIndexed := h Object.Indexed

/-- All objects in the value have the index of their members, and so do those in the literals of its
methods. -/
def Value.Indexed (v : Value) : Prop :=
  v.EachObject Object.Indexed ∧
    v.EachMethod fun m => Action.AllLiterals (·.EachObject Object.Indexed) m.body

theorem Value.loose_indexed : Value.Loose Value.Indexed = Value.Indexed :=
  loose_eq fun _ => ⟨trivial, trivial⟩

namespace Exec

/-- New objects are made from lists of members, and writes keep the index right. -/
theorem contents_indexed {host : Host} (hmethod : host.MakesNoMethod)
    (hindexed : host.KeepsIndexed) :
    Contents host (·.EachObject Object.Indexed) fun _ v => v.Indexed where
  hereditary _ := (Value.hereditary_eachObject fun _ _ _ _ ho hset => ho.setMember? hset).and
    (hereditary_eachMethod _)
  grow _ hv := hv
  shrink _ _ hv := hv
  literal hmethods hv := Or.inr ⟨hv, hmethods _⟩
  method := ⟨And.right, fun h => ⟨trivial, h⟩⟩
  host _ entry args hread _ := by
    rw [Value.loose_indexed] at hread ⊢
    exact ⟨hindexed entry args fun target v hv => (hread target v hv).1,
      hmethod _ entry args fun target v hv => (hread target v hv).2⟩
  constructs {p} _ hheld id s layout members _ _ hmembers := by
    have hvalues := holds_templateMembers hheld Value.loose_indexed hmembers
    exact ⟨Value.eachObject_object.2 ⟨Object.indexed_ofMembers .., fun m hm => (hvalues m hm).1⟩,
      Value.eachMethod_object.2 fun m hm => (hvalues m hm).2⟩

end Exec

end ActionMachine
