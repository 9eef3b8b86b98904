import ActionMachine.Proofs.ClassNumbers
import ActionMachine.Proofs.Invariants
import ActionMachine.Proofs.Templates

/-
  Objects and their classes. If no object comes from outside, each object is made from the template
  of a class. Objects are copied and outlive the call in which their class was defined, but the
  class stays for good, keeps its number and its name, and its template only gets longer. So every
  object is an instance of a live class (`contents_instances`), and the number tells which
  (`objects_match_classes`).
-/

namespace ActionMachine

/-! ## Objects of a value -/

mutual

/-- Every object in the value, at any depth of lists and objects, satisfies `P`. -/
def Value.EachObject (P : Object → Prop) : Value → Prop
  | .object ⟨classScope, className, typeId, members, index⟩ =>
    P ⟨classScope, className, typeId, members, index⟩ ∧ Value.EachObjectOfMembers P members
  | .list items => Value.EachObjectOfItems P items
  | _ => True

def Value.EachObjectOfItems (P : Object → Prop) : List Value → Prop
  | [] => True
  | item :: items => item.EachObject P ∧ Value.EachObjectOfItems P items

def Value.EachObjectOfMembers (P : Object → Prop) : List Member → Prop
  | [] => True
  | ⟨_, value⟩ :: members => value.EachObject P ∧ Value.EachObjectOfMembers P members

end

namespace Value

variable {P Q : Object → Prop}

/-- The value is no object and holds none. -/
def ObjectFree (v : Value) : Prop := v.EachObject fun _ => False

theorem eachObjectOfMembers_iff {members : List Member} :
    EachObjectOfMembers P members ↔ ∀ member ∈ members, member.value.EachObject P := by
  induction members with
  | nil => simp [EachObjectOfMembers]
  | cons member members ih =>
    cases member
    simp [EachObjectOfMembers, ih]

theorem eachObject_list {items : List Value} :
    (list items).EachObject P ↔ ∀ item ∈ items, item.EachObject P := by
  rw [EachObject]
  induction items with
  | nil => simp [EachObjectOfItems]
  | cons item items ih => simp [EachObjectOfItems, ih]

theorem eachObject_object {o : Object} :
    (object o).EachObject P ↔ P o ∧ ∀ member ∈ o.members, member.value.EachObject P := by
  cases o
  rw [EachObject, eachObjectOfMembers_iff]

mutual

theorem EachObject.mono (h : ∀ o, P o → Q o) : (v : Value) → v.EachObject P → v.EachObject Q
  | .object ⟨_, _, _, members, _⟩, hv => ⟨h _ hv.1, eachObjectOfMembers_mono h members hv.2⟩
  | .list items, hv => eachObjectOfItems_mono h items hv
  | .int _, _ | .uint _, _ | .float _, _ | .bool _, _ | .char _, _ | .byte _, _ | .view _, _
  | .none, _ | .undefined, _ | .reference _, _ | .str _, _ | .scope _, _ | .native _, _
  | .method _, _ => trivial

theorem eachObjectOfItems_mono (h : ∀ o, P o → Q o) :
    (items : List Value) → EachObjectOfItems P items → EachObjectOfItems Q items
  | [], _ => trivial
  | item :: items, hv => ⟨EachObject.mono h item hv.1, eachObjectOfItems_mono h items hv.2⟩

theorem eachObjectOfMembers_mono (h : ∀ o, P o → Q o) :
    (members : List Member) → EachObjectOfMembers P members → EachObjectOfMembers Q members
  | [], _ => trivial
  | ⟨_, value⟩ :: members, hv =>
    ⟨EachObject.mono h value hv.1, eachObjectOfMembers_mono h members hv.2⟩

end

theorem eachObject_of_isSimple {v : Value} (h : v.isSimple = true) : v.EachObject P := by
  cases v with
  | list => cases h
  | object => cases h
  | method => cases h
  | reference => cases h
  | _ => trivial

/-- A property that an object keeps when its members are given other values is one of values. -/
theorem hereditary_eachObject (hP : ∀ (o o' : Object) (name : Name) (v : Value), P o →
    o.setMember? name v = some o' → P o') : Hereditary (·.EachObject P) := by
  refine ⟨fun _ => eachObject_of_isSimple, fun _ => eachObject_list,
    fun o ho => (eachObject_object.1 ho).2, fun o o' name v ho hv hset => ?_⟩
  obtain ⟨hown, hmembers⟩ := eachObject_object.1 ho
  refine eachObject_object.2 ⟨hP o o' name v hown hset, fun member hmem => ?_⟩
  rcases Object.mem_setMember? hset hmem with hold | rfl
  · exact hmembers member hold
  · exact hv

end Value

/-- The host hands over no object but those that its functions can read. -/
def Host.MakesNoObject (host : Host) : Prop :=
  ∀ (P : Object → Prop) (entry : String) (args : Arguments),
    args.read.All (·.EachObject P) → (host entry args).EachObject P

/-- No function of the catalogue makes an object of its own. -/
theorem Native.catalogue_makesNoObject : Host.MakesNoObject catalogue := fun _ entry _ hread =>
  catalogue_of_items (fun _ => Value.eachObject_of_isSimple) (fun _ => trivial)
    (fun _ => Value.eachObject_list.2) hread entry

/-! ## Instances -/

/-- The object has the name and the number of the class. Its members are named like the first slots
of the template, each with a name of its own. -/
structure Object.Matches (o : Object) (s : Scope) (layout : ClassLayout) : Prop where
  isClass : s.layout? = some layout
  name : s.name = o.className
  typeId : layout.typeId = o.typeId
  members : o.members.map (·.name) <+: layout.template.slots.toList.map (·.name)
  distinct : (o.members.map (·.name)).Nodup

/-- The object is an instance of a live class. -/
def Object.InstanceIn (t : ScopeTree) (o : Object) : Prop :=
  ∃ s layout, t.get? o.classScope = some s ∧ o.Matches s layout

theorem Scope.template?_of_layout? {s : Scope} {layout : ClassLayout}
    (h : s.layout? = some layout) : s.template? = some layout.template := by
  rw [Scope.template?, h, Option.map_some]

namespace Object

variable {o o' : Object} {t u : ScopeTree}

theorem Matches.grow {s s' : Scope} {layout : ClassLayout} (h : o.Matches s layout)
    (hs : s.Extends s') : ∃ layout', o.Matches s' layout' := by
  obtain ⟨layout', hclass, htypeId, htemplate⟩ :=
    ClassLayout.Extends.exists_layout (h.isClass ▸ hs.layout)
  exact ⟨layout', hclass, hs.name.trans h.name, htypeId.trans h.typeId,
    h.members.trans (htemplate.map _), h.distinct⟩

theorem InstanceIn.grow (h : o.InstanceIn t) (htree : t.Extends u) : o.InstanceIn u := by
  obtain ⟨s, layout, hget, hmatches⟩ := h
  obtain ⟨s', hget', hs⟩ := htree.get? hget
  obtain ⟨layout', hmatches'⟩ := hmatches.grow hs
  exact ⟨s', layout', hget', hmatches'⟩

/-- Classes are kept for good, whatever scopes of calls go. -/
theorem InstanceIn.shrink (h : o.InstanceIn t) (ht : t.Sound) {n : Nat} (hn : t.retained ≤ n) :
    o.InstanceIn { t with scopes := t.scopes.shrink n } := by
  obtain ⟨s, layout, hget, hmatches⟩ := h
  have htemplate := Scope.template?_of_layout? hmatches.isClass
  have hslot := (ScopeTree.get?_eq_some_iff.1 hget).2
  have hkept : o.classScope.index < n :=
    Nat.lt_of_lt_of_le (ht.kept _ s hslot ((ht.slots _ s hslot).isCall_of_isClass
      (Scope.isClass_of_template? htemplate))) hn
  have hslot' : (t.scopes.shrink n)[o.classScope.index]? = some s := by
    rw [getElem?_shrink, if_pos hkept, hslot]
  have hlive : ({ t with scopes := t.scopes.shrink n } : ScopeTree).owns o.classScope = true := by
    rw [ht.handle_eq hget (Scope.isClass_of_template? htemplate)]
    exact ScopeTree.owns_eq_true_iff.2
      (Or.inr ⟨ht.id, rfl, (Array.getElem?_eq_some_iff.1 hslot').1⟩)
  exact ⟨s, layout, ScopeTree.get?_eq_some_iff.2 ⟨hlive, hslot'⟩, hmatches⟩

/-- Giving a member another value renames nothing. -/
theorem InstanceIn.setMember? (h : o.InstanceIn t) {name : Name} {v : Value}
    (hset : o.setMember? name v = some o') : o'.InstanceIn t := by
  simp only [Object.setMember?, bind, Option.bind_eq_some_iff, pure, Option.some.injEq] at hset
  obtain ⟨position, -, member, hmember, rfl⟩ := hset
  have hnames : (o.members.set position { member with value := v }).map (·.name) =
      o.members.map (·.name) := by
    apply List.ext_getElem?
    intro i
    rw [List.map_set, List.getElem?_set, List.getElem?_map]
    split
    · subst i
      rw [List.length_map, hmember, if_pos (List.getElem?_eq_some_iff.1 hmember).1, Option.map_some]
    · rfl
  obtain ⟨s, layout, hget, hclass, hname, htypeId, hmembers, hdistinct⟩ := h
  exact ⟨s, layout, hget, hclass, hname, htypeId, hnames ▸ hmembers, hnames ▸ hdistinct⟩

end Object

/-! ## What a program holds -/

/-- All objects in the value are instances of live classes, and the methods in it make no others
from their literals. -/
def Value.ClassedIn (t : ScopeTree) (v : Value) : Prop :=
  v.EachObject (·.InstanceIn t) ∧ v.EachMethod fun m => Action.AllLiterals Value.ObjectFree m.body

theorem Value.loose_classedIn (t : ScopeTree) : Value.Loose (·.ClassedIn t) = (·.ClassedIn t) :=
  loose_eq fun _ => ⟨trivial, trivial⟩

theorem Value.hereditary_classedIn (t : ScopeTree) : Hereditary (·.ClassedIn t) :=
  (hereditary_eachObject fun _ _ _ _ ho hset => ho.setMember? hset).and (hereditary_eachMethod _)

theorem Host.conveys_classedIn {host : Host} (hmethod : host.MakesNoMethod)
    (hobject : host.MakesNoObject) (t : ScopeTree) : host.Conveys (·.ClassedIn t) := by
  intro entry args hread _
  rw [Value.loose_classedIn] at hread ⊢
  exact ⟨hobject _ entry args fun target v hv => (hread target v hv).1,
    hmethod _ entry args fun target v hv => (hread target v hv).2⟩

namespace Exec

variable {p : Program}

theorem templateMembers_names {m : Memory} {template : SlotSet} {members : List Member}
    (h : templateMembers m template = .ok members) :
    members.map (·.name) = template.slots.toList.map (·.name) := by
  unfold templateMembers at h
  generalize template.slots.toList = slots at h ⊢
  induction slots generalizing members with
  | nil =>
    cases h
    rfl
  | cons slot slots ih =>
    rw [List.mapM_cons] at h
    obtain ⟨member, hmember, h⟩ := bind_eq_ok_iff.1 h
    obtain ⟨rest, hrest, h⟩ := bind_eq_ok_iff.1 h
    obtain ⟨v, -, hv⟩ := bind_eq_ok_iff.1 hmember
    cases h
    cases hv
    rw [List.map_cons, List.map_cons, ih hrest]

/-- A new object has just the members of the template of its class. -/
theorem constructs_classedIn (hp : p.Sound) (hheld : p.Holds (·.ClassedIn p.scopes)) :
    p.Constructs (·.ClassedIn p.scopes) := by
  intro id s layout members hget hlayout hmembers
  have hget := ScopeTree.get_eq_ok_iff.1 hget
  have hnames := templateMembers_names hmembers
  have hvalues := holds_templateMembers hheld (Value.loose_classedIn _) hmembers
  have hdistinct : (members.map (·.name)).Nodup := by
    have hslot := (ScopeTree.get?_eq_some_iff.1 hget).2
    rw [hnames]
    exact ((hp.tree.slots _ s hslot).template _ (Scope.template?_of_layout? hlayout)).nodup_names
  refine ⟨Value.eachObject_object.2 ⟨?_, fun member hmem => (hvalues member hmem).1⟩,
    Value.eachMethod_object.2 fun member hmem => (hvalues member hmem).2⟩
  exact ⟨s, layout, hget, hlayout, rfl, rfl, hnames ▸ List.prefix_refl _, hdistinct⟩

/-- With a host that makes no objects, literals without objects lead to instances of live classes
only. -/
theorem contents_instances {host : Host} (hmethod : host.MakesNoMethod)
    (hobject : host.MakesNoObject) :
    Contents host Value.ObjectFree fun t v => v.ClassedIn t where
  hereditary := Value.hereditary_classedIn
  grow htree hv := ⟨Value.EachObject.mono (fun _ ho => ho.grow htree) _ hv.1, hv.2⟩
  shrink ht hn hv := ⟨Value.EachObject.mono (fun _ ho => ho.shrink ht hn) _ hv.1, hv.2⟩
  literal hmethods hfree := Or.inr ⟨Value.EachObject.mono (fun _ => False.elim) _ hfree, hmethods _⟩
  method := ⟨And.right, fun h => ⟨trivial, h⟩⟩
  host := Host.conveys_classedIn hmethod hobject
  constructs := constructs_classedIn

end Exec

/-- No two live classes have the same number. -/
theorem Program.Numbered.handle_eq {p : Program} {id id' : ScopeId} {s s' : Scope} {n : TypeId}
    (h : p.Numbered) (hp : p.Sound) (hs : p.scopes.get? id = some s)
    (hs' : p.scopes.get? id' = some s') (hn : s.typeId? = some n) (hn' : s'.typeId? = some n) :
    id = id' := by
  have hclass : s.isClass = true := Scope.isClass_of_typeId? hn
  have hclass' : s'.isClass = true := Scope.isClass_of_typeId? hn'
  have hindex : id.index = id'.index := by
    refine h.inj _ _ n ?_ ?_
    · rw [ScopeTree.typeId?_eq (ScopeTree.get?_eq_some_iff.1 hs).2, hn]
    · rw [ScopeTree.typeId?_eq (ScopeTree.get?_eq_some_iff.1 hs').2, hn']
  rw [hp.tree.handle_eq hs hclass, hp.tree.handle_eq hs' hclass', hindex]

open Exec

/-- A new program is asked for anything that brings no object and no method with it, with a host
whose functions make none, and `p` is some state of its history. Then no two live classes of `p`
have the same number, and no number exceeds the number of definitions that were tried. Every object
in a cell, on the stack or in the slot for returned values, at any depth, is an instance of a live
class. -/
theorem objects_match_classes {arena tree : StoreId} {host : Host} {mode : Mode} {sink : Sink}
    (htree : tree ≠ .shared) (hmethod : host.MakesNoMethod) (hobject : host.MakesNoObject)
    {requests : List Request} (hfree : ∀ request ∈ requests, request.methodFree = true)
    (hliteral : ∀ request ∈ requests, request.EachLiteral Value.ObjectFree)
    {earlier later : List Step} {start p : Program}
    (hstart : start = .new arena tree host mode sink)
    (hsplit : history requests start = earlier ++ later) (hp : p = final start earlier) :
    (∀ id s n, p.scopes.get? id = some s → s.typeId? = some n → n ≤ definitions earlier ∧
      ∀ id' s', p.scopes.get? id' = some s' → s'.typeId? = some n → id = id') ∧
    p.memory.arena.All (·.ClassedIn p.scopes) ∧ p.memory.frame.All (·.ClassedIn p.scopes) ∧
      p.memory.stack.All (·.ClassedIn p.scopes) ∧ p.returned.ClassedIn p.scopes := by
  subst hstart hp
  obtain ⟨hhealthy, -, hheld⟩ :=
    (contents_instances hmethod hobject).history htree hmethod hfree hliteral hsplit
  obtain ⟨hnumbered, hlast⟩ := history_numbered htree hmethod hfree hsplit
  generalize final _ earlier = p at hhealthy hheld hnumbered hlast ⊢
  have hmemory := hheld.memory
  have hreturned := hheld.returned
  rw [Value.loose_classedIn] at hmemory hreturned
  refine ⟨fun id s n hs hn => ⟨?_, fun id' s' hs' hn' => ?_⟩, ?_⟩
  · have hindex := ScopeTree.typeId?_eq (ScopeTree.get?_eq_some_iff.1 hs).2
    exact Nat.le_trans (hnumbered.bound _ n (hindex.trans hn)) hlast
  · exact hnumbered.handle_eq hhealthy.sound hs hs' hn hn'
  · obtain ⟨harena, hframe, hstack⟩ := Memory.all_read_iff.1 hmemory
    exact ⟨harena, hframe, hstack, hreturned⟩

/-- A method that defines a class of its own in each call, and makes an object before it is done
with the template. -/
def makeTwice : List Request :=
  [.run 2 .global [.defineMethod "make" []
      [.defineClass "C" [], .addInstanceMember "C" "x" (.int 1), .constructInstance "C",
        .addInstanceMember "C" "y" (.int 2), .ret],
    .declareLocal "o", .call "make" 0, .assignLocal "o" .pop, .call "make" 0]]

/-- Both calls have ended, and the second object is on the stack. -/
def madeTwice : Program := final .silent (history makeTwice .silent)

/-- That object is an instance of the second class, which has outlived its call. -/
theorem made_object_matches : ∃ o, madeTwice.memory.stack.top = .ok (.object o) ∧ o.typeId = 2 ∧
    o.members.map (·.name) = ["x"] ∧ o.InstanceIn madeTwice.scopes := by
  have hliteral : ∀ request ∈ makeTwice, request.EachLiteral Value.ObjectFree := by
    intro request hmem
    cases List.mem_singleton.1 hmem
    exact ⟨⟨nofun, trivial, trivial, trivial, trivial, trivial, trivial⟩, trivial, trivial, trivial,
      trivial, trivial⟩
  have htop : (madeTwice.memory.stack.top.toOption.bind Value.object?).any (fun o =>
      o.typeId == 2 && o.members.map (·.name) == ["x"]) = true := by decide +kernel
  obtain ⟨o, ho, hshape⟩ := (Option.any_eq_true _ _).1 htop
  obtain ⟨htypeId, hnames⟩ := Bool.and_eq_true_iff.1 hshape
  have hpushed : madeTwice.memory.stack.top = .ok (.object o) := by
    cases hv : madeTwice.memory.stack.top with
    | error e =>
      rw [hv] at ho
      cases ho
    | ok v =>
      rw [hv] at ho
      cases v with
      | object o' =>
        cases ho
        rfl
      | _ => cases ho
  obtain ⟨-, -, -, hstack, -⟩ := objects_match_classes (by decide) Native.catalogue_makesNoMethod
    Native.catalogue_makesNoObject (by decide) hliteral (rfl : Program.silent = _)
    (List.append_nil _).symm (rfl : madeTwice = _)
  exact ⟨o, hpushed, eq_of_beq htypeId, eq_of_beq hnames,
    (Value.eachObject_object.1 (hstack.topAt hpushed).1).1⟩

end ActionMachine
