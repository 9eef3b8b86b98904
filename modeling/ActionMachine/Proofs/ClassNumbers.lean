import ActionMachine.Proofs.SoundHistory

/-
  Numbers of classes. A class is given the next number when it is defined, and keeps it. A number is
  used up even by a definition that fails, and the place of a released scope may be taken by a
  class, but no number is ever given twice (`history_numbered`).
-/

namespace ActionMachine

/-! ## Numbers in a tree -/

/-- The number of a class. Other scopes have none. -/
def Scope.typeId? (s : Scope) : Option TypeId := s.layout?.map (·.typeId)

theorem Scope.isClass_of_typeId? {s : Scope} {n : TypeId} (h : s.typeId? = some n) :
    s.isClass = true := by
  obtain ⟨layout, hlayout, -⟩ := Option.map_eq_some_iff.1 h
  exact Option.isSome_iff_exists.2 ⟨layout, hlayout⟩

theorem Scope.Extends.typeId?_eq {s s' : Scope} (h : s.Extends s') : s'.typeId? = s.typeId? := by
  have hlayout := h.layout
  unfold Scope.typeId?
  cases hs : s.layout? with
  | none =>
    have hnone : s'.layout?.isSome = s.layout?.isSome := hlayout.isSome_eq
    rw [hs] at hnone
    rw [Option.isSome_eq_false_iff.1 hnone |> Option.isNone_iff_eq_none.1]
  | some layout =>
    rw [hs] at hlayout
    obtain ⟨layout', hs', htypeId, -⟩ := hlayout.exists_layout
    rw [hs', Option.map_some, Option.map_some, htypeId]

namespace ScopeTree

variable {t u : ScopeTree} {id parent : ScopeId} {name : Name} {s s' : Scope}

/-- The number of the class at an index. -/
def typeId? (t : ScopeTree) (i : Nat) : Option TypeId := t.scopes[i]?.bind Scope.typeId?

theorem typeId?_eq {i : Nat} (hs : t.scopes[i]? = some s) : t.typeId? i = s.typeId? := by
  rw [typeId?, hs, Option.bind_some]

/-- Behind the last scope there is no number. -/
theorem typeId?_behind (t : ScopeTree) (i : Nat) :
    (if i = t.size then none else t.typeId? i) = t.typeId? i := by
  split
  · subst i
    have hnone : t.scopes[t.size]? = none := Array.getElem?_eq_none (Nat.le_refl t.scopes.size)
    rw [typeId?, hnone, Option.bind_none]
  · rfl

theorem typeId?_set (hs : t.scopes[id.index]? = some s) (h : s'.typeId? = s.typeId?) (i : Nat) :
    (t.set id s').typeId? i = t.typeId? i := by
  unfold typeId?
  rw [getElem?_set (Array.getElem?_eq_some_iff.1 hs).1]
  split
  · subst i
    rw [hs, Option.bind_some, Option.bind_some, h]
  · rfl

theorem typeId?_push (s : Scope) (i : Nat) :
    (t.push s).2.typeId? i = if i = t.size then s.typeId? else t.typeId? i := by
  unfold typeId?
  rw [getElem?_push]
  split <;> rfl

theorem typeId?_shrink {n i : Nat} {k : TypeId}
    (h : ({ t with scopes := t.scopes.shrink n } : ScopeTree).typeId? i = some k) :
    t.typeId? i = some k := by
  unfold typeId? at h ⊢
  rw [getElem?_shrink] at h
  split at h
  · exact h
  · cases h

/-- Only the new scope has a new number; its parent gains a name. -/
theorem typeId?_declare (h : t.declare parent name s = .ok (id, u)) (i : Nat) :
    u.typeId? i = if i = t.size then s.typeId? else t.typeId? i := by
  obtain ⟨owner, hget, h⟩ := bind_eq_ok_iff.1 h
  cases h
  have hparent : (owner.addNested name ⟨t.id, t.size⟩).typeId? = owner.typeId? := rfl
  have hslot := (get?_eq_some_iff.1 (get_eq_ok_iff.1 hget)).2
  exact (typeId?_set hslot hparent i).trans (typeId?_push s i)

theorem typeId?_defineNamespace (h : t.defineNamespace parent name = .ok (id, u)) (i : Nat) :
    u.typeId? i = t.typeId? i := by
  obtain ⟨owner, -, h⟩ := bind_eq_ok_iff.1 h
  split at h
  · obtain ⟨existing, -, h⟩ := bind_eq_ok_iff.1 h
    split at h <;> cases h
    rfl
  · exact (typeId?_declare (Exec.liftViolation_eq_ok_iff.1 h) i).trans (t.typeId?_behind i)

theorem typeId?_defineClass {k : TypeId} (h : t.defineClass parent name k = .ok (id, u))
    (i : Nat) : u.typeId? i = if i = t.size then some k else t.typeId? i := by
  obtain ⟨owner, -, h⟩ := bind_eq_ok_iff.1 h
  split at h
  · obtain ⟨kind, -, h⟩ := bind_eq_ok_iff.1 h
    cases h
  · exact typeId?_declare (Exec.liftViolation_eq_ok_iff.1 h) i

end ScopeTree

/-! ## Numbers of a program -/

/-- No two classes have the same number, and no number lies above the last that was given. -/
structure Program.Numbered (p : Program) : Prop where
  bound : ∀ i n, p.scopes.typeId? i = some n → n ≤ p.lastTypeId
  inj : ∀ i j n, p.scopes.typeId? i = some n → p.scopes.typeId? j = some n → i = j

namespace Exec

variable {scope id : ScopeId} {p q r : Program} {a : Action} {event : Event}

/-- The classes are the same, with the same numbers, and no number was used up. -/
structure SameNumbers (p q : Program) : Prop where
  last : q.lastTypeId = p.lastTypeId
  typeId : ∀ i, q.scopes.typeId? i = p.scopes.typeId? i

theorem SameNumbers.trans (h1 : SameNumbers p q) (h2 : SameNumbers q r) : SameNumbers p r :=
  ⟨h2.last.trans h1.last, fun i => (h2.typeId i).trans (h1.typeId i)⟩

/-- A class is defined, or its definition fails. -/
def Event.definesClass : Event → Bool
  | .advanced _ (.defineClass _ _) _ | .refused _ (.defineClass _ _) => true
  | _ => false

/-- How many definitions of classes were tried. -/
def definitions (steps : List Step) : Nat := steps.countP (·.event.definesClass)

/-- Each class of `q` is one of `p`, or a new one at the end of the tree with a number that was not
given before. Only the definition of a class uses up a number. -/
structure Numbers (p : Program) (event : Event) (q : Program) : Prop where
  le_last : p.lastTypeId ≤ q.lastTypeId
  last_le : q.lastTypeId ≤ p.lastTypeId + if event.definesClass then 1 else 0
  typeId : ∀ i n, q.scopes.typeId? i = some n → p.scopes.typeId? i = some n ∨
    i = p.scopes.size ∧ p.lastTypeId < n ∧ n ≤ q.lastTypeId

theorem SameNumbers.numbers (h : SameNumbers p q) : Numbers p event q := by
  refine ⟨Nat.le_of_eq h.last.symm, ?_, fun i _ hn => Or.inl (h.typeId i ▸ hn)⟩
  rw [h.last]
  exact Nat.le_add_right _ _

theorem Numbers.numbered (h : Numbers p event q) (hp : p.Numbered) : q.Numbered := by
  constructor
  · intro i n hi
    rcases h.typeId i n hi with hold | ⟨-, -, hle⟩
    · exact Nat.le_trans (hp.bound i n hold) h.le_last
    · exact hle
  · intro i j n hi hj
    rcases h.typeId i n hi with hiold | ⟨rfl, hilt, -⟩ <;>
      rcases h.typeId j n hj with hjold | ⟨rfl, hjlt, -⟩
    · exact hp.inj i j n hiold hjold
    -- an old number is not above the last one
    · exact absurd (hp.bound i n hiold) (Nat.not_le_of_lt hjlt)
    · exact absurd (hp.bound j n hjold) (Nat.not_le_of_lt hilt)
    · rfl

/-! ## Steps -/

/-- A scope that gains a slot keeps its number. -/
theorem sameNumbers_set {s s' : Scope} {template : Bool} {slot : Slot}
    (hget : p.scopes.get? id = some s) (h : s.Gains template slot s') (memory : Memory) :
    SameNumbers p { p with memory, scopes := p.scopes.set id s' } :=
  ⟨rfl, ScopeTree.typeId?_set (ScopeTree.get?_eq_some_iff.1 hget).2 h.ext.typeId?_eq⟩

theorem Bound.sameNumbers {name : Name} {v : Value} {constant : Bool}
    (h : Bound p id name v constant q) : SameNumbers p q := by
  cases h with
  | inFrame hget _ h | inArena hget _ h =>
    exact sameNumbers_set hget (Scope.gains_of_addLocal h) _

theorem Defaults.lastTypeId_eq {params : List Parameter} (h : Defaults p params q) :
    q.lastTypeId = p.lastTypeId := by
  induction h with
  | stop => rfl
  | next _ _ _ ih => exact ih

theorem Defaults.sameNumbers {params : List Parameter} (h : Defaults p params q) :
    SameNumbers p q :=
  ⟨h.lastTypeId_eq, fun i => by rw [h.scopes_eq]⟩

theorem Performs.sameNumbers {flow : Flow} (h : Performs scope p a flow q) : SameNumbers p q := by
  cases h with
  | restack | store | ret | debugPrint => exact ⟨rfl, fun _ => rfl⟩
  | bind _ h => exact h.sameNumbers
  | addInstanceMember _ _ hscope htemplate h =>
    exact sameNumbers_set hscope (Scope.gains_of_setTemplate htemplate h) _
  | defineMethod _ _ hd h =>
    obtain ⟨hlast, htypeId⟩ := hd.sameNumbers.trans h.sameNumbers
    exact ⟨hlast, htypeId⟩

theorem Refuses.numbers (h : Refuses p a q) (scope : ScopeId) :
    Numbers p (.refused scope a) q := by
  cases h with
  | same | placed => exact SameNumbers.numbers ⟨rfl, fun _ => rfl⟩
  | numbered => exact ⟨Nat.le_succ _, Nat.le_refl _, fun _ _ hn => Or.inl hn⟩
  | defaulted h => exact h.sameNumbers.numbers

theorem bindArguments_sameNumbers (args : List (Slot × Value)) :
    Ends (bindArguments id args) p (fun _ q => SameNumbers p q) fun _ q => SameNumbers p q := by
  refine bindArguments_induction ⟨rfl, fun _ => rfl⟩ (fun q arg _ hq => ⟨hq.last, hq.typeId⟩)
    fun q arg _ u hq hu => ?_
  obtain ⟨s, s', hget, hs', rfl⟩ := addLocal_eq_ok_iff.1 hu
  exact hq.trans (sameNumbers_set hget (Scope.gains_of_addLocal hs') _)

/-- The scope of a call has no number. -/
theorem openCall_sameNumbers {m : Method} {arity : Nat} {frame : Frame}
    (h : openCall m arity p = .ok frame q) : SameNumbers p q := by
  obtain ⟨values, -, r, hbind, -, rfl⟩ := openCall_eq_ok h
  obtain ⟨hlast, htypeId⟩ := (bindArguments_sameNumbers _).of_ok hbind
  refine ⟨hlast, fun i => (htypeId i).trans ?_⟩
  exact (ScopeTree.typeId?_push (.call m.name m.scope) i).trans (p.scopes.typeId?_behind i)

theorem openNamespace_sameNumbers (scope : ScopeId) (name : Name) :
    Ends (openNamespace scope name) p (fun _ q => SameNumbers p q) fun _ _ => True := by
  simp only [openNamespace, ends_bind, ends_get, ends_liftStop, ends_setScopes, ends_pure]
  exact ⟨fun b hb => ⟨rfl, ScopeTree.typeId?_defineNamespace hb⟩, fun _ _ => trivial⟩

/-- A new class has the number after the last one. -/
theorem openClass_numbers (scope : ScopeId) (name : Name) (body : List Action) :
    Ends (openClass scope name) p
      (fun id q => Numbers p (.advanced scope (.defineClass name body) (.inBody id)) q)
      fun _ _ => True := by
  simp only [openClass, ends_bind, ends_modify, ends_get, ends_liftStop, ends_setScopes, ends_pure]
  refine ⟨fun b hb => ⟨Nat.le_succ _, Nat.le_refl _, fun i n hn => ?_⟩, fun _ _ => trivial⟩
  have hn : b.2.typeId? i = some n := hn
  rw [ScopeTree.typeId?_defineClass hb] at hn
  split at hn
  · cases hn
    exact Or.inr ⟨‹_›, Nat.lt_succ_self _, Nat.le_refl _⟩
  · exact Or.inl hn

/-- The end of a call gives no number back. -/
theorem closeCall_numbers {frame : Frame} {name : Name} {outcome : Except Failure Flow}
    (h : Completes (closeCall frame name outcome) p q) : Numbers p event q := by
  have hlast := (restores_of_closeCall h).lastTypeId
  refine ⟨Nat.le_of_eq hlast.symm, ?_, fun i n hn => Or.inl ?_⟩
  · rw [hlast]
    exact Nat.le_add_right _ _
  · rcases (leaves_of_closeCall h).cases with ⟨-, hscopes, -⟩ | ⟨-, hscopes, -⟩
    · exact hscopes ▸ hn
    · rw [hscopes] at hn
      exact ScopeTree.typeId?_shrink hn

/-- Every step of a sound history gives only new numbers. -/
theorem Happens.numbers {s : Step} (h : Happens s) (hs : s.Sound) :
    Numbers s.before s.event s.after := by
  have hsound := hs.before.sound
  cases h with
  | @registered native p q h =>
    rcases h with ⟨target, h⟩ | ⟨cause, h⟩
    · exact ((registerNative_bound hsound.tree native).of_ok h).sameNumbers.numbers
    · have hsame : q = p := (registerNative_bound hsound.tree native).of_error h
      rw [hsame]
      exact SameNumbers.numbers ⟨rfl, fun _ => rfl⟩
  | advanced h =>
    cases advance_reaches.of_ok h with
    | finished =>
      cases (advance_ends hsound hs.admissible.1).of_ok h with
      | finished hperforms => exact hperforms.sameNumbers.numbers
    | inNamespace h => exact ((openNamespace_sameNumbers _ _).of_ok h).numbers
    | inClass h => exact (openClass_numbers _ _ _).of_ok h
    | inCall _ _ hopen => exact (openCall_sameNumbers hopen).numbers
  | refused h => exact Refuses.numbers ((advance_ends hsound hs.admissible.1).of_error h) _
  | left h => exact closeCall_numbers h
  | answered => exact SameNumbers.numbers ⟨rfl, fun _ => rfl⟩

/-! ## Histories -/

/-- All numbers that the steps give are different, and there are not more of them than definitions
of classes. -/
theorem Segment.numbered {steps : List Step} (h : Segment p steps) (hp : p.Numbered) :
    (final p steps).Numbered ∧
      (final p steps).lastTypeId ≤ p.lastTypeId + definitions steps := by
  induction steps generalizing p with
  | nil => exact ⟨hp, Nat.le_refl _⟩
  | cons s steps ih =>
    obtain ⟨⟨rfl, -⟩, hrest⟩ := h.cons
    have hstep := (h.happens s List.mem_cons_self).numbers (h.sound s List.mem_cons_self)
    obtain ⟨hfinal, hlast⟩ := ih hrest (hstep.numbered hp)
    refine ⟨hfinal, Nat.le_trans hlast ?_⟩
    rw [definitions, definitions, List.countP_cons, Nat.add_comm (steps.countP _), ← Nat.add_assoc]
    exact Nat.add_le_add_right hstep.last_le _

/-- A new program has no classes. -/
theorem numbered_new {arena tree : StoreId} {host : Host} {mode : Mode} {sink : Sink} :
    (Program.new arena tree host mode sink).Numbered := by
  have hnone : ∀ i, (Program.new arena tree host mode sink).scopes.typeId? i = none := by
    intro i
    unfold ScopeTree.typeId?
    cases hs : (Program.new arena tree host mode sink).scopes.scopes[i]? with
    | none => rfl
    | some s => rcases ScopeTree.new_cases hs with ⟨-, rfl⟩ | ⟨-, rfl⟩ <;> rfl
  constructor
  · intro i n hn
    cases (hnone i).symm.trans hn
  · intro i j n hn
    cases (hnone i).symm.trans hn

/-- In every state of a history each class has a number of its own, and no more numbers were given
than definitions of classes were tried. -/
theorem history_numbered {arena tree : StoreId} {host : Host} {mode : Mode} {sink : Sink}
    {requests : List Request} {earlier later : List Step} (htree : tree ≠ .shared)
    (hhost : host.MakesNoMethod) (hfree : ∀ request ∈ requests, request.methodFree = true)
    (hsplit : history requests (.new arena tree host mode sink) = earlier ++ later) :
    (final (.new arena tree host mode sink) earlier).Numbered ∧
      (final (.new arena tree host mode sink) earlier).lastTypeId ≤ definitions earlier := by
  have hsegment : Segment (.new arena tree host mode sink) earlier :=
    segment_of_history (Reachable.new htree hhost).atRest.healthy hfree
      (show _ = [] ++ earlier ++ later from hsplit)
  obtain ⟨hnumbered, hlast⟩ := hsegment.numbered numbered_new
  exact ⟨hnumbered, Nat.le_trans hlast (Nat.le_of_eq (Nat.zero_add _))⟩

end Exec

end ActionMachine
