import ActionMachine.Proofs.History

/-
  Constants are immutable. A row of cells grows (`Cells.Grows`) if cells that are not constant are
  written and new ones are added, of which it is said which are constant. Every step of a history
  makes the arena grow, and the frame too unless a call ends and its cells go (`Happens.writes`).
  Constant places are kept apart from the cells, so a place that is used again is free only if the
  places of cells that went have gone too: rows stay aligned through all steps (`Linked.aligned`).
  Nothing here asks for sound states, so methods in literals are included.
-/

namespace ActionMachine

/-! ## Rows of cells -/

namespace Cells

variable {c d e : Cells} {fresh fresh' : Nat → Prop}

/-- `d` is `c` after writes to cells that are not constant, with new cells at the end; `fresh` says
of these which are constant, if no constant place was left over beyond the end of `c`. -/
structure Grows (fresh : Nat → Prop) (c d : Cells) : Prop where
  size_le : c.size ≤ d.size
  flag : ∀ i < c.size, d.isConstant i = c.isConstant i
  value : ∀ i < c.size, c.isConstant i = true → d.get? i = c.get? i
  fresh : c.Aligned → ∀ i, c.size ≤ i → i < d.size → (d.isConstant i = true ↔ fresh i)
  aligned : c.Aligned → d.Aligned

theorem Grows.refl (fresh : Nat → Prop) (c : Cells) : Grows fresh c c :=
  ⟨Nat.le_refl _, fun _ _ => rfl, fun _ _ _ => rfl,
    fun _ _ hle hlt => absurd hle (Nat.not_le_of_lt hlt), fun h => h⟩

theorem Grows.trans (h : Grows fresh c d) (h' : Grows fresh d e) : Grows fresh c e := by
  refine ⟨Nat.le_trans h.size_le h'.size_le, fun i hi => ?_, fun i hi hconst => ?_,
    fun hc i hle hlt => ?_, fun hc => h'.aligned (h.aligned hc)⟩
  · exact (h'.flag i (Nat.lt_of_lt_of_le hi h.size_le)).trans (h.flag i hi)
  · have hlt := Nat.lt_of_lt_of_le hi h.size_le
    exact (h'.value i hlt ((h.flag i hi).trans hconst)).trans (h.value i hi hconst)
  · rcases Nat.lt_or_ge i d.size with hi | hi
    · rw [h'.flag i hi]
      exact h.fresh hc i hle hi
    · exact h'.fresh (h.aligned hc) i hi hlt

theorem Grows.congr (h : Grows fresh c d)
    (hsame : ∀ i, c.size ≤ i → i < d.size → (fresh i ↔ fresh' i)) : Grows fresh' c d :=
  ⟨h.size_le, h.flag, h.value,
    fun hc i hle hlt => (h.fresh hc i hle hlt).trans (hsame i hle hlt), h.aligned⟩

theorem grows_push (v : Value) (constant : Bool) : Grows (fun _ => constant = true) c
    (c.push v constant) := by
  refine ⟨size_le_push v constant, fun i hi => ?_, fun i hi _ => ?_, fun hc i hle hlt => ?_,
    fun hc => hc.push v constant⟩
  · rw [isConstant_push, decide_eq_false (Nat.ne_of_lt hi), Bool.and_false, Bool.false_or]
  · rw [get?_push, if_neg (Nat.ne_of_lt hi)]
  · rw [size_push] at hlt
    rw [hc.isConstant_push, if_pos (by omega)]

theorem grows_set {i : Nat} (h : c.isConstant i = false) (fresh : Nat → Prop) (v : Value) :
    Grows fresh c (c.set i v) := by
  refine ⟨Nat.le_of_eq (size_set i v).symm, fun j _ => isConstant_set i j v, fun j _ hj => ?_,
    fun _ j hle hlt => ?_, fun hc => hc.set i v⟩
  · rw [get?_set, if_neg]
    rintro rfl
    rw [h] at hj
    cases hj
  · rw [size_set] at hlt
    exact absurd hle (Nat.not_le_of_lt hlt)

/-- What has grown, cut back to its old size, has only been written to. -/
theorem Grows.truncate (h : Grows fresh c d) (fresh' : Nat → Prop) :
    Grows fresh' c (d.truncate c.size) := by
  have hsize : (d.truncate c.size).size = c.size := size_truncate h.size_le
  refine ⟨Nat.le_of_eq hsize.symm, fun i hi => ?_, fun i hi hconst => ?_, fun _ i hle hlt => ?_,
    fun hc => (h.aligned hc).truncate _⟩
  · rw [isConstant_truncate, if_pos hi]
    exact h.flag i hi
  · rw [get?_truncate, if_pos hi]
    exact h.value i hi hconst
  · rw [hsize] at hlt
    exact absurd hle (Nat.not_le_of_lt hlt)

end Cells

namespace Memory

variable {m : Memory}

theorem isConstant_set (target other : CellRef) (v : Value) :
    (m.set target v).isConstant other = m.isConstant other := by
  rcases m.set_cases target v with ⟨i, -, he⟩ | ⟨i, -, he⟩ | ⟨i, -, he⟩ | he <;> rw [he] <;>
    cases other <;> simp [isConstant, Cells.isConstant_set]

/-- The constant places of both rows are places of cells. -/
structure Aligned (m : Memory) : Prop where
  arena : m.arena.Aligned
  frame : m.frame.Aligned

/-- Each constant cell can be read. -/
theorem Aligned.exists_read (h : m.Aligned) {target : CellRef}
    (hconst : m.isConstant target = true) : ∃ v, m.read target = some v := by
  cases target with
  | static cell =>
    obtain ⟨harena, hflag⟩ := Bool.and_eq_true_iff.1 hconst
    obtain ⟨v, hv⟩ := Cells.exists_get? (h.arena _ hflag)
    exact ⟨v, (if_pos (of_decide_eq_true harena)).trans hv⟩
  | frame i => exact Cells.exists_get? (h.frame i hconst)
  | stack i => cases hconst

end Memory

namespace Exec

variable {scope id : ScopeId} {p q r : Program} {a : Action} {arena frame : Nat → Prop}

/-- Both rows of cells have grown; `arena` and `frame` say which of the new cells are constant. -/
structure Writes (arena frame : Nat → Prop) (p q : Program) : Prop where
  id : q.memory.id = p.memory.id
  arena : p.memory.arena.Grows arena q.memory.arena
  frame : p.memory.frame.Grows frame q.memory.frame

theorem Writes.refl (arena frame : Nat → Prop) (p : Program) : Writes arena frame p p :=
  ⟨rfl, .refl _ _, .refl _ _⟩

theorem Writes.trans (h : Writes arena frame p q) (h' : Writes arena frame q r) :
    Writes arena frame p r :=
  ⟨h'.id.trans h.id, h.arena.trans h'.arena, h.frame.trans h'.frame⟩

/-! ## Cells of one step -/

/-- The cells of the arena and of the frame are the same. -/
def SameCells (p q : Program) : Prop :=
  q.memory.id = p.memory.id ∧ q.memory.arena = p.memory.arena ∧ q.memory.frame = p.memory.frame

theorem SameCells.writes (h : SameCells p q) : Writes arena frame p q := by
  obtain ⟨hid, harena, hframe⟩ := h
  exact ⟨hid, harena ▸ .refl _ _, hframe ▸ .refl _ _⟩

theorem openNamespace_sameCells (name : Name) :
    Ends (openNamespace scope name) p (fun _ q => SameCells p q) fun _ q => SameCells p q := by
  simp [openNamespace, SameCells]

theorem openClass_sameCells (name : Name) :
    Ends (openClass scope name) p (fun _ q => SameCells p q) fun _ q => SameCells p q := by
  simp [openClass, SameCells]

theorem writes_set {target : CellRef} (h : p.memory.isConstant target = false) (v : Value) :
    Writes arena frame p { p with memory := p.memory.set target v } := by
  rcases p.memory.set_cases target v with ⟨i, rfl, he⟩ | ⟨i, rfl, he⟩ | ⟨i, -, he⟩ | he
  · have hconst : p.memory.arena.isConstant i = false := by
      simpa [Memory.isConstant, Memory.staticRef] using h
    rw [he]
    exact ⟨rfl, Cells.grows_set hconst _ v, .refl _ _⟩
  · rw [he]
    exact ⟨rfl, .refl _ _, Cells.grows_set h _ v⟩
  · rw [he]
    exact ⟨rfl, .refl _ _, .refl _ _⟩
  · rw [he]
    exact .refl _ _ p

theorem Bound.writes {name : Name} {v : Value} {constant : Bool}
    (h : Bound p id name v constant q) :
    Writes (fun _ => constant = true) (fun _ => constant = true) p q := by
  cases h with
  | inFrame => exact ⟨rfl, .refl _ _, Cells.grows_push v constant⟩
  | inArena => exact ⟨rfl, Cells.grows_push v constant, .refl _ _⟩

/-- A name is bound to a cell that is constant if it is said to be, or nothing happens. -/
theorem bindNew_writes (p : Program) (id : ScopeId) (name : Name) (v : Value) (constant : Bool) :
    Ends (bindNew id name v constant) p
      (fun _ q => Writes (fun _ => constant = true) (fun _ => constant = true) p q)
      fun _ q => q = p :=
  (bindNew_cases p id name v constant).imp (fun _ _ hq => hq.writes) fun _ _ hq => hq.1

/-- A registered method has a constant cell. -/
theorem registerNative_writes (native : NativeMethod) :
    Ends (registerNative native) p (fun _ q => Writes (fun _ => True) frame p q)
      (OnFault fun q => q = p) := by
  simp only [registerNative, ends_bind, ends_get, ends_liftViolation, ends_ite, ends_fault,
    ends_allocate, ends_liftStop, ends_setScopes, ends_pure]
  refine ⟨fun taken htaken => ⟨fun _ _ _ => rfl, fun hnew => ⟨fun u _ => ?_, fun s hs => ?_⟩⟩,
    fun v _ cause hc => by cases hc⟩
  · exact ⟨rfl, (Cells.grows_push (.native native) true).congr fun _ _ _ => by simp, .refl _ _⟩
  · -- the name was looked for, so there is room for it
    obtain ⟨owner, howner, hcontains⟩ := bind_eq_ok_iff.1 htaken
    have hfree : owner.locals.contains native.name = false := by
      rw [Except.ok.inj hcontains]
      exact eq_false_of_ne_true hnew
    obtain ⟨owner', howner'⟩ := exists_addLocal hfree (p.memory.allocate (.native native) true).1
    rw [addLocal_eq_ok_iff.2 ⟨owner, owner', ScopeTree.get_eq_ok_iff.1 howner, howner', rfl⟩] at hs
    cases hs

/-- The cells of the defaults are constant, and if there is no failure there is one for each
parameter. -/
theorem bindDefaults_writes (slots : SlotSet) (params : List Parameter) (p : Program) :
    Ends (bindDefaults slots params) p
      (fun _ q => Writes (· < p.memory.arena.size + params.length) (fun _ => False) p q ∧
        q.memory.arena.size = p.memory.arena.size + params.length)
      fun _ q => Writes (· < p.memory.arena.size + params.length) (fun _ => False) p q := by
  induction params generalizing p slots with
  | nil => exact ⟨.refl _ _ p, rfl⟩
  | cons param params ih =>
    refine bindDefaults_cons_ends (fun _ => .refl _ _ p) fun w _ _ => ?_
    have hsize : (p.memory.allocate w true).2.arena.size = p.memory.arena.size + 1 :=
      Cells.size_push _ _
    have hfirst : Writes (· < p.memory.arena.size + (params.length + 1)) (fun _ => False) p
        { p with memory := (p.memory.allocate w true).2 } := by
      refine ⟨rfl, (Cells.grows_push w true).congr fun i _ hlt => ?_, .refl _ _⟩
      have hlt : i < p.memory.arena.size + 1 := hsize ▸ hlt
      simp only [true_iff]
      omega
    refine ⟨fun _ => hfirst, fun slots' _ => ?_⟩
    have hrest := ih slots' { p with memory := (p.memory.allocate w true).2 }
    have hbound : (p.memory.allocate w true).2.arena.size + params.length =
        p.memory.arena.size + (params.length + 1) := by omega
    simp only [hbound] at hrest
    exact hrest.imp (fun _ q hq => ⟨hfirst.trans hq.1, hq.2⟩) fun _ q hq => hfirst.trans hq

theorem defineMethod_writes (name : Name) (params : List Parameter) (body : List Action)
    (p : Program) :
    Ends (defineMethod scope name params body) p
      (fun _ q => Writes (· < p.memory.arena.size + params.length) (fun _ => False) p q)
      fun _ q => Writes (· < p.memory.arena.size + params.length) (fun _ => False) p q := by
  simp only [defineMethod, ends_bind, ends_get, ends_setScopes, ends_pure]
  refine (bindDefaults_writes .empty params p).imp (fun slots r hr => ?_) fun _ _ hq => hq
  refine (bindNew_writes r scope name _ false).imp (fun _ q hq => ?_) fun _ q hq => ?_
  · -- the cell of the method itself comes after those of the defaults
    have harena : r.memory.arena.Grows (· < p.memory.arena.size + params.length)
        q.memory.arena := by
      refine hq.arena.congr fun i hle _ => ?_
      rw [hr.2] at hle
      simp only [Bool.false_eq_true, false_iff, Nat.not_lt]
      exact hle
    exact hr.1.trans ⟨hq.id, harena, hq.frame.congr fun _ _ _ => by simp⟩
  · subst hq
    exact hr.1

theorem bindArguments_writes (args : List (Slot × Value)) (p : Program) :
    Ends (bindArguments id args) p (fun _ q => Writes (fun _ => False) (fun _ => False) p q)
      fun _ q => Writes (fun _ => False) (fun _ => False) p q := by
  have hcell (q : Program) (arg : Slot × Value) (u : ScopeTree) :
      Writes (fun _ => False) (fun _ => False) q
        { q with memory := (q.memory.allocateFrame arg.2 false).2, scopes := u } :=
    ⟨rfl, .refl _ _, (Cells.grows_push arg.2 false).congr fun _ _ _ => by simp⟩
  exact bindArguments_induction (.refl _ _ p) (fun q arg _ hq => hq.trans (hcell q arg q.scopes))
    fun q arg _ u hq _ => hq.trans (hcell q arg u)

/-- What was added since `p` goes or stays when a call is left that was opened in `p`. -/
theorem Writes.leaves {t : Program} {left : Frame} (h : Writes arena frame p r)
    (ht : Leaves left r t) (hcells : left.cells = p.memory.frame.size) :
    Writes arena frame p t := by
  refine ⟨ht.id.trans h.id, ht.arena ▸ h.arena, ?_⟩
  rcases ht.cases with ⟨-, -, hframe⟩ | ⟨-, -, hframe⟩
  · exact hframe ▸ h.frame
  · rw [hframe, hcells]
    exact h.frame.truncate _

/-- The cells of arguments are not constant. -/
theorem openCall_writes (m : Method) (arity : Nat) (p : Program) :
    Ends (openCall m arity) p (fun _ q => Writes (fun _ => False) (fun _ => False) p q)
      (OnFault fun q => Writes (fun _ => False) (fun _ => False) p q) := by
  have hsame : Writes (fun _ => False) (fun _ => False) p p := .refl _ _ p
  rw [ends_openCall]
  refine ⟨fun _ _ _ => hsame, fun _ => ⟨fun _ _ _ _ _ => hsame, fun _ => ?_⟩⟩
  simp only [openChecked, ends_bind, ends_get, ends_liftViolation]
  refine ⟨fun base _ => ?_, fun v _ cause hc => by cases hc⟩
  refine (argumentValues_same arity base).imp ?_ ?_
  · rintro values q rfl
    simp only [ends_modify, pushCallScope, ends_modifyGet, ends_settle]
    refine (bindArguments_writes _ _).imp (fun _ r hr => ?_) fun s r hr => ?_
    · simp only [ends_bind, ends_get, ends_modify, ends_pure]
      exact ⟨hr.id, hr.arena, hr.frame⟩
    · cases s with
      | fault cause =>
        change Ends (_ >>= _) r _ _
        rw [ends_bind]
        have hwrites : Writes (fun _ => False) (fun _ => False) q r := ⟨hr.id, hr.arena, hr.frame⟩
        exact (leave_ends ⟨_, _, base, .undefined⟩ base).imp
          (fun _ t ht _ _ => hwrites.leaves ht rfl) fun s t ht cause hc =>
            hwrites.leaves (ht cause hc) rfl
      | breach v => exact fun cause hc => by cases hc
      | unending => exact fun cause hc => by cases hc
  · rintro _ q hq cause rfl
    obtain rfl : q = p := hq
    exact hsame

/-! ## Steps -/

/-- Whether a new cell of the arena is constant. -/
def Event.ConstantInArena (p : Program) : Event → Nat → Prop
  | .registered _, _ | .advanced _ (.declareConstant _ _) _, _ => True
  | .advanced _ (.defineMethod _ params _) _, i | .refused _ (.defineMethod _ params _), i =>
    i < p.memory.arena.size + params.length
  | _, _ => False

/-- Whether a constant was declared. -/
def Event.DeclaresConstant : Event → Prop
  | .advanced _ (.declareConstant _ _) _ => True
  | _ => False

/-- What a step that ends no call does to the cells. -/
def Event.Writes (event : Event) (p q : Program) : Prop :=
  Exec.Writes (event.ConstantInArena p) (fun _ => event.DeclaresConstant) p q

theorem Event.Writes.of_eq {event : Event} (h : q = p) : event.Writes p q := by
  subst h
  exact Exec.Writes.refl _ _ q

/-- What an action that opens no body does to the cells; a method is looked at on its own, since
its cell comes after those of its defaults. -/
theorem Performs.writes {flow : Flow} (h : Performs scope p a flow q)
    (ha : ∀ name params body, a ≠ .defineMethod name params body) (stage : Stage) :
    (Event.advanced scope a stage).Writes p q := by
  cases h with
  | restack => exact SameCells.writes ⟨rfl, rfl, rfl⟩
  | bind h hbound =>
    have hwrites := hbound.writes
    cases h with
    | declareLocal =>
      show Exec.Writes (fun _ => False) (fun _ => False) p q
      simpa using hwrites
    | declareConstant =>
      show Exec.Writes (fun _ => True) (fun _ => True) p q
      simpa using hwrites
    | addStaticMember =>
      show Exec.Writes (fun _ => False) (fun _ => False) p q
      simpa using hwrites
  | @store _ target v _ _ _ _ hconst =>
    obtain ⟨hid, harena, hframe⟩ := writes_set hconst v
    exact ⟨hid, harena, hframe⟩
  | @addInstanceMember _ _ _ w =>
    exact ⟨rfl, (Cells.grows_push w false).congr fun _ _ _ => by simp [Event.ConstantInArena],
      .refl _ _⟩
  | defineMethod => exact absurd rfl (ha _ _ _)
  | ret => exact SameCells.writes ⟨rfl, rfl, rfl⟩
  | debugPrint => exact SameCells.writes ⟨rfl, rfl, rfl⟩

theorem Refuses.writes (h : Refuses p a q)
    (ha : ∀ name params body, a ≠ .defineMethod name params body) (scope : ScopeId) :
    (Event.refused scope a).Writes p q := by
  cases h with
  | defaulted => exact absurd rfl (ha _ _ _)
  | _ => exact SameCells.writes ⟨rfl, rfl, rfl⟩

theorem advance_writes (scope : ScopeId) (a : Action) (p : Program) :
    Ends (advance scope a) p (fun stage q => (Event.advanced scope a stage).Writes p q)
      (OnFault fun q => (Event.refused scope a).Writes p q) := by
  refine ends_advance (fun _ _ _ => .of_eq rfl) fun _ _ => ?_
  cases a with
  | defineNamespace name body =>
    simp only [dispatch, ends_bind, ends_pure]
    exact (openNamespace_sameCells name).imp (fun _ _ hq => hq.writes) fun _ _ hq _ _ => hq.writes
  | defineClass name body =>
    simp only [dispatch, ends_bind, ends_pure]
    exact (openClass_sameCells name).imp (fun _ _ hq => hq.writes) fun _ _ hq _ _ => hq.writes
  | defineMethod name params body =>
    simp only [dispatch, perform, ends_bind, ends_pure]
    exact (defineMethod_writes name params body p).imp (fun _ _ hq => hq) fun _ _ hq _ _ => hq
  | call name arity =>
    rw [dispatch, ends_bind]
    refine (callee_same scope name).imp ?_ fun _ _ hq _ _ => .of_eq hq
    rintro v _ rfl
    cases v with
    | method m =>
      simp only [ends_bind, ends_pure]
      exact openCall_writes m arity _
    | native native =>
      simp only [ends_bind, ends_pure]
      exact (callNative_effects native).imp
        (fun _ _ hq => hq.writes (fun _ _ _ he => by cases he) _)
        fun _ _ hq _ _ => hq.1.writes (fun _ _ _ he => by cases he) scope
    | _ => exact fun _ _ => .of_eq rfl
  | _ =>
    simp only [dispatch, ends_bind, ends_pure]
    exact (perform_effects rfl fun _ _ he => by cases he).imp
      (fun _ _ hq => hq.writes (fun _ _ _ he => by cases he) _)
      fun _ _ hq _ _ => hq.1.writes (fun _ _ _ he => by cases he) scope

/-- Every step writes as its event says, or ends a call. -/
theorem Happens.writes {s : Step} (h : Happens s) :
    s.event.Writes s.before s.after ∨
      ∃ m left, s.event = .left m left ∧ Leaves left s.before s.after := by
  cases h with
  | registered h =>
    refine Or.inl (Ends.at_end ?_ h)
    exact (registerNative_writes _).imp (fun _ _ hq => hq)
      fun _ _ hq cause hc => .of_eq (hq cause hc)
  | advanced h => exact Or.inl ((advance_writes _ _ _).of_ok h)
  | refused h => exact Or.inl ((advance_writes _ _ _).of_error h _ rfl)
  | @left m left outcome p q h => exact Or.inr ⟨m, left, rfl, leaves_of_closeCall h⟩
  | answered => exact Or.inl (SameCells.writes ⟨rfl, rfl, rfl⟩)

/-- Cells that go when a call ends take their constant places with them. -/
theorem Happens.aligned {s : Step} (h : Happens s) (hs : s.before.memory.Aligned) :
    s.after.memory.Aligned := by
  rcases h.writes with h | ⟨m, left, -, h⟩
  · exact ⟨h.arena.aligned hs.arena, h.frame.aligned hs.frame⟩
  · refine ⟨h.arena ▸ hs.arena, ?_⟩
    rcases h.cases with ⟨-, -, hframe⟩ | ⟨-, -, hframe⟩ <;> rw [hframe]
    · exact hs.frame
    · exact hs.frame.truncate _

theorem Happens.arena_grows {s : Step} (h : Happens s) :
    s.after.memory.id = s.before.memory.id ∧
      s.before.memory.arena.Grows (s.event.ConstantInArena s.before) s.after.memory.arena := by
  rcases h.writes with h | ⟨m, left, -, h⟩
  · exact ⟨h.id, h.arena⟩
  · exact ⟨h.id, h.arena ▸ .refl _ _⟩

/-! ## Histories -/

/-- Rows of cells stay aligned. -/
theorem Linked.aligned {steps : List Step} (h : Linked p steps)
    (hhappens : ∀ s ∈ steps, Happens s) (hp : p.memory.Aligned) :
    (final p steps).memory.Aligned := by
  induction steps generalizing p with
  | nil => exact hp
  | cons s steps ih =>
    obtain ⟨rfl, hlinked⟩ := h
    exact ih hlinked (fun t ht => hhappens t (List.mem_cons_of_mem _ ht))
      ((hhappens s List.mem_cons_self).aligned hp)

/-- A constant cell of the arena stays as it is. -/
theorem Linked.static_constant {steps : List Step} (h : Linked p steps)
    (hhappens : ∀ s ∈ steps, Happens s) {cell : CellId} {v : Value}
    (hconst : p.memory.isConstant (.static cell) = true)
    (hread : p.memory.read (.static cell) = some v) :
    (final p steps).memory.isConstant (.static cell) = true ∧
      (final p steps).memory.read (.static cell) = some v := by
  induction steps generalizing p with
  | nil => exact ⟨hconst, hread⟩
  | cons s steps ih =>
    obtain ⟨rfl, hlinked⟩ := h
    obtain ⟨hid, hgrows⟩ := (hhappens s List.mem_cons_self).arena_grows
    obtain ⟨harena, hflag⟩ := Bool.and_eq_true_iff.1 hconst
    have hcell : cell.arena = s.before.memory.id := of_decide_eq_true harena
    have hget : s.before.memory.arena.get? cell.index = some v := (if_pos hcell).symm.trans hread
    have hlt := Cells.lt_size_of_get? hget
    -- one step keeps flag and value
    refine ih hlinked (fun t ht => hhappens t (List.mem_cons_of_mem _ ht)) ?_ ?_
    · refine Bool.and_eq_true_iff.2 ⟨decide_eq_true (hcell.trans hid.symm), ?_⟩
      rw [hgrows.flag _ hlt, hflag]
    · exact (if_pos (hcell.trans hid.symm)).trans ((hgrows.value _ hlt hflag).trans hget)

/-- So does a constant cell of the frame, as long as it is there. -/
theorem Linked.frame_constant {steps : List Step} (h : Linked p steps)
    (hhappens : ∀ s ∈ steps, Happens s) {i : Nat} {v : Value}
    (hconst : p.memory.isConstant (.frame i) = true) (hread : p.memory.read (.frame i) = some v)
    (hlive : ∀ s ∈ steps, i < s.after.memory.frame.size) :
    (final p steps).memory.isConstant (.frame i) = true ∧
      (final p steps).memory.read (.frame i) = some v := by
  induction steps generalizing p with
  | nil => exact ⟨hconst, hread⟩
  | cons s steps ih =>
    obtain ⟨rfl, hlinked⟩ := h
    have hlt := Cells.lt_size_of_get? hread
    have hstill := hlive s List.mem_cons_self
    -- one step keeps flag and value
    have hstep : s.after.memory.frame.isConstant i = s.before.memory.frame.isConstant i ∧
        s.after.memory.frame.get? i = s.before.memory.frame.get? i := by
      rcases (hhappens s List.mem_cons_self).writes with h | ⟨m, left, -, h⟩
      · exact ⟨h.frame.flag i hlt, h.frame.value i hlt hconst⟩
      · rcases h.cases with ⟨-, -, hframe⟩ | ⟨-, -, hframe⟩
        · rw [hframe]
          exact ⟨rfl, rfl⟩
        · have hcut : i < left.cells := by
            rw [hframe, Cells.size_truncate_eq_min] at hstill
            omega
          rw [hframe, Cells.isConstant_truncate, Cells.get?_truncate, if_pos hcut, if_pos hcut]
          exact ⟨rfl, rfl⟩
    exact ih hlinked (fun t ht => hhappens t (List.mem_cons_of_mem _ ht))
      (hstep.1.trans hconst) (hstep.2.trans hread)
      fun t ht => hlive t (List.mem_cons_of_mem _ ht)

/-- Which cells a step adds, and when it takes cells away. -/
structure Step.Accounts (s : Step) : Prop where
  arena : ∀ i, s.before.memory.arena.size ≤ i → i < s.after.memory.arena.size →
    (s.after.memory.isConstant (s.after.memory.staticRef i) = true ↔
      s.event.ConstantInArena s.before i)
  frame : ∀ i, s.before.memory.frame.size ≤ i → i < s.after.memory.frame.size →
    (s.after.memory.isConstant (.frame i) = true ↔ s.event.DeclaresConstant)
  /-- Cells of the arena stay; those of the frame go with the scope of a call and all after it. -/
  stays : s.before.memory.arena.size ≤ s.after.memory.arena.size
  released : s.after.memory.frame.size < s.before.memory.frame.size →
    ∃ m left, s.event = .left m left ∧ s.after.memory.frame.size = left.cells ∧
      s.after.scopes.scopes = s.before.scopes.scopes.shrink left.scope.index

theorem Happens.accounts {s : Step} (h : Happens s) (hs : s.before.memory.Aligned) :
    s.Accounts := by
  obtain ⟨-, harena⟩ := h.arena_grows
  have hstatic : ∀ i, s.after.memory.isConstant (s.after.memory.staticRef i) =
      s.after.memory.arena.isConstant i := by
    intro i
    simp [Memory.isConstant, Memory.staticRef]
  -- the frame of a call that was left
  have hleft : ∀ left, Leaves left s.before s.after →
      s.after.memory.frame.size ≤ s.before.memory.frame.size ∧
        (s.after.memory.frame.size < s.before.memory.frame.size →
          s.after.memory.frame.size = left.cells ∧
            s.after.scopes.scopes = s.before.scopes.scopes.shrink left.scope.index) := by
    intro left h
    rcases h.cases with ⟨-, -, hframe⟩ | ⟨-, hscopes, hframe⟩
    · rw [hframe]
      exact ⟨Nat.le_refl _, fun hless => absurd hless (Nat.lt_irrefl _)⟩
    · rw [hframe, hscopes, Cells.size_truncate_eq_min]
      exact ⟨Nat.min_le_right _ _, fun hless => ⟨by omega, rfl⟩⟩
  refine ⟨fun i hle hlt => ?_, fun i hle hlt => ?_, harena.size_le, fun hless => ?_⟩
  · rw [hstatic]
    exact harena.fresh hs.arena i hle hlt
  · rcases h.writes with h | ⟨m, left, -, h⟩
    · exact h.frame.fresh hs.frame i hle hlt
    · have := (hleft left h).1
      omega
  · rcases h.writes with h | ⟨m, left, hevent, h⟩
    · exact absurd h.frame.size_le (Nat.not_le_of_lt hless)
    · exact ⟨m, left, hevent, (hleft left h).2 hless⟩

end Exec

open Exec

/-- Whatever a new program is asked for: between any two states of its history, a constant cell of
the arena keeps its value, and so does a constant cell of the frame as long as it is there in all
states between. A new cell is constant if and only if a constant was declared, a native method
registered or a default stored in it; in the frame, where places are used again after calls, only if
a constant was declared. Cells of the arena stay, and those of the frame go only with the scopes of
the calls that they belong to. In all states the constant places are places of cells. -/
theorem constants_immutable {arena tree : StoreId} {host : Host} {mode : Mode} {sink : Sink}
    {start : Program} (hstart : start = .new arena tree host mode sink) (requests : List Request) :
    (∀ earlier between later, history requests start = earlier ++ between ++ later →
      (final start earlier).memory.Aligned ∧
      (∀ cell, (final start earlier).memory.isConstant (.static cell) = true →
        (final start (earlier ++ between)).memory.isConstant (.static cell) = true ∧
          (final start (earlier ++ between)).memory.read (.static cell) =
            (final start earlier).memory.read (.static cell)) ∧
      ∀ i, (final start earlier).memory.isConstant (.frame i) = true →
        (∀ s ∈ between, i < s.after.memory.frame.size) →
          (final start (earlier ++ between)).memory.isConstant (.frame i) = true ∧
            (final start (earlier ++ between)).memory.read (.frame i) =
              (final start earlier).memory.read (.frame i)) ∧
    ∀ s ∈ history requests start, s.Accounts := by
  obtain ⟨hlinked, hhappens⟩ := linked_history requests start
  have hnew : start.memory.Aligned := hstart ▸ ⟨Cells.aligned_empty, Cells.aligned_empty⟩
  -- every state of the history is aligned
  have haligned : ∀ earlier later, history requests start = earlier ++ later →
      (final start earlier).memory.Aligned := by
    intro earlier later hsplit
    rw [hsplit] at hlinked hhappens
    exact (linked_append.1 hlinked).1.aligned (fun s hs => hhappens s (List.mem_append_left _ hs))
      hnew
  refine ⟨fun earlier between later hsplit => ?_, fun s hs => ?_⟩
  · have hsegment := linked_segment hsplit
    have hbetween : ∀ s ∈ between, Happens s := by
      intro s hs
      refine hhappens s ?_
      rw [hsplit]
      exact List.mem_append_left _ (List.mem_append_right _ hs)
    have hearlier := haligned earlier (between ++ later) (hsplit.trans (List.append_assoc _ _ _))
    rw [final_append]
    refine ⟨hearlier, fun cell hconst => ?_, fun i hconst hlive => ?_⟩
    · obtain ⟨v, hv⟩ := hearlier.exists_read hconst
      rw [hv]
      exact hsegment.static_constant hbetween hconst hv
    · obtain ⟨v, hv⟩ := hearlier.exists_read hconst
      rw [hv]
      exact hsegment.frame_constant hbetween hconst hv hlive
  · obtain ⟨earlier, later, hsplit⟩ := List.append_of_mem hs
    refine (hhappens s hs).accounts ?_
    have hbefore : s.before = final start earlier := by
      rw [hsplit] at hlinked
      exact (linked_append.1 hlinked).2.1
    rw [hbefore]
    exact haligned earlier (s :: later) hsplit

/-- A call declares a constant and fails to assign to it. -/
def assignConstant : List Request :=
  [.run 2 .global [.defineMethod "f" []
      [.declareConstant "c" (.int 1), .assignLocal "c" (.literal (.int 2))], .call "f" 0]]

/-- The third step declares the constant, the fourth is the assignment. -/
theorem assigned_constant_stays :
    (final .silent ((history assignConstant .silent).take 3)).memory.read (.frame 0) =
        some (.int 1) ∧
      (final .silent ((history assignConstant .silent).take 4)).memory.read (.frame 0) =
        some (.int 1) := by
  have hsplit : history assignConstant .silent = (history assignConstant .silent).take 3 ++
      ((history assignConstant .silent).drop 3).take 1 ++
        (history assignConstant .silent).drop 4 := by
    rw [← List.take_add, List.take_append_drop]
  have hread : (final .silent ((history assignConstant .silent).take 3)).memory.read (.frame 0) =
      some (.int 1) := by rfl
  have hkept := (constants_immutable (rfl : Program.silent = _) assignConstant).1 _ _ _ hsplit
  have hsame := hkept.2.2 0 (by decide +kernel) (by decide +kernel)
  rw [← List.take_add] at hsame
  exact ⟨hread, hsame.2.trans hread⟩

end ActionMachine
