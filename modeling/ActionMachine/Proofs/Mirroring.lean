import ActionMachine.Proofs.Pushing
import ActionMachine.Proofs.Runs

/-
  The two forms of operators, action by action. An operator that works in place does what the one
  that pushes does (`binaryInPlace_eq`). `Mirrors blur R p x y` says that `y`, from the pushing form
  of `p`, does what `x` does from `p`: results are related by `R`, faults are the same under `blur`,
  which names all operators alike, and the program is left in pushing form. There is one rule for
  each primitive and one lemma for each action; by `run_mirrors` every block is mirrored by its
  pushing form.
-/

namespace ActionMachine

/-! ## One operator -/

/-- Folding the top into the element below it is replacing both by the result. -/
theorem Operands.foldTop_eq_mapTopTwo (s : Operands)
    {f : Operands → Value → Value → Except Fault Value}
    {g : Operands → Value → Value → Value × Except Fault Unit}
    (h : ∀ rest a b, g rest a b =
      match f rest a b with
      | .ok w => (w, .ok ())
      | .error cause => (a, .error cause)) : s.foldTop g = s.mapTopTwo f := by
  rcases Nat.lt_or_ge s.size 2 with hlt | hge
  · unfold foldTop mapTopTwo
    rw [require_eq_error hlt]
    rfl
  · obtain ⟨a, ha⟩ := exists_topAt Nat.two_pos hge
    obtain ⟨b, hb⟩ := exists_topAt (s := s) Nat.one_pos (by omega)
    rw [foldTop_eq ha hb, mapTopTwo_eq ha hb, h]
    cases f (s.truncate (s.size - 2)) a b with
    | error cause => rfl
    | ok w =>
      refine congrArg Except.ok (congrArg Operands.mk (Array.ext_getElem? fun i => ?_))
      unfold size at hge
      simp only [truncate, size, Array.getElem?_pop, Array.getElem?_push, getElem?_shrink,
        Array.getElem?_setIfInBounds, Array.size_setIfInBounds, Array.size_shrink]
      grind

theorem Memory.applyInPlace_eq (m : Memory) (op : BinaryOp) :
    m.applyInPlace op = m.applyBinary op := by
  have hstack : (m.stack.foldTop fun rest => op.evaluateInPlace (m.readWith rest)) =
      m.stack.mapTopTwo fun rest => op.evaluate (m.readWith rest) :=
    m.stack.foldTop_eq_mapTopTwo fun _ _ _ => rfl
  unfold applyInPlace applyBinary
  rw [hstack]

theorem Exec.binaryInPlace_eq (op : BinaryOp) : Exec.binaryInPlace op = Exec.binary op := by
  unfold Exec.binaryInPlace Exec.binary
  simp only [Memory.applyInPlace_eq]

/-! ## What reports tell of operators -/

/-- The names of operators in reports. -/
def operatorLabels : List String :=
  (Action.binaryInPlace .add).label ::
    [BinaryOp.add, .sub, .mul, .div].map fun op => (Action.binary op).label

/-- The name of an action in a report, the same for all operators. -/
def blurredLabel (label : String) : String := if label ∈ operatorLabels then "Binary" else label

/-- The fault with all operators named alike. -/
def Fault.blurred : Fault → Fault
  | .stackUnderflow action needed depth => .stackUnderflow (blurredLabel action) needed depth
  | .zeroOffset action => .zeroOffset (blurredLabel action)
  | .within place index action cause => .within place index (blurredLabel action) cause.blurred
  | fault => fault

def Failure.blurred (f : Failure) : Failure :=
  { f with action := blurredLabel f.action, fault := f.fault.blurred }

theorem Fault.code_blurred (f : Fault) : f.blurred.code = f.code := by
  induction f with
  | within place index action cause ih => exact ih
  | _ => rfl

theorem Failure.blurred_within {f g : Failure} (h : f.blurred = g.blurred) (place : Place) :
    (f.within place).blurred = (g.within place).blurred := by
  obtain ⟨hindex, hlabel, hfault⟩ := Failure.mk.inj h
  simp only [Failure.within, Fault.blurred, hindex, hlabel, hfault]

namespace Action

theorem blurredLabel_pushing (a : Action) :
    blurredLabel a.pushing.label = blurredLabel a.label := by
  cases a with
  | binaryInPlace op => cases op <;> decide
  | _ => rfl

theorem hasZeroOffset_pushing (a : Action) : a.pushing.hasZeroOffset = a.hasZeroOffset := by
  cases a <;> rfl

theorem operandArity_pushing (a : Action) : a.pushing.operandArity = a.operandArity := by
  cases a with
  | assignLocal name source => cases source <;> rfl
  | _ => rfl

end Action

/-! ## Programs and hosts -/

/-- The host does not look into the bodies of methods: where what it can read differs in the form of
operators only, so do its answers. -/
def Host.Blind (host : Host) : Prop :=
  ∀ (entry : String) (slots : SlotSet) (read read' : Reader), read.pushing = read'.pushing →
    (host entry ⟨slots, read⟩).pushing = (host entry ⟨slots, read'⟩).pushing

/-- The program with all values in pushing form, also those that its host will give. -/
def Program.pushing (p : Program) : Program :=
  { p with
    memory := p.memory.pushing
    returned := p.returned.pushing
    host := fun entry args => (p.host entry args).pushing }

theorem Program.mapStack_pushing {f g : Operands → Operands} {p : Program}
    (h : g p.memory.stack.pushing = (f p.memory.stack).pushing) :
    p.pushing.mapStack g = (p.mapStack f).pushing := by
  simp only [mapStack, mapMemory, pushing, Memory.pushing, h]

namespace Exec

/-- Both outcomes are results that `R` relates, or causes that differ in the names of operators
only. -/
inductive Paired {ε α : Type} (blur : ε → ε) (R : α → α → Prop) :
    Except ε α → Except ε α → Prop where
  | ok {a b : α} (h : R a b) : Paired blur R (.ok a) (.ok b)
  | error {c d : ε} (h : blur c = blur d) : Paired blur R (.error c) (.error d)

/-- The second run ended as the first, in the pushing form of its program. -/
inductive Mirrored {ε α : Type} (blur : ε → ε) (R : α → α → Prop) (host : Host)
    (left right : EStateM.Result (Stop ε) Program α) : Prop where
  | ok {a b : α} {q : Program} (hleft : left = .ok a q) (hright : right = .ok b q.pushing)
      (h : R a b) (hhost : q.host = host)
  | fault {c d : ε} {q : Program} (hleft : left = .error (.fault c) q)
      (hright : right = .error (.fault d) q.pushing) (h : blur c = blur d) (hhost : q.host = host)
  | breach {violation : Violation} {q : Program} (hleft : left = .error (.breach violation) q)
      (hright : right = .error (.breach violation) q.pushing) (hhost : q.host = host)
  | unending {q : Program} (hleft : left = .error .unending q)
      (hright : right = .error .unending q.pushing) (hhost : q.host = host)

/-- From the pushing form of `p`, `y` does what `x` does from `p`. -/
def Mirrors {ε α : Type} (blur : ε → ε) (R : α → α → Prop) (p : Program) (x y : Exec ε α) : Prop :=
  p.host.Blind → Mirrored blur R p.host (x p) (y p.pushing)

/-! ## Rules -/

section Rules

variable {ε δ α β : Type} {blur : ε → ε} {blur' : δ → δ} {R : α → α → Prop} {S : β → β → Prop}
  {p : Program} {x y : Exec ε α}

namespace Mirrors

theorem pure {a b : α} (h : R a b) : Mirrors blur R p (Pure.pure a) (Pure.pure b) :=
  fun _ => .ok rfl rfl h rfl

theorem fault {c d : Fault} (h : c.blurred = d.blurred) :
    Mirrors Fault.blurred R p (Exec.fault c) (Exec.fault d) :=
  fun _ => .fault rfl rfl h rfl

theorem fault_bind {c d : Fault} (h : c.blurred = d.blurred) {f g : α → Exec Fault β} :
    Mirrors Fault.blurred S p (Exec.fault c >>= f) (Exec.fault d >>= g) :=
  fun _ => .fault rfl rfl h rfl

theorem ite {c : Prop} [Decidable c] {x' y' : Exec ε α} (hx : Mirrors blur R p x y)
    (hx' : Mirrors blur R p x' y') :
    Mirrors blur R p (if c then x else x') (if c then y else y') := by
  split
  · exact hx
  · exact hx'

theorem bind {f g : α → Exec ε β} (hx : Mirrors blur R p x y)
    (hf : ∀ a b q, R a b → Mirrors blur S q (f a) (g b)) :
    Mirrors blur S p (x >>= f) (y >>= g) := by
  intro hblind
  cases hx hblind with
  | ok hleft hright hab hhost =>
    rw [bind_of_ok hleft, bind_of_ok hright, ← hhost]
    exact hf _ _ _ hab (hhost ▸ hblind)
  | fault hleft hright hcd hhost =>
    exact .fault (bind_of_error hleft) (bind_of_error hright) hcd hhost
  | breach hleft hright hhost =>
    exact .breach (bind_of_error hleft) (bind_of_error hright) hhost
  | unending hleft hright hhost =>
    exact .unending (bind_of_error hleft) (bind_of_error hright) hhost

theorem bind_eq {f g : α → Exec ε β} (hx : Mirrors blur Eq p x y)
    (hf : ∀ a q, Mirrors blur S q (f a) (g a)) : Mirrors blur S p (x >>= f) (y >>= g) :=
  hx.bind fun a _ q hab => hab ▸ hf a q

theorem bind_map {k : α → α} {f g : α → Exec ε β} (hx : Mirrors blur (fun a b => b = k a) p x y)
    (hf : ∀ a q, Mirrors blur S q (f a) (g (k a))) : Mirrors blur S p (x >>= f) (y >>= g) :=
  hx.bind fun a _ q hab => hab ▸ hf a q

theorem imp {R' : α → α → Prop} (h : Mirrors blur R p x y) (hR : ∀ a b, R a b → R' a b) :
    Mirrors blur R' p x y := by
  intro hblind
  cases h hblind with
  | ok hleft hright hab hhost => exact .ok hleft hright (hR _ _ hab) hhost
  | fault hleft hright hcd hhost => exact .fault hleft hright hcd hhost
  | breach hleft hright hhost => exact .breach hleft hright hhost
  | unending hleft hright hhost => exact .unending hleft hright hhost

/-- The two computations are handed the program and its pushing form. -/
theorem get_bind {f g : Program → Exec ε β} (h : Mirrors blur S p (f p) (g p.pushing)) :
    Mirrors blur S p (get >>= f) (get >>= g) := h

theorem modify {f g : Program → Program} (h : g p.pushing = (f p).pushing)
    (hhost : (f p).host = p.host) : Mirrors blur Eq p (modify f) (modify g) :=
  fun _ => .ok rfl (congrArg (EStateM.Result.ok ()) h) rfl hhost

theorem modifyGet {f g : Program → α × Program}
    (h : g p.pushing = ((f p).1, (f p).2.pushing)) (hhost : (f p).2.host = p.host) :
    Mirrors blur Eq p (modifyGet f) (modifyGet g) := by
  intro _
  refine .ok rfl ?_ rfl hhost
  show EStateM.Result.ok (g p.pushing).1 (g p.pushing).2 = .ok (f p).1 (f p).2.pushing
  rw [h]

theorem settle (h : Mirrors blur R p x y) :
    Mirrors blur' (Paired blur R) p (Exec.settle x) (Exec.settle y) := by
  intro hblind
  unfold Exec.settle
  cases h hblind with
  | ok hleft hright hab hhost =>
    rw [hleft, hright]
    exact .ok rfl rfl (.ok hab) hhost
  | fault hleft hright hcd hhost =>
    rw [hleft, hright]
    exact .ok rfl rfl (.error hcd) hhost
  | breach hleft hright hhost =>
    rw [hleft, hright]
    exact .breach rfl rfl hhost
  | unending hleft hright hhost =>
    rw [hleft, hright]
    exact .unending rfl rfl hhost

theorem report {x y : Exec Fault α} (h : Mirrors Fault.blurred R p x y) (index : Nat)
    {label label' : String} (hlabel : blurredLabel label = blurredLabel label') :
    Mirrors Failure.blurred R p (Exec.report index label x) (Exec.report index label' y) := by
  intro hblind
  unfold Exec.report
  cases h hblind with
  | ok hleft hright hab hhost =>
    rw [hleft, hright]
    exact .ok rfl rfl hab hhost
  | fault hleft hright hcd hhost =>
    rw [hleft, hright]
    refine .fault rfl rfl ?_ hhost
    simp only [Failure.blurred, hcd, hlabel]
  | breach hleft hright hhost =>
    rw [hleft, hright]
    exact .breach rfl rfl hhost
  | unending hleft hright hhost =>
    rw [hleft, hright]
    exact .unending rfl rfl hhost

theorem liftViolation {e e' : Except Violation α} {f : α → α} (h : e' = e.map f) :
    Mirrors blur (fun a b => b = f a) p (liftM e) (liftM e') := by
  subst h
  intro _
  cases e with
  | error violation => exact .breach rfl rfl rfl
  | ok a => exact .ok rfl rfl rfl rfl

theorem liftFault {e e' : Except Fault α} {f : α → α} (h : e' = e.map f) :
    Mirrors Fault.blurred (fun a b => b = f a) p (liftM e) (liftM e') := by
  subst h
  intro _
  cases e with
  | error cause => exact .fault rfl rfl rfl rfl
  | ok a => exact .ok rfl rfl rfl rfl

theorem liftStop {e e' : Except (Stop ε) α} {f : α → α} (h : e' = e.map f) :
    Mirrors blur (fun a b => b = f a) p (liftM e) (liftM e') := by
  subst h
  intro _
  cases e with
  | error stop =>
    cases stop with
    | fault cause => exact .fault rfl rfl rfl rfl
    | breach violation => exact .breach rfl rfl rfl
    | unending => exact .unending rfl rfl rfl
  | ok a => exact .ok rfl rfl rfl rfl

/-- What looks at no value does the same. -/
theorem liftSame (e : Except (Stop ε) α) : Mirrors blur Eq p (liftM e) (liftM e) :=
  (liftStop (f := id) (by cases e <;> rfl)).imp fun _ _ h => h.symm

end Mirrors

end Rules

/-! ## Parts of actions -/

section Parts

variable {ε : Type} {blur : ε → ε} {p : Program}

theorem mirrors_push (v : Value) : Mirrors blur Eq p (push v) (push v.pushing) :=
  .modify (Program.mapStack_pushing (p.memory.stack.push_pushing v)) rfl

theorem mirrors_onStack {f : Operands → Except Violation Operands}
    (h : ∀ s, f s.pushing = (f s).map Operands.pushing) :
    Mirrors blur Eq p (onStack fun s => f s) (onStack fun s => f s) := by
  refine .get_bind ((Mirrors.liftStop (f := Operands.pushing) ?_).bind_map fun _ _ =>
    .modify (Program.mapStack_pushing rfl) rfl)
  show liftM (f p.memory.stack.pushing) = Except.map _ (liftM (f p.memory.stack))
  rw [h]
  cases f p.memory.stack <;> rfl

theorem mirrors_pop : Mirrors blur Eq p pop pop := mirrors_onStack Operands.pop_pushing

theorem mirrors_setMemory (m : Memory) :
    Mirrors blur Eq p (setMemory m) (setMemory m.pushing) := .modify rfl rfl

theorem mirrors_setScopes (scopes : ScopeTree) :
    Mirrors blur Eq p (setScopes scopes) (setScopes scopes) := .modify rfl rfl

theorem mirrors_allocate (v : Value) (constant : Bool) :
    Mirrors blur Eq p (allocate v constant) (allocate v.pushing constant) := by
  refine .modifyGet ?_ rfl
  simp only [Program.pushing, Memory.allocate_pushing]

theorem mirrors_allocateFrame (v : Value) (constant : Bool) :
    Mirrors blur Eq p (allocateFrame v constant) (allocateFrame v.pushing constant) := by
  refine .modifyGet ?_ rfl
  simp only [Program.pushing, Memory.allocateFrame_pushing]

theorem mirrors_owned (op : String) (v : Value) :
    Mirrors Fault.blurred (fun a b => b = a.pushing) p (owned op v) (owned op v.pushing) :=
  .get_bind (.liftFault (p.memory.owned_pushing op v))

theorem mirrors_ownedTop (op : String) :
    Mirrors Fault.blurred (fun a b => b = a.pushing) p (ownedTop op) (ownedTop op) :=
  .get_bind ((Mirrors.liftViolation (p.memory.stack.topAt_pushing 1)).bind_map fun v _ =>
    mirrors_owned op v)

theorem mirrors_resolve (scope : ScopeId) (name : Name) :
    Mirrors Fault.blurred Eq p (resolve scope name) (resolve scope name) := .get_bind (.liftSame _)

theorem mirrors_fetch (target : CellRef) :
    Mirrors Fault.blurred (fun a b => b = a.pushing) p (liftM (p.memory.fetch target))
      (liftM (p.memory.pushing.fetch target)) := .liftFault (p.memory.fetch_pushing target)

/-- A cell is changed before the rest goes on. -/
theorem Mirrors.update_bind {β : Type} {S : β → β → Prop} (target : CellRef)
    {f g : Value → Except Fault Value} (h : ∀ v, g v.pushing = (f v).map Value.pushing)
    {x y : Exec Fault β} (hx : ∀ q, Mirrors Fault.blurred S q x y) :
    Mirrors Fault.blurred S p
      (do setMemory (← (← get).memory.update target f); x)
      (do setMemory (← (← get).memory.update target g); y) :=
  .get_bind ((Mirrors.liftFault (p.memory.update_pushing target h)).bind_map fun m _ =>
    (mirrors_setMemory m).bind_eq fun _ q => hx q)

theorem mirrors_base (m : Memory) (count : Nat) :
    Mirrors blur Eq p (liftM (m.stack.base count)) (liftM (m.pushing.stack.base count)) := by
  refine (Mirrors.liftViolation (f := id) ?_).imp fun _ _ h => h.symm
  refine (m.stack.base_pushing count).trans ?_
  cases m.stack.base count <;> rfl

theorem mirrors_ownedAll (m : Memory) (op : String) (base : Nat) :
    Mirrors Fault.blurred (fun a b => b = a.map Value.pushing) p
      (liftM (m.read.ownedAll op (m.stack.above base)))
      (liftM (m.pushing.read.ownedAll op (m.pushing.stack.above base))) := by
  refine .liftFault ?_
  rw [m.read_pushing, ← m.read.ownedAll_pushing, ← m.stack.above_pushing]
  rfl

end Parts

/-! ## Actions -/

section Actions

variable {p : Program} {scope : ScopeId}

theorem mirrors_bindNew (name : Name) (v : Value) (constant : Bool) :
    Mirrors Fault.blurred Eq p (bindNew scope name v constant)
      (bindNew scope name v.pushing constant) := by
  refine .get_bind ((Mirrors.liftSame _).bind_eq fun owner q => ?_)
  have hadd : ∀ target r, Mirrors Fault.blurred Eq r
      (do setScopes (← (← get).scopes.addLocal scope name target); return target)
      (do setScopes (← (← get).scopes.addLocal scope name target); return target) :=
    fun target r => .get_bind ((Mirrors.liftSame _).bind_eq fun scopes _ =>
      (mirrors_setScopes scopes).bind_eq fun _ _ => .pure rfl)
  exact .ite (.fault_bind rfl) (.ite ((mirrors_allocateFrame v constant).bind_eq hadd)
    ((mirrors_allocate v constant).bind_eq hadd))

theorem mirrors_declareLocal (name : Name) :
    Mirrors Fault.blurred Eq p (declareLocal scope name) (declareLocal scope name) :=
  (mirrors_bindNew name .undefined false).bind_eq fun _ _ => .pure rfl

theorem mirrors_declareConstant (name : Name) (v : Value) :
    Mirrors Fault.blurred Eq p (declareConstant scope name v)
      (declareConstant scope name v.pushing) :=
  (mirrors_owned "const" v).bind_map fun w _ =>
    (mirrors_bindNew name w true).bind_eq fun _ _ => .pure rfl

theorem mirrors_resolveLocal (name : Name) :
    Mirrors Fault.blurred Eq p (resolveLocal scope name) (resolveLocal scope name) :=
  (mirrors_resolve scope name).bind_eq fun target _ =>
    (mirrors_push (.reference (some target))).bind_eq fun _ _ => .pure rfl

theorem mirrors_resolveQualified (nested name : Name) :
    Mirrors Fault.blurred Eq p (resolveQualified scope nested name)
      (resolveQualified scope nested name) :=
  .get_bind ((Mirrors.liftSame _).bind_eq fun _ _ =>
    .get_bind ((Mirrors.liftSame _).bind_eq fun _ _ =>
      (Mirrors.liftSame _).bind_eq fun target _ =>
        (mirrors_push (.reference (some target))).bind_eq fun _ _ => .pure rfl))

theorem mirrors_assignLocal (name : Name) (source : Operand) :
    Mirrors Fault.blurred Eq p (assignLocal scope name source)
      (assignLocal scope name source.pushing) := by
  refine (mirrors_resolve scope name).bind_eq fun target q => ?_
  cases source with
  | pop =>
    exact (mirrors_ownedTop "=").bind_map fun v _ => .update_bind target (fun _ => rfl) fun _ =>
      mirrors_pop.bind_eq fun _ _ => .pure rfl
  | literal v =>
    exact (mirrors_owned "=" v).bind_map fun w _ => .update_bind target (fun _ => rfl) fun _ =>
      .pure rfl

theorem mirrors_pushLiteral (v : Value) :
    Mirrors Fault.blurred Eq p (pushLiteral v) (pushLiteral v.pushing) := by
  unfold pushLiteral
  rw [v.isUndefined_pushing]
  exact .ite (.fault_bind rfl) ((mirrors_push v).bind_eq fun _ _ => .pure rfl)

theorem mirrors_duplicate (offset : Nat) :
    Mirrors Fault.blurred Eq p (duplicate offset) (duplicate offset) :=
  (mirrors_onStack (·.duplicate_pushing offset)).bind_eq fun _ _ => .pure rfl

theorem mirrors_swap (offset : Nat) :
    Mirrors Fault.blurred Eq p (swap offset) (swap offset) :=
  (mirrors_onStack (·.swap_pushing offset)).bind_eq fun _ _ => .pure rfl

theorem mirrors_buildList (len : Nat) :
    Mirrors Fault.blurred Eq p (buildList len) (buildList len) := by
  refine .get_bind ((mirrors_base p.memory len).bind_eq fun base _ => ?_)
  refine (mirrors_ownedAll p.memory "list" base).bind_map fun items q => ?_
  refine (Mirrors.modify (Program.mapStack_pushing ?_) rfl).bind_eq fun _ _ => .pure rfl
  rw [Operands.truncate_pushing, ← Value.pushing_list, Operands.push_pushing]

theorem mirrors_unary (op : UnaryOp) : Mirrors Fault.blurred Eq p (unary op) (unary op) :=
  .get_bind ((Mirrors.liftStop (p.memory.applyUnary_pushing op)).bind_map fun m _ =>
    (mirrors_setMemory m).bind_eq fun _ _ => .pure rfl)

theorem mirrors_binary (op : BinaryOp) : Mirrors Fault.blurred Eq p (binary op) (binary op) :=
  .get_bind ((Mirrors.liftStop (p.memory.applyBinary_pushing op)).bind_map fun m _ =>
    (mirrors_setMemory m).bind_eq fun _ _ => .pure rfl)

theorem mirrors_addStaticMember (owner name : Name) (v : Value) :
    Mirrors Fault.blurred Eq p (addStaticMember scope owner name v)
      (addStaticMember scope owner name v.pushing) :=
  .get_bind ((Mirrors.liftSame _).bind_eq fun _ _ =>
    (mirrors_owned "static member" v).bind_map fun w _ =>
      (mirrors_bindNew name w false).bind_eq fun _ _ => .pure rfl)

theorem mirrors_addInstanceMember (owner name : Name) (v : Value) :
    Mirrors Fault.blurred Eq p (addInstanceMember scope owner name v)
      (addInstanceMember scope owner name v.pushing) :=
  .get_bind ((Mirrors.liftSame _).bind_eq fun _ _ =>
    (mirrors_owned "instance member" v).bind_map fun w _ =>
      .get_bind ((Mirrors.liftSame _).bind_eq fun _ _ =>
        .ite (.fault_bind rfl) ((mirrors_allocate w false).bind_eq fun _ _ =>
          .get_bind ((Mirrors.liftSame _).bind_eq fun scopes _ =>
            (mirrors_setScopes scopes).bind_eq fun _ _ => .pure rfl))))

theorem templateMembers_pushing (m : Memory) (template : SlotSet) :
    templateMembers m.pushing template =
      (templateMembers m template).map (List.map Member.pushing) := by
  unfold templateMembers
  induction template.slots.toList with
  | nil => rfl
  | cons slot slots ih =>
    rw [List.mapM_cons, List.mapM_cons, ih, m.fetch_pushing]
    cases m.fetch slot.target with
    | error cause => rfl
    | ok v =>
      show (Except.bind _ _) = Except.map _ (Except.bind _ _)
      cases slots.mapM fun slot => return Member.mk slot.name (← m.fetch slot.target) <;> rfl

theorem mirrors_constructInstance (owner : Name) :
    Mirrors Fault.blurred Eq p (constructInstance scope owner)
      (constructInstance scope owner) := by
  refine .get_bind ((Mirrors.liftSame _).bind_eq fun id q => ?_)
  refine (Mirrors.liftSame _).bind_eq fun classScope r => ?_
  cases classScope.layout? with
  | none => exact .fault rfl
  | some layout =>
    refine (Mirrors.liftFault (templateMembers_pushing p.memory layout.template)).bind_map ?_
    intro members t
    rw [Object.ofMembers_pushing]
    exact (mirrors_push (.object _)).bind_eq fun _ _ => .pure rfl

theorem mirrors_objectCell (object : Name) :
    Mirrors Fault.blurred Eq p (objectCell scope object) (objectCell scope object) := by
  refine (mirrors_resolve scope object).bind_eq fun bound q => .get_bind ?_
  refine (Mirrors.liftFault (f := id) ?_).imp fun _ _ h => h.symm
  refine (q.memory.resolve_pushing bound).trans ?_
  cases q.memory.resolve bound <;> rfl

theorem mirrors_loadMember (object member : Name) :
    Mirrors Fault.blurred Eq p (loadMember scope object member)
      (loadMember scope object member) := by
  refine (mirrors_objectCell object).bind_eq fun target q => .get_bind ?_
  refine (mirrors_fetch target).bind_map fun holder r => ?_
  rw [holder.object?_pushing, holder.kind_pushing]
  cases holder.object? with
  | none => exact .fault_bind rfl
  | some object =>
    rw [Option.map_some]
    simp only
    rw [object.member?_pushing]
    cases object.member? member with
    | none => exact .fault_bind rfl
    | some value => exact (mirrors_push value).bind_eq fun _ _ => .pure rfl

theorem withMember_pushing (member : Name) (v holder : Value) :
    withMember member v.pushing holder.pushing =
      (withMember member v holder).map Value.pushing := by
  unfold withMember
  rw [holder.object?_pushing, holder.kind_pushing]
  cases holder.object? with
  | none => rfl
  | some object =>
    simp only [Option.map_some, object.setMember?_pushing]
    cases object.setMember? member v <;> rfl

theorem mirrors_assignMember (object member : Name) :
    Mirrors Fault.blurred Eq p (assignMember scope object member)
      (assignMember scope object member) :=
  (mirrors_objectCell object).bind_eq fun target _ =>
    (mirrors_ownedTop "=").bind_map fun v _ =>
      .update_bind target (withMember_pushing member v) fun _ =>
        mirrors_pop.bind_eq fun _ _ => .pure rfl

theorem mirrors_debugPrint (name : Name) :
    Mirrors Fault.blurred Eq p (debugPrint scope name) (debugPrint scope name) := by
  refine (mirrors_resolve scope name).bind_eq fun target q => .get_bind ?_
  refine (mirrors_fetch target).bind_map fun v r => .get_bind ?_
  rw [show r.pushing.memory = r.memory.pushing from rfl, r.memory.render?_pushing]
  cases r.memory.render? v with
  | none => exact fun _ => .unending rfl rfl rfl
  | some text => exact .bind_eq (.modify rfl rfl) fun _ _ => .pure rfl

theorem mirrors_ret : Mirrors Fault.blurred Eq p ret ret :=
  (mirrors_ownedTop "return").bind_map fun _ _ => mirrors_pop.bind_eq fun _ _ =>
    .bind_eq (.modify rfl rfl) fun _ _ => .pure rfl

/-- Defaults are stored in pushing form. -/
theorem mirrors_bindDefaults (slots : SlotSet) (params : List Parameter) :
    Mirrors Fault.blurred Eq p (bindDefaults slots params)
      (bindDefaults slots (Parameter.allPushing params)) := by
  induction params generalizing slots p with
  | nil => exact .pure rfl
  | cons param params ih =>
    obtain ⟨name, default⟩ := param
    rw [Parameter.allPushing, bindDefaults, bindDefaults]
    cases default with
    | none =>
      refine Mirrors.bind_map (k := Value.pushing) (.pure rfl) fun w _ => ?_
      refine (mirrors_allocate w true).bind_eq fun target _ => ?_
      cases slots.insert name target with
      | error error => exact .fault rfl
      | ok slots => exact ih slots
    | some v =>
      refine (mirrors_owned "default" v).bind_map fun w _ => ?_
      refine (mirrors_allocate w true).bind_eq fun target _ => ?_
      cases slots.insert name target with
      | error error => exact .fault rfl
      | ok slots => exact ih slots

theorem mirrors_defineMethod (name : Name) (params : List Parameter) (body : List Action) :
    Mirrors Fault.blurred Eq p (defineMethod scope name params body)
      (defineMethod scope name (Parameter.allPushing params) (Action.allPushing body)) :=
  (mirrors_bindDefaults .empty params).bind_eq fun slots _ =>
    (mirrors_bindNew name (.method { name, params := slots, scope, body }) false).bind_eq fun _ _ =>
      .get_bind ((mirrors_setScopes _).bind_eq fun _ _ => .pure rfl)

end Actions

/-! ## Calls -/

section Calls

variable {p : Program} {scope : ScopeId}

theorem defaultValues_pushing (m : Memory) (missing : Fault) (slots : List Slot) :
    defaultValues m.pushing missing slots =
      (defaultValues m missing slots).map (List.map Value.pushing) := by
  induction slots with
  | nil => rfl
  | cons slot slots ih =>
    rw [defaultValues, defaultValues, ih, m.fetch_pushing]
    cases m.fetch slot.target with
    | error cause => rfl
    | ok v =>
      show (if v.pushing.isUndefined then _ else _) = Except.map _ (if v.isUndefined then _ else _)
      rw [v.isUndefined_pushing]
      split
      · rfl
      · cases defaultValues m missing slots <;> rfl

theorem mirrors_argumentValues (m : Method) (arity base : Nat) :
    Mirrors Fault.blurred (fun a b => b = a.map Value.pushing) p (argumentValues m arity base)
      (argumentValues m.pushing arity base) := by
  obtain ⟨name, params, scope, body⟩ := m
  refine .get_bind ((mirrors_ownedAll p.memory "argument" base).bind_map fun given q => ?_)
  refine (Mirrors.liftFault (defaultValues_pushing p.memory _ _)).bind_map fun defaults r => ?_
  exact .pure List.map_append.symm

theorem mirrors_pushCallScope (m : Method) :
    Mirrors Fault.blurred Eq p (pushCallScope m) (pushCallScope m.pushing) := by
  obtain ⟨name, params, scope, body⟩ := m
  exact .modifyGet rfl rfl

theorem mirrors_bindArguments (slots : List Slot) (values : List Value) :
    Mirrors Fault.blurred Eq p (bindArguments scope (slots.zip values))
      (bindArguments scope (slots.zip (values.map Value.pushing))) := by
  induction slots generalizing values p with
  | nil => exact .pure rfl
  | cons slot slots ih =>
    cases values with
    | nil => exact .pure rfl
    | cons value values =>
      exact (mirrors_allocateFrame value false).bind_eq fun target _ =>
        .get_bind ((Mirrors.liftSame _).bind_eq fun scopes _ =>
          (mirrors_setScopes scopes).bind_eq fun _ _ => ih values)

theorem mirrors_leave (cells base : Nat) :
    Mirrors Fault.blurred Eq p (leave scope cells base) (leave scope cells base) := by
  refine .bind_eq (.modify (Program.mapStack_pushing (Operands.truncate_pushing _ base)) rfl) ?_
  refine fun _ q => .get_bind ((Mirrors.liftSame _).bind_eq fun released r => ?_)
  refine (mirrors_setScopes released.2).bind_eq fun _ t => .ite (.modify ?_ rfl) (.pure rfl)
  simp only [Program.mapMemory, Program.pushing, Memory.pushing, Cells.truncate_pushing]

def Frame.pushing (frame : Frame) : Frame := { frame with returned := frame.returned.pushing }

/-- A call is refused at the limit of its depth before the rest goes on. -/
theorem Mirrors.limit_bind {β : Type} {S : β → β → Prop} {x y : Exec Fault β}
    (h : Mirrors Fault.blurred S p x y) :
    Mirrors Fault.blurred S p
      (do
        if let some limit := (← get).mode.maxCallDepth then
          if limit ≤ (← get).callDepth then Exec.fault (.recursionLimit limit)
        x)
      (do
        if let some limit := (← get).mode.maxCallDepth then
          if limit ≤ (← get).callDepth then Exec.fault (.recursionLimit limit)
        y) := by
  have hmode : p.pushing.mode = p.mode := rfl
  refine .get_bind ?_
  rw [hmode]
  cases p.mode.maxCallDepth with
  | none => exact h
  | some limit => exact .get_bind (.ite (.fault_bind rfl) h)

theorem mirrors_openCall (m : Method) (arity : Nat) :
    Mirrors Fault.blurred (fun a b => b = a.pushing) p (openCall m arity)
      (openCall m.pushing arity) := by
  obtain ⟨name, params, scope, body⟩ := m
  -- refusals first, then the arguments, then the new scope with its cells
  refine .ite (.fault_bind rfl) (.limit_bind (.get_bind ?_))
  refine (mirrors_base p.memory arity).bind_eq fun base _ => ?_
  refine (mirrors_argumentValues ⟨name, params, scope, body⟩ arity base).bind_map fun values _ => ?_
  refine .bind_eq (.modify (Program.mapStack_pushing (Operands.truncate_pushing _ base)) rfl) ?_
  intro _ q
  refine .get_bind ?_
  have hcells : q.pushing.memory.frame.size = q.memory.frame.size := Cells.size_pushing _
  rw [hcells]
  refine (mirrors_pushCallScope ⟨name, params, scope, body⟩).bind_eq fun id _ => ?_
  refine (mirrors_bindArguments params.slots.toList values).settle.bind fun left right r h => ?_
  cases h with
  | error hcd => exact (mirrors_leave q.memory.frame.size base).bind_eq fun _ _ => .fault hcd
  | ok _ => exact .get_bind (.bind_eq (.modify rfl rfl) fun _ _ => .pure rfl)

theorem callResult_pushing (v : Value) : callResult v.pushing = (callResult v).pushing := by
  unfold callResult
  rw [v.isUndefined_pushing]
  split <;> rfl

theorem mirrors_closeCall (frame : Frame) (method : Name) {left right : Except Failure Flow}
    (h : Paired Failure.blurred Eq left right) :
    Mirrors Fault.blurred Eq p (closeCall frame method left)
      (closeCall frame.pushing method right) := by
  refine .get_bind (.bind_eq (.modify rfl rfl) fun _ q => ?_)
  refine (mirrors_leave frame.cells frame.base).bind_eq fun _ r => ?_
  cases h with
  | error hcd => exact .fault (Failure.blurred_within hcd _)
  | ok _ =>
    show Mirrors Fault.blurred Eq r (push (callResult p.returned))
      (push (callResult p.returned.pushing))
    rw [callResult_pushing]
    exact mirrors_push _

/-- A call is mirrored if the body of its method is. -/
theorem mirrors_callMethod {run : Body} (m : Method) (arity : Nat)
    (hbody : ∀ id q, Mirrors Failure.blurred Eq q (run id m.body)
      (run id (Action.allPushing m.body))) :
    Mirrors Fault.blurred Eq p (callMethod run m arity) (callMethod run m.pushing arity) := by
  obtain ⟨name, params, scope, body⟩ := m
  refine (mirrors_openCall ⟨name, params, scope, body⟩ arity).bind_map fun frame q => ?_
  exact (hbody frame.scope q).settle.bind fun _ _ _ h => mirrors_closeCall frame name h

theorem mirrors_placeArguments (index : Nat) (slots : SlotSet) (params : List Name)
    (values : List Value) :
    Mirrors Fault.blurred Eq p (placeArguments index slots (params.zip values))
      (placeArguments index slots (params.zip (values.map Value.pushing))) := by
  induction params generalizing index slots values p with
  | nil => exact .pure rfl
  | cons param params ih =>
    cases values with
    | nil => exact .pure rfl
    | cons value values =>
      refine .update_bind (.stack index) (fun _ => rfl) fun q => ?_
      cases slots.insert param (.stack index) with
      | error error => exact .fault rfl
      | ok slots => exact ih (index + 1) slots values

theorem mirrors_callNative (native : NativeMethod) (arity : Nat) :
    Mirrors Fault.blurred Eq p (callNative native arity) (callNative native arity) := by
  refine .ite (.fault_bind rfl) (.get_bind ?_)
  refine (mirrors_base p.memory arity).bind_eq fun base _ => ?_
  refine (mirrors_ownedAll p.memory "argument" base).bind_map fun values _ => ?_
  refine (mirrors_placeArguments base .empty native.params values).bind_eq fun slots q => ?_
  -- the host is asked with all that it can read in pushing form
  intro hblind
  refine Mirrors.modify (Program.mapStack_pushing ?_) rfl hblind
  have hread : q.pushing.memory.read = q.memory.read.pushing := q.memory.read_pushing
  have hresult := hblind native.entry slots _ _ q.memory.read.pushing_pushing
  show (q.memory.stack.pushing.truncate base).push
    (q.host native.entry ⟨slots, q.pushing.memory.read⟩).pushing = _
  rw [hread, hresult, Operands.truncate_pushing, Operands.push_pushing]

theorem mirrors_callee (name : Name) :
    Mirrors Fault.blurred (fun a b => b = a.pushing) p (callee scope name) (callee scope name) :=
  (mirrors_resolve scope name).bind_eq fun target q => .get_bind
    ((mirrors_fetch target).bind_map fun v _ => .liftFault (q.memory.follow_pushing v))

theorem mirrors_call {run : Body} (name : Name) (arity : Nat)
    (hbody : ∀ id body q, Mirrors Failure.blurred Eq q (run id body)
      (run id (Action.allPushing body))) :
    Mirrors Fault.blurred Eq p (call run scope name arity) (call run scope name arity) := by
  refine (mirrors_callee name).bind_map fun v q => ?_
  cases v with
  | method m =>
    exact (mirrors_callMethod m arity fun id q => hbody id m.body q).bind_eq fun _ _ => .pure rfl
  | native m => exact (mirrors_callNative m arity).bind_eq fun _ _ => .pure rfl
  | _ => exact .fault_bind rfl

end Calls

/-! ## Blocks -/

section Blocks

variable {p : Program} {scope : ScopeId}

theorem mirrors_checkOperands (a : Action) :
    Mirrors Fault.blurred Eq p (checkOperands a) (checkOperands a.pushing) := by
  have hlabel := a.blurredLabel_pushing.symm
  unfold checkOperands
  rw [a.hasZeroOffset_pushing, a.operandArity_pushing]
  refine .ite (.fault_bind ?_) (.get_bind ?_)
  · exact congrArg Fault.zeroOffset hlabel
  · have hsize : p.pushing.memory.stack.size = p.memory.stack.size := Operands.size_pushing _
    rw [hsize]
    refine .ite (.fault ?_) (.pure rfl)
    exact congrArg (Fault.stackUnderflow · _ _) hlabel

theorem mirrors_openNamespace (name : Name) :
    Mirrors Fault.blurred Eq p (openNamespace scope name) (openNamespace scope name) :=
  .get_bind ((Mirrors.liftSame _).bind_eq fun opened _ =>
    (mirrors_setScopes opened.2).bind_eq fun _ _ => .pure rfl)

theorem mirrors_openClass (name : Name) :
    Mirrors Fault.blurred Eq p (openClass scope name) (openClass scope name) :=
  .bind_eq (.modify rfl rfl) fun _ _ => .get_bind (.get_bind
    ((Mirrors.liftSame _).bind_eq fun opened _ =>
      (mirrors_setScopes opened.2).bind_eq fun _ _ => .pure rfl))

theorem Mirrors.inside {x y : Exec Failure Flow} (h : Mirrors Failure.blurred Eq p x y)
    (place : Place) : Mirrors Fault.blurred Eq p (Exec.inside place x) (Exec.inside place y) := by
  refine h.settle.bind fun left right q hpaired => ?_
  cases hpaired with
  | ok _ => exact .pure rfl
  | error hcd => exact .fault (Failure.blurred_within hcd place)

/-- Actions that open no body; `hbody` is about the bodies of called methods. -/
theorem mirrors_perform {run : Body} (a : Action) (ha : a.body? = none)
    (hbody : ∀ id body q, Mirrors Failure.blurred Eq q (run id body)
      (run id (Action.allPushing body))) :
    Mirrors Fault.blurred Eq p (perform run scope a) (perform run scope a.pushing) := by
  cases a with
  | declareLocal name => exact mirrors_declareLocal name
  | declareConstant name v => exact mirrors_declareConstant name v
  | resolveLocal name => exact mirrors_resolveLocal name
  | resolveQualified nested name => exact mirrors_resolveQualified nested name
  | assignLocal name source => exact mirrors_assignLocal name source
  | pushLiteral v => exact mirrors_pushLiteral v
  | pop => exact mirrors_pop.bind_eq fun _ _ => .pure rfl
  | duplicate offset => exact mirrors_duplicate offset
  | swap offset => exact mirrors_swap offset
  | buildList len => exact mirrors_buildList len
  | unary op => exact mirrors_unary op
  | binary op => exact mirrors_binary op
  | binaryInPlace op =>
    show Mirrors Fault.blurred Eq p (binaryInPlace op) (binary op)
    rw [binaryInPlace_eq]
    exact mirrors_binary op
  | defineNamespace name body => cases ha
  | defineClass name body => cases ha
  | addStaticMember owner name v => exact mirrors_addStaticMember owner name v
  | addInstanceMember owner name v => exact mirrors_addInstanceMember owner name v
  | constructInstance owner => exact mirrors_constructInstance owner
  | loadMember object member => exact mirrors_loadMember object member
  | assignMember object member => exact mirrors_assignMember object member
  | defineMethod name params body => exact mirrors_defineMethod name params body
  | call name arity => exact mirrors_call name arity hbody
  | ret => exact mirrors_ret
  | debugPrint name => exact mirrors_debugPrint name

/-- Every action and every block is mirrored by its pushing form. -/
theorem run_mirrors :
    (∀ n scope a p, Mirrors Fault.blurred Eq p (attempt (enter n) scope a)
      (attempt (enter n) scope a.pushing)) ∧
    ∀ n scope as p, ∀ index, Mirrors Failure.blurred Eq p (performAll (enter n) scope index as)
      (performAll (enter n) scope index (Action.allPushing as)) := by
  refine run_induction ?nil ?cons ?body ?plain
  case nil =>
    intro n scope p index
    exact .pure rfl
  case cons =>
    intro n scope a as p ha has index
    rw [Action.allPushing, performAll_cons, performAll_cons]
    refine (ha.report index a.blurredLabel_pushing.symm).bind_eq fun flow q => ?_
    cases flow with
    | next => exact has q (index + 1)
    | ret => exact .pure rfl
  case body =>
    -- the body stands in the action, so its pushing form stands in that of the action
    intro n scope a as p hbody hL
    refine (mirrors_checkOperands a).bind_eq fun _ q => ?_
    cases a with
    | defineNamespace name body =>
      cases hbody
      exact (mirrors_openNamespace name).bind_eq fun id r => (hL id r 0).inside _
    | defineClass name body =>
      cases hbody
      exact (mirrors_openClass name).bind_eq fun id r => (hL id r 0).inside _
    | _ => cases hbody
  case plain =>
    intro n scope a p hbody hL
    -- a called method is in pushing form with the memory, so its body is mirrored one call deeper
    refine (mirrors_checkOperands a).bind_eq fun _ q => mirrors_perform a hbody fun id body r => ?_
    cases n with
    | zero => exact fun _ => .unending rfl rfl rfl
    | succ n => exact hL n rfl id body r 0

theorem runIn_mirrors (n : Nat) (scope : ScopeId) (as : List Action) (p : Program) :
    Mirrors Failure.blurred (fun a b => b = a.pushing) p (runIn n scope as)
      (runIn n scope (Action.allPushing as)) := by
  have hscopes : p.pushing.scopes = p.scopes := rfl
  refine .get_bind ?_
  rw [hscopes]
  cases p.scopes.check scope with
  | error cause =>
    refine fun _ => .fault rfl rfl ?_ rfl
    cases as with
    | nil => rfl
    | cons a as => exact congrArg (Failure.mk 0 · cause.blurred) a.blurredLabel_pushing.symm
  | ok id =>
    refine (run_mirrors.2 n scope as p 0).settle.bind fun left right q hpaired => .get_bind ?_
    refine .bind_eq (.modify rfl rfl) fun _ r => ?_
    cases hpaired with
    | ok _ => exact .pure rfl
    | error hcd => exact fun _ => .fault rfl rfl hcd rfl

end Blocks

end Exec

end ActionMachine
