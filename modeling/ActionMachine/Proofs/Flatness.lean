import ActionMachine.Proofs.Isolation
import ActionMachine.Proofs.Rendering

/-
  Values with finite texts. A value is flat if it is a reference or holds no reference inside. From
  flat literals and flat results of native functions a program makes only flat values: what is put
  into a list, an object or a cell is what a reference leads to, never the reference itself. So the
  text of a variable is always finite, and a run without end is one whose calls nest too deep
  (`run_flat`).
-/

namespace ActionMachine

/-! ## References inside values -/

mutual

/-- The value is no reference and holds none. -/
def Value.referenceFree : Value → Bool
  | .reference _ => false
  | .list items => Value.itemsReferenceFree items
  | .object ⟨_, _, _, members, _⟩ => Value.membersReferenceFree members
  | _ => true

def Value.itemsReferenceFree : List Value → Bool
  | [] => true
  | item :: items => item.referenceFree && Value.itemsReferenceFree items

def Value.membersReferenceFree : List Member → Bool
  | [] => true
  | ⟨_, value⟩ :: members => value.referenceFree && Value.membersReferenceFree members

end

namespace Value

/-- No list or object inside the value holds a reference. -/
def isFlat (v : Value) : Bool := v.isReference || v.referenceFree

theorem referenceFree_list {items : List Value} :
    (list items).referenceFree = true ↔ ∀ item ∈ items, item.referenceFree = true := by
  show itemsReferenceFree items = true ↔ _
  induction items with
  | nil => simp [itemsReferenceFree]
  | cons item items ih => simp [itemsReferenceFree, ih]

theorem membersReferenceFree_iff {members : List Member} :
    membersReferenceFree members = true ↔
      ∀ member ∈ members, member.value.referenceFree = true := by
  induction members with
  | nil => simp [membersReferenceFree]
  | cons member members ih =>
    obtain ⟨name, value⟩ := member
    simp [membersReferenceFree, ih]

theorem referenceFree_object {o : Object} :
    (object o).referenceFree = true ↔ ∀ member ∈ o.members, member.value.referenceFree = true := by
  obtain ⟨_, _, _, members, _⟩ := o
  exact membersReferenceFree_iff

theorem referenceFree_of_isSimple {v : Value} (h : v.isSimple = true) :
    v.referenceFree = true := by
  cases v with
  | list => cases h
  | object => cases h
  | method => cases h
  | reference => cases h
  | _ => simp [referenceFree]

theorem hereditary_referenceFree : Hereditary (·.referenceFree = true) :=
  .of_object (fun _ => referenceFree_of_isSimple) (fun _ => referenceFree_list)
    fun _ => referenceFree_object

/-- A value without references whose methods have only flat literals. -/
def Closed (v : Value) : Prop :=
  v.referenceFree = true ∧ v.EachMethod fun m => Action.AllLiterals (·.isFlat = true) m.body

theorem hereditary_closed : Hereditary Closed :=
  hereditary_referenceFree.and (hereditary_eachMethod _)

theorem Loose.isFlat {v : Value} (h : v.Loose Closed) : v.isFlat = true := by
  unfold Value.isFlat
  rw [Bool.or_eq_true]
  exact h.imp_right And.left

theorem Loose.eachMethod {v : Value} (h : v.Loose Closed) :
    v.EachMethod fun m => Action.AllLiterals (·.isFlat = true) m.body := by
  have hloose : v.Loose (·.EachMethod fun m => Action.AllLiterals (·.isFlat = true) m.body) :=
    h.imp_right And.right
  rw [loose_eachMethod] at hloose
  exact hloose

theorem loose_closed {v : Value} (hflat : v.isFlat = true)
    (hmethods : v.EachMethod fun m => Action.AllLiterals (·.isFlat = true) m.body) :
    v.Loose Closed := by
  unfold Value.isFlat at hflat
  rw [Bool.or_eq_true] at hflat
  exact hflat.imp_right fun hfree => ⟨hfree, hmethods⟩

/-! ## Texts -/

mutual

/-- Without references inside there is nothing to follow. -/
theorem renderWith_eq (read : Reader) (opened : Value → Option String) :
    (v : Value) → v.referenceFree = true → renderWith read opened v = some v.display
  | .reference _, h => by cases h
  | .list items, h => by
    rw [renderWith, renderItems_eq read opened items h, display]
    rfl
  | .object ⟨_, _, _, members, _⟩, h => by
    rw [renderWith, renderMembers_eq read opened members h, display, Object.display]
    rfl
  | .int _, _ | .uint _, _ | .float _, _ | .bool _, _ | .char _, _ | .byte _, _ | .view _, _
  | .none, _ | .undefined, _ | .str _, _ | .scope _, _ | .native _, _ | .method _, _ => by
    simp [renderWith]

theorem renderItems_eq (read : Reader) (opened : Value → Option String) :
    (items : List Value) → itemsReferenceFree items = true →
      renderItems read opened items = some (displayItems items)
  | [], _ => by rw [renderItems, displayItems]
  | item :: items, h => by
    have h := Bool.and_eq_true_iff.1 h
    rw [renderItems, renderWith_eq read opened item h.1, renderItems_eq read opened items h.2,
      displayItems]
    rfl

theorem renderMembers_eq (read : Reader) (opened : Value → Option String) :
    (members : List Member) → membersReferenceFree members = true →
      renderMembers read opened members = some (Object.displayMembers members)
  | [], _ => by rw [renderMembers, Object.displayMembers]
  | ⟨_, value⟩ :: members, h => by
    have h := Bool.and_eq_true_iff.1 h
    rw [renderMembers, renderWith_eq read opened value h.1,
      renderMembers_eq read opened members h.2, Object.displayMembers]
    rfl

end

end Value

/-- In every memory the text of a value without references is its own. -/
theorem Memory.render?_eq (m : Memory) {v : Value} (h : v.referenceFree = true) :
    m.render? v = some v.display := by
  rw [Memory.render?, Value.render?_eq_renderWith, Value.renderWith_eq _ _ v h]

/-! ## Native functions -/

/-- Called where all values are flat, with arguments that hold no reference, the functions of the
host make flat values. -/
def Host.MakesNoReference (host : Host) : Prop :=
  ∀ (entry : String) (args : Arguments), args.read.All (·.isFlat = true) →
    (∀ v ∈ args.toList, v.referenceFree = true) → (host entry args).isFlat = true

theorem Host.conveys_closed {host : Host} (hmethod : host.MakesNoMethod)
    (hreference : host.MakesNoReference) : host.Conveys Value.Closed := by
  intro entry args hread hargs
  refine Value.loose_closed (hreference entry args (fun target v hv => ?_) fun v hv => ?_) ?_
  · exact (hread target v hv).isFlat
  · exact (hargs v hv).1
  · exact hmethod _ entry args fun target v hv => (hread target v hv).eachMethod

namespace Native

/-- No function of the catalogue puts a reference into a list. -/
theorem catalogue_makesNoReference : Host.MakesNoReference catalogue := by
  intro entry args hread hargs
  have hfree {v : Value} (h : v.referenceFree = true) : v.isFlat = true := by
    rw [Value.isFlat, h, Bool.or_true]
  refine catalogue_of_parts (fun v hv => hfree (Value.referenceFree_of_isSimple hv))
    (fun _ => rfl) (fun texts h => hfree ?_) hread (hfree (Value.referenceFree_list.2 hargs)) entry
  exact Value.referenceFree_list.2 fun v hv => Value.referenceFree_of_isSimple (h v hv)

end Native

/-! ## Runs -/

namespace Exec

variable {scope : ScopeId} {p q : Program} {a : Action}

theorem loose_literals (hfree : a.methodFree = true) (hflat : a.EachLiteral (·.isFlat = true)) :
    ∀ v ∈ a.literals, v.Loose Value.Closed := fun v hv =>
  Value.loose_closed (hflat.literals v hv) (Action.eachMethod_literals hfree v hv)

/-- What a site is bound to holds no reference. -/
theorem closed_of_site (hp : p.Sound) (hheld : p.Holds Value.Closed) {site : Site}
    {target : CellRef} {v : Value} (hsite : p.scopes.target? site = some target)
    (hv : p.memory.read target = some v) : v.Closed := by
  obtain ⟨w, hw, hplain⟩ := hp.exists_read hsite
  rw [hv] at hw
  cases hw
  exact (hheld.memory target v hv).resolve hplain

/-- An object is made of what the cells of a template hold. -/
theorem constructs_closed (hp : p.Sound) (hheld : p.Holds Value.Closed) :
    p.Constructs Value.Closed := by
  have hobject (o : Object) (h : ∀ member ∈ o.members, member.value.Closed) :
      (Value.object o).Closed :=
    ⟨Value.referenceFree_object.2 fun member hmem => (h member hmem).1,
      Value.eachMethod_object.2 fun member hmem => (h member hmem).2⟩
  refine constructs_of_fill hobject fun id s layout hget hlayout slot hslot v hv => ?_
  have hs := (ScopeTree.get?_eq_some_iff.1 (ScopeTree.get_eq_ok_iff.1 hget)).2
  obtain ⟨j, hj⟩ := Array.mem_iff_getElem?.1 hslot
  have hslots : s.slots true = layout.template.slots := by
    unfold Scope.slots Scope.template?
    rw [hlayout]
    rfl
  have hsite : p.scopes.target? ⟨id.index, true, j⟩ = some slot.target :=
    ScopeTree.target?_eq_some_iff.2 ⟨s, slot, hs, hslots ▸ hj, rfl⟩
  exact closed_of_site hp hheld hsite hv

/-- An action that is performed in a flat program has a finite text to print. -/
theorem StopCause.fault_of_flat {s : Stop Fault} (hs : StopCause scope p a s) (hp : p.Sound)
    (hready : Ready scope p a) (hheld : p.Holds Value.Closed) : ∃ cause, s = .fault cause := by
  rcases hs.cases_of_ready hready with hfault | ⟨-, name, target, v, -, htarget, hv, he⟩
  · exact hfault
  · obtain ⟨site, -, hsite⟩ := exists_site_of_resolve hp hready.live htarget
    rw [Memory.render?_eq _ (closed_of_site hp hheld hsite hv).1] at he
    cases he

/-- The computation keeps the program flat, and fails to end only if calls nest more than `n`
deep. -/
def Flat {ε α : Type} (n : Nat) (p : Program) (x : Exec ε α) : Prop :=
  Ends x p (fun _ q => q.Holds Value.Closed)
    (Halts (fun _ q => q.Holds Value.Closed) (Overruns n p))

theorem Flat.after {ε α : Type} {n current : Nat} {x : Exec ε α} (hk : Keeps current p q)
    (h : Flat n q x) :
    Ends x q (fun _ r => r.Holds Value.Closed)
      (Halts (fun _ r => r.Holds Value.Closed) (Overruns n p)) := by
  refine Ends.imp h (fun _ _ hr => hr) fun s r hs => ?_
  exact hs.imp (fun _ hr => hr) fun hover =>
    hover.of_eq (by rw [hk.grows.depth]) hk.grows.mode

/-- An action that opens a scope for a body is flat if the body is. -/
theorem Flat.opening {n : Nat} {x : Exec Fault ScopeId} {place : ScopeId → Place}
    {body : ScopeId → Exec Failure Flow} {u : Program}
    (hx : Ends x p (Opens scope p) (Halts (fun _ q => q = u) fun _ => False))
    (hu : u.Holds Value.Closed) (hbody : ∀ id q, Opens scope p id q → Flat n q (body id)) :
    Flat n p (x >>= fun id => inside (place id) (body id)) := by
  rw [Flat, ends_bind]
  refine hx.imp (fun id q hq => ?_) fun s q hs => ?_
  · simp only [ends_inside, halts_map]
    exact (hbody id q hq).after (hq.keeps 0)
  · refine hs.imp (fun _ hq => ?_) False.elim
    subst hq
    exact hu

/-- A namespace or a class is flat if its body is. -/
theorem attempt_flat_of_body {n : Nat} {as : List Action} (hbody : a.body? = some as)
    (hp : p.Sound) (ho : p.scopes.owns scope = true) (hheld : p.Holds Value.Closed)
    (hblock : ∀ id q, Opens scope p id q → Flat n q (performAll (enter n) id 0 as)) :
    Flat n p (attempt (enter n) scope a) := by
  refine attempt_ends hp.tree ho (fun _ => ?_) fun cause => hheld
  cases a with
  | defineNamespace name body =>
    cases hbody
    exact Flat.opening (openNamespace_ends hp ho name) hheld hblock
  | defineClass name body =>
    cases hbody
    exact Flat.opening (openClass_ends hp ho name) ⟨hheld.memory, hheld.returned⟩ hblock
  | _ => cases hbody

/-- A call of a method is flat if its body is. -/
theorem callMethod_flat {n : Nat} {run : Body} {m : Method} {arity : Nat} (hp : p.Sound)
    (hm : p.scopes.Admits m) (harity : arity ≤ p.memory.stack.size)
    (hheld : p.Holds Value.Closed)
    (hbody : ∀ frame q, Entered m arity p frame q → q.Holds Value.Closed →
      Ends (run frame.scope m.body) q
        (fun _ r => Keeps frame.scope.index q r ∧ r.Holds Value.Closed)
        (Halts (fun _ r => Keeps frame.scope.index q r ∧ r.Holds Value.Closed) (Overruns n p))) :
    Flat n p (callMethod run m arity) := by
  have hclosed := Value.hereditary_closed
  simp only [Flat, callMethod, ends_bind]
  refine ((openCall_ends hp hm harity).and (openCall_holds hclosed hheld)).imp ?_ ?_
  · rintro frame q ⟨hq, hheld, hreturned⟩
    rw [ends_settle_halts]
    -- the end of the call stops at most with the failure of the body
    have hclose : ∀ (outcome : Except Failure Flow) (r : Program),
        Keeps frame.scope.index q r ∧ r.Holds Value.Closed →
          Ends (closeCall frame m.name outcome) r (fun _ t => t.Holds Value.Closed)
            (Halts (fun _ t => t.Holds Value.Closed) (Overruns n p)) := by
      intro outcome r hr
      have hends : Ends (closeCall frame m.name outcome) r (fun _ _ => True)
          (Halts (fun _ _ => True) fun _ => False) := by
        rw [ends_closeCall hq hp hr.1]
        cases outcome <;> trivial
      refine ((closeCall_holds hclosed hr.2 hreturned).and hends).imp (fun _ _ h => h.1) ?_
      rintro s t ⟨ht, hs⟩
      exact hs.imp (fun _ _ => ht) False.elim
    refine (hbody frame q hq hheld).imp (fun flow r hr => hclose _ r hr) fun s r hs => ?_
    exact hs.imp (fun _ hr => hclose _ r hr) fun hover => hover
  · rintro s q ⟨hs, hheld⟩
    exact hs.imp (fun _ _ => hheld) False.elim

/-- The method behind a name of a flat program has only flat literals. -/
theorem Callee.flat_body {name : Name} {m : Method} (h : Callee scope p name (.method m))
    (hheld : p.Holds Value.Closed) : Action.AllLiterals (·.isFlat = true) m.body :=
  Value.Loose.eachMethod (h.of_all hheld.memory)

/-- What an action with flat literals does to a flat program. -/
theorem Performs.holds_closed {flow : Flow} (h : Performs scope p a flow q) (hp : p.Sound)
    (hfree : a.methodFree = true) (hflat : a.EachLiteral (·.isFlat = true))
    (hhost : p.host.MakesNoReference) (hheld : p.Holds Value.Closed) : q.Holds Value.Closed := by
  refine h.holds Value.hereditary_closed hheld (Host.conveys_closed hp.host hhost)
    (constructs_closed hp hheld) (loose_literals hfree hflat) ?_
  rintro name params body slots rfl
  exact ⟨rfl, hflat.2⟩

theorem Refuses.holds_closed (h : Refuses p a q) (hfree : a.methodFree = true)
    (hflat : a.EachLiteral (·.isFlat = true)) (hheld : p.Holds Value.Closed) :
    q.Holds Value.Closed :=
  h.holds Value.hereditary_closed hheld (loose_literals hfree hflat)

/-- A call is flat if all blocks are that nest one call less. -/
theorem call_flat {n : Nat} {name : Name} {arity : Nat} (hready : Ready scope p (.call name arity))
    (hp : p.Sound) (hhost : p.host.MakesNoReference) (hheld : p.Holds Value.Closed)
    (hblock : ∀ k, n = k + 1 → ∀ id as q, q.Sound → q.scopes.owns id = true →
      Action.allMethodFree as = true → Action.AllLiterals (·.isFlat = true) as →
      q.host.MakesNoReference → q.Holds Value.Closed →
      ∀ index, Flat k q (performAll (enter k) id index as)) :
    Flat n p (call (enter n) scope name arity) := by
  refine call_ends hready (fun q hq => hq.holds_closed hp rfl trivial hhost hheld)
    (fun _ q hq => hq.holds_closed rfl trivial hheld) fun m hm => ?_
  have hadmits := hm.admits hp
  refine callMethod_flat hp hadmits hready.operands hheld fun frame q hq hheld' => ?_
  cases n with
  | zero => exact hq.overruns
  | succ k =>
    have hlive := hq.live hp
    have hsafe := run_safe.2 k frame.scope m.body q hq.keeps.sound hlive hadmits.body 0
    have hflat := hblock k rfl frame.scope m.body q hq.keeps.sound hlive hadmits.body
      (hm.flat_body hheld) (hq.keeps.grows.host ▸ hhost) hheld' 0
    refine (Ends.and hsafe hflat).imp (fun _ _ hr => hr) fun s r hs => ?_
    cases s with
    | fault cause => exact hs
    | breach v => exact hs.1
    | unending => exact Overruns.of_entered hs.2 hq

/-- Every action and every block with flat literals is flat. -/
theorem run_flat :
    (∀ n scope a p, p.Sound → p.scopes.owns scope = true → a.methodFree = true →
      a.EachLiteral (·.isFlat = true) → p.host.MakesNoReference → p.Holds Value.Closed →
      Flat n p (attempt (enter n) scope a)) ∧
    ∀ n scope as p, p.Sound → p.scopes.owns scope = true → Action.allMethodFree as = true →
      Action.AllLiterals (·.isFlat = true) as → p.host.MakesNoReference →
      p.Holds Value.Closed → ∀ index, Flat n p (performAll (enter n) scope index as) := by
  refine run_induction ?nil ?cons ?body ?plain
  case nil =>
    intro n scope p _ _ _ _ _ hheld index
    rw [performAll]
    exact hheld
  case cons =>
    intro n scope a as p ha has hp ho hfree hflat hhost hheld index
    have hfree : a.methodFree = true ∧ Action.allMethodFree as = true :=
      Bool.and_eq_true_iff.1 hfree
    rw [performAll_cons]
    simp only [Flat, ends_bind, ends_report, halts_map]
    refine (Ends.and (run_safe.1 n scope a p hp ho hfree.1)
      (ha hp ho hfree.1 hflat.1 hhost hheld)).imp ?_ fun _ _ hs => hs.2
    rintro flow q ⟨hk, hq⟩
    cases flow with
    | ret => exact hq
    | next =>
      exact (has q hk.sound (hk.grows.tree.owns ho) hfree.2 hflat.2 (hk.grows.host ▸ hhost) hq
        (index + 1)).after hk
  case body =>
    intro n scope a as p hbody hL hp ho hfree hflat hhost hheld
    refine attempt_flat_of_body hbody hp ho hheld fun id q hq => ?_
    have hk := hq.keeps 0
    obtain ⟨_, _, _, -, rfl⟩ := hq.opened
    exact hL id _ hk.sound hq.live (Action.allMethodFree_body hbody hfree) (hflat.body hbody) hhost
      ⟨hheld.memory, hheld.returned⟩ 0
  case plain =>
    intro n scope a p hbody hL hp ho hfree hflat hhost hheld
    refine attempt_ends hp.tree ho (fun hready => ?_) fun cause => hheld
    by_cases hcall : ∃ name arity, a = .call name arity
    · obtain ⟨name, arity, rfl⟩ := hcall
      rw [perform]
      exact call_flat hready hp hhost hheld hL
    · refine Ends.imp (perform_effects hbody fun name arity he => hcall ⟨name, arity, he⟩)
        (fun flow q hq => hq.holds_closed hp hfree hflat hhost hheld) ?_
      rintro s q ⟨hq, hs⟩
      obtain ⟨cause, rfl⟩ := hs.fault_of_flat hp hready hheld
      exact hq.holds_closed hfree hflat hheld

end Exec

end ActionMachine
