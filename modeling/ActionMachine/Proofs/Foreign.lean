import ActionMachine.Proofs.History
import ActionMachine.Proofs.Tolerance

/-
  Handles of other programs. A literal may hold references to cells of another arena, and methods
  that were defined in another program. Such references lead nowhere, and a run against a scope of
  another tree is refused. A method, however, is called without a look at where its scope lies, and
  the first name that is not found in the scope of the call breaks the contract of the tree.
  Nothing else goes wrong.
-/

namespace ActionMachine

variable {M : Method → Prop}

namespace Exec

variable {scope : ScopeId} {p q r : Program} {a : Action} {current : Nat}

/-! ## Requests -/

theorem Bound.bears {id : ScopeId} {name : Name} {v : Value} {constant : Bool}
    (h : Bound p id name v constant q) (hp : p.Tolerates M)
    (hv : v.EachMethod (q.scopes.Takes M))
    (hcurrent : ∀ s, p.scopes.get? id = some s → s.kind.isCall = true → id.index = current) :
    Bears M current p q :=
  bears_of_grows hp (h.grows hcurrent) (h.tree hp.tree) fun hheld => h.holds hheld (Or.inr hv)

theorem runIn_tolerated {actions : List Action} (hp : p.Tolerates M)
    (hactions : Action.AllLiterals (·.EachMethod M) actions) (n : Nat) (scope : ScopeId) :
    Tolerated M n scope.index p (runIn n scope actions) := by
  simp only [Tolerated, runIn, ends_bind, ends_get]
  cases hcheck : p.scopes.check scope with
  | error cause =>
    rw [ends_throw]
    exact .refl _ hp
  | ok id =>
    have hlive : p.scopes.owns scope = true := by
      unfold ScopeTree.check at hcheck
      split at hcheck
      · assumption
      · cases hcheck
    have hempty : ∀ q, Bears M scope.index p q →
        Bears M scope.index p { q with returned := .undefined } := by
      intro q hq
      refine hq.trans (bears_of_grows hq.tolerates ?_ hq.tolerates.tree fun hheld => ?_)
      · exact .of_scopes rfl rfl (Nat.le_refl _) (Nat.le_refl _) rfl rfl rfl
      · exact ⟨hheld.memory, Or.inr trivial⟩
    simp only [ends_bind, ends_settle_falters, ends_get, ends_modify]
    refine Ends.imp (run_tolerated.2 n scope actions p hp hlive hactions 0)
      (fun flow q hq => hempty q hq) fun s q hs => ?_
    exact hs.imp (fun _ hq => hempty q hq) fun he => he

/-- What no request changes. -/
structure Akin (p q : Program) : Prop where
  arena : q.memory.id = p.memory.id
  tree : q.scopes.id = p.scopes.id
  mode : q.mode = p.mode
  depth : q.callDepth = p.callDepth

theorem Bears.akin (h : Bears M current p q) : Akin p q :=
  ⟨h.grows.id, h.grows.tree.id, h.grows.mode, h.grows.depth⟩

theorem Request.tolerates {request : Request} (h : request.served? p = some q)
    (hp : p.Tolerates M) (hrequest : request.EachLiteral (·.EachMethod M)) :
    q.Tolerates M ∧ Akin p q := by
  cases request with
  | register native =>
    have hends : Ends (registerNative native) p (fun _ q => Bears M ScopeId.global.index p q)
        (Halts (fun _ q => Bears M ScopeId.global.index p q) fun _ => False) := by
      refine (registerNative_bound hp.tree native).imp
        (fun _ q hq => hq.bears hp trivial fun _ _ _ => rfl) fun s q hs => ?_
      refine hs.imp (fun _ hq => ?_) fun h => h
      subst hq
      exact .refl _ hp
    have hq := Ends.of_completes hends (after?_eq_some_iff.1 h)
    exact ⟨hq.tolerates, hq.akin⟩
  | run n scope actions =>
    have hends := runIn_tolerated hp hrequest n scope
    have hq : Bears M scope.index p q := by
      rcases after?_eq_some_iff.1 h with ⟨v, hrun⟩ | ⟨failure, hrun⟩
      · exact Ends.of_ok hends hrun
      · exact Ends.of_error hends hrun
    exact ⟨hq.tolerates, hq.akin⟩

theorem servedAll_tolerates {requests : List Request} (h : servedAll? requests p = some q)
    (hp : p.Tolerates M)
    (hrequests : ∀ request ∈ requests, request.EachLiteral (·.EachMethod M)) :
    q.Tolerates M ∧ Akin p q := by
  refine servedAll?_induction (I := fun q => q.Tolerates M ∧ Akin p q) ?_
    ⟨hp, rfl, rfl, rfl, rfl⟩ h
  rintro request hmem r t ⟨hr, hakin⟩ hserved
  obtain ⟨ht, hakin'⟩ := Request.tolerates hserved hr (hrequests request hmem)
  exact ⟨ht, hakin'.arena.trans hakin.arena, hakin'.tree.trans hakin.tree,
    hakin'.mode.trans hakin.mode, hakin'.depth.trans hakin.depth⟩

/-- Whatever a run comes to, cells and scopes are those of one arena and one tree. -/
theorem Meets.same_stores {n k : Nat} {s : ScopeId} {as : List Action}
    (h : Meets n scope as p k s a q) (hp : p.Tolerates M) (ho : p.scopes.owns scope = true)
    (hliterals : Action.AllLiterals (·.EachMethod M) as) :
    q.memory.id = p.memory.id ∧ q.scopes.id = p.scopes.id := by
  induction h with
  | here => exact ⟨rfl, rfl⟩
  | @later n k scope s a b as p q r h _ ih =>
    have hq : Bears M scope.index p q :=
      Ends.of_ok (run_tolerated.1 n scope a p hp ho hliterals.1) h
    obtain ⟨harena, htree⟩ := ih hq.tolerates (hq.grows.tree.owns ho) hliterals.2
    exact ⟨harena.trans hq.grows.id, htree.trans hq.grows.tree.id⟩
  | @inNamespace n k scope id s name body as b p q r h _ ih =>
    obtain ⟨v, j, hopened, rfl⟩ := (openNamespace_opened hp.tree ho name).of_ok h
    obtain ⟨inner, hget, -⟩ := hopened.exists_get? hp.tree
    have hq := bears_opened hp hopened j 0
    obtain ⟨harena, htree⟩ := ih hq.tolerates (ScopeTree.get?_eq_some_iff.1 hget).1 hliterals.1
    exact ⟨harena, htree.trans hq.grows.tree.id⟩
  | @inClass n k scope id s name body as b p q r h _ ih =>
    obtain ⟨v, j, hopened, rfl⟩ := (openClass_opened hp.tree ho name).of_ok h
    obtain ⟨inner, hget, -⟩ := hopened.exists_get? hp.tree
    have hq := bears_opened hp hopened j 0
    obtain ⟨harena, htree⟩ := ih hq.tolerates (ScopeTree.get?_eq_some_iff.1 hget).1 hliterals.1
    exact ⟨harena, htree.trans hq.grows.tree.id⟩
  | @inCall n k arity scope s name as m frame b p q r harity hcallee hopen _ ih =>
    have hm := ((callee_cases scope p name).of_ok hcallee).2.takes hp
    obtain ⟨hq, htq, -⟩ := (openCall_enters hp hm harity 0).of_ok hopen
    obtain ⟨harena, htree⟩ := ih htq (hq.live hp.tree) hm.body
    exact ⟨harena.trans hq.grows.id, htree.trans hq.grows.tree.id⟩

/-- A run ends with a result or a failure, has no end, or looks at a scope abroad. -/
theorem runIn_cases {actions : List Action} (hp : p.Tolerates M) (hdepth : p.callDepth = 0)
    (hactions : Action.AllLiterals (·.EachMethod M) actions) (n : Nat) (scope : ScopeId) :
    (∃ v q, runIn n scope actions p = .ok v q) ∨
      (∃ failure q, runIn n scope actions p = .error (.fault failure) q) ∨
      (∃ q, runIn n scope actions p = .error .unending q ∧
        ((n < q.callDepth ∧ ∀ limit, p.mode.maxCallDepth = some limit → n < limit) ∨
          Endless q)) ∨
      ∃ m q, M m ∧ m.scope.tree ≠ .shared ∧
        runIn n scope actions p = .error (.breach (.deadScope m.scope.index)) q := by
  have hends := runIn_tolerated hp hactions n scope
  cases hrun : runIn n scope actions p with
  | ok v q => exact Or.inl ⟨v, q, rfl⟩
  | error stop q =>
    have hstop := Ends.of_error hends hrun
    cases stop with
    | fault failure => exact Or.inr (Or.inl ⟨failure, q, rfl⟩)
    | breach violation =>
      obtain ⟨_, ⟨hshared, m, hm, rfl⟩, rfl⟩ := hstop
      exact Or.inr (Or.inr (Or.inr ⟨m, q, hm, hshared, rfl⟩))
    | unending =>
      refine Or.inr (Or.inr (Or.inl ⟨q, rfl, hstop.imp_left fun hover => ?_⟩))
      have hdeep := hover.deep
      refine ⟨by omega, fun limit hlimit => ?_⟩
      have hwithin := hover.within limit hlimit
      omega

end Exec

open Exec

/-- A program is given methods from outside and any references in the literals of its requests.
Every run ends with a result or a failure, or has no end, unless it looks at the scope of a method
that was defined in another tree. A run against a scope of another tree is refused and changes
nothing. No action that a run meets finds a cell of another arena or a scope of another tree. -/
theorem foreign_handles_confined {arena tree : StoreId} {host : Host} {mode : Mode} {sink : Sink}
    (htree : tree ≠ .shared) (hhost : host.MakesNoMethod) (hM : Imports tree M)
    {requests : List Request}
    (hrequests : ∀ request ∈ requests, request.EachLiteral (·.EachMethod M)) {q : Program}
    (hq : servedAll? requests (.new arena tree host mode sink) = some q) {actions : List Action}
    (hactions : Action.AllLiterals (·.EachMethod M) actions) (n : Nat) (scope : ScopeId) :
    ((∃ v r, runIn n scope actions q = .ok v r) ∨
      (∃ failure r, runIn n scope actions q = .error (.fault failure) r) ∨
      (∃ r, runIn n scope actions q = .error .unending r ∧
        ((n < r.callDepth ∧ ∀ limit, mode.maxCallDepth = some limit → n < limit) ∨
          Endless r)) ∨
      ∃ m r, M m ∧ m.scope.tree ≠ .shared ∧
        runIn n scope actions q = .error (.breach (.deadScope m.scope.index)) r) ∧
    (scope.tree ≠ .shared → scope.tree ≠ tree →
      ∃ failure, failure.fault.code = .scopeNotDeclared ∧
        runIn n scope actions q = .error (.fault failure) q) ∧
    ∀ k s a r, q.scopes.owns scope = true → Meets n scope actions q k s a r →
      (∀ cell : CellId, cell.arena ≠ arena → r.memory.read (.static cell) = none) ∧
      ∀ id : ScopeId, id.tree ≠ .shared → id.tree ≠ tree → r.scopes.get? id = none := by
  obtain ⟨htolerates, hakin⟩ :=
    servedAll_tolerates hq (Program.tolerates_new htree hhost hM) hrequests
  have hmode : q.mode = mode := hakin.mode
  refine ⟨hmode ▸ runIn_cases htolerates hakin.depth hactions n scope,
    fun hshared hother => ⟨_, rfl, runIn_refused ?_⟩, fun k s a r ho hmeets => ?_⟩
  · exact ScopeTree.not_owns_of_foreign hshared fun hsame => hother (hsame.trans hakin.tree)
  · obtain ⟨harena, hscopes⟩ := hmeets.same_stores htolerates ho hactions
    refine ⟨fun cell hcell => ?_, fun id hshared hother => ?_⟩
    · exact if_neg fun hsame => hcell (hsame.trans (harena.trans hakin.arena))
    · refine if_neg (ScopeTree.not_owns_of_foreign hshared fun hsame => ?_)
      exact hother (hsame.trans (hscopes.trans hakin.tree))

/-! ## Two programs -/

mutual

theorem Action.eachLiteral_of_methodFree :
    (a : Action) → a.methodFree = true → a.EachLiteral (·.EachMethod M)
  | .declareConstant _ v, h | .pushLiteral v, h | .assignLocal _ (.literal v), h
  | .addStaticMember _ _ v, h | .addInstanceMember _ _ v, h => Value.eachMethod_of_methodFree v h
  | .defineNamespace _ body, h | .defineClass _ body, h => allLiterals_of_methodFree body h
  | .defineMethod _ _ body, h =>
    ⟨Action.eachMethod_literals h, allLiterals_of_methodFree body (Bool.and_eq_true_iff.1 h).2⟩
  | .declareLocal _, _ | .resolveLocal _, _ | .resolveQualified _ _, _ | .assignLocal _ .pop, _
  | .pop, _ | .duplicate _, _ | .swap _, _ | .buildList _, _ | .unary _, _ | .binary _, _
  | .binaryInPlace _, _ | .constructInstance _, _ | .loadMember _ _, _ | .assignMember _ _, _
  | .call _ _, _ | .ret, _ | .debugPrint _, _ => trivial

theorem Action.allLiterals_of_methodFree :
    (as : List Action) → Action.allMethodFree as = true →
      Action.AllLiterals (·.EachMethod M) as
  | [], _ => trivial
  | a :: as, h =>
    have h := Bool.and_eq_true_iff.1 h
    ⟨Action.eachLiteral_of_methodFree a h.1, Action.allLiterals_of_methodFree as h.2⟩

end

/-- The method can be called in some program with another tree. -/
def FromElsewhere (tree : StoreId) (m : Method) : Prop :=
  ∃ p, Reachable p ∧ p.scopes.id ≠ tree ∧ p.scopes.Admits m

theorem imports_fromElsewhere (tree : StoreId) : Imports tree (FromElsewhere tree) := by
  refine ⟨?_, ?_⟩
  · rintro m ⟨p, -, hother, hm⟩
    rcases ScopeTree.owns_eq_true_iff.1 hm.live with hshared | ⟨hshared, htree, -⟩
    · exact Or.inl hshared
    · exact Or.inr ⟨hshared, fun hsame => hother (htree.symm.trans hsame)⟩
  · rintro m ⟨p, -, -, hm⟩
    exact Action.allLiterals_of_methodFree m.body hm.body

/-- Whatever a program can be asked for may be given to a program with another tree. -/
theorem Exec.Reachable.eachMethod_lookup {p : Program} (hp : Reachable p) {tree : StoreId}
    (hother : p.scopes.id ≠ tree) {name : Name} {v : Value} (h : p.lookup name = .ok v) :
    v.EachMethod (FromElsewhere tree) := by
  obtain ⟨target, -, h⟩ := bind_eq_ok_iff.1 h
  have hv : p.memory.fetch target = .ok v := by
    cases hf : p.memory.fetch target with
    | error cause =>
      rw [hf] at h
      cases h
    | ok w =>
      rw [hf] at h
      cases h
      rfl
  refine Value.EachMethod.mono (fun m hm => ⟨p, hp, hother, hm⟩) v ?_
  exact hp.atRest.sound.methods target v (Memory.fetch_eq_ok_iff.1 hv)

/-- A program beside `Program.silent`. -/
def lender : Program := .new ⟨3⟩ ⟨4⟩ Native.catalogue .silent Mode.silent.sink

/-- A namespace with a method that uses a name from outside of it, and a variable that holds this
method. -/
def lending : List Action :=
  [.defineNamespace "n" [.defineMethod "f" [] [.resolveLocal "x"]], .declareLocal "g",
    .resolveQualified "n" "f", .assignLocal "g" .pop]

/-- What the other program does with the method. -/
def borrowing (m : Method) : List Action := [.declareConstant "h" (.method m), .call "h" 0]

/-- The method that was lent. -/
def lent? : Option Method :=
  match (after (runIn 1 .global lending) lender).lookup "g" with
  | .ok (.method m) => some m
  | _ => none

/-- The contract that the call of a borrowed method breaks. -/
def breach? (m : Method) : Option Violation :=
  match runIn 1 .global (borrowing m) .silent with
  | .error (.breach violation) _ => some violation
  | _ => none

theorem lent?_eq_some {m : Method} (h : lent? = some m) :
    (after (runIn 1 .global lending) lender).lookup "g" = .ok (.method m) := by
  unfold lent? at h
  split at h
  · cases h
    assumption
  · cases h

theorem breach?_eq_some {m : Method} {violation : Violation} (h : breach? m = some violation) :
    ∃ r, runIn 1 .global (borrowing m) .silent = .error (.breach violation) r := by
  unfold breach? at h
  split at h
  · cases h
    exact ⟨_, ‹_›⟩
  · cases h

/-- A method of one program is called in another: its scope is looked at there, although the tree
does not have it. -/
theorem foreignMethod_breaches :
    lender.memory.id ≠ Program.silent.memory.id ∧ lender.scopes.id ≠ Program.silent.scopes.id ∧
      ∃ m, (after (runIn 1 .global lending) lender).lookup "g" = .ok (.method m) ∧
        ∃ r, runIn 1 .global (borrowing m) .silent =
          .error (.breach (.deadScope m.scope.index)) r := by
  have hbreach : (lent?.any fun m => breach? m = some (.deadScope m.scope.index)) = true := by
    decide +kernel
  cases hm : lent? with
  | none =>
    rw [hm] at hbreach
    cases hbreach
  | some m =>
    rw [hm] at hbreach
    exact ⟨by decide, by decide, m, lent?_eq_some hm, breach?_eq_some (of_decide_eq_true hbreach)⟩

theorem reachable_lender : Reachable (after (runIn 1 .global lending) lender) := by
  have hnew : Reachable lender := .new (by decide) Native.catalogue_makesNoMethod
  have hfree : Action.allMethodFree lending = true := rfl
  exact hnew.step (.run hfree (completes_after (by decide +kernel)))

/-- The borrowed method may go wrong in no other way. -/
theorem lentMethod_confined :
    ∃ m, lent? = some m ∧
      ((∃ v r, runIn 1 .global (borrowing m) .silent = .ok v r) ∨
        (∃ failure r, runIn 1 .global (borrowing m) .silent = .error (.fault failure) r) ∨
        (∃ r, runIn 1 .global (borrowing m) .silent = .error .unending r ∧
          ((1 < r.callDepth ∧ ∀ limit, Mode.silent.maxCallDepth = some limit → 1 < limit) ∨
            Endless r)) ∨
        ∃ m' r, FromElsewhere ⟨2⟩ m' ∧ m'.scope.tree ≠ .shared ∧
          runIn 1 .global (borrowing m) .silent =
            .error (.breach (.deadScope m'.scope.index)) r) := by
  obtain ⟨m, hm⟩ : ∃ m, lent? = some m := Option.isSome_iff_exists.1 (by decide +kernel)
  have hborrowed : Action.AllLiterals (·.EachMethod (FromElsewhere ⟨2⟩)) (borrowing m) :=
    ⟨reachable_lender.eachMethod_lookup (by decide +kernel) (lent?_eq_some hm), trivial, trivial⟩
  exact ⟨m, hm, (@foreign_handles_confined (FromElsewhere ⟨2⟩) ⟨1⟩ ⟨2⟩ Native.catalogue .silent
    Mode.silent.sink (by decide) Native.catalogue_makesNoMethod (imports_fromElsewhere ⟨2⟩) []
    (fun _ hnone => (by cases hnone)) .silent rfl _ hborrowed 1 .global).1⟩

end ActionMachine
