import ActionMachine.Proofs.Restoration
import ActionMachine.Proofs.History
import ActionMachine.Proofs.Resolution

/-
  The undefined scope, which nothing is meant to resolve to. A look-up that starts there finds
  nothing, but a run may be against this scope as against any other: then it declares names, and
  scopes declared in it have it at the end of their way. From such a scope a name means what the
  undefined scope declares, unless a scope before it declares the name. Main statement: there is no
  other way to see the undefined scope, and none at all as long as no run is against it.
-/

namespace ActionMachine

namespace ScopeTree

variable {t : ScopeTree} {id start : ScopeId} {way : List ScopeId} {name : Name}
  {target : CellRef} {α : Type}

/-! ## Ways to the undefined scope -/

/-- The cell is that of a local of the undefined scope. -/
def UndefinedBinds (t : ScopeTree) (target : CellRef) : Prop :=
  ∃ s name, t.get? .undefined = some s ∧ s.Binds name target

/-- The scope lies directly in the undefined scope. -/
def UndefinedNests (t : ScopeTree) (id : ScopeId) : Prop :=
  ∃ s name, t.get? .undefined = some s ∧ s.Nests name id

/-- The way from `start` ends at the undefined scope, and this is the one scope on it that declares
what `P` asks for. -/
def Sees (t : ScopeTree) (P : Scope → Prop) (start : ScopeId) : Prop :=
  start ≠ .undefined ∧ ∃ way, t.Way start way ∧ way.getLast? = some .undefined ∧
    ∀ id ∈ way, ∀ s, t.get? id = some s → (P s ↔ id.index = 0)

theorem get?_eq_of_index_eq {other : ScopeId} {r s : Scope} (hr : t.get? id = some r)
    (hs : t.get? other = some s) (hindex : id.index = other.index) : r = s := by
  have hslot := (get?_eq_some_iff.1 hr).2
  rw [hindex, (get?_eq_some_iff.1 hs).2] at hslot
  exact (Option.some.inj hslot).symm

theorem Sound.exists_undefined (h : t.Sound) :
    ∃ s, t.get? .undefined = some s ∧ s.kind = .undefined ∧ s.parent = .undefined := by
  obtain ⟨s, hs, hkind, hparent⟩ := h.undefined
  exact ⟨s, get?_eq_some_iff.2 ⟨rfl, hs⟩, hkind, hparent⟩

theorem Way.suffix {nearer farther : List ScopeId} (h : t.Way start (nearer ++ id :: farther)) :
    t.Way id (id :: farther) := by
  induction nearer generalizing start with
  | nil =>
    cases h with
    | last hs hself => exact .last hs hself
    | outwards hs hnext hrest => exact .outwards hs hnext hrest
  | cons other nearer ih =>
    rw [List.cons_append] at h
    generalize hw : nearer ++ id :: farther = rest at h
    cases h with
    | last => exact absurd hw (by simp)
    | outwards _ _ hrest => exact ih (hw ▸ hrest)

/-- From the undefined scope, under either handle, the way leads nowhere else. -/
theorem Sound.way_of_undefined (h : t.Sound) (hindex : id.index = 0) (hway : t.Way id way) :
    way.getLast? = some .undefined ∧ ∀ other ∈ way, other.index = 0 := by
  obtain ⟨s, hs, -, hparent⟩ := h.exists_undefined
  have hroot : t.Way .undefined [.undefined] := .last hs hparent
  cases hway with
  | @last _ r hr hself =>
    obtain rfl := get?_eq_of_index_eq hr hs hindex
    obtain rfl : id = .undefined := hself.symm.trans hparent
    exact ⟨rfl, by simp [ScopeId.undefined]⟩
  | @outwards _ r rest hr _ hrest =>
    obtain rfl := get?_eq_of_index_eq hr hs hindex
    rw [hparent] at hrest
    obtain rfl := hroot.unique hrest
    exact ⟨rfl, by simp [hindex, ScopeId.undefined]⟩

/-- A way that comes to the undefined scope ends there: all scopes from there on are this one. -/
theorem Way.undefined_of_split {nearer farther : List ScopeId}
    (hway : t.Way start (nearer ++ id :: farther)) (h : t.Sound) (hindex : id.index = 0) :
    (nearer ++ id :: farther).getLast? = some .undefined ∧ ∀ other ∈ farther, other.index = 0 := by
  obtain ⟨hlast, hall⟩ := h.way_of_undefined hindex hway.suffix
  refine ⟨?_, fun other hother => hall other (List.mem_cons_of_mem _ hother)⟩
  rw [List.getLast?_append, hlast]
  rfl

/-- A look-up ends in the undefined scope if and only if its way ends there and no other scope on
the way has an answer. Here `K` tells the answers of the undefined scope from all others. -/
theorem Finds.in_undefined_iff {P : Scope → α → Prop} {cause : Fault}
    {e : Except (Stop Fault) α} (hf : t.Finds way P cause e) (hway : t.Way start way)
    (h : t.Sound) {K : α → Prop}
    (hK : ∀ id s a, t.get? id = some s → P s a → (K a ↔ id.index = 0)) :
    (∃ a, e = .ok a ∧ K a) ↔ way.getLast? = some .undefined ∧
      ∀ id ∈ way, ∀ s, t.get? id = some s → ((∃ a, P s a) ↔ id.index = 0) := by
  constructor
  · rintro ⟨a, ha, hKa⟩
    obtain ⟨nearer, id, farther, s, rfl, hs, hPa, hnone⟩ := (hf.found a).1 ha
    have hindex := (hK id s a hs hPa).1 hKa
    obtain ⟨hlast, hfarther⟩ := hway.undefined_of_split h hindex
    refine ⟨hlast, fun other hother r hr => ⟨fun ⟨b, hb⟩ => ?_, fun hzero => ⟨a, ?_⟩⟩⟩
    · rcases List.mem_append.1 hother with hnear | hother
      · exact absurd hb (hnone other hnear r hr b)
      · rcases List.mem_cons.1 hother with rfl | hfar
        · exact hindex
        · exact hfarther other hfar
    · exact get?_eq_of_index_eq hr hs (hzero.trans hindex.symm) ▸ hPa
  · rintro ⟨hlast, honly⟩
    obtain ⟨s, hs, -, -⟩ := h.exists_undefined
    have hmem := List.mem_of_getLast? hlast
    obtain ⟨b, hb⟩ := (honly _ hmem s hs).2 rfl
    rcases hf.settled with ⟨a, ha⟩ | hmissing
    · obtain ⟨nearer, id, farther, r, rfl, hr, hPa, -⟩ := (hf.found a).1 ha
      have hindex := (honly id (by simp) r hr).1 ⟨a, hPa⟩
      exact ⟨a, ha, (hK id r a hr hPa).2 hindex⟩
    · exact absurd hb (hf.missing.1 hmissing _ hmem s hs b)

theorem Way.sees_iff (hway : t.Way start way) (hstart : start ≠ .undefined) {P : Scope → Prop} :
    t.Sees P start ↔ way.getLast? = some .undefined ∧
      ∀ id ∈ way, ∀ s, t.get? id = some s → (P s ↔ id.index = 0) := by
  constructor
  · rintro ⟨-, way', hway', hsees⟩
    rw [hway.unique hway']
    exact hsees
  · exact fun hsees => ⟨hstart, way, hway, hsees⟩

theorem resolve_undefined (t : ScopeTree) (name : Name) :
    t.resolve .undefined name = .error (.fault (.notDeclared name)) := rfl

theorem resolveScope_undefined (t : ScopeTree) (name : Name) :
    t.resolveScope .undefined name = .error (.fault (.scopeNotDeclared name)) := rfl

/-- In exact storage a cell belongs to the undefined scope only if it is declared there. -/
theorem Sound.undefinedBinds_iff (h : t.Sound) {m : Memory} (hstorage : Storage t m) {s : Scope}
    (hs : t.get? id = some s) (hbinds : s.Binds name target) :
    t.UndefinedBinds target ↔ id.index = 0 := by
  have hsite : ∀ {handle : ScopeId} {r : Scope} {other : Name}, t.get? handle = some r →
      r.Binds other target → ∃ j, t.target? ⟨handle.index, false, j⟩ = some target := by
    intro handle r other hr hother
    have hsound := h.slots _ _ (get?_eq_some_iff.1 hr).2
    have hfound : r.findLocal? other = .ok (some target) := by
      rw [Scope.findLocal?_eq hsound, (Scope.local?_eq_some_iff hsound).2 hother]
    exact exists_site_of_findLocal? hr hsound hfound
  constructor
  · rintro ⟨r, other, hr, hother⟩
    obtain ⟨i, hi⟩ := hsite hs hbinds
    obtain ⟨j, hj⟩ := hsite hr hother
    exact congrArg Site.scope (hstorage.inj _ _ target hi hj)
  · intro hindex
    obtain ⟨r, hr, -, -⟩ := h.exists_undefined
    exact ⟨r, name, hr, get?_eq_of_index_eq hs hr hindex ▸ hbinds⟩

/-- A scope lies directly in the undefined scope only if it is declared there. -/
theorem Sound.undefinedNests_iff (h : t.Sound) {s : Scope} {inner : ScopeId}
    (hs : t.get? id = some s) (hnests : s.Nests name inner) :
    t.UndefinedNests inner ↔ id.index = 0 := by
  constructor
  · rintro ⟨r, other, hr, hother⟩
    obtain ⟨i, hi, -, -, hparent⟩ := h.nested _ _ (get?_eq_some_iff.1 hs).2 _ _ hnests
    obtain ⟨j, hj, -, -, hzero⟩ := h.nested _ _ (get?_eq_some_iff.1 hr).2 _ _ hother
    rw [hi] at hj
    cases hj
    exact hparent.symm.trans hzero
  · intro hindex
    obtain ⟨r, hr, -, -⟩ := h.exists_undefined
    exact ⟨r, name, hr, get?_eq_of_index_eq hs hr hindex ▸ hnests⟩

/-- The undefined scope is neither a namespace nor a class. -/
theorem Sound.index_ne_zero (h : t.Sound) {s : Scope} (hs : t.get? id = some s)
    (hopen : s.isOpen = true) : id.index ≠ 0 := by
  intro hindex
  obtain ⟨r, hr, hkind, -⟩ := h.exists_undefined
  have hslot := (get?_eq_some_iff.1 hs).2
  rw [← get?_eq_of_index_eq hs hr hindex] at hkind
  rcases (SoundUpTo.slots h _ s hslot).isOpen_iff.1 hopen with hopen | hopen <;>
    rw [hopen] at hkind <;> cases hkind

theorem Sound.index_ne_zero_of_resolveClass (h : t.Sound)
    (hid : t.resolveClass start name = .ok id) : id.index ≠ 0 := by
  obtain ⟨s, hs, hclass⟩ := resolveClass_eq_ok hid
  exact h.index_ne_zero hs (Bool.or_eq_true_iff.2 (Or.inr hclass))

theorem getElem?_set_of_ne {s : Scope} {i : Nat} (h : i ≠ id.index) :
    (t.set id s).scopes[i]? = t.scopes[i]? := by
  unfold set
  rw [Array.getElem?_setIfInBounds, if_neg (Ne.symm h)]

end ScopeTree

/-! ## Runs against other scopes -/

namespace Exec

variable {scope id : ScopeId} {p q r : Program}

/-- The undefined scope is as it was. -/
def Spares (p q : Program) : Prop := q.scopes.scopes[0]? = p.scopes.scopes[0]?

theorem Bound.spares {name : Name} {v : Value} {constant : Bool}
    (h : Bound p id name v constant q) (hid : id.index ≠ 0) : Spares p q := by
  cases h with
  | inFrame => exact ScopeTree.getElem?_set_of_ne (Ne.symm hid)
  | inArena => exact ScopeTree.getElem?_set_of_ne (Ne.symm hid)

theorem Performs.spares {a : Action} {flow : Flow} (h : Performs scope p a flow q)
    (hp : p.Sound) (hscope : scope.index ≠ 0) : Spares p q := by
  cases h with
  | restack | store | ret | debugPrint => rfl
  | bind h hbound =>
    cases h with
    | declareLocal => exact hbound.spares hscope
    | declareConstant => exact hbound.spares hscope
    | addStaticMember hid => exact hbound.spares (hp.tree.index_ne_zero_of_resolveClass hid)
  | addInstanceMember hid =>
    exact ScopeTree.getElem?_set_of_ne (hp.tree.index_ne_zero_of_resolveClass hid).symm
  | defineMethod _ _ hd h =>
    have hscopes := hd.scopes_eq
    exact (h.spares hscope).trans (by rw [hscopes])

theorem Opens.spares (h : Opens scope p id q) (hscope : scope.index ≠ 0) :
    Spares p q ∧ id.index ≠ 0 := by
  have htree := (h.keeps 0).sound.tree
  obtain ⟨name, u, n, hopened, rfl⟩ := h.opened
  cases hopened with
  | existing hdeclares =>
    obtain ⟨inner, hget, hopen, -⟩ := hdeclares
    exact ⟨rfl, htree.index_ne_zero hget hopen⟩
  | @fresh owner s hget hnew hs =>
    have hlt : scope.index < p.scopes.size :=
      (Array.getElem?_eq_some_iff.1 (ScopeTree.get?_eq_some_iff.1 hget).2).1
    have hsize : p.scopes.size ≠ 0 := by omega
    refine ⟨?_, hsize⟩
    change (p.scopes.declared scope owner name s).scopes[0]? = p.scopes.scopes[0]?
    unfold ScopeTree.declared
    rw [ScopeTree.getElem?_set_of_ne hscope.symm, ScopeTree.getElem?_retain,
      ScopeTree.getElem?_push, if_neg hsize.symm]

theorem Entered.spares {m : Method} {arity : Nat} {frame : Frame}
    (h : Entered m arity p frame q) (hopen : openCall m arity p = .ok frame q) (hp : p.Sound)
    (hr : frame.scope.index ≠ 0 → Spares q r) : Spares p (closed p r frame.base) := by
  have hsize : p.scopes.size ≠ 0 := by
    have := hp.tree.two_le_size
    omega
  have hbody : Spares q r := hr (by rw [h.scope]; exact hsize)
  have hcalled : q.scopes.scopes[0]? = p.scopes.scopes[0]? := by
    rw [(openCall_onlyLocals hopen).others 0 hsize.symm]
    change (p.scopes.push _).2.scopes[0]? = p.scopes.scopes[0]?
    rw [ScopeTree.getElem?_push, if_neg hsize.symm]
  have hclosed : (closed p r frame.base).scopes.scopes[0]? = r.scopes.scopes[0]? := by
    unfold closed Program.released
    split
    · rfl
    · change (r.scopes.scopes.shrink p.scopes.size)[0]? = r.scopes.scopes[0]?
      rw [getElem?_shrink, if_pos (Nat.pos_of_ne_zero hsize)]
  exact hclosed.trans (hbody.trans hcalled)

/-- What a run against another scope does, it does to other scopes. -/
theorem carried_spares :
    Carried (fun _ _ => True) (fun scope p q => scope.index ≠ 0 → Spares p q) where
  refl _ _ _ := rfl
  trans h1 h2 hscope := (h2 hscope).trans (h1 hscope)
  performs hp _ _ h hscope := h.spares hp hscope
  refuses _ _ h _ := congrArg (fun t : ScopeTree => t.scopes[0]?) h.scopes_eq
  body _ _ ho h hscope := by
    obtain ⟨hspares, hid⟩ := ho.spares hscope
    exact (h hid).trans hspares
  call hp _ _ _ hopen hq _ h := ⟨fun _ => hq.spares hopen hp h, fun _ => hq.spares hopen hp h⟩

/-- The scope that the request is against. -/
def Request.target? : Request → Option ScopeId
  | .register _ => none
  | .run _ scope _ => some scope

/-- The request is not against the undefined scope, which a tree knows by two handles. -/
def Request.Avoids (tree : StoreId) (request : Request) : Prop :=
  request.target? ≠ some .undefined ∧ request.target? ≠ some ⟨tree, 0⟩

theorem Request.serves {request : Request} (h : request.served? p = some q)
    (hfree : request.methodFree = true) : Serves p q := by
  cases request with
  | register native => exact .registerNative (after?_eq_some_iff.1 h)
  | run n scope actions => exact .run hfree (after?_eq_some_iff.1 h)

theorem index_ne_zero_of_avoids {n : Nat} {actions : List Action}
    (h : (Request.run n scope actions).Avoids p.scopes.id) (ho : p.scopes.owns scope = true) :
    scope.index ≠ 0 := by
  obtain ⟨tree, index⟩ := scope
  rintro rfl
  rcases ScopeTree.owns_eq_true_iff.1 ho with ⟨hshared, -⟩ | ⟨-, htree, -⟩
  · obtain rfl : tree = .shared := hshared
    exact h.1 rfl
  · obtain rfl : tree = p.scopes.id := htree
    exact h.2 rfl

theorem Request.spares {request : Request} (h : request.served? p = some q) (hp : AtRest p)
    (hfree : request.methodFree = true) (havoids : request.Avoids p.scopes.id) : Spares p q := by
  cases request with
  | register native =>
    refine Ends.of_completes (K := Spares p) (E := fun _ => False) ?_ (after?_eq_some_iff.1 h)
    refine (registerNative_bound hp.sound.tree native).imp
      (fun _ _ hq => hq.spares (by decide)) fun s q hs => ?_
    refine hs.imp (fun _ hq => ?_) fun he => he
    subst hq
    rfl
  | run n scope actions =>
    have hrun := after?_eq_some_iff.1 h
    by_cases ho : p.scopes.owns scope = true
    · obtain ⟨r, hblock, rfl⟩ := completes_runIn ho hrun
      have hcarried := (run_carried carried_spares).2 n scope actions p hp.sound ho hfree
        (fun _ _ _ _ _ => trivial) 0
      have hspares : scope.index ≠ 0 → Spares p r := Ends.of_completes hcarried hblock
      exact hspares (index_ne_zero_of_avoids havoids ho)
    · rw [runIn_of_not_owns ho hrun]
      rfl

/-- As long as no request is against it, the undefined scope declares nothing. -/
theorem undefined_empty {arena tree : StoreId} {host : Host} {mode : Mode} {sink : Sink}
    (htree : tree ≠ .shared) (hhost : host.MakesNoMethod) {requests : List Request}
    (hfree : ∀ request ∈ requests, request.methodFree = true)
    (havoids : ∀ request ∈ requests, request.Avoids tree)
    (hp : servedAll? requests (.new arena tree host mode sink) = some p) :
    p.scopes.scopes[0]? = some .undefined := by
  refine (servedAll?_induction (I := fun q => AtRest q ∧ q.scopes.id = tree ∧
    Spares (.new arena tree host mode sink) q) ?_ ⟨(Reachable.new htree hhost).atRest, rfl, rfl⟩
    hp).2.2
  rintro request hmem q r ⟨hq, hid, hspares⟩ hr
  have hserves := Request.serves hr (hfree request hmem)
  obtain ⟨⟨_, hkeeps⟩, -⟩ := hserves.keeps hq
  have havoid : request.Avoids q.scopes.id := hid.symm ▸ havoids request hmem
  exact ⟨hserves.atRest hq, hkeeps.grows.tree.id.trans hid,
    (Request.spares hr hq (hfree request hmem) havoid).trans hspares⟩

theorem atRest_of_servedAll {arena tree : StoreId} {host : Host} {mode : Mode} {sink : Sink}
    (htree : tree ≠ .shared) (hhost : host.MakesNoMethod) {requests : List Request}
    (hfree : ∀ request ∈ requests, request.methodFree = true)
    (hp : servedAll? requests (.new arena tree host mode sink) = some p) : AtRest p :=
  servedAll?_induction (I := AtRest)
    (fun request hmem _ _ hq hr => (Request.serves hr (hfree request hmem)).atRest hq)
    (Reachable.new htree hhost).atRest hp

end Exec

open Exec ScopeTree

/-- What a program sees of the undefined scope after any requests: from a live scope, a name means a
cell or a scope that is declared in the undefined scope if and only if the way out of the live scope
ends there, no other scope on the way declares the name, and the look-up does not start at the
undefined scope under its shared handle. If no request is against the undefined scope, no name ever
means such a cell or scope. -/
theorem undefined_scope_seen_iff {arena tree : StoreId} {host : Host} {mode : Mode} {sink : Sink}
    (htree : tree ≠ .shared) (hhost : host.MakesNoMethod) {requests : List Request}
    (hfree : ∀ request ∈ requests, request.methodFree = true) {p : Program}
    (hp : servedAll? requests (.new arena tree host mode sink) = some p) :
    (∀ start name, p.scopes.owns start = true →
      ((∃ target, p.scopes.resolve start name = .ok target ∧ p.scopes.UndefinedBinds target) ↔
        p.scopes.Sees (fun s => ∃ target, s.Binds name target) start) ∧
      ((∃ id, p.scopes.resolveScope start name = .ok id ∧ p.scopes.UndefinedNests id) ↔
        p.scopes.Sees (fun s => ∃ id, s.Nests name id) start)) ∧
    ((∀ request ∈ requests, request.Avoids tree) → ∀ start name,
      (∀ target, p.scopes.resolve start name = .ok target → ¬ p.scopes.UndefinedBinds target) ∧
      ∀ id, p.scopes.resolveScope start name = .ok id → ¬ p.scopes.UndefinedNests id) := by
  have hrest := atRest_of_servedAll htree hhost hfree hp
  have h := hrest.sound.tree
  refine ⟨fun start name ho => ?_, fun havoids start name => ?_⟩
  · by_cases hstart : start = .undefined
    · subst hstart
      rw [resolve_undefined, resolveScope_undefined]
      exact ⟨⟨fun hfound => by simp at hfound, fun hsees => absurd rfl hsees.1⟩,
        ⟨fun hfound => by simp at hfound, fun hsees => absurd rfl hsees.1⟩⟩
    obtain ⟨way, hway, -⟩ := h.exists_way ho
    rw [hway.sees_iff hstart, hway.sees_iff hstart]
    exact ⟨(h.resolve_finds hway hstart name).in_undefined_iff hway h fun _ _ _ hs hbinds =>
        h.undefinedBinds_iff hrest.sound.storage hs hbinds,
      (h.resolveScope_finds hway hstart name).in_undefined_iff hway h fun _ _ _ hs hnests =>
        h.undefinedNests_iff hs hnests⟩
  · have hempty := undefined_empty htree hhost hfree havoids hp
    have hundefined : ∀ s, p.scopes.get? .undefined = some s → s = .undefined := fun s hs =>
      Option.some.inj ((get?_eq_some_iff.1 hs).2.symm.trans hempty)
    refine ⟨?_, ?_⟩
    · rintro target - ⟨s, other, hs, hbinds⟩
      obtain rfl := hundefined s hs
      exact Array.not_mem_empty _ hbinds
    · rintro id - ⟨s, other, hs, hnests⟩
      obtain rfl := hundefined s hs
      have hnone : Scope.undefined.nested? other = none := Std.TreeMap.getElem?_emptyc
      rw [Scope.Nests, hnone] at hnests
      cases hnests

/-- A variable and a namespace, declared in the scope that the run is against. -/
def declaring (scope : ScopeId) : List Request :=
  [.run 1 scope [.declareLocal "x", .defineNamespace "n" []]]

/-- If the run is against the outermost scope, the namespace finds the variable, and nothing of the
undefined scope. -/
theorem outermost_seen :
    ∃ p, servedAll? (declaring .global) .silent = some p ∧
      (∃ target, p.scopes.resolve ⟨⟨2⟩, 2⟩ "x" = .ok target ∧ ¬ p.scopes.UndefinedBinds target) ∧
      ¬ p.scopes.Sees (fun s => ∃ target, s.Binds "x" target) ⟨⟨2⟩, 2⟩ := by
  have hserved : ((servedAll? (declaring .global) .silent).any fun p =>
      p.scopes.owns ⟨⟨2⟩, 2⟩ && (p.scopes.resolve ⟨⟨2⟩, 2⟩ "x").toOption.isSome) = true := by
    decide +kernel
  obtain ⟨p, hp, hfound⟩ := (Option.any_eq_true _ _).1 hserved
  obtain ⟨ho, hfound⟩ := Bool.and_eq_true_iff.1 hfound
  obtain ⟨target, htarget⟩ := Option.isSome_iff_exists.1 hfound
  have hresolve := eq_ok_of_toOption htarget
  have hfree : ∀ request ∈ declaring .global, request.methodFree = true := by decide
  have havoids : ∀ request ∈ declaring .global, request.Avoids ⟨2⟩ := by
    intro request hrequest
    rw [List.mem_singleton.1 hrequest]
    exact ⟨by decide, by decide⟩
  obtain ⟨hseen, hunseen⟩ :=
    undefined_scope_seen_iff (by decide) Native.catalogue_makesNoMethod hfree hp
  refine ⟨p, hp, ⟨target, hresolve, (hunseen havoids ⟨⟨2⟩, 2⟩ "x").1 target hresolve⟩, ?_⟩
  intro hsees
  obtain ⟨other, hother, hbinds⟩ := (hseen ⟨⟨2⟩, 2⟩ "x" ho).1.2 hsees
  exact (hunseen havoids ⟨⟨2⟩, 2⟩ "x").1 other hother hbinds

/-- If it is against the undefined scope, the namespace finds both there. -/
theorem undefined_scope_resolved :
    ∃ p, servedAll? (declaring .undefined) .silent = some p ∧ p.scopes.owns ⟨⟨2⟩, 2⟩ = true ∧
      (∃ target, p.scopes.resolve ⟨⟨2⟩, 2⟩ "x" = .ok target ∧ p.scopes.UndefinedBinds target) ∧
      ∃ id, p.scopes.resolveScope ⟨⟨2⟩, 2⟩ "n" = .ok id ∧ p.scopes.UndefinedNests id := by
  have hserved : ((servedAll? (declaring .undefined) .silent).any fun p =>
      p.scopes.owns ⟨⟨2⟩, 2⟩ &&
      (p.scopes.resolve ⟨⟨2⟩, 2⟩ "x").toOption = some (.static ⟨⟨1⟩, 0⟩) &&
      (p.scopes.resolveScope ⟨⟨2⟩, 2⟩ "n").toOption = some ⟨⟨2⟩, 2⟩ &&
      (p.scopes.get? .undefined).any fun s =>
        s.locals.slots.contains ⟨"x", .static ⟨⟨1⟩, 0⟩⟩ &&
        s.nested? "n" = some ⟨⟨2⟩, 2⟩) = true := by
    decide +kernel
  obtain ⟨p, hp, hfound⟩ := (Option.any_eq_true _ _).1 hserved
  simp only [Bool.and_eq_true, decide_eq_true_eq] at hfound
  obtain ⟨⟨⟨ho, hx⟩, hn⟩, hfound⟩ := hfound
  obtain ⟨s, hs, hfound⟩ := (Option.any_eq_true _ _).1 hfound
  obtain ⟨hbinds, hnests⟩ := Bool.and_eq_true_iff.1 hfound
  have hnests : s.nested? "n" = some ⟨⟨2⟩, 2⟩ := of_decide_eq_true hnests
  exact ⟨p, hp, ho, ⟨_, eq_ok_of_toOption hx, s, "x", hs, Array.contains_iff_mem.1 hbinds⟩,
    _, eq_ok_of_toOption hn, s, "n", hs, hnests⟩

end ActionMachine
