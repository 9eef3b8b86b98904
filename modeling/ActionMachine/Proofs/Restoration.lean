import ActionMachine.Proofs.Carrying

/-
  What a call of a method puts back. A call that fails before its body starts changes nothing. Once
  the body has run, the depth of calls and the slot for returned values are as they were; the scope
  of the call and its cells go together, or stay together if something defined inside keeps them.
  A call in which nothing is defined leaves the scope tree as it was and takes no cell of the arena
  (`OnlyLocals` is what its body does to them), and a result is neither undefined nor a reference.
-/

namespace ActionMachine

/-- The actions that make something that outlives the call they are performed in. -/
def Action.isDefinition : Action → Bool
  | .defineNamespace _ _ | .defineClass _ _ | .defineMethod _ _ _ | .addStaticMember _ _ _
  | .addInstanceMember _ _ _ => true
  | _ => false

namespace Exec

variable {scope id : ScopeId} {p q r : Program} {m : Method} {arity base : Nat} {frame : Frame}

/-! ## The slot for returned values -/

theorem Defaults.returned_eq {params : List Parameter} (h : Defaults p params q) :
    q.returned = p.returned := by
  induction h with
  | stop => rfl
  | next _ _ _ ih => exact ih

/-- An action that hands a value over hands over what it leads to. -/
theorem Performs.returned_plain {a : Action} {flow : Flow} (h : Performs scope p a flow q)
    (hp : p.returned.isReference = false) : q.returned.isReference = false := by
  cases h with
  | restack | store | addInstanceMember | debugPrint => exact hp
  | bind _ hbound =>
    rw [hbound.returned_eq]
    exact hp
  | defineMethod _ _ hd hbound =>
    have hsame := hbound.returned_eq.trans hd.returned_eq
    exact hsame ▸ hp
  | ret _ hw _ => exact Reader.isReference_owned hw

theorem Refuses.returned_eq {a : Action} (h : Refuses p a q) : q.returned = p.returned := by
  cases h with
  | same | numbered | placed => rfl
  | defaulted hd => exact hd.returned_eq

theorem carried_returned :
    Carried (fun _ _ => True)
      (fun _ p q => p.returned.isReference = false → q.returned.isReference = false) where
  refl _ _ h := h
  trans h1 h2 h := h2 (h1 h)
  performs _ _ _ h hp := h.returned_plain hp
  refuses _ _ h hp := h.returned_eq ▸ hp
  body _ _ ho h hp := by
    obtain ⟨name, u, n, -, rfl⟩ := ho.opened
    exact h hp
  call _ _ _ _ _ _ _ _ := ⟨fun h => h, fun h => h⟩

/-! ## Runs that define nothing -/

/-- Only the locals of one scope have changed; no cell of the arena was taken. -/
structure OnlyLocals (id : ScopeId) (p q : Program) : Prop where
  tree : q.scopes.id = p.scopes.id
  retained : q.scopes.retained = p.scopes.retained
  size : q.scopes.size = p.scopes.size
  others : ∀ i : Nat, i ≠ id.index → q.scopes.scopes[i]? = p.scopes.scopes[i]?
  isCall : q.scopes.isCallAt id.index = p.scopes.isCallAt id.index
  arena : q.memory.arena.size = p.memory.arena.size

theorem OnlyLocals.of_scopes (hscopes : q.scopes = p.scopes)
    (harena : q.memory.arena.size = p.memory.arena.size) : OnlyLocals id p q := by
  refine ⟨?_, ?_, ?_, fun i _ => ?_, ?_, harena⟩ <;> rw [hscopes]

theorem OnlyLocals.trans (h1 : OnlyLocals id p q) (h2 : OnlyLocals id q r) : OnlyLocals id p r :=
  ⟨h2.tree.trans h1.tree, h2.retained.trans h1.retained, h2.size.trans h1.size,
    fun i hi => (h2.others i hi).trans (h1.others i hi), h2.isCall.trans h1.isCall,
    h2.arena.trans h1.arena⟩

/-- A scope that gains a local is the only one to change. -/
theorem onlyLocals_addLocal {s s' : Scope} {name : Name} {target : CellRef} {memory : Memory}
    (hget : p.scopes.get? id = some s) (h : s.addLocal name target = .ok s')
    (harena : memory.arena.size = p.memory.arena.size) :
    OnlyLocals id p { p with memory, scopes := p.scopes.set id s' } := by
  have hs := (ScopeTree.get?_eq_some_iff.1 hget).2
  have hlt : id.index < p.scopes.size := (Array.getElem?_eq_some_iff.1 hs).1
  have hext := (Scope.gains_of_addLocal h).ext
  refine ⟨rfl, rfl, ScopeTree.size_set id s', fun i hi => ?_, ?_, harena⟩
  · show (p.scopes.set id s').scopes[i]? = p.scopes.scopes[i]?
    rw [ScopeTree.getElem?_set hlt, if_neg hi]
  · have hs' : (p.scopes.set id s').scopes[id.index]? = some s' := by
      rw [ScopeTree.getElem?_set hlt, if_pos rfl]
    show (p.scopes.set id s').isCallAt id.index = p.scopes.isCallAt id.index
    rw [ScopeTree.isCallAt_eq hs', ScopeTree.isCallAt_eq hs, hext.isCall_eq]

/-- A name bound in the scope of a call has a cell of the frame. -/
theorem Bound.onlyLocals {name : Name} {v : Value} {constant : Bool}
    (h : Bound p id name v constant q) (hcall : p.scopes.isCallAt id.index = true) :
    OnlyLocals id p q := by
  cases h with
  | inFrame hget _ h => exact onlyLocals_addLocal hget h rfl
  | inArena hget hopen _ =>
    rw [ScopeTree.isCallAt_eq (ScopeTree.get?_eq_some_iff.1 hget).2, hopen] at hcall
    cases hcall

theorem bindArguments_onlyLocals (args : List (Slot × Value)) :
    Ends (bindArguments id args) p (fun _ q => OnlyLocals id p q) fun _ q => OnlyLocals id p q := by
  refine bindArguments_induction (.of_scopes rfl rfl)
    (fun q arg _ hq => hq.trans (.of_scopes rfl rfl)) fun q arg _ u hq hu => ?_
  obtain ⟨s, s', hget, hs', rfl⟩ := addLocal_eq_ok_iff.1 hu
  exact hq.trans (onlyLocals_addLocal hget hs' rfl)

theorem openCall_onlyLocals (h : openCall m arity p = .ok frame q) :
    OnlyLocals ⟨p.scopes.id, p.scopes.size⟩ (p.called m) q := by
  obtain ⟨values, -, r, hbind, -, rfl⟩ := openCall_eq_ok h
  have hlocals := (bindArguments_onlyLocals _).of_ok hbind
  exact ⟨hlocals.tree, hlocals.retained, hlocals.size, hlocals.others, hlocals.isCall,
    hlocals.arena⟩

/-- If only the locals of the call have changed since it was entered, its end puts the scopes back
as they were. -/
theorem closed_scopes_eq (hp : p.Sound)
    (h : OnlyLocals ⟨p.scopes.id, p.scopes.size⟩ (p.called m) r) :
    (closed p r base).scopes = p.scopes ∧
      (closed p r base).memory.arena.size = p.memory.arena.size := by
  have hkept : ¬ p.scopes.size < r.scopes.retained := by
    have hretained : r.scopes.retained = p.scopes.retained := h.retained
    have := hp.tree.retained.2
    omega
  -- below the call every scope is the one that was there
  have hscopes : r.scopes.scopes.shrink p.scopes.size = p.scopes.scopes := by
    apply Array.ext_getElem?
    intro i
    rw [getElem?_shrink]
    split
    · rename_i hlt
      rw [h.others i (Nat.ne_of_lt hlt)]
      show (p.scopes.push _).2.scopes[i]? = p.scopes.scopes[i]?
      rw [ScopeTree.getElem?_push, if_neg (Nat.ne_of_lt hlt)]
    · rename_i hge
      exact (Array.getElem?_eq_none (Nat.le_of_not_lt hge)).symm
  have htree : r.scopes.id = p.scopes.id := h.tree
  have hretained : r.scopes.retained = p.scopes.retained := h.retained
  have harena : r.memory.arena.size = p.memory.arena.size := h.arena
  have hclosed : (closed p r base).scopes =
      ⟨r.scopes.id, r.scopes.scopes.shrink p.scopes.size, r.scopes.retained⟩ := by
    unfold closed Program.released
    rw [if_neg hkept]
    rfl
  refine ⟨?_, ?_⟩
  · rw [hclosed, hscopes, htree, hretained]
  · unfold closed Program.released
    rw [if_neg hkept]
    exact harena

/-- So it does if the body of the call defines nothing. -/
theorem Entered.closed_scopes_eq (hq : Entered m arity p frame q) (hp : p.Sound)
    (hopen : openCall m arity p = .ok frame q)
    (h : q.scopes.isCallAt frame.scope.index = true → OnlyLocals frame.scope q r) :
    (closed p r frame.base).scopes = p.scopes ∧
      (closed p r frame.base).memory.arena.size = p.memory.arena.size := by
  have hentered := openCall_onlyLocals hopen
  have hcall : q.scopes.isCallAt frame.scope.index = true := by
    rw [hq.scope, hentered.isCall]
    have hcalled := hp.tree.get?_pushCallScope m.scope m.name
    exact ScopeTree.isCallAt_eq (ScopeTree.get?_eq_some_iff.1 hcalled).2
  have hbody := h hcall
  rw [hq.scope] at hbody
  exact Exec.closed_scopes_eq hp (hentered.trans hbody)

theorem Performs.onlyLocals {a : Action} {flow : Flow} (h : Performs scope p a flow q)
    (ha : a.isDefinition = false) (hcall : p.scopes.isCallAt scope.index = true) :
    OnlyLocals scope p q := by
  cases h with
  | restack | ret | debugPrint => exact .of_scopes rfl rfl
  | store => exact .of_scopes rfl (p.memory.size_arena_set _ _)
  | bind h hbound =>
    cases h with
    | declareLocal => exact hbound.onlyLocals hcall
    | declareConstant => exact hbound.onlyLocals hcall
    | addStaticMember => cases ha
  | addInstanceMember | defineMethod => cases ha

theorem Refuses.onlyLocals {a : Action} (h : Refuses p a q) (ha : a.isDefinition = false) :
    OnlyLocals scope p q := by
  cases h with
  | same | placed => exact .of_scopes rfl rfl
  | numbered | defaulted => cases ha

theorem carried_onlyLocals :
    Carried (fun a _ => a.isDefinition = false)
      (fun scope p q => p.scopes.isCallAt scope.index = true → OnlyLocals scope p q) where
  refl _ _ _ := .of_scopes rfl rfl
  trans h1 h2 hcall := (h1 hcall).trans (h2 ((h1 hcall).isCall.trans hcall))
  performs _ _ ha h hcall := h.onlyLocals ha hcall
  refuses _ ha h _ := h.onlyLocals ha
  body {_ _ _ _ _ a} hbody ha _ _ _ := by
    cases a with
    | defineNamespace | defineClass => cases ha
    | _ => cases hbody
  call {_ p q r _ _ m frame} hp _ _ _ hopen hq _ h := by
    obtain ⟨hscopes, harena⟩ := hq.closed_scopes_eq hp hopen h
    exact ⟨fun _ => .of_scopes hscopes harena, fun _ => .of_scopes hscopes harena⟩

/-! ## The end of a call -/

theorem callResult_isUndefined (returned : Value) : (callResult returned).isUndefined = false := by
  unfold callResult
  split
  · rfl
  · exact eq_false_of_ne_true ‹_›

theorem callResult_isReference {returned : Value} (h : returned.isReference = false) :
    (callResult returned).isReference = false := by
  unfold callResult
  split
  · rfl
  · exact h

/-- What a call that was entered from `p` has put back in `t`, after its body ended in `r`. -/
structure Restored (p : Program) (frame : Frame) (r t : Program) : Prop where
  depth : t.callDepth = p.callDepth
  returned : t.returned = p.returned
  /-- No scope from the one of the call on is kept: all of them go, and all cells since. -/
  released : r.scopes.retained ≤ frame.scope.index →
    t.scopes.size = p.scopes.size ∧ t.memory.frame.size = p.memory.frame.size
  /-- Some scope from the one of the call on is kept: the scope of the call stays as it is, and each
  of its locals still has its cell of the frame. -/
  kept : frame.scope.index < r.scopes.retained →
    ∃ s, r.scopes.get? frame.scope = some s ∧ t.scopes.get? frame.scope = some s ∧
      s.kind.isCall = true ∧ ∀ slot ∈ s.locals.slots, ∃ i v, slot.target = .frame i ∧
        r.memory.frame.get? i = some v ∧ t.memory.frame.get? i = some v

theorem Entered.restored (h : Entered m arity p frame q) (hp : p.Sound)
    (hr : Keeps frame.scope.index q r) : Restored p frame r (closed p r frame.base) := by
  have hg := h.grows hr
  have hindex : frame.scope.index = p.scopes.size := congrArg ScopeId.index h.scope
  have hkeeps : Keeps 0 p (closed p r frame.base) := h.keeps_closed hp hr
  refine ⟨hkeeps.grows.depth, rfl, fun hfree => ?_, fun hkept => ?_⟩
  · have hlt := hg.size_lt
    have hnot : ¬ p.scopes.size < r.scopes.retained := by omega
    unfold closed Program.released
    rw [if_neg hnot]
    refine ⟨?_, Cells.size_truncate hg.frame⟩
    show (r.scopes.scopes.shrink p.scopes.size).size = p.scopes.size
    rw [Array.size_shrink]
    exact Nat.min_eq_left (Nat.le_of_lt hlt)
  · rw [hindex] at hkept
    obtain ⟨s, hs, hcall⟩ := h.get? hp hr
    have hslot := (ScopeTree.get?_eq_some_iff.1 hs).2
    have hsame : (closed p r frame.base).scopes = r.scopes ∧
        (closed p r frame.base).memory.frame = r.memory.frame := by
      unfold closed Program.released
      rw [if_pos hkept]
      exact ⟨rfl, rfl⟩
    refine ⟨s, hs, hsame.1 ▸ hs, hcall, fun slot hmem => ?_⟩
    obtain ⟨j, hj⟩ := Array.mem_iff_getElem?.1 hmem
    -- a local of a call is bound to a live cell of the frame
    have hsite : r.scopes.target? ⟨frame.scope.index, false, j⟩ = some slot.target :=
      ScopeTree.target?_eq_some_iff.2 ⟨s, slot, hslot, hj, rfl⟩
    obtain ⟨i, hi, htarget⟩ := hr.sound.storage.frame _ _ hsite
      ((ScopeTree.isCallAt_eq hslot).trans hcall)
    obtain ⟨v, hv⟩ := Cells.exists_get? hi
    exact ⟨i, v, htarget, hv, hsame.2 ▸ hv⟩

/-- A call whose body comes to its end leaves the result on top. -/
theorem attempt_call_eq_ok {k : Nat} {name : Name} {flow : Flow} (hp : p.Sound)
    (harity : arity ≤ p.memory.stack.size)
    (hcallee : callee scope name p = .ok (.method m) p) (hopen : openCall m arity p = .ok frame q)
    (h : Entered m arity p frame q) (hr : Keeps frame.scope.index q r)
    (hbody : performAll (enter k) frame.scope 0 m.body q = .ok flow r) :
    attempt (enter (k + 1)) scope (.call name arity) p =
      .ok .next ((closed p r frame.base).mapStack (·.push (callResult r.returned))) := by
  apply Ends.eq_ok
  rw [ends_attempt_call harity hcallee hopen, ends_settle, ends_of_ok hbody,
    ends_closeCall h hp hr]
  exact ⟨rfl, rfl⟩

/-- The failure of a body is that of the call. -/
theorem attempt_call_eq_failure {k : Nat} {name : Name} {failure : Failure} (hp : p.Sound)
    (harity : arity ≤ p.memory.stack.size)
    (hcallee : callee scope name p = .ok (.method m) p) (hopen : openCall m arity p = .ok frame q)
    (h : Entered m arity p frame q) (hr : Keeps frame.scope.index q r)
    (hbody : performAll (enter k) frame.scope 0 m.body q = .error (.fault failure) r) :
    attempt (enter (k + 1)) scope (.call name arity) p =
      .error (.fault (failure.within (.method m.name))) (closed p r frame.base) := by
  apply Ends.eq_error
  rw [ends_attempt_call harity hcallee hopen, ends_settle, ends_of_error hbody]
  show Ends (closeCall frame m.name (.error failure)) r _ _
  rw [ends_closeCall h hp hr]
  exact ⟨rfl, rfl⟩

/-- The slot for returned values is empty when a body starts, so it holds no reference when the body
ends. -/
theorem Entered.returned_plain {k : Nat} {flow : Flow} (h : Entered m arity p frame q)
    (hp : p.Sound) (hm : p.scopes.Admits m)
    (hbody : performAll (enter k) frame.scope 0 m.body q = .ok flow r) :
    r.returned.isReference = false := by
  have hcarried := (run_carried carried_returned).2 k frame.scope m.body q h.keeps.sound
    (h.live hp) hm.body (fun _ _ _ _ _ => trivial) 0
  refine hcarried.of_ok hbody ?_
  rw [h.empty]
  rfl

/-- A call in which nothing is defined leaves the scopes and the size of the arena alone. -/
theorem Entered.ends_call_unchanged {k : Nat} {name : Name} (hp : p.Sound)
    (hm : p.scopes.Admits m) (harity : arity ≤ p.memory.stack.size)
    (hcallee : callee scope name p = .ok (.method m) p) (hopen : openCall m arity p = .ok frame q)
    (h : Entered m arity p frame q)
    (honly : MeetsOnly (fun a _ => a.isDefinition = false) k frame.scope m.body q) :
    Ends (attempt (enter (k + 1)) scope (.call name arity)) p
      (fun _ t => t.scopes = p.scopes ∧ t.memory.arena.size = p.memory.arena.size)
      (Halts (fun _ t => t.scopes = p.scopes ∧ t.memory.arena.size = p.memory.arena.size)
        fun _ => True) := by
  have hlive := h.live hp
  have hrun := Relates.and_keeps ((run_carried carried_onlyLocals).2 k frame.scope m.body q
    h.keeps.sound hlive hm.body honly) h.keeps.sound hlive hm.body 0
  rw [ends_attempt_call harity hcallee hopen, ends_settle_halts]
  refine Ends.imp hrun (fun flow r hr => ?_) fun stop r hs => ?_
  · rw [ends_closeCall h hp hr.1]
    exact h.closed_scopes_eq hp hopen hr.2
  · refine hs.imp (fun _ hr => ?_) fun _ => trivial
    rw [ends_closeCall h hp hr.1]
    exact h.closed_scopes_eq hp hopen hr.2

end Exec

open Exec

/-- A run has come to a call of the method `m`. The body starts if and only if nothing speaks
against the call, and if it does not start, the program is as before. If it starts and comes to
its end, the call has put back what `Restored` lists, whether it succeeds or fails; a call that
succeeds leaves a result on top that is neither undefined nor a reference; and if no action met
inside the call, at whatever depth, is a definition, the scope tree is what it was and the arena
has no new cell. -/
theorem call_restores {start p : Program} {n k arity : Nat} {outer scope : ScopeId}
    {actions : List Action} {name : Name} {m : Method} (hstart : Reachable start)
    (howns : start.scopes.owns outer = true) (hfree : Action.allMethodFree actions = true)
    (hmeets : Meets n outer actions start (k + 1) scope (.call name arity) p)
    (harity : arity ≤ p.memory.stack.size) (hcallee : callee scope name p = .ok (.method m) p) :
    ((∃ frame q, openCall m arity p = .ok frame q) ↔ ∃ values, Startable m arity p values) ∧
    (∀ stop q, openCall m arity p = .error stop q → ∃ cause, stop = .fault cause ∧
      attempt (enter (k + 1)) scope (.call name arity) p = .error (.fault cause) p) ∧
    ∀ frame q, openCall m arity p = .ok frame q →
      (∀ flow r, performAll (enter k) frame.scope 0 m.body q = .ok flow r →
        ∃ t v, attempt (enter (k + 1)) scope (.call name arity) p = .ok .next t ∧
          Restored p frame r t ∧
          t.memory.stack = (r.memory.stack.truncate (p.memory.stack.size - arity)).push v ∧
          v.isUndefined = false ∧ v.isReference = false) ∧
      (∀ failure r, performAll (enter k) frame.scope 0 m.body q = .error (.fault failure) r →
        ∃ t, attempt (enter (k + 1)) scope (.call name arity) p =
            .error (.fault (failure.within (.method m.name))) t ∧ Restored p frame r t) ∧
      (MeetsOnly (fun a _ => a.isDefinition = false) k frame.scope m.body q →
        ∀ t, Completes (attempt (enter (k + 1)) scope (.call name arity)) p t →
          t.scopes = p.scopes ∧ t.memory.arena.size = p.memory.arena.size) := by
  obtain ⟨hp, ho, -⟩ := hmeets.sound hstart.atRest.sound howns hfree
  have hm := ((callee_ends hp.tree ho name).of_ok hcallee).2.admits hp
  refine ⟨⟨fun ⟨frame, q, hopen⟩ => ?_, fun ⟨values, hstartable⟩ => ?_⟩, fun stop q hopen => ?_,
    fun frame q hopen => ?_⟩
  · obtain ⟨values, hstartable, -⟩ := openCall_eq_ok hopen
    exact ⟨values, hstartable⟩
  · exact hstartable.exists_openCall hp hm
  · have hstop := (openCall_ends hp hm harity).of_error hopen
    cases stop with
    | fault cause =>
      obtain rfl : q = p := hstop
      exact ⟨cause, rfl, attempt_call_eq_error harity hcallee hopen⟩
    | breach v => exact hstop.elim
    | unending => exact hstop.elim
  have hentered := (openCall_ends hp hm harity).of_ok hopen
  have hsafe := run_safe.2 k frame.scope m.body q hentered.keeps.sound (hentered.live hp)
    hm.body 0
  refine ⟨fun flow r hbody => ?_, fun failure r hbody => ?_, fun honly t ht => ?_⟩
  · have hk : Keeps frame.scope.index q r := Ends.of_ok hsafe hbody
    have hrestored := hentered.restored hp hk
    refine ⟨_, callResult r.returned,
      attempt_call_eq_ok hp harity hcallee hopen hentered hk hbody,
      ⟨hrestored.depth, hrestored.returned, hrestored.released, hrestored.kept⟩, ?_,
      callResult_isUndefined _, callResult_isReference (hentered.returned_plain hp hm hbody)⟩
    rw [← hentered.base]
    rfl
  · have hk : Keeps frame.scope.index q r := Ends.of_error hsafe hbody
    exact ⟨_, attempt_call_eq_failure hp harity hcallee hopen hentered hk hbody,
      hentered.restored hp hk⟩
  · exact (hentered.ends_call_unchanged hp hm harity hcallee hopen honly).of_completes ht

/-- A method with a local of its own. -/
def seven : Method :=
  { name := "seven", params := .empty, scope := .global,
    body := [.declareLocal "x", .pushLiteral (.int 7), .ret] }

def defineSeven : Action := .defineMethod "seven" [] seven.body

/-- A program that has defined it. -/
def withSeven : Program := after (attempt (enter 2) .global defineSeven) .silent

/-- The program at the end of its body. -/
def afterSeven : Program :=
  after (performAll (enter 1) ⟨⟨2⟩, 2⟩ 0 seven.body) (after (openCall seven 0) withSeven)

/-- The call has a cell of the frame while it runs and defines nothing. -/
theorem call_seven_restores :
    Meets 2 .global [defineSeven, .call "seven" 0] .silent 2 .global (.call "seven" 0) withSeven ∧
      afterSeven.memory.frame.size = 1 ∧
      ∃ t, attempt (enter 2) .global (.call "seven" 0) withSeven = .ok .next t ∧
        Restored withSeven ⟨⟨⟨2⟩, 2⟩, 0, 0, .undefined⟩ afterSeven t ∧
        t.scopes = withSeven.scopes ∧ t.memory.arena.size = withSeven.memory.arena.size := by
  have hm : Meets 2 .global [defineSeven, .call "seven" 0] .silent 2 .global (.call "seven" 0)
      withSeven := .later rfl .here
  obtain ⟨-, -, hbody⟩ := call_restores (m := seven) reachable_silent rfl rfl hm (by decide) rfl
  obtain ⟨hok, -, hnone⟩ := hbody ⟨⟨⟨2⟩, 2⟩, 0, 0, .undefined⟩ _ rfl
  obtain ⟨t, v, ht, hrestored, -⟩ := hok .ret afterSeven rfl
  have honly : MeetsOnly (fun a _ => a.isDefinition = false) 1 ⟨⟨2⟩, 2⟩ seven.body
      (after (openCall seven 0) withSeven) := by
    intro k s a q hmeets
    have hmem : a ∈ seven.body := hmeets.mem_of_flat (by simp [seven, Action.body?])
    simp only [seven, List.mem_cons, List.not_mem_nil, or_false] at hmem
    rcases hmem with rfl | rfl | rfl <;> rfl
  exact ⟨hm, rfl, t, ht, hrestored, hnone honly t (Or.inl ⟨_, ht⟩)⟩

end ActionMachine
