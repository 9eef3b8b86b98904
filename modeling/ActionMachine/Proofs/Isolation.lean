import ActionMachine.Proofs.Carrying

/-
  What a call does to the operands of its caller. The body of a method runs on the stack of its
  caller, above the elements that lay below the arguments. Actions look only at the depth of the
  whole stack, so a body can reach below them, and the cut at the end of the call does not bring
  back what was taken. `call_isolated_iff` says exactly when the caller finds its operands as they
  were, and that it does whenever no action inside the call reaches below them.
-/

namespace ActionMachine

/-- Number of elements, counted from the top, that the action takes off the stack or changes. -/
def Action.reach : Action → Nat
  | .duplicate _ => 0
  | a => a.operandArity

namespace Exec

variable {scope : ScopeId} {p q : Program} {a : Action} {base : Nat}

/-! ## Cells that names lead to -/

/-- A name leads to the cell of a local. -/
theorem exists_site_of_resolve (hp : p.Sound) (ho : p.scopes.owns scope = true) {name : Name}
    {target : CellRef} (h : p.scopes.resolve scope name = .ok target) :
    ∃ site, site.template = false ∧ p.scopes.target? site = some target := by
  obtain ⟨r, hr, hfound⟩ :=
    hp.tree.search_eq_ok (fun s hs => Scope.findLocal?_isOk hs name) ho
  unfold ScopeTree.resolve at h
  rw [hr] at h
  cases r with
  | none => cases h
  | some found =>
    cases h
    obtain ⟨i, s, hs, hlocal⟩ := hfound target rfl
    have hsound := hp.tree.slots i s hs
    unfold Scope.findLocal? at hlocal
    rw [hsound.locals.find?_eq] at hlocal
    obtain ⟨slot, hslot, rfl⟩ := Option.map_eq_some_iff.1 (Except.ok.inj hlocal)
    obtain ⟨j, hj⟩ := Array.mem_iff_getElem?.1 (Array.mem_of_find?_eq_some hslot)
    exact ⟨⟨i, false, j⟩, rfl, ScopeTree.target?_eq_some_iff.2 ⟨s, slot, hs, hj, rfl⟩⟩

/-- No site is bound to a place on the stack. -/
theorem ne_stack_of_site (hp : p.Sound) {site : Site} {target : CellRef}
    (h : p.scopes.target? site = some target) (i : Nat) : target ≠ .stack i := by
  rintro rfl
  cases hcall : p.scopes.isCallAt site.scope with
  | true =>
    obtain ⟨k, -, he⟩ := hp.storage.frame site _ h hcall
    cases he
  | false =>
    obtain ⟨k, -, he⟩ := hp.storage.arena site _ h hcall
    cases he

/-- A cell that holds no reference is where its own walk ends. -/
theorem resolve_eq_self {read : Reader} {target : CellRef} {v : Value}
    (hv : read target = some v) (hplain : v.isReference = false) :
    read.resolve target = .ok target := by
  show read.resolveWithin (65535 + 1) target = .ok target
  unfold Reader.resolveWithin
  rw [hv]
  cases v with
  | reference => cases hplain
  | _ => rfl

theorem resolve_eq_self_of_site (hp : p.Sound) {site : Site} {target : CellRef}
    (h : p.scopes.target? site = some target) : p.memory.resolve target = .ok target := by
  obtain ⟨v, hv, hplain⟩ := hp.exists_read h
  exact resolve_eq_self hv hplain

/-- A store goes to the cell of a local. -/
theorem Stores.exists_site {target : CellRef} {v : Value} {s : Operands}
    (h : Stores scope p a target v s) (hp : p.Sound) (ho : p.scopes.owns scope = true) :
    ∃ site, site.template = false ∧ p.scopes.target? site = some target := by
  cases h with
  | assignPopped htarget => exact exists_site_of_resolve hp ho htarget
  | assignLiteral htarget => exact exists_site_of_resolve hp ho htarget
  | assignMember hbound htarget =>
    obtain ⟨site, hlocal, hsite⟩ := exists_site_of_resolve hp ho hbound
    cases htarget.symm.trans (resolve_eq_self_of_site hp hsite)
    exact ⟨site, hlocal, hsite⟩

theorem Stores.ne_stack {target : CellRef} {v : Value} {s : Operands}
    (h : Stores scope p a target v s) (hp : p.Sound) (ho : p.scopes.owns scope = true) (i : Nat) :
    target ≠ .stack i := by
  obtain ⟨site, -, hsite⟩ := h.exists_site hp ho
  exact ne_stack_of_site hp hsite i

/-! ## Single actions -/

theorem Restacks.below {s : Operands} (h : Restacks scope p a s)
    (hbase : base + a.reach ≤ p.memory.stack.size) : Operands.Below base p.memory.stack s := by
  have hle : base ≤ p.memory.stack.size := Nat.le_trans (Nat.le_add_right _ _) hbase
  -- a new top over what is left of the stack
  have hover : ∀ (rest : Operands) (v : Value), Operands.Below base p.memory.stack rest →
      Operands.Below base p.memory.stack (rest.push v) :=
    fun rest v hrest => hrest.trans (Operands.below_push (hrest.size_le hle) v)
  cases h with
  | resolveLocal | resolveQualified | pushLiteral | constructInstance | loadMember =>
    exact hover _ _ (.refl _ _)
  | pop h =>
    obtain ⟨-, rfl⟩ := Operands.pop_eq_ok_iff.1 h
    exact Operands.below_pop hbase
  | duplicate h =>
    obtain ⟨v, -, rfl⟩ := Operands.duplicate_eq_ok_iff.1 h
    exact hover _ _ (.refl _ _)
  | swap h =>
    obtain ⟨hpos, -, rfl⟩ := Operands.swap_eq_ok_iff.1 h
    exact Operands.below_swap hbase hpos
  | @buildList len from' items hfrom h =>
    obtain ⟨-, rfl⟩ := Operands.base_eq_ok_iff.1 hfrom
    have hlen : base + len ≤ p.memory.stack.size := hbase
    exact hover _ _ (Operands.below_truncate (by omega))
  | unary h =>
    obtain ⟨v, w, -, -, rfl⟩ := Operands.mapTop_eq_ok h
    exact hover _ _ (Operands.below_pop hbase)
  | binary h =>
    obtain ⟨l, r, w, -, -, -, rfl⟩ := Operands.mapTopTwo_eq_ok h
    have htwo : base + 2 ≤ p.memory.stack.size := hbase
    exact hover _ _ (Operands.below_truncate (by omega))
  | binaryInPlace h =>
    obtain ⟨l, r, w, u, -, -, -, rfl⟩ := Operands.foldTop_eq_ok h
    have htwo : base + 2 ≤ p.memory.stack.size := hbase
    have hset : Operands.Below base p.memory.stack
        ⟨p.memory.stack.values.setIfInBounds (p.memory.stack.size - 2) w⟩ :=
      Operands.below_set (by omega) w
    refine hset.trans (Operands.below_pop ?_)
    have hsize : Operands.size ⟨p.memory.stack.values.setIfInBounds (p.memory.stack.size - 2) w⟩ =
        p.memory.stack.size := Array.size_setIfInBounds
    omega
  | @native name arity entry args h =>
    have harity : base + arity ≤ p.memory.stack.size := hbase
    exact hover _ _ (Operands.below_truncate (by omega))

theorem Stores.below {target : CellRef} {v : Value} {s : Operands}
    (h : Stores scope p a target v s) (hp : p.Sound) (ho : p.scopes.owns scope = true)
    (hbase : base + a.reach ≤ p.memory.stack.size) : Operands.Below base p.memory.stack s := by
  have hset : (p.memory.set target v).stack = p.memory.stack :=
    Memory.stack_set_of_ne (h.ne_stack hp ho) v
  cases h with
  | assignPopped _ _ _ hs =>
    rw [hset] at hs
    obtain ⟨-, rfl⟩ := Operands.pop_eq_ok_iff.1 hs
    exact Operands.below_pop hbase
  | assignLiteral =>
    rw [hset]
    exact .refl _ _
  | assignMember _ _ _ _ _ _ hs =>
    rw [hset] at hs
    obtain ⟨-, rfl⟩ := Operands.pop_eq_ok_iff.1 hs
    exact Operands.below_pop hbase

theorem Bound.stack_eq {id : ScopeId} {name : Name} {v : Value} {constant : Bool}
    (h : Bound p id name v constant q) : q.memory.stack = p.memory.stack := by
  cases h <;> rfl

theorem Defaults.stack_eq {params : List Parameter} (h : Defaults p params q) :
    q.memory.stack = p.memory.stack := by
  induction h with
  | stop => rfl
  | next _ _ _ ih => exact ih

theorem Performs.below {flow : Flow} (h : Performs scope p a flow q) (hp : p.Sound)
    (ho : p.scopes.owns scope = true) (hbase : base + a.reach ≤ p.memory.stack.size) :
    Operands.Below base p.memory.stack q.memory.stack := by
  cases h with
  | restack h => exact h.below hbase
  | bind _ h =>
    rw [h.stack_eq]
    exact .refl _ _
  | store h => exact h.below hp ho hbase
  | addInstanceMember | debugPrint => exact .refl _ _
  | @defineMethod name params body slots p' q hslots hstatic hd h =>
    show Operands.Below base p.memory.stack q.memory.stack
    rw [h.stack_eq, hd.stack_eq]
    exact .refl _ _
  | ret _ _ hs =>
    obtain ⟨-, rfl⟩ := Operands.pop_eq_ok_iff.1 hs
    exact Operands.below_pop hbase

theorem Refuses.below (h : Refuses p a q) (hbase : base + a.reach ≤ p.memory.stack.size) :
    Operands.Below base p.memory.stack q.memory.stack := by
  cases h with
  | same | numbered => exact .refl _ _
  | defaulted h =>
    rw [h.stack_eq]
    exact .refl _ _
  | @placed name arity s hbelow h =>
    have harity : base + arity ≤ p.memory.stack.size := hbase
    exact fun i hi => hbelow i (by omega)

/-! ## Runs -/

/-- No action that the run meets reaches the lowest `base` elements. -/
def StaysAbove (base n : Nat) (scope : ScopeId) (as : List Action) (p : Program) : Prop :=
  ∀ k s a q, Meets n scope as p k s a q → base + a.reach ≤ q.memory.stack.size

/-- The computation leaves the lowest `base` elements in place. -/
def LeavesBelow {ε α : Type} (base : Nat) (p : Program) (x : Exec ε α) : Prop :=
  Ends x p (fun _ q => Operands.Below base p.memory.stack q.memory.stack)
    (Halts (fun _ q => Operands.Below base p.memory.stack q.memory.stack) fun _ => True)

/-- Every effect on the stack leaves the lowest `base` elements, if no action reaches them. -/
theorem carried_below (base : Nat) :
    Carried (fun a p => base + a.reach ≤ p.memory.stack.size)
      (fun _ p q => Operands.Below base p.memory.stack q.memory.stack) where
  refl _ _ := .refl _ _
  trans h1 h2 := h1.trans h2
  performs hp ho hbase h := h.below hp ho hbase
  refuses _ hbase h := h.below hbase
  body _ _ ho h := by
    rw [ho.stack] at h
    exact h
  call {_ p q r _ arity _ frame} _ _ _ hbase _ hq _ h := by
    have harity : base + arity ≤ p.memory.stack.size := hbase
    have hframe : base ≤ frame.base := by
      rw [hq.base]
      omega
    have hstart : Operands.Below base p.memory.stack q.memory.stack := by
      rw [hq.stack]
      exact Operands.below_truncate hframe
    -- the cut at the end leaves what the body left
    have hcut : Operands.Below base p.memory.stack (r.memory.stack.truncate frame.base) :=
      (hstart.trans h).trans (Operands.below_truncate hframe)
    exact ⟨hcut, hcut.trans (Operands.below_push (hcut.size_le (by omega)) _)⟩

/-- A run that stays above the lowest `base` elements leaves them in place. -/
theorem run_leavesBelow (base : Nat) :
    (∀ n scope a p, p.Sound → p.scopes.owns scope = true → a.methodFree = true →
      StaysAbove base n scope [a] p → LeavesBelow base p (attempt (enter n) scope a)) ∧
    ∀ n scope as p, p.Sound → p.scopes.owns scope = true → Action.allMethodFree as = true →
      StaysAbove base n scope as p →
        ∀ index, LeavesBelow base p (performAll (enter n) scope index as) :=
  run_carried (carried_below base)

end Exec

open Exec

/-- A run has come to a call of the method `m` with `arity` arguments, and the body has started.
When the body ends in `r`, the stack is cut back to the elements that lie below the arguments, of
those that `r` still has; the result, if there is one, goes on top. So the caller finds its operands
as they were if and only if the body left them in place, and the body does so if no action met
inside the call, at whatever depth, reaches below the arguments. -/
theorem call_isolated_iff {start p q : Program} {n k arity : Nat} {outer scope : ScopeId}
    {actions : List Action} {name : Name} {m : Method} {frame : Frame} (hstart : Reachable start)
    (howns : start.scopes.owns outer = true) (hfree : Action.allMethodFree actions = true)
    (hmeets : Meets n outer actions start (k + 1) scope (.call name arity) p)
    (harity : arity ≤ p.memory.stack.size) (hcallee : callee scope name p = .ok (.method m) p)
    (hopen : openCall m arity p = .ok frame q) :
    (∀ flow r, performAll (enter k) frame.scope 0 m.body q = .ok flow r →
      ∃ t, attempt (enter (k + 1)) scope (.call name arity) p = .ok .next t ∧
        t.memory.stack = (r.memory.stack.truncate (p.memory.stack.size - arity)).push
          (callResult r.returned) ∧
        (t.memory.stack = (p.memory.stack.truncate (p.memory.stack.size - arity)).push
            (callResult r.returned) ↔
          Operands.Below (p.memory.stack.size - arity) p.memory.stack r.memory.stack)) ∧
    (∀ failure r, performAll (enter k) frame.scope 0 m.body q = .error (.fault failure) r →
      ∃ t, attempt (enter (k + 1)) scope (.call name arity) p =
          .error (.fault (failure.within (.method m.name))) t ∧
        t.memory.stack = r.memory.stack.truncate (p.memory.stack.size - arity) ∧
        (t.memory.stack = p.memory.stack.truncate (p.memory.stack.size - arity) ↔
          Operands.Below (p.memory.stack.size - arity) p.memory.stack r.memory.stack)) ∧
    (StaysAbove (p.memory.stack.size - arity) k frame.scope m.body q →
      ∀ r, Completes (performAll (enter k) frame.scope 0 m.body) q r →
        Operands.Below (p.memory.stack.size - arity) p.memory.stack r.memory.stack) := by
  obtain ⟨hp, ho, -⟩ := hmeets.sound hstart.atRest.sound howns hfree
  have hm := ((callee_ends hp.tree ho name).of_ok hcallee).2.admits hp
  have hentered := (openCall_ends hp hm harity).of_ok hopen
  have hlive := hentered.live hp
  have hsafe := run_safe.2 k frame.scope m.body q hentered.keeps.sound hlive hm.body 0
  refine ⟨fun flow r hbody => ?_, fun failure r hbody => ?_, fun habove r hr => ?_⟩
  · have hk : Keeps frame.scope.index q r := Ends.of_ok hsafe hbody
    have hends : Ends (attempt (enter (k + 1)) scope (.call name arity)) p
        (fun flow t => flow = .next ∧ t.memory.stack =
          (r.memory.stack.truncate (p.memory.stack.size - arity)).push (callResult r.returned))
        fun _ _ => False := by
      rw [ends_attempt_call harity hcallee hopen, ends_settle, ends_of_ok hbody,
        ends_closeCall hentered hp hk, hentered.base]
      exact ⟨rfl, rfl⟩
    obtain ⟨_, t, hrun, rfl, hstack⟩ := hends.exists_ok
    refine ⟨t, hrun, hstack, ?_⟩
    rw [hstack, Operands.push_left_inj, Operands.truncate_eq_iff]
  · have hk : Keeps frame.scope.index q r := Ends.of_error hsafe hbody
    have hends : Ends (attempt (enter (k + 1)) scope (.call name arity)) p (fun _ _ => False)
        (fun stop t => stop = .fault (failure.within (.method m.name)) ∧
          t.memory.stack = r.memory.stack.truncate (p.memory.stack.size - arity)) := by
      rw [ends_attempt_call harity hcallee hopen, ends_settle, ends_of_error hbody]
      show Ends (closeCall frame m.name (.error failure)) r _ _
      rw [ends_closeCall hentered hp hk, hentered.base]
      exact ⟨rfl, rfl⟩
    obtain ⟨_, t, hrun, rfl, hstack⟩ := hends.exists_error
    refine ⟨t, hrun, hstack, ?_⟩
    rw [hstack, Operands.truncate_eq_iff]
  · have hbelow := (run_leavesBelow (p.memory.stack.size - arity)).2 k frame.scope m.body q
      hentered.keeps.sound hlive hm.body habove 0
    have hcut : Operands.Below (p.memory.stack.size - arity) p.memory.stack q.memory.stack := by
      rw [hentered.stack, hentered.base]
      exact Operands.below_truncate (Nat.le_refl _)
    exact hcut.trans (Ends.of_completes hbelow hr)

/-- A method that takes nothing from its caller. -/
def pushThenCall : List Action :=
  [.pushLiteral (.int 1), .defineMethod "f" [] [.pushLiteral (.int 2), .ret], .call "f" 0]

theorem call_keeps_operand :
    ∃ p t, Meets 2 .global pushThenCall .silent 2 .global (.call "f" 0) p ∧
      attempt (enter 2) .global (.call "f" 0) p = .ok .next t ∧
      t.memory.stack = ⟨#[.int 1, .int 2]⟩ := by
  have hm : Meets 2 .global pushThenCall .silent 2 .global (.call "f" 0) _ :=
    .later rfl (.later rfl .here)
  obtain ⟨hok, -, -⟩ := call_isolated_iff reachable_silent rfl rfl hm (by decide) rfl rfl
  obtain ⟨t, ht, hstack, -⟩ := hok _ _ rfl
  exact ⟨_, t, hm, ht, hstack⟩

/-- A method that takes an element of its caller: the operand that was there before the call is
gone after it, and only the result is left. -/
def pushThenLose : List Action :=
  [.pushLiteral (.int 1), .defineMethod "f" [] [.pop], .call "f" 0]

theorem call_loses_operand :
    ∃ p t, Meets 2 .global pushThenLose .silent 2 .global (.call "f" 0) p ∧
      p.memory.stack = ⟨#[.int 1]⟩ ∧
      attempt (enter 2) .global (.call "f" 0) p = .ok .next t ∧ t.memory.stack = ⟨#[.none]⟩ :=
  ⟨_, _, .later rfl (.later rfl .here), rfl, rfl, rfl⟩

end ActionMachine
