import ActionMachine.Exec.Basic

/-
  How a computation ends. `Ends x p done stopped` says of the run of `x` from the program `p` that
  its result satisfies `done`, or that its early stop satisfies `stopped`. Each primitive has one
  rule, an equivalence, so that rewriting with the rules executes a computation step by step.
-/

namespace ActionMachine

/-! ## Pure computations -/

theorem bind_eq_ok_iff {ε α β : Type} {x : Except ε α} {f : α → Except ε β} {b : β} :
    x >>= f = .ok b ↔ ∃ a, x = .ok a ∧ f a = .ok b := by
  cases x with
  | error e => simp [bind, Except.bind]
  | ok a => simp [bind, Except.bind]

theorem bind_eq_error_iff {ε α β : Type} {x : Except ε α} {f : α → Except ε β} {e : ε} :
    x >>= f = .error e ↔ x = .error e ∨ ∃ a, x = .ok a ∧ f a = .error e := by
  cases x with
  | error e' => simp [bind, Except.bind]
  | ok a => simp [bind, Except.bind]

theorem eq_ok_of_toOption {ε α : Type} {e : Except ε α} {a : α} (h : e.toOption = some a) :
    e = .ok a := by
  cases e with
  | error => cases h
  | ok b => exact congrArg Except.ok (Option.some.inj h)

/-- Each result of a map comes from one of its arguments. -/
theorem exists_of_mem_mapM {ε α β : Type} {f : α → Except ε β} {as : List α} {bs : List β}
    (h : as.mapM f = .ok bs) {b : β} (hb : b ∈ bs) : ∃ a ∈ as, f a = .ok b := by
  induction as generalizing bs with
  | nil =>
    cases h
    cases hb
  | cons a as ih =>
    rw [List.mapM_cons] at h
    obtain ⟨c, hc, h⟩ := bind_eq_ok_iff.1 h
    obtain ⟨cs, hcs, h⟩ := bind_eq_ok_iff.1 h
    cases h
    rcases List.mem_cons.1 hb with rfl | hb
    · exact ⟨a, List.mem_cons_self, hc⟩
    · obtain ⟨a', hmem, ha'⟩ := ih hcs hb
      exact ⟨a', List.mem_cons_of_mem _ hmem, ha'⟩

/-- A map fails at one of its arguments. -/
theorem exists_of_mapM_eq_error {ε α β : Type} {f : α → Except ε β} {as : List α} {e : ε}
    (h : as.mapM f = .error e) : ∃ a ∈ as, f a = .error e := by
  induction as with
  | nil => cases h
  | cons a as ih =>
    rw [List.mapM_cons] at h
    rcases bind_eq_error_iff.1 h with h | ⟨b, -, h⟩
    · exact ⟨a, List.mem_cons_self, h⟩
    · rcases bind_eq_error_iff.1 h with h | ⟨bs, -, h⟩
      · obtain ⟨a', hmem, ha'⟩ := ih h
        exact ⟨a', List.mem_cons_of_mem _ hmem, ha'⟩
      · cases h

/-- The computation ends in a result or in a fault. -/
def Settled {ε α : Type} (e : Except (Stop ε) α) : Prop :=
  ∀ stop, e = .error stop → ∃ cause, stop = .fault cause

theorem settled_ok {ε α : Type} (a : α) : Settled (.ok a : Except (Stop ε) α) :=
  fun _ h => by cases h

theorem settled_fault {ε α : Type} (cause : ε) :
    Settled (.error (.fault cause) : Except (Stop ε) α) :=
  fun _ h => ⟨cause, (Except.error.inj h).symm⟩

end ActionMachine

namespace ActionMachine.Exec

variable {ε δ α β : Type} {p q : Program}

/-- From `p`, `x` gives a result and a program of which `done` holds, or a stop and a program of
which `stopped` holds. -/
def Ends (x : Exec ε α) (p : Program) (done : α → Program → Prop)
    (stopped : Stop ε → Program → Prop) : Prop :=
  match x p with
  | .ok a q => done a q
  | .error stop q => stopped stop q

/-- Stops without a breach: a fault leaves a program of which `refused` holds, a computation
without end one of which `endless` holds. -/
def Halts (refused : ε → Program → Prop) (endless : Program → Prop) : Stop ε → Program → Prop
  | .fault cause, q => refused cause q
  | .breach _, _ => False
  | .unending, q => endless q

theorem Halts.imp {refused refused' : ε → Program → Prop} {endless endless' : Program → Prop}
    {s : Stop ε} {q : Program} (h : Halts refused endless s q)
    (hr : ∀ cause, refused cause q → refused' cause q) (he : endless q → endless' q) :
    Halts refused' endless' s q := by
  cases s with
  | fault cause => exact hr cause h
  | breach v => exact h.elim
  | unending => exact he h

@[simp] theorem halts_map {refused : δ → Program → Prop} {endless : Program → Prop} {f : ε → δ}
    {s : Stop ε} {q : Program} :
    Halts refused endless (s.map f) q ↔ Halts (fun cause => refused (f cause)) endless s q := by
  cases s <;> rfl

theorem Ends.imp {x : Exec ε α} {done done' : α → Program → Prop}
    {stopped stopped' : Stop ε → Program → Prop} (h : Ends x p done stopped)
    (hd : ∀ a q, done a q → done' a q) (hs : ∀ s q, stopped s q → stopped' s q) :
    Ends x p done' stopped' := by
  unfold Ends at h ⊢
  cases hx : x p with
  | ok a q => rw [hx] at h; exact hd a q h
  | error s q => rw [hx] at h; exact hs s q h

theorem Ends.and {x : Exec ε α} {done done' : α → Program → Prop}
    {stopped stopped' : Stop ε → Program → Prop} (h : Ends x p done stopped)
    (h' : Ends x p done' stopped') :
    Ends x p (fun a q => done a q ∧ done' a q) (fun s q => stopped s q ∧ stopped' s q) := by
  unfold Ends at h h' ⊢
  cases hx : x p with
  | ok a q => rw [hx] at h h'; exact ⟨h, h'⟩
  | error s q => rw [hx] at h h'; exact ⟨h, h'⟩

/-- A result may be taken together with the run it comes from. -/
theorem Ends.with_run {x : Exec ε α} {done : α → Program → Prop}
    {stopped : Stop ε → Program → Prop} (h : Ends x p done stopped) :
    Ends x p (fun a q => x p = .ok a q ∧ done a q) (fun s q => x p = .error s q ∧ stopped s q) := by
  unfold Ends at h ⊢
  cases hx : x p with
  | ok a q => rw [hx] at h; exact ⟨rfl, h⟩
  | error s q => rw [hx] at h; exact ⟨rfl, h⟩

theorem Ends.of_ok {x : Exec ε α} {done : α → Program → Prop}
    {stopped : Stop ε → Program → Prop} (h : Ends x p done stopped) {a : α} {q : Program}
    (hx : x p = .ok a q) : done a q := by
  unfold Ends at h
  rw [hx] at h
  exact h

theorem Ends.of_error {x : Exec ε α} {done : α → Program → Prop}
    {stopped : Stop ε → Program → Prop} (h : Ends x p done stopped) {s : Stop ε} {q : Program}
    (hx : x p = .error s q) : stopped s q := by
  unfold Ends at h
  rw [hx] at h
  exact h

theorem Ends.anyhow (x : Exec ε α) (p : Program) :
    Ends x p (fun _ _ => True) fun _ _ => True := by
  unfold Ends
  split <;> trivial

theorem ends_of_ok {x : Exec ε α} {done : α → Program → Prop} {stopped : Stop ε → Program → Prop}
    {a : α} {q : Program} (hx : x p = .ok a q) : Ends x p done stopped ↔ done a q := by
  unfold Ends
  rw [hx]

theorem ends_of_error {x : Exec ε α} {done : α → Program → Prop}
    {stopped : Stop ε → Program → Prop} {s : Stop ε} {q : Program} (hx : x p = .error s q) :
    Ends x p done stopped ↔ stopped s q := by
  unfold Ends
  rw [hx]

/-- A computation that cannot stop early has a result. -/
theorem Ends.exists_ok {x : Exec ε α} {done : α → Program → Prop}
    (h : Ends x p done fun _ _ => False) : ∃ a q, x p = .ok a q ∧ done a q := by
  cases hx : x p with
  | ok a q => exact ⟨a, q, rfl, h.of_ok hx⟩
  | error s q => exact (h.of_error hx).elim

theorem Ends.exists_error {x : Exec ε α} {stopped : Stop ε → Program → Prop}
    (h : Ends x p (fun _ _ => False) stopped) : ∃ s q, x p = .error s q ∧ stopped s q := by
  cases hx : x p with
  | ok a q => exact (h.of_ok hx).elim
  | error s q => exact ⟨s, q, rfl, h.of_error hx⟩

theorem Ends.eq_ok {x : Exec ε α} {a : α}
    (h : Ends x p (fun b r => b = a ∧ r = q) fun _ _ => False) : x p = .ok a q := by
  obtain ⟨_, _, hx, rfl, rfl⟩ := h.exists_ok
  exact hx

theorem Ends.eq_error {x : Exec ε α} {s : Stop ε}
    (h : Ends x p (fun _ _ => False) fun t r => t = s ∧ r = q) : x p = .error s q := by
  obtain ⟨_, _, hx, rfl, rfl⟩ := h.exists_error
  exact hx

/-- A computation goes on from the result of its first part. -/
theorem bind_of_ok {x : Exec ε α} {f : α → Exec ε β} {b : α} (h : x p = .ok b q) :
    (x >>= f) p = f b q := by
  show EStateM.bind x f p = f b q
  unfold EStateM.bind
  rw [h]

theorem bind_of_error {x : Exec ε α} {f : α → Exec ε β} {s : Stop ε} (h : x p = .error s q) :
    (x >>= f) p = .error s q := by
  show EStateM.bind x f p = .error s q
  unfold EStateM.bind
  rw [h]

/-! ## Control -/

section Control

variable {done : β → Program → Prop} {stopped : Stop ε → Program → Prop}

@[simp] theorem ends_pure {b : β} : Ends (pure b : Exec ε β) p done stopped ↔ done b p := Iff.rfl

@[simp] theorem ends_throw {s : Stop ε} :
    Ends (throw s : Exec ε β) p done stopped ↔ stopped s p := Iff.rfl

@[simp] theorem ends_fault {f : Fault} {stopped : Stop Fault → Program → Prop} :
    Ends (fault f : Exec Fault β) p done stopped ↔ stopped (.fault f) p := Iff.rfl

@[simp] theorem ends_bind {x : Exec ε α} {f : α → Exec ε β} :
    Ends (x >>= f) p done stopped ↔
      Ends x p (fun a q => Ends (f a) q done stopped) stopped := by
  simp only [Ends, bind, EStateM.bind]
  cases x p <;> rfl

@[simp] theorem ends_map {f : α → β} {x : Exec ε α} :
    Ends (f <$> x) p done stopped ↔ Ends x p (fun a q => done (f a) q) stopped := by
  simp only [Ends, Functor.map, EStateM.map]
  cases x p <;> rfl

@[simp] theorem ends_ite {c : Prop} [Decidable c] {x y : Exec ε β} :
    Ends (if c then x else y) p done stopped ↔
      (c → Ends x p done stopped) ∧ (¬ c → Ends y p done stopped) := by
  split <;> simp [*]

/-- A fault that was settled is a result; other stops stay stops. -/
@[simp] theorem ends_settle {x : Exec δ α} {done : Except δ α → Program → Prop} :
    Ends (settle x : Exec ε (Except δ α)) p done stopped ↔
      Ends x p (fun a q => done (.ok a) q) (fun s q =>
        match s with
        | .fault cause => done (.error cause) q
        | .breach violation => stopped (.breach violation) q
        | .unending => stopped .unending q) := by
  unfold Ends settle
  cases x p with
  | ok a q => rfl
  | error s q => cases s <;> rfl

/-- Settled faults are results, so only a computation without end is left to stop. -/
theorem ends_settle_halts {x : Exec δ α} {done : Except δ α → Program → Prop}
    {refused : ε → Program → Prop} {endless : Program → Prop} :
    Ends (settle x : Exec ε (Except δ α)) p done (Halts refused endless) ↔
      Ends x p (fun a q => done (.ok a) q)
        (Halts (fun cause q => done (.error cause) q) endless) := by
  unfold Ends settle
  cases x p with
  | ok a q => rfl
  | error s q => cases s <;> rfl

@[simp] theorem ends_report {index : Nat} {action : String} {x : Exec Fault β}
    {stopped : Stop Failure → Program → Prop} :
    Ends (report index action x) p done stopped ↔
      Ends x p done (fun s q => stopped (s.map (Failure.mk index action)) q) := by
  unfold Ends report
  cases x p <;> rfl

end Control

/-! ## State -/

section State

variable {stopped : Stop ε → Program → Prop}

@[simp] theorem ends_get {done : Program → Program → Prop} :
    Ends (get : Exec ε Program) p done stopped ↔ done p p := Iff.rfl

@[simp] theorem ends_modify {f : Program → Program} {done : Unit → Program → Prop} :
    Ends (modify f : Exec ε Unit) p done stopped ↔ done () (f p) := Iff.rfl

@[simp] theorem ends_modifyGet {f : Program → β × Program} {done : β → Program → Prop} :
    Ends (modifyGet f : Exec ε β) p done stopped ↔ done (f p).1 (f p).2 := Iff.rfl

@[simp] theorem ends_setMemory {memory : Memory} {done : Unit → Program → Prop} :
    Ends (setMemory memory : Exec ε Unit) p done stopped ↔ done () { p with memory } := Iff.rfl

@[simp] theorem ends_setScopes {scopes : ScopeTree} {done : Unit → Program → Prop} :
    Ends (setScopes scopes : Exec ε Unit) p done stopped ↔ done () { p with scopes } := Iff.rfl

@[simp] theorem ends_push {value : Value} {done : Unit → Program → Prop} :
    Ends (push value : Exec ε Unit) p done stopped ↔ done () (p.mapStack (·.push value)) := Iff.rfl

@[simp] theorem ends_allocate {value : Value} {constant : Bool} {done : CellRef → Program → Prop} :
    Ends (allocate value constant : Exec ε CellRef) p done stopped ↔
      done (p.memory.allocate value constant).1
        { p with memory := (p.memory.allocate value constant).2 } := Iff.rfl

@[simp] theorem ends_allocateFrame {value : Value} {constant : Bool}
    {done : CellRef → Program → Prop} :
    Ends (allocateFrame value constant : Exec ε CellRef) p done stopped ↔
      done (p.memory.allocateFrame value constant).1
        { p with memory := (p.memory.allocateFrame value constant).2 } := Iff.rfl

end State

/-! ## Pure steps -/

section Pure

variable {done : β → Program → Prop}

@[simp] theorem ends_liftViolation {stopped : Stop ε → Program → Prop} {e : Except Violation β} :
    Ends (liftM e : Exec ε β) p done stopped ↔
      (∀ b, e = .ok b → done b p) ∧ ∀ v, e = .error v → stopped (.breach v) p := by
  cases e <;> simp [Ends] <;> rfl

@[simp] theorem ends_liftFault {stopped : Stop Fault → Program → Prop} {e : Except Fault β} :
    Ends (liftM e : Exec Fault β) p done stopped ↔
      (∀ b, e = .ok b → done b p) ∧ ∀ f, e = .error f → stopped (.fault f) p := by
  cases e <;> simp [Ends] <;> rfl

@[simp] theorem ends_liftStop {stopped : Stop ε → Program → Prop} {e : Except (Stop ε) β} :
    Ends (liftM e : Exec ε β) p done stopped ↔
      (∀ b, e = .ok b → done b p) ∧ ∀ s, e = .error s → stopped s p := by
  cases e <;> simp [Ends] <;> rfl

@[simp] theorem ends_onStack {stopped : Stop ε → Program → Prop}
    {f : Operands → Except (Stop ε) Operands} {done : Unit → Program → Prop} :
    Ends (onStack f) p done stopped ↔
      (∀ stack, f p.memory.stack = .ok stack → done () (p.mapStack fun _ => stack)) ∧
        ∀ s, f p.memory.stack = .error s → stopped s p := by
  simp only [onStack, ends_bind, ends_get, ends_liftStop, ends_modify]

@[simp] theorem ends_owned {op : String} {value : Value} {done : Value → Program → Prop}
    {stopped : Stop Fault → Program → Prop} :
    Ends (owned op value) p done stopped ↔
      (∀ w, p.memory.owned op value = .ok w → done w p) ∧
        ∀ f, p.memory.owned op value = .error f → stopped (.fault f) p := by
  simp only [owned, ends_bind, ends_get, ends_liftFault]

@[simp] theorem ends_ownedTop {op : String} {done : Value → Program → Prop}
    {stopped : Stop Fault → Program → Prop} :
    Ends (ownedTop op) p done stopped ↔
      (∀ v, p.memory.stack.top = .ok v →
        (∀ w, p.memory.owned op v = .ok w → done w p) ∧
          ∀ f, p.memory.owned op v = .error f → stopped (.fault f) p) ∧
        ∀ v, p.memory.stack.top = .error v → stopped (.breach v) p := by
  simp only [ownedTop, ends_bind, ends_get, ends_liftViolation, ends_owned]

@[simp] theorem ends_resolve {scope : ScopeId} {name : Name} {done : CellRef → Program → Prop}
    {stopped : Stop Fault → Program → Prop} :
    Ends (resolve scope name) p done stopped ↔
      (∀ target, p.scopes.resolve scope name = .ok target → done target p) ∧
        ∀ s, p.scopes.resolve scope name = .error s → stopped s p := by
  simp only [resolve, ends_bind, ends_get, ends_liftStop]

end Pure

end ActionMachine.Exec
