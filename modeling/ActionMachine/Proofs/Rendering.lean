import ActionMachine.Value.Rendering

/-
  Two printers, one text. The renderer writes a list or an object piece by piece to the end of an
  output, with a separator before each part but the first; the printer joins the texts of the parts
  and sets them in brackets or braces. What is written does not depend on what stands before it, and
  it is what the printer makes of the same parts (`writeWith_eq`).
-/

namespace ActionMachine

/-! ## Separators -/

/-- The texts of a list from the one at `index` on, each behind the separator but for the one at
index 0. -/
def separated (separator : String) : Nat → List String → String
  | _, [] => ""
  | index, text :: texts =>
    (if index > 0 then separator else "") ++ text ++ separated separator (index + 1) texts

/-- Behind the first text, every text has the separator before it. -/
theorem separated_succ (separator : String) (index : Nat) (texts : List String) :
    separated separator (index + 1) texts = String.join (texts.map (separator ++ ·)) := by
  induction texts generalizing index with
  | nil => rfl
  | cons text texts ih =>
    rw [separated, if_pos index.succ_pos, ih, List.map_cons, String.join_cons]

theorem intercalate_cons (separator text : String) (texts : List String) :
    separator.intercalate (text :: texts) =
      text ++ String.join (texts.map (separator ++ ·)) := by
  induction texts generalizing text with
  | nil => simp
  | cons next texts ih =>
    rw [String.intercalate_cons_cons, ih, List.map_cons, String.join_cons, String.append_assoc,
      String.append_assoc]

/-- A separator before each text but the first is a separator between any two. -/
theorem separated_zero (separator : String) (texts : List String) :
    separated separator 0 texts = separator.intercalate texts := by
  cases texts with
  | nil => simp [separated]
  | cons text texts => simp [separated, separated_succ, intercalate_cons]

namespace Value

/-! ## Texts from parts -/

mutual

/-- What the printer makes of a value where `opened` gives the text of what a reference leads
to. -/
def renderWith (read : Reader) (opened : Value → Option String) : Value → Option String
  | .reference target =>
    match read.follow (.reference target) with
    | .ok value => opened value
    | .error _ => some (display (.reference target))
  | .list items => (renderItems read opened items).map bracketed
  | .object ⟨_, className, _, members, _⟩ =>
    (renderMembers read opened members).map (braced className)
  | value => some value.display

def renderItems (read : Reader) (opened : Value → Option String) :
    List Value → Option (List String)
  | [] => some []
  | item :: items => do
    let text ← renderWith read opened item
    let texts ← renderItems read opened items
    return text :: texts

def renderMembers (read : Reader) (opened : Value → Option String) :
    List Member → Option (List String)
  | [] => some []
  | ⟨name, value⟩ :: members => do
    let text ← renderWith read opened value
    let texts ← renderMembers read opened members
    return memberText name text :: texts

end

variable {read : Reader} {write : String → Value → Option String}
  {opened : Value → Option String}

theorem isEmpty_renderMembers {members : List Member} {texts : List String}
    (h : renderMembers read opened members = some texts) : texts.isEmpty = members.isEmpty := by
  match members with
  | [] =>
    cases h
    rfl
  | ⟨name, v⟩ :: members =>
    obtain ⟨text, -, h⟩ := Option.bind_eq_some_iff.1 h
    obtain ⟨rest, -, h⟩ := Option.bind_eq_some_iff.1 h
    cases h
    rfl

mutual

/-- What is written of a value is its text, behind whatever was there. -/
theorem writeWith_eq (h : ∀ out v, write out v = (opened v).map (out ++ ·)) :
    (out : String) → (v : Value) →
      writeWith read write out v = (renderWith read opened v).map (out ++ ·)
  | out, .reference target => by
    rw [writeWith, renderWith]
    cases read.follow (.reference target) with
    | ok v => exact h out v
    | error cause => rfl
  | out, .list items => by
    rw [writeWith, renderWith, writeItems_eq h]
    cases renderItems read opened items with
    | none => rfl
    | some texts => simp [bracketed, separated_zero, String.append_assoc]
  | out, .object ⟨_, className, _, members, _⟩ => by
    rw [writeWith, renderWith, writeMembers_eq h]
    cases hmembers : renderMembers read opened members with
    | none => rfl
    | some texts =>
      simp [braced, separated_zero, isEmpty_renderMembers hmembers, String.append_assoc]
  | out, .int _ | out, .uint _ | out, .float _ | out, .bool _ | out, .char _ | out, .byte _
  | out, .view _ | out, .none | out, .undefined | out, .str _ | out, .scope _ | out, .method _
  | out, .native _ => by simp [writeWith, renderWith]

theorem writeItems_eq (h : ∀ out v, write out v = (opened v).map (out ++ ·)) :
    (index : Nat) → (out : String) → (items : List Value) →
      writeItems read write index out items =
        (renderItems read opened items).map (out ++ separated ", " index ·)
  | index, out, [] => by simp [writeItems, renderItems, separated]
  | index, out, item :: items => by
    rw [writeItems, renderItems, writeWith_eq h]
    cases renderWith read opened item with
    | none => rfl
    | some text =>
      rw [Option.map_some, Option.bind_eq_bind, Option.bind_some, writeItems_eq h]
      cases renderItems read opened items with
      | none => rfl
      | some texts =>
        show some _ = some (out ++ separated ", " index (text :: texts))
        rw [separated]
        split <;> simp only [String.append_assoc, String.empty_append]

theorem writeMembers_eq (h : ∀ out v, write out v = (opened v).map (out ++ ·)) :
    (index : Nat) → (out : String) → (members : List Member) →
      writeMembers read write index out members =
        (renderMembers read opened members).map (out ++ separated "," index ·)
  | index, out, [] => by simp [writeMembers, renderMembers, separated]
  | index, out, ⟨name, v⟩ :: members => by
    rw [writeMembers, renderMembers, writeWith_eq h]
    cases renderWith read opened v with
    | none => rfl
    | some text =>
      rw [Option.map_some, Option.bind_eq_bind, Option.bind_some, writeMembers_eq h]
      cases renderMembers read opened members with
      | none => rfl
      | some texts =>
        show some _ = some (out ++ separated "," index (memberText name text :: texts))
        rw [separated, memberText]
        split <;> simp only [String.append_assoc, String.empty_append]

end

/-! ## Openings -/

/-- What a reference is opened to where `depth` references may be opened inside one another. -/
def openedWithin (read : Reader) : Nat → Value → Option String
  | 0 => fun _ => Option.none
  | depth + 1 => render? read depth

/-- What is written does not depend on the output. -/
theorem write?_eq (depth : Nat) (out : String) (v : Value) :
    write? read depth out v = (renderWith read (openedWithin read depth) v).map (out ++ ·) := by
  induction depth generalizing out v with
  | zero =>
    have hnone : ∀ (out : String) (v : Value), (Option.none : Option String) =
        (openedWithin read 0 v).map (out ++ ·) := fun _ _ => rfl
    exact writeWith_eq hnone out v
  | succ depth ih =>
    refine writeWith_eq (fun out v => ?_) out v
    have hrender : render? read depth v = renderWith read (openedWithin read depth) v := by
      simp [render?, ih]
    rw [ih, openedWithin, hrender]

theorem render?_eq_renderWith (depth : Nat) (v : Value) :
    render? read depth v = renderWith read (openedWithin read depth) v := by
  simp [render?, write?_eq]

end Value

end ActionMachine
