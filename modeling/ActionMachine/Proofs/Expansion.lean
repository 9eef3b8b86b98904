import Mathlib.Data.List.Basic
import ActionMachine.Proofs.Flatness
import ActionMachine.Proofs.Walks

/-
  Texts with references followed. To expand a value is to put, for each reference in it at any
  depth, what the reference leads to; a reference that leads nowhere stays. The text that is shown
  of a value is the own text of its expansion, and there is no text exactly if the expansion has no
  end (`render?_displays_expansion`). With each opening more some cell gets a text that had none, or
  no cell ever does, so as many openings inside one another as there are cells are enough
  (`Value.exists_settled`).
-/

namespace ActionMachine

/-! ## Expansions -/

namespace Reader

mutual

/-- What the value is when each reference in it is replaced by what it leads to. -/
inductive Expands (read : Reader) : Value → Value → Prop where
  /-- A reference that leads nowhere is left as it is, whatever other references it leads to. -/
  | stuck {v : Value} {fault : Fault} (hfollow : read.follow v = .error fault) : Expands read v v
  | followed {v u w : Value} (hfollow : read.follow v = .ok u) (hparts : ExpandsParts read u w) :
      Expands read v w

/-- What a value that is no reference is when its parts are expanded. -/
inductive ExpandsParts (read : Reader) : Value → Value → Prop where
  | plain {v : Value} (hlist : v.list? = none) (hobject : v.object? = none) : ExpandsParts read v v
  | list {items items' : List Value} (hitems : ExpandsItems read items items') :
      ExpandsParts read (.list items) (.list items')
  | object {o : Object} {members' : List Member}
      (hmembers : ExpandsMembers read o.members members') :
      ExpandsParts read (.object o) (.object { o with members := members' })

inductive ExpandsItems (read : Reader) : List Value → List Value → Prop where
  | nil : ExpandsItems read [] []
  | cons {v w : Value} {items items' : List Value} (hitem : Expands read v w)
      (hitems : ExpandsItems read items items') : ExpandsItems read (v :: items) (w :: items')

inductive ExpandsMembers (read : Reader) : List Member → List Member → Prop where
  | nil : ExpandsMembers read [] []
  | cons {name : Name} {v w : Value} {members members' : List Member} (hvalue : Expands read v w)
      (hmembers : ExpandsMembers read members members') :
      ExpandsMembers read (⟨name, v⟩ :: members) (⟨name, w⟩ :: members')

end

variable {read : Reader} {u v w : Value}

/-- What a reference leads to expands as the reference does. -/
theorem Expands.of_follow (hfollow : read.follow v = .ok u) (h : read.Expands u w) :
    read.Expands v w := by
  have hsame : read.follow u = .ok u := follow_of_plain (isReference_follow hfollow)
  cases h with
  | stuck herror => cases hsame.symm.trans herror
  | followed hok hparts =>
    cases hsame.symm.trans hok
    exact .followed hfollow hparts

mutual

theorem Expands.unique {v w w' : Value} (h : read.Expands v w) (h' : read.Expands v w') :
    w' = w := by
  match h, h' with
  | .stuck _, .stuck _ => rfl
  | .stuck hfollow, .followed hfollow' _ => cases hfollow.symm.trans hfollow'
  | .followed hfollow _, .stuck hfollow' => cases hfollow.symm.trans hfollow'
  | .followed hfollow hparts, .followed hfollow' hparts' =>
    cases hfollow.symm.trans hfollow'
    exact hparts.unique hparts'

theorem ExpandsParts.unique {v w w' : Value} (h : read.ExpandsParts v w)
    (h' : read.ExpandsParts v w') : w' = w := by
  match h with
  | .plain hlist hobject =>
    cases h' with
    | plain => rfl
    | list => cases hlist
    | object => cases hobject
  | .list hitems =>
    cases h' with
    | plain hlist => cases hlist
    | list hitems' => rw [hitems.unique hitems']
  | .object hmembers =>
    cases h' with
    | plain hlist hobject => cases hobject
    | object hmembers' => rw [hmembers.unique hmembers']

theorem ExpandsItems.unique {items items' items'' : List Value}
    (h : read.ExpandsItems items items') (h' : read.ExpandsItems items items'') :
    items'' = items' := by
  match h, h' with
  | .nil, .nil => rfl
  | .cons hitem hitems, .cons hitem' hitems' => rw [hitem.unique hitem', hitems.unique hitems']

theorem ExpandsMembers.unique {members members' members'' : List Member}
    (h : read.ExpandsMembers members members') (h' : read.ExpandsMembers members members'') :
    members'' = members' := by
  match h, h' with
  | .nil, .nil => rfl
  | .cons hvalue hmembers, .cons hvalue' hmembers' =>
    rw [hvalue.unique hvalue', hmembers.unique hmembers']

end

end Reader

/-! ## Texts made with what references are opened to -/

namespace Value

variable {read : Reader} {opened opened' : Value → Option String} {v w : Value} {text : String}

theorem renderWith_reference_ok {target : Option CellRef}
    (h : read.follow (.reference target) = .ok w) :
    renderWith read opened (.reference target) = opened w := by
  rw [renderWith, h]

theorem renderWith_stuck {fault : Fault} (h : read.follow v = .error fault) :
    renderWith read opened v = some v.display := by
  cases v with
  | reference target => rw [renderWith, h]
  | _ => cases (Reader.follow_of_plain rfl).symm.trans h

theorem renderWith_plain (href : v.isReference = false) (hlist : v.list? = Option.none)
    (hobject : v.object? = Option.none) : renderWith read opened v = some v.display := by
  cases v with
  | reference => cases href
  | list => cases hlist
  | object => cases hobject
  | _ => simp [renderWith]

theorem renderWith_object (o : Object) : renderWith read opened (.object o) =
    (renderMembers read opened o.members).map (braced o.className) := by
  obtain ⟨_, _, _, _, _⟩ := o
  rw [renderWith]

theorem renderItems_cons_eq_some_iff {item : Value} {items : List Value} {texts : List String} :
    renderItems read opened (item :: items) = some texts ↔
      ∃ text rest, renderWith read opened item = some text ∧
        renderItems read opened items = some rest ∧ text :: rest = texts := by
  simp [renderItems, Option.bind_eq_some_iff]

theorem renderMembers_cons_eq_some_iff {name : Name} {v : Value} {members : List Member}
    {texts : List String} :
    renderMembers read opened (⟨name, v⟩ :: members) = some texts ↔
      ∃ text rest, renderWith read opened v = some text ∧
        renderMembers read opened members = some rest ∧ memberText name text :: rest = texts := by
  simp [renderMembers, Option.bind_eq_some_iff]

mutual

/-- A text depends on nothing but the texts of the references in it. -/
theorem renderWith_mono
    (h : ∀ target text, renderWith read opened (.reference target) = some text →
      renderWith read opened' (.reference target) = some text) (v : Value) (text : String)
    (hv : renderWith read opened v = some text) : renderWith read opened' v = some text := by
  cases v with
  | reference target => exact h target text hv
  | list items =>
    rw [renderWith] at hv ⊢
    obtain ⟨texts, htexts, rfl⟩ := Option.map_eq_some_iff.1 hv
    rw [renderItems_mono h items texts htexts, Option.map_some]
  | object o =>
    obtain ⟨scope, className, typeId, members, index⟩ := o
    rw [renderWith] at hv ⊢
    obtain ⟨texts, htexts, rfl⟩ := Option.map_eq_some_iff.1 hv
    rw [renderMembers_mono h members texts htexts, Option.map_some]
  | _ =>
    simp only [renderWith] at hv ⊢
    exact hv

theorem renderItems_mono
    (h : ∀ target text, renderWith read opened (.reference target) = some text →
      renderWith read opened' (.reference target) = some text) (items : List Value)
    (texts : List String) (hitems : renderItems read opened items = some texts) :
    renderItems read opened' items = some texts := by
  cases items with
  | nil => rwa [renderItems] at hitems ⊢
  | cons item items =>
    obtain ⟨text, rest, htext, hrest, rfl⟩ := renderItems_cons_eq_some_iff.1 hitems
    exact renderItems_cons_eq_some_iff.2
      ⟨text, rest, renderWith_mono h item text htext, renderItems_mono h items rest hrest, rfl⟩

theorem renderMembers_mono
    (h : ∀ target text, renderWith read opened (.reference target) = some text →
      renderWith read opened' (.reference target) = some text) (members : List Member)
    (texts : List String) (hmembers : renderMembers read opened members = some texts) :
    renderMembers read opened' members = some texts := by
  match members with
  | [] => rwa [renderMembers] at hmembers ⊢
  | ⟨name, v⟩ :: members =>
    obtain ⟨text, rest, htext, hrest, rfl⟩ := renderMembers_cons_eq_some_iff.1 hmembers
    exact renderMembers_cons_eq_some_iff.2
      ⟨text, rest, renderWith_mono h v text htext, renderMembers_mono h members rest hrest, rfl⟩

end

theorem renderWith_mono_opened
    (h : ∀ w text, opened w = some text → opened' w = some text)
    (hv : renderWith read opened v = some text) : renderWith read opened' v = some text := by
  refine renderWith_mono (fun target text htarget => ?_) v text hv
  cases hfollow : read.follow (.reference target) with
  | error fault => rwa [renderWith_stuck hfollow] at htarget ⊢
  | ok w =>
    rw [renderWith_reference_ok hfollow] at htarget ⊢
    exact h w text htarget

mutual

/-- If what references are opened to has the text of an expansion, so has every value. -/
theorem expands_of_renderWith
    (hopened : ∀ v text, opened v = some text → ∃ w, read.Expands v w ∧ w.display = text)
    (v : Value) (text : String) (h : renderWith read opened v = some text) :
    ∃ w, read.Expands v w ∧ w.display = text := by
  cases v with
  | reference target =>
    cases hfollow : read.follow (.reference target) with
    | error fault =>
      rw [renderWith_stuck hfollow, Option.some.injEq] at h
      exact ⟨_, .stuck hfollow, h⟩
    | ok next =>
      rw [renderWith_reference_ok hfollow] at h
      obtain ⟨w, hw, htext⟩ := hopened next text h
      exact ⟨w, hw.of_follow hfollow, htext⟩
  | list items =>
    rw [renderWith] at h
    obtain ⟨texts, htexts, rfl⟩ := Option.map_eq_some_iff.1 h
    obtain ⟨items', hitems, rfl⟩ := expandsItems_of_renderItems hopened items texts htexts
    exact ⟨.list items', .followed (Reader.follow_of_plain rfl) (.list hitems), by rw [display]⟩
  | object o =>
    obtain ⟨scope, className, typeId, members, index⟩ := o
    rw [renderWith] at h
    obtain ⟨texts, htexts, rfl⟩ := Option.map_eq_some_iff.1 h
    obtain ⟨members', hmembers, rfl⟩ := expandsMembers_of_renderMembers hopened members texts htexts
    exact ⟨_, .followed (Reader.follow_of_plain rfl) (.object hmembers),
      by rw [display, Object.display]⟩
  | _ =>
    simp only [renderWith, Option.some.injEq] at h
    exact ⟨_, .followed (Reader.follow_of_plain rfl) (.plain rfl rfl), h⟩

theorem expandsItems_of_renderItems
    (hopened : ∀ v text, opened v = some text → ∃ w, read.Expands v w ∧ w.display = text)
    (items : List Value) (texts : List String) (h : renderItems read opened items = some texts) :
    ∃ items', read.ExpandsItems items items' ∧ displayItems items' = texts := by
  cases items with
  | nil =>
    rw [renderItems, Option.some.injEq] at h
    exact ⟨[], .nil, by rw [displayItems, h]⟩
  | cons item items =>
    obtain ⟨text, rest, htext, hrest, rfl⟩ := renderItems_cons_eq_some_iff.1 h
    obtain ⟨w, hw, rfl⟩ := expands_of_renderWith hopened item text htext
    obtain ⟨items', hitems, rfl⟩ := expandsItems_of_renderItems hopened items rest hrest
    exact ⟨w :: items', .cons hw hitems, by rw [displayItems]⟩

theorem expandsMembers_of_renderMembers
    (hopened : ∀ v text, opened v = some text → ∃ w, read.Expands v w ∧ w.display = text)
    (members : List Member) (texts : List String)
    (h : renderMembers read opened members = some texts) :
    ∃ members', read.ExpandsMembers members members' ∧
      Object.displayMembers members' = texts := by
  match members with
  | [] =>
    rw [renderMembers, Option.some.injEq] at h
    exact ⟨[], .nil, by rw [Object.displayMembers, h]⟩
  | ⟨name, v⟩ :: members =>
    obtain ⟨text, rest, htext, hrest, rfl⟩ := renderMembers_cons_eq_some_iff.1 h
    obtain ⟨w, hw, rfl⟩ := expands_of_renderWith hopened v text htext
    obtain ⟨members', hmembers, rfl⟩ := expandsMembers_of_renderMembers hopened members rest hrest
    exact ⟨⟨name, w⟩ :: members', .cons hw hmembers, by rw [Object.displayMembers]⟩

end

/-! ## Texts made with so many openings -/

/-- Each opened reference takes one from the number of openings. -/
theorem render?_succ_reference {target : Option CellRef} {depth : Nat}
    (h : read.follow (.reference target) = .ok w) :
    render? read (depth + 1) (.reference target) = render? read depth w := by
  rw [render?_eq_renderWith, renderWith_reference_ok h, openedWithin]

theorem render?_stuck {fault : Fault} (h : read.follow v = .error fault) (depth : Nat) :
    render? read depth v = some v.display := by
  rw [render?_eq_renderWith, renderWith_stuck h]

/-- What is shown is the text of an expansion. -/
theorem expands_of_render? {depth : Nat} (h : render? read depth v = some text) :
    ∃ w, read.Expands v w ∧ w.display = text := by
  rw [render?_eq_renderWith] at h
  induction depth generalizing v text with
  | zero => exact expands_of_renderWith (fun _ _ hnone => by cases hnone) v text h
  | succ depth ih =>
    refine expands_of_renderWith (fun v text hopened => ih ?_) v text h
    rwa [openedWithin, render?_eq_renderWith] at hopened

/-- More openings show the same. -/
theorem render?_succ {depth : Nat} (h : render? read depth v = some text) :
    render? read (depth + 1) v = some text := by
  rw [render?_eq_renderWith] at h ⊢
  induction depth generalizing v text with
  | zero => exact renderWith_mono_opened (fun _ _ hnone => by cases hnone) h
  | succ depth ih =>
    refine renderWith_mono_opened (fun w text hopened => ?_) h
    rw [openedWithin, render?_eq_renderWith] at hopened ⊢
    exact ih hopened

theorem render?_mono {depth depth' : Nat} (hle : depth ≤ depth')
    (h : render? read depth v = some text) : render? read depth' v = some text := by
  induction hle with
  | refl => exact h
  | step _ ih => exact render?_succ ih

/-- With enough openings the value has this text. -/
def Shows (read : Reader) (v : Value) (text : String) : Prop :=
  ∃ enough, ∀ depth, enough ≤ depth → render? read depth v = some text

/-- A value that is reached by following shows the same as where it was reached from. -/
theorem Shows.of_follow (hfollow : read.follow v = .ok w) (h : Shows read w text) :
    Shows read v text := by
  obtain ⟨enough, h⟩ := h
  refine ⟨enough + 1, fun depth hdepth => ?_⟩
  obtain ⟨depth, rfl⟩ := Nat.exists_eq_add_of_le' (Nat.le_of_add_left_le hdepth)
  cases v with
  | reference target =>
    rw [render?_succ_reference hfollow]
    exact h depth (Nat.le_of_succ_le_succ hdepth)
  | _ =>
    cases (Reader.follow_of_plain rfl).symm.trans hfollow
    exact h _ (Nat.le_of_succ_le hdepth)

mutual

theorem Shows.of_expands {v w : Value} (h : read.Expands v w) : Shows read v w.display := by
  match h with
  | .stuck hfollow => exact ⟨0, fun depth _ => render?_stuck hfollow depth⟩
  | .followed hfollow hparts =>
    exact .of_follow hfollow (Shows.of_parts (Reader.isReference_follow hfollow) hparts)

theorem Shows.of_parts {v w : Value} (href : v.isReference = false)
    (h : read.ExpandsParts v w) : Shows read v w.display := by
  match h with
  | .plain hlist hobject =>
    refine ⟨0, fun depth _ => ?_⟩
    rw [render?_eq_renderWith, renderWith_plain href hlist hobject]
  | .list hitems =>
    obtain ⟨enough, hall⟩ := exists_renderItems hitems
    refine ⟨enough, fun depth hdepth => ?_⟩
    rw [render?_eq_renderWith, renderWith, hall depth hdepth, display, Option.map_some]
  | .object hmembers =>
    obtain ⟨enough, hall⟩ := exists_renderMembers hmembers
    refine ⟨enough, fun depth hdepth => ?_⟩
    rw [render?_eq_renderWith, renderWith_object, hall depth hdepth, display, Object.display,
      Option.map_some]

theorem exists_renderItems {items items' : List Value} (h : read.ExpandsItems items items') :
    ∃ enough, ∀ depth, enough ≤ depth →
      renderItems read (openedWithin read depth) items = some (displayItems items') := by
  match h with
  | .nil => exact ⟨0, fun _ _ => by rw [renderItems, displayItems]⟩
  | .cons hitem hitems =>
    obtain ⟨first, hfirst⟩ := Shows.of_expands hitem
    obtain ⟨rest, hrest⟩ := exists_renderItems hitems
    refine ⟨max first rest, fun depth hdepth => ?_⟩
    obtain ⟨hone, hothers⟩ := Nat.max_le.1 hdepth
    rw [displayItems, renderItems_cons_eq_some_iff]
    exact ⟨_, _, render?_eq_renderWith depth _ ▸ hfirst depth hone, hrest depth hothers, rfl⟩

theorem exists_renderMembers {members members' : List Member}
    (h : read.ExpandsMembers members members') :
    ∃ enough, ∀ depth, enough ≤ depth →
      renderMembers read (openedWithin read depth) members =
        some (Object.displayMembers members') := by
  match h with
  | .nil => exact ⟨0, fun _ _ => by rw [renderMembers, Object.displayMembers]⟩
  | .cons hvalue hmembers =>
    obtain ⟨first, hfirst⟩ := Shows.of_expands hvalue
    obtain ⟨rest, hrest⟩ := exists_renderMembers hmembers
    refine ⟨max first rest, fun depth hdepth => ?_⟩
    obtain ⟨hone, hothers⟩ := Nat.max_le.1 hdepth
    rw [Object.displayMembers, renderMembers_cons_eq_some_iff]
    exact ⟨_, _, render?_eq_renderWith depth _ ▸ hfirst depth hone, hrest depth hothers, rfl⟩

end

/-! ## How many openings are enough -/

/-- With one opening more nothing has a text that had none before. -/
def Settled (read : Reader) (depth : Nat) : Prop :=
  ∀ v text, render? read (depth + 1) v = some text → render? read depth v = some text

theorem Settled.render? {depth : Nat} (hsettled : Settled read depth) (extra : Nat)
    (h : render? read (depth + extra) v = some text) : render? read depth v = some text := by
  induction extra generalizing v text with
  | zero => exact h
  | succ extra ih =>
    refine hsettled v text ?_
    rw [render?_eq_renderWith] at h ⊢
    exact renderWith_mono_opened (fun _ _ hopened => ih hopened) h

/-- The cells a reference to which has a text with `depth` openings. -/
def shownCells (read : Reader) (cells : List CellRef) (depth : Nat) : List CellRef :=
  cells.filter fun target => (render? read depth (.reference (some target))).isSome

theorem shownCells_sublist (read : Reader) (cells : List CellRef) (depth : Nat) :
    (shownCells read cells depth).Sublist (shownCells read cells (depth + 1)) := by
  refine List.monotone_filter_right cells fun target htarget => ?_
  obtain ⟨text, htext⟩ := Option.isSome_iff_exists.1 htarget
  rw [render?_succ htext, Option.isSome_some]

/-- A text depends on the cells only, so nothing is new if no cell is. -/
theorem settled_of_length_le {cells : List CellRef} {depth : Nat}
    (hcells : ∀ target, (read target).isSome = true → target ∈ cells)
    (hlength : (shownCells read cells (depth + 1)).length ≤ (shownCells read cells depth).length) :
    Settled read depth := by
  have hsame := (shownCells_sublist read cells depth).eq_of_length_le hlength
  intro v text h
  -- only a reference to a live cell could gain from one opening more
  rw [render?_eq_renderWith] at h ⊢
  refine renderWith_mono (fun target text htarget => ?_) v text h
  rw [← render?_eq_renderWith] at htarget ⊢
  cases target with
  | none => rwa [render?_stuck rfl] at htarget ⊢
  | some target =>
    cases hread : read target with
    | none =>
      have hfollow : read.follow (.reference (some target)) = .error (.danglingReference target) :=
        Reader.followWithin_dangling hread 65535
      rwa [render?_stuck hfollow] at htarget ⊢
    | some next =>
      have hmem : target ∈ shownCells read cells (depth + 1) :=
        List.mem_filter.2 ⟨hcells target (by rw [hread, Option.isSome_some]),
          by rw [htarget, Option.isSome_some]⟩
      rw [← hsame] at hmem
      obtain ⟨text', htext'⟩ := Option.isSome_iff_exists.1 (List.mem_filter.1 hmem).2
      rw [← htarget, htext', render?_succ htext']

/-- As many openings inside one another as there are cells show everything that can be shown: the
cells with a text become more with each further opening until they stay the same. -/
theorem exists_settled {cells : List CellRef}
    (hcells : ∀ target, (read target).isSome = true → target ∈ cells) :
    ∃ depth, depth ≤ cells.length ∧ Settled read depth := by
  by_contra hnone
  -- otherwise each opening adds a cell, one more in the end than there are
  have hgrows : ∀ depth ≤ cells.length,
      (shownCells read cells depth).length < (shownCells read cells (depth + 1)).length :=
    fun depth hdepth => Nat.lt_of_not_le fun hlength =>
      hnone ⟨depth, hdepth, settled_of_length_le hcells hlength⟩
  have hcount : ∀ depth ≤ cells.length + 1, depth ≤ (shownCells read cells depth).length := by
    intro depth
    induction depth with
    | zero => exact fun _ => Nat.zero_le _
    | succ depth ih =>
      intro hdepth
      have hle := ih (Nat.le_of_succ_le hdepth)
      have hlt := hgrows depth (Nat.le_of_succ_le_succ hdepth)
      omega
  have hmany := hcount (cells.length + 1) (Nat.le_refl _)
  have hfew : (shownCells read cells (cells.length + 1)).length ≤ cells.length :=
    List.length_filter_le _ _
  omega

/-- What has a text has it with as many openings as there are cells. -/
theorem render?_eq_some_iff {cells : List CellRef}
    (hcells : ∀ target, (read target).isSome = true → target ∈ cells) :
    render? read cells.length v = some text ↔ ∃ w, read.Expands v w ∧ w.display = text := by
  constructor
  · exact expands_of_render?
  · rintro ⟨w, hw, rfl⟩
    obtain ⟨depth, hdepth, hsettled⟩ := exists_settled hcells
    obtain ⟨enough, hshows⟩ := Shows.of_expands hw
    exact render?_mono hdepth (hsettled.render? enough (hshows _ (Nat.le_add_left enough depth)))

end Value

/-! ## Memory -/

namespace Memory

variable {m : Memory}

/-- The handles of all live cells and elements. -/
def handles (m : Memory) : List CellRef :=
  (List.range m.arena.size).map m.staticRef ++ (List.range m.frame.size).map .frame ++
    (List.range m.stack.size).map .stack

theorem length_handles (m : Memory) : m.handles.length = m.size := by
  simp [handles, size, Nat.add_assoc]

theorem mem_handles {target : CellRef} (h : (m.read target).isSome = true) :
    target ∈ m.handles := by
  obtain ⟨v, hv⟩ := Option.isSome_iff_exists.1 h
  simp only [handles, List.mem_append, List.mem_map, List.mem_range]
  cases target with
  | static cell =>
    obtain ⟨harena, hcell⟩ : cell.arena = m.id ∧ m.arena.get? cell.index = some v :=
      Option.ite_none_right_eq_some.1 hv
    refine .inl (.inl ⟨cell.index, Cells.lt_size_of_get? hcell, ?_⟩)
    rw [staticRef, ← harena]
  | frame i => exact .inl (.inr ⟨i, Cells.lt_size_of_get? hv, rfl⟩)
  | stack i => exact .inr ⟨i, (Array.getElem?_eq_some_iff.1 hv).1, rfl⟩

end Memory

/-- The text that is shown of a value with its references followed is the own text of its
expansion. An expansion is unique; if there is one, any number of openings that is large enough
shows it, and in a memory the number of cells is large enough; if there is none, there is no text.
A value without references has its own text with every reader and in every memory. -/
theorem render?_displays_expansion :
    (∀ (read : Reader) (v w : Value), read.Expands v w →
      (∀ w', read.Expands v w' → w' = w) ∧
        ∃ enough, ∀ depth, enough ≤ depth → v.render? read depth = some w.display) ∧
    (∀ (read : Reader) (v : Value) (depth : Nat) (text : String),
      v.render? read depth = some text → ∃ w, read.Expands v w ∧ w.display = text) ∧
    (∀ (m : Memory) (v : Value) (text : String),
      m.render? v = some text ↔ ∃ w, m.read.Expands v w ∧ w.display = text) ∧
    ∀ v : Value, v.referenceFree = true →
      (∀ (read : Reader) (depth : Nat), v.render? read depth = some v.display) ∧
        ∀ m : Memory, m.render? v = some v.display := by
  refine ⟨fun read v w h => ⟨fun w' => h.unique, Value.Shows.of_expands h⟩,
    fun read v depth text => Value.expands_of_render?, fun m v text => ?_, fun v hfree => ⟨?_, ?_⟩⟩
  · rw [Memory.render?, ← m.length_handles]
    exact Value.render?_eq_some_iff fun _ => Memory.mem_handles
  · intro read depth
    rw [Value.render?_eq_renderWith, Value.renderWith_eq _ _ v hfree]
  · exact fun m => m.render?_eq hfree

end ActionMachine
