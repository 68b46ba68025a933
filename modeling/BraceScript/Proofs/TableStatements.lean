import BraceScript.Proofs.NestedTables

/-!
# The statements of a TOML document

A document is read as a sequence of statements: headers of tables, headers of items, and rows
(`Toml.statementsOf`).  Which of them make the table behind a path can be told from each statement
alone (`Statement.Makes`): headers of the table or of something inside it, rows under dotted keys
that lead into it, and rows whose values are tables with it inside.

A document has a table behind a path if and only if one of its statements makes it and no array of
tables lies on the path (`Toml.table_iff`).  Every array is accounted for all along: it is complete,
so that nothing can be added to it any more, or there is a header of its items
(`Toml.ArraysKnown`).
-/

namespace BraceScript.Toml

open Run (except_bind_eq_ok)
open Scan

/-! ### Statements -/

/-- A statement of a document. -/
inductive Statement where
  /-- The header of a table. -/
  | table (key : Key)
  /-- The header of an item of an array of tables. -/
  | item (key : Key)
  /-- A row of the table with the given header. -/
  | row (header key : Key) (value : Value)

namespace Statement

/-- The header that the rows after a statement belong to. -/
def header : Statement → Key
  | table key | item key => key
  | row header _ _ => header

/-- The path to the table that a statement adds to. -/
def nest : Statement → Key
  | table key => key
  | item key => key.dropLast
  | row header key _ => header ++ key.dropLast

/-- What a statement does to the table that it adds to. -/
def change : Statement → Rows → Except Fault Rows
  | table _ => .ok
  | item key => Draft.addItem (key.getLast?.getD "")
  | row _ key value => addRow (key.getLast?.getD "") value

/-- What a statement brings into sight in the table that it adds to. -/
def Adds : Statement → Key → Shape → Prop
  | table _, _, _ => False
  | item key, path, shape => path = [key.getLast?.getD ""] ∧ shape = .array
  | row _ key value, path, shape =>
    ∃ rest, path = key.getLast?.getD "" :: rest ∧ shapeIn rest value = some shape

/-- What a statement brings into sight. -/
def Gives (statement : Statement) (path : Key) (shape : Shape) : Prop :=
  path <+: statement.nest ∧ shape = .table ∨
    ∃ more, path = statement.nest ++ more ∧ statement.Adds more shape

/-- The statement makes the table behind a path, unless an array lies on it. -/
def Makes : Statement → Key → Prop
  | table key, path => path <+: key
  | item key, path => path <+: key.dropLast
  | row header key value, path => path <+: header ++ key.dropLast ∨
    ∃ rest, path = header ++ key ++ rest ∧ shapeIn rest value = some .table

instance (statement : Statement) (path : Key) : Decidable (statement.Makes path) :=
  match statement with
  | table key => inferInstanceAs (Decidable (path <+: key))
  | item key => inferInstanceAs (Decidable (path <+: key.dropLast))
  | row header key value =>
    decidable_of_iff (path <+: header ++ key.dropLast ∨ header ++ key <+: path ∧
        shapeIn (path.drop (header ++ key).length) value = some .table) (by
      refine or_congr_right ⟨?_, ?_⟩
      · rintro ⟨⟨rest, rfl⟩, hshape⟩
        exact ⟨rest, rfl, by simpa using hshape⟩
      · rintro ⟨rest, rfl, hshape⟩
        exact ⟨List.prefix_append _ _, by simpa using hshape⟩)

end Statement

/-! ### Reading statements -/

/-- Reads a header, of which the opening bracket comes next. -/
def headerStatement : Scan Statement := do
  if ← accept ['[', '['] then
    skipBlanks
    let key ← key
    expect [']', ']']
    return .item key
  else
    expect ['[']
    skipBlanks
    let key ← key
    expect [']']
    return .table key

/-- Reads what stands on a line before its comment: a statement, or nothing. -/
def statement? (header : Key) : Scan (Option Statement) := do
  match ← get with
  | [] => return none
  | c :: _ =>
    if c = '\n' ∨ c = '#' then return none
    else if c = '[' then return some (← headerStatement)
    else
      let (key, value) ← row
      return some (.row header key value)

/-- Reads a line up to its end. -/
def line (header : Key) : Scan (Option Statement) := do
  skipBlanks
  let found ← statement? header
  skipBlanks
  skipComment
  return found

/-- Reads the statements up to the end of the text, with fuel for the number of lines. -/
def statementsWithin : Nat → Key → Scan (List Statement)
  | 0, _ => throw .exhausted
  | fuel + 1, header => do
    let found ← line header
    match ← get with
    | [] => return found.toList
    | _ =>
      expect ['\n']
      return found.toList ++ (← statementsWithin fuel ((found.map Statement.header).getD header))

/-- The statements of a document. -/
def statementsOf (text : String) : Except Fault (List Statement) := do
  let (statements, _) ← (statementsWithin (text.toList.length + 1) []).run text.toList
  return statements

/-! ### What statements do -/

/-- What one statement does to a document. -/
inductive Step : Draft → Statement → Draft → Prop
  | table {draft draft' : Draft} {key : Key} (h : draft.endRows.define key = .ok draft') :
      Step draft (.table key) draft'
  | item {draft draft' : Draft} {key : Key} (hkey : key ≠ [])
      (h : draft.endRows.defineItem key = .ok draft') : Step draft (.item key) draft'
  | row {draft draft' : Draft} {key : Key} {value : Value} (hkey : key ≠ [])
      (h : draft.addRow key value = .ok draft') : Step draft (.row draft.header key value) draft'

/-- What several statements do to a document, one after the other. -/
inductive Steps : Draft → List Statement → Draft → Prop
  | nil (draft : Draft) : Steps draft [] draft
  | cons {draft₁ draft₂ draft₃ : Draft} {statement : Statement} {statements : List Statement}
      (h : Step draft₁ statement draft₂) (hrest : Steps draft₂ statements draft₃) :
      Steps draft₁ (statement :: statements) draft₃

theorem Steps.append {draft₁ draft₂ draft₃ : Draft} {first second : List Statement}
    (h : Steps draft₁ first draft₂) (h' : Steps draft₂ second draft₃) :
    Steps draft₁ (first ++ second) draft₃ := by
  induction h with
  | nil draft => exact h'
  | cons h _ ih => exact .cons h (ih h')

variable {key path path' : Key} {value : Value} {shape : Shape} {rows rows' : Rows}
  {draft draft' : Draft} {statement : Statement} {statements before : List Statement}

theorem dropLast_append_getLast (hkey : key ≠ []) (more : Key) :
    key.dropLast ++ key.getLast?.getD "" :: more = key ++ more := by
  rw [List.getLast?_eq_some_getLast hkey, Option.getD_some, ← List.singleton_append,
    ← List.append_assoc, List.dropLast_append_getLast hkey]

/-! ### What a step does -/

theorem leadsInto_iff {paths : List Key} :
    leadsInto paths key = true ↔ ∃ path ∈ paths, path <+: key := by
  simp [leadsInto]

theorem leadsInto_mono {paths : List Key} (h : leadsInto paths path = true)
    (hstarts : path <+: key) : leadsInto paths key = true := by
  obtain ⟨path', hmem, hpath⟩ := leadsInto_iff.1 h
  exact leadsInto_iff.2 ⟨path', hmem, hpath.trans hstarts⟩

theorem Draft.define_eq_ok (h : draft.define key = .ok draft') :
    leadsInto draft.closed key = false ∧ ∃ rows, modifyNest true key draft.rows .ok = .ok rows ∧
      draft' = { draft with rows, header := key, defined := key :: draft.defined } := by
  rw [Draft.define] at h
  split at h
  · cases h
  · next hopen =>
    obtain ⟨rows, hrows, h⟩ := except_bind_eq_ok.1 h
    exact ⟨by simp_all, rows, hrows, (Except.ok.inj h).symm⟩

theorem Draft.defineItem_eq_ok (h : draft.defineItem key = .ok draft') :
    leadsInto draft.closed key = false ∧ ∃ rows,
      modifyNest true key.dropLast draft.rows (addItem (key.getLast?.getD "")) = .ok rows ∧
      draft'.rows = rows ∧ draft'.header = key ∧
      draft'.closed = draft.closed.filter fun path => !key.isPrefixOf path := by
  rw [Draft.defineItem] at h
  split at h
  · cases h
  · next hopen =>
    obtain ⟨rows, hrows, h⟩ := except_bind_eq_ok.1 h
    obtain rfl := Except.ok.inj h
    exact ⟨by simpa using hopen, rows, hrows, rfl, rfl, rfl⟩

theorem Draft.addRow_eq_ok (h : draft.addRow key value = .ok draft') :
    leadsInto draft.closed (draft.header ++ key.dropLast) = false ∧ ∃ rows,
      modifyNest true (draft.header ++ key.dropLast) draft.rows
        (Toml.addRow (key.getLast?.getD "") value) = .ok rows ∧
      draft'.rows = rows ∧ draft'.header = draft.header ∧
      draft'.closed = if isComposite value then (draft.header ++ key) :: draft.closed
        else draft.closed := by
  simp only [Draft.addRow] at h
  split at h
  · cases h
  · split at h
    · cases h
    · next hopen =>
      obtain ⟨rows, hrows, h⟩ := except_bind_eq_ok.1 h
      obtain rfl := Except.ok.inj h
      exact ⟨by simpa using hopen, rows, hrows, rfl, rfl, rfl⟩

/-- Every statement changes the table behind one path, which leads into nothing complete. -/
theorem Step.modifies (h : Step draft statement draft') :
    leadsInto draft.closed statement.nest = false ∧
      modifyNest true statement.nest draft.rows statement.change = .ok draft'.rows ∧
      draft'.header = statement.header := by
  cases h with
  | table h =>
    obtain ⟨hopen, rows, hrows, rfl⟩ := Draft.define_eq_ok h
    exact ⟨hopen, hrows, rfl⟩
  | item hkey h =>
    obtain ⟨hopen, rows, hrows, rfl, hheader, -⟩ := Draft.defineItem_eq_ok h
    refine ⟨?_, hrows, hheader⟩
    refine Bool.eq_false_iff.2 fun hleads => ?_
    exact Bool.eq_false_iff.1 hopen (leadsInto_mono hleads (List.dropLast_prefix _))
  | row hkey h =>
    obtain ⟨hopen, rows, hrows, rfl, hheader, -⟩ := Draft.addRow_eq_ok h
    exact ⟨hopen, hrows, hheader⟩

/-- What is complete stays so, except inside an array that gets a new item. -/
theorem Step.closed (h : Step draft statement draft') (hpath : path ∈ draft.closed) :
    path ∈ draft'.closed ∨ ∃ key, statement = .item key ∧ key <+: path := by
  cases h with
  | table h =>
    obtain ⟨-, rows, -, rfl⟩ := Draft.define_eq_ok h
    exact .inl hpath
  | @item _ key hkey h =>
    obtain ⟨-, rows, -, -, -, hclosed⟩ := Draft.defineItem_eq_ok h
    by_cases hstarts : key <+: path
    · exact .inr ⟨key, rfl, hstarts⟩
    · rw [hclosed]
      exact .inl (List.mem_filter.2 ⟨hpath, by simpa [← List.isPrefixOf_iff_prefix] using hstarts⟩)
  | row hkey h =>
    obtain ⟨-, rows, -, -, -, hclosed⟩ := Draft.addRow_eq_ok h
    rw [hclosed]
    split
    · exact .inl (.tail _ hpath)
    · exact .inl hpath

theorem Statement.change_extends (h : statement.change rows = .ok rows') : Extends rows rows' := by
  cases statement with
  | table key =>
    obtain rfl := Except.ok.inj h
    exact .refl rows
  | item key => exact extends_of_addItem h
  | row header key value => exact extends_of_addRow h

theorem Statement.change_origin (h : statement.change rows = .ok rows')
    (hseen : shapeAt path rows' = some shape) :
    shapeAt path rows = some shape ∨ statement.Adds path shape := by
  cases statement with
  | table key =>
    obtain rfl := Except.ok.inj h
    exact .inl hseen
  | item key =>
    obtain ⟨items, rfl, -⟩ := addItem_eq_ok h
    rcases shapeAt_put hseen with hold | ⟨rest, rfl, hrest⟩
    · exact .inl hold
    · obtain ⟨rfl, rfl⟩ := shapeIn_list.1 hrest
      exact .inr ⟨rfl, rfl⟩
  | row header key value =>
    obtain ⟨-, rfl⟩ := addRow_eq_ok.1 h
    exact (shapeAt_put hseen).imp_right id

theorem Statement.change_adds (h : statement.change rows = .ok rows')
    (hadds : statement.Adds path shape) : shapeAt path rows' = some shape := by
  cases statement with
  | table key => cases hadds
  | item key =>
    obtain ⟨rfl, rfl⟩ := hadds
    obtain ⟨items, rfl, -⟩ := addItem_eq_ok h
    exact shapeAt_put_self
  | row header key value =>
    obtain ⟨rest, rfl, hrest⟩ := hadds
    obtain ⟨-, rfl⟩ := addRow_eq_ok.1 h
    exact shapeAt_put_self.trans hrest

theorem Step.extends (h : Step draft statement draft') : Extends draft.rows draft'.rows :=
  modifyNest_extends (fun _ _ => Statement.change_extends) h.modifies.2.1

theorem Step.origin (h : Step draft statement draft')
    (hseen : shapeAt path draft'.rows = some shape) :
    shapeAt path draft.rows = some shape ∨ statement.Gives path shape :=
  modifyNest_origin (fun _ _ hchange _ _ => Statement.change_origin hchange) h.modifies.2.1 hseen

theorem Step.reaches (h : Step draft statement draft') (hgives : statement.Gives path shape)
    (harrays : ∀ path', path' <+: path → path' <+: statement.nest →
      shapeAt path' draft.rows ≠ some .array) : shapeAt path draft'.rows = some shape := by
  obtain ⟨-, hmodify, -⟩ := h.modifies
  obtain ⟨hstarts, rfl⟩ | ⟨more, rfl, hadds⟩ := hgives
  · refine modifyNest_opens hstarts ?_ hmodify
    intro path' hpath'
    exact harrays path' hpath' (hpath'.trans hstarts)
  · refine modifyNest_reaches ?_ ?_ hmodify
    · intro nest nest' hchange
      exact Statement.change_adds hchange hadds
    · intro path' hpath'
      exact harrays path' (hpath'.trans (List.prefix_append _ _)) hpath'

/-- After the header of an item, an array lies on its path. -/
theorem Step.item_array (h : Step draft (.item key) draft') :
    ∃ path, path <+: key ∧ shapeAt path draft'.rows = some .array := by
  by_cases hon : ∃ path, path <+: key.dropLast ∧ shapeAt path draft.rows = some .array
  · obtain ⟨path, hstarts, harray⟩ := hon
    exact ⟨path, hstarts.trans (List.dropLast_prefix key), h.extends path .array harray⟩
  · have hkey : key ≠ [] := by
      cases h with
      | item hkey _ => exact hkey
    refine ⟨key, List.prefix_rfl, h.reaches (.inr ⟨_, ?_, rfl, rfl⟩) ?_⟩
    · exact ((dropLast_append_getLast hkey []).trans (List.append_nil key)).symm
    · intro path' _ hstarts harray
      exact hon ⟨path', hstarts, harray⟩

/-- A statement makes the tables that it brings into sight. -/
theorem Step.gives_table_iff (h : Step draft statement draft') :
    statement.Gives path .table ↔ statement.Makes path := by
  cases h with
  | table h => simp [Statement.Gives, Statement.Adds, Statement.Makes, Statement.nest]
  | item hkey h => simp [Statement.Gives, Statement.Adds, Statement.Makes, Statement.nest]
  | @row _ key value hkey h =>
    have hpath (rest : Key) : draft.header ++ key ++ rest =
        draft.header ++ key.dropLast ++ key.getLast?.getD "" :: rest := by
      rw [List.append_assoc, List.append_assoc, dropLast_append_getLast hkey]
    simp only [Statement.Gives, Statement.Adds, Statement.Makes, Statement.nest, and_true, hpath]
    refine or_congr_right ⟨?_, ?_⟩
    · rintro ⟨more, rfl, rest, rfl, hrest⟩
      exact ⟨rest, rfl, hrest⟩
    · rintro ⟨rest, rfl, hrest⟩
      exact ⟨_, rfl, rest, rfl, hrest⟩

/-! ### Arrays -/

/-- Every array is complete, or there is a header of its items. -/
def ArraysKnown (statements : List Statement) (draft : Draft) : Prop :=
  ∀ path, shapeAt path draft.rows = some .array →
    leadsInto draft.closed path = true ∨ .item path ∈ statements

theorem arraysKnown_empty : ArraysKnown [] {} := by
  intro path h
  cases (shapeAt_empty.1 h).2

theorem isComposite_of_array (h : shapeIn path value = some .array) : isComposite value = true := by
  cases path with
  | nil => cases value <;> simp_all [shapeIn, Shape.of, isComposite]
  | cons name path => cases value <;> simp_all [shapeIn, isComposite]

/-- An array that a statement brings into sight is the value of a row, which is complete, or has
the statement as a header of its items. -/
theorem Step.array (h : Step draft statement draft') (hgives : statement.Gives path .array) :
    leadsInto draft'.closed path = true ∨ statement = .item path := by
  obtain ⟨-, htable⟩ | ⟨more, rfl, hadds⟩ := hgives
  · cases htable
  cases h with
  | table h => cases hadds
  | item hkey h =>
    obtain ⟨rfl, -⟩ := hadds
    exact .inr (congrArg Statement.item
      ((dropLast_append_getLast hkey []).trans (List.append_nil _)).symm)
  | @row _ key value hkey h =>
    obtain ⟨rest, rfl, hrest⟩ := hadds
    obtain ⟨-, rows, -, -, -, hclosed⟩ := Draft.addRow_eq_ok h
    refine .inl (leadsInto_iff.2 ⟨draft.header ++ key, ?_, ?_⟩)
    · rw [hclosed, if_pos (isComposite_of_array hrest)]
      exact List.mem_cons_self
    · rw [Statement.nest, List.append_assoc, dropLast_append_getLast hkey, ← List.append_assoc]
      exact List.prefix_append _ _

theorem ArraysKnown.step (hknown : ArraysKnown before draft) (h : Step draft statement draft') :
    ArraysKnown (before ++ [statement]) draft' := by
  intro path harray
  obtain hold | hgives := h.origin harray
  · obtain hclosed | hitem := hknown path hold
    · obtain ⟨path', hmem, hstarts⟩ := leadsInto_iff.1 hclosed
      obtain hmem | ⟨key, rfl, hkey⟩ := h.closed hmem
      · exact .inl (leadsInto_iff.2 ⟨path', hmem, hstarts⟩)
      -- Behind the array that got the item nothing is seen, so the path is its own.
      · obtain ⟨on, hon, harrayOn⟩ := h.item_array
        have hpath : path = on :=
          eq_of_array_on_path harrayOn harray ((hon.trans hkey).trans hstarts)
        have hkeyPath : key = path :=
          (hkey.trans hstarts).eq_of_length_le (hpath ▸ hon.length_le)
        exact .inr (by simp [hkeyPath])
    · exact .inr (List.mem_append_left _ hitem)
  · obtain hclosed | rfl := h.array hgives
    · exact .inl hclosed
    · exact .inr (by simp)

/-- A table that a statement makes is there, if no array of tables lies on the path. -/
theorem ArraysKnown.made (hknown : ArraysKnown before draft) (h : Step draft statement draft')
    (hmakes : statement.Makes path) (hitems : ∀ key, .item key ∈ before → ¬ key <+: path) :
    shapeAt path draft'.rows = some .table := by
  refine h.reaches (h.gives_table_iff.2 hmakes) ?_
  intro path' hpath' hnest harray
  obtain hclosed | hitem := hknown path' harray
  · have hleads := leadsInto_mono hclosed hnest
    rw [h.modifies.1] at hleads
    cases hleads
  · exact hitems path' hitem hpath'

/-! ### Whole documents -/

theorem Steps.extends (h : Steps draft statements draft') : Extends draft.rows draft'.rows := by
  induction h with
  | nil draft => exact .refl _
  | cons h _ ih => exact h.extends.trans ih

theorem Steps.origin (h : Steps draft statements draft')
    (htable : shapeAt path draft'.rows = some .table) :
    shapeAt path draft.rows = some .table ∨
      ∃ statement ∈ statements, statement.Makes path := by
  induction h with
  | nil draft => exact .inl htable
  | cons h _ ih =>
    obtain hfirst | ⟨statement, hmem, hmakes⟩ := ih htable
    · obtain hold | hgives := h.origin hfirst
      · exact .inl hold
      · exact .inr ⟨_, List.mem_cons_self, h.gives_table_iff.1 hgives⟩
    · exact .inr ⟨statement, .tail _ hmem, hmakes⟩

theorem Steps.made (h : Steps draft statements draft') (hknown : ArraysKnown before draft)
    (hitems : ∀ key, .item key ∈ before ++ statements → ¬ key <+: path)
    (hmakes : ∃ statement ∈ statements, statement.Makes path) :
    shapeAt path draft'.rows = some .table := by
  induction h generalizing before with
  | nil draft =>
    obtain ⟨statement, hmem, -⟩ := hmakes
    cases hmem
  | cons h hrest ih =>
    obtain ⟨made, hmem, hmakes⟩ := hmakes
    rcases List.mem_cons.1 hmem with rfl | hmem
    · refine hrest.extends path .table (hknown.made h hmakes ?_)
      intro key hkey
      exact hitems key (List.mem_append_left _ hkey)
    · refine ih (hknown.step h) ?_ ⟨made, hmem, hmakes⟩
      intro key hkey
      exact hitems key (by simpa using hkey)

theorem Steps.item_array (h : Steps draft statements draft') (hitem : .item key ∈ statements) :
    ∃ path, path <+: key ∧ shapeAt path draft'.rows = some .array := by
  induction h with
  | nil draft => cases hitem
  | cons h hrest ih =>
    rcases List.mem_cons.1 hitem with rfl | hitem
    · obtain ⟨path, hstarts, harray⟩ := h.item_array
      exact ⟨path, hstarts, hrest.extends path .array harray⟩
    · exact ih hitem

/-- The tables that statements leave behind: those that one of them makes, with no array of tables
on the path. -/
theorem Steps.table_iff (h : Steps {} statements draft) (hpath : path ≠ []) :
    shapeAt path draft.rows = some .table ↔
      (∃ statement ∈ statements, statement.Makes path) ∧
        ∀ key, .item key ∈ statements → ¬ key <+: path := by
  constructor
  · intro htable
    refine ⟨?_, ?_⟩
    · refine (h.origin htable).resolve_left ?_
      intro hempty
      exact hpath (shapeAt_empty.1 hempty).1
    · intro key hitem hkey
      obtain ⟨on, hon, harray⟩ := h.item_array hitem
      obtain rfl := eq_of_array_on_path harray htable (hon.trans hkey)
      rw [harray] at htable
      cases htable
  · rintro ⟨hmakes, hitems⟩
    exact h.made arraysKnown_empty hitems hmakes

/-! ### Documents are read by their statements -/

theorem Scan.bind_eq_ok {α β : Type} {x : Scan α} {f : α → Scan β} {text : List Char}
    {result : β × List Char} :
    (x >>= f) text = .ok result ↔ ∃ a rest, x text = .ok (a, rest) ∧ f a rest = .ok result := by
  rw [show (x >>= f) text = x text >>= fun r => f r.1 r.2 from rfl, except_bind_eq_ok]
  exact Prod.exists

theorem Scan.lift_eq_ok {α : Type} {x : Except Fault α} {a : α} {text rest : List Char} :
    (liftM x : Scan α) text = .ok (a, rest) ↔ x = .ok a ∧ text = rest := by
  cases x <;> simp [liftM, monadLift, MonadLift.monadLift, StateT.lift, bind, Except.bind, pure,
    Except.pure]

variable {text rest : List Char} {found : Option Statement} {fuel : Nat}

theorem keyWithin_ne_nil (h : keyWithin fuel text = .ok (key, rest)) : key ≠ [] := by
  cases fuel with
  | zero => cases h
  | succ fuel =>
    obtain ⟨name, _, -, h⟩ := Scan.bind_eq_ok.1 h
    obtain ⟨_, _, -, h⟩ := Scan.bind_eq_ok.1 h
    obtain ⟨point, _, -, h⟩ := Scan.bind_eq_ok.1 h
    cases point with
    | false =>
      cases h
      exact List.cons_ne_nil _ _
    | true =>
      obtain ⟨_, _, -, h⟩ := Scan.bind_eq_ok.1 h
      obtain ⟨names, _, -, h⟩ := Scan.bind_eq_ok.1 h
      cases h
      exact List.cons_ne_nil _ _

theorem key_ne_nil (h : Toml.key text = .ok (key, rest)) : key ≠ [] := by
  obtain ⟨_, _, -, h⟩ := Scan.bind_eq_ok.1 h
  exact keyWithin_ne_nil h

theorem row_key_ne_nil (h : row text = .ok ((key, value), rest)) : key ≠ [] := by
  obtain ⟨_, _, hkey, h⟩ := Scan.bind_eq_ok.1 h
  obtain ⟨_, _, -, h⟩ := Scan.bind_eq_ok.1 h
  obtain ⟨_, _, -, h⟩ := Scan.bind_eq_ok.1 h
  obtain ⟨_, _, -, h⟩ := Scan.bind_eq_ok.1 h
  cases h
  exact key_ne_nil hkey

/-- A header changes the draft as its statement does. -/
theorem header_eq_ok (h : header draft text = .ok (draft', rest)) :
    ∃ statement, headerStatement text = .ok (statement, rest) ∧ Step draft statement draft' := by
  obtain ⟨double, _, haccept, h⟩ := Scan.bind_eq_ok.1 h
  cases double with
  | true =>
    obtain ⟨_, _, hblanks, h⟩ := Scan.bind_eq_ok.1 h
    obtain ⟨key, _, hkey, h⟩ := Scan.bind_eq_ok.1 h
    obtain ⟨draft', _, hlift, h⟩ := Scan.bind_eq_ok.1 h
    obtain ⟨hdefine, rfl⟩ := Scan.lift_eq_ok.1 hlift
    obtain ⟨_, _, hexpect, h⟩ := Scan.bind_eq_ok.1 h
    cases h
    refine ⟨.item key, Scan.bind_eq_ok.2 ⟨true, _, haccept, ?_⟩, .item (key_ne_nil hkey) hdefine⟩
    exact Scan.bind_eq_ok.2 ⟨_, _, hblanks, Scan.bind_eq_ok.2 ⟨key, _, hkey,
      Scan.bind_eq_ok.2 ⟨_, _, hexpect, rfl⟩⟩⟩
  | false =>
    obtain ⟨_, _, hopen, h⟩ := Scan.bind_eq_ok.1 h
    obtain ⟨_, _, hblanks, h⟩ := Scan.bind_eq_ok.1 h
    obtain ⟨key, _, hkey, h⟩ := Scan.bind_eq_ok.1 h
    obtain ⟨draft', _, hlift, h⟩ := Scan.bind_eq_ok.1 h
    obtain ⟨hdefine, rfl⟩ := Scan.lift_eq_ok.1 hlift
    obtain ⟨_, _, hexpect, h⟩ := Scan.bind_eq_ok.1 h
    cases h
    refine ⟨.table key, Scan.bind_eq_ok.2 ⟨false, _, haccept, ?_⟩, .table hdefine⟩
    exact Scan.bind_eq_ok.2 ⟨_, _, hopen, Scan.bind_eq_ok.2 ⟨_, _, hblanks,
      Scan.bind_eq_ok.2 ⟨key, _, hkey, Scan.bind_eq_ok.2 ⟨_, _, hexpect, rfl⟩⟩⟩⟩

/-- What stands on a line changes the draft as its statement does, if there is one. -/
theorem statement_eq_ok (h : Toml.statement draft text = .ok (draft', rest)) :
    ∃ found, statement? draft.header text = .ok (found, rest) ∧
      Steps draft found.toList draft' ∧
      draft'.header = (found.map Statement.header).getD draft.header := by
  obtain ⟨_, _, hget, h⟩ := Scan.bind_eq_ok.1 h
  cases hget
  cases text with
  | nil =>
    cases h
    exact ⟨none, rfl, .nil draft, rfl⟩
  | cons c text =>
    have hread : statement? draft.header (c :: text) = (if c = '\n' ∨ c = '#' then return none
        else if c = '[' then return some (← headerStatement)
        else do
          let (key, value) ← row
          return some (.row draft.header key value)) (c :: text) := rfl
    rw [hread]
    change (if c = '\n' ∨ c = '#' then return draft
      else if c = '[' then header draft
      else do
        let (key, value) ← row
        draft.addRow key value : Scan Draft) (c :: text) = _ at h
    split_ifs at h ⊢ with hend hopen
    · cases h
      exact ⟨none, rfl, .nil draft, rfl⟩
    · obtain ⟨statement, hstatement, hstep⟩ := header_eq_ok h
      refine ⟨some statement, Scan.bind_eq_ok.2 ⟨statement, _, hstatement, rfl⟩, ?_,
        hstep.modifies.2.2⟩
      exact .cons hstep (.nil _)
    · obtain ⟨⟨key, value⟩, _, hrow, h⟩ := Scan.bind_eq_ok.1 h
      obtain ⟨hadd, rfl⟩ := Scan.lift_eq_ok.1 h
      have hstep : Step draft (.row draft.header key value) draft' :=
        .row (row_key_ne_nil hrow) hadd
      refine ⟨some (.row draft.header key value), Scan.bind_eq_ok.2 ⟨(key, value), _, hrow, rfl⟩,
        ?_, hstep.modifies.2.2⟩
      exact .cons hstep (.nil _)

theorem linesWithin_eq_ok (h : linesWithin fuel draft text = .ok (draft', rest)) :
    ∃ statements, statementsWithin fuel draft.header text = .ok (statements, rest) ∧
      Steps draft statements draft' := by
  induction fuel generalizing draft text with
  | zero => cases h
  | succ fuel ih =>
    obtain ⟨_, _, hbefore, h⟩ := Scan.bind_eq_ok.1 h
    obtain ⟨draft₁, _, hstatement, h⟩ := Scan.bind_eq_ok.1 h
    obtain ⟨found, hfound, hfirst, hheader⟩ := statement_eq_ok hstatement
    obtain ⟨_, _, hafter, h⟩ := Scan.bind_eq_ok.1 h
    obtain ⟨_, after, hcomment, h⟩ := Scan.bind_eq_ok.1 h
    obtain ⟨_, _, hget, h⟩ := Scan.bind_eq_ok.1 h
    cases hget
    have hline : line draft.header text = .ok (found, after) :=
      Scan.bind_eq_ok.2 ⟨_, _, hbefore, Scan.bind_eq_ok.2 ⟨found, _, hfound,
        Scan.bind_eq_ok.2 ⟨_, _, hafter, Scan.bind_eq_ok.2 ⟨_, _, hcomment, rfl⟩⟩⟩⟩
    cases after with
    | nil =>
      cases h
      exact ⟨found.toList, Scan.bind_eq_ok.2 ⟨found, _, hline, rfl⟩, hfirst⟩
    | cons c after =>
      obtain ⟨_, _, hexpect, h⟩ := Scan.bind_eq_ok.1 h
      obtain ⟨statements, hstatements, hsteps⟩ := ih h
      rw [hheader] at hstatements
      refine ⟨found.toList ++ statements, Scan.bind_eq_ok.2 ⟨found, _, hline,
        Scan.bind_eq_ok.2 ⟨_, _, rfl, ?_⟩⟩, hfirst.append hsteps⟩
      exact Scan.bind_eq_ok.2 ⟨_, _, hexpect, Scan.bind_eq_ok.2 ⟨statements, _, hstatements, rfl⟩⟩

/-- What a document denotes is what its statements do, one after the other. -/
theorem parse_eq_ok {text : String} (h : parse text = .ok rows) :
    ∃ statements draft, statementsOf text = .ok statements ∧ Steps {} statements draft ∧
      draft.rows = rows := by
  obtain ⟨⟨draft, rest⟩, hlines, h⟩ := except_bind_eq_ok.1 h
  obtain ⟨statements, hstatements, hsteps⟩ := linesWithin_eq_ok hlines
  refine ⟨statements, draft, ?_, hsteps, Except.ok.inj h⟩
  exact except_bind_eq_ok.2 ⟨(statements, rest), hstatements, rfl⟩

/-- **The tables of a document.**  A document has a table behind a path if and only if one of its
statements makes it and none is the header of an item of an array on the path. -/
theorem table_iff {text : String} (h : parse text = .ok rows)
    (hstatements : statementsOf text = .ok statements) (hpath : path ≠ []) :
    shapeAt path rows = some .table ↔
      (∃ statement ∈ statements, statement.Makes path) ∧
        ∀ key, .item key ∈ statements → ¬ key <+: path := by
  obtain ⟨statements', draft, hread, hsteps, rfl⟩ := parse_eq_ok h
  obtain rfl := Except.ok.inj (hstatements.symm.trans hread)
  exact hsteps.table_iff hpath

end BraceScript.Toml
