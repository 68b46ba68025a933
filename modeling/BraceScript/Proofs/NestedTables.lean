import BraceScript.Proofs.Merging
import BraceScript.Toml.Document

/-!
# Tables inside tables

What a table shows behind a path: a table, an array, or a value of another kind (`shapeAt`).
Only tables are looked into, so that nothing is seen behind an array.

Adding to the table behind a path never takes away what is seen (`modifyNest_extends`); all that
comes into sight is the tables on the path and what was added behind it (`modifyNest_origin`); and
unless an array lies on the path, what was added is seen there (`modifyNest_reaches`).
-/

namespace BraceScript.Toml

open Run (except_bind_eq_ok)

variable {rows rows' : Rows} {name other : String} {path more key : Key} {v v' value : Value}
  {shape : Shape} {openArrays : Bool} {change : Rows → Except Fault Rows} {items : List Value}

/-! ### What is seen -/

/-- What stands behind a path. -/
inductive Shape where
  | table
  | array
  | plain
deriving DecidableEq

/-- The shape of a value. -/
def Shape.of : Value → Shape
  | .mapping _ => table
  | .list _ => array
  | _ => plain

/-- What a path leads to in a value, going through tables only. -/
def shapeIn : Key → Value → Option Shape
  | [], v => some (.of v)
  | name :: path, .mapping rows => (Table.get? rows (.text name)).bind (shapeIn path)
  | _ :: _, _ => none

/-- What a path leads to in a table. -/
def shapeAt (path : Key) (rows : Rows) : Option Shape := shapeIn path (.mapping rows)

@[simp] theorem shapeAt_nil : shapeAt [] rows = some .table := rfl

theorem shapeAt_cons :
    shapeAt (name :: path) rows = (Table.get? rows (.text name)).bind (shapeIn path) := rfl

theorem shapeAt_of_get? (h : Table.get? rows (.text name) = some v) :
    shapeAt (name :: path) rows = shapeIn path v := by
  rw [shapeAt_cons, h, Option.bind_some]

theorem shapeAt_put_self :
    shapeAt (name :: path) (Table.put rows (.text name) v) = shapeIn path v :=
  shapeAt_of_get? (Options.option_put rows name v)

theorem shapeAt_put_of_ne (h : name ≠ other) :
    shapeAt (other :: path) (Table.put rows (.text name) v) = shapeAt (other :: path) rows := by
  have hget : Table.get? (Table.put rows (.text name) v) (.text other) =
      Table.get? rows (.text other) := Options.option_put_of_ne h rows v
  rw [shapeAt_cons, hget, shapeAt_cons]

theorem shapeIn_list : shapeIn path (.list items) = some shape ↔ path = [] ∧ shape = .array := by
  cases path with
  | nil => simp [shapeIn, Shape.of, eq_comm]
  | cons name path => simp [shapeIn]

theorem shapeAt_empty : shapeAt path [] = some shape ↔ path = [] ∧ shape = .table := by
  cases path with
  | nil => simp [eq_comm]
  | cons name path => simp [shapeAt_cons, Table.get?]

/-- What something is seen behind is a table. -/
theorem shapeIn_of_append (hmore : more ≠ []) (h : shapeIn (path ++ more) v = some shape) :
    shapeIn path v = some .table := by
  induction path generalizing v with
  | nil =>
    cases more with
    | nil => exact absurd rfl hmore
    | cons name more => cases v <;> simp_all [shapeIn, Shape.of]
  | cons name path ih =>
    cases v with
    | mapping rows =>
      obtain ⟨w, hw, hseen⟩ := Option.bind_eq_some_iff.1 h
      exact Option.bind_eq_some_iff.2 ⟨w, hw, ih hseen⟩
    | _ => cases h

/-- Nothing is seen behind an array. -/
theorem eq_of_array_on_path (harray : shapeAt key rows = some .array)
    (hpath : shapeAt path rows = some shape) (hstarts : key <+: path) : path = key := by
  obtain ⟨more, rfl⟩ := hstarts
  by_contra hne
  have hmore : more ≠ [] := by
    rintro rfl
    exact hne (List.append_nil key)
  rw [shapeAt, shapeIn_of_append hmore hpath] at harray
  cases harray

/-! ### What putting a value changes -/

/-- All that is seen in one table is seen in the other. -/
def Extends (rows rows' : Rows) : Prop :=
  ∀ path shape, shapeAt path rows = some shape → shapeAt path rows' = some shape

theorem Extends.refl (rows : Rows) : Extends rows rows := fun _ _ h => h

theorem Extends.trans {rows'' : Rows} (h : Extends rows rows') (h' : Extends rows' rows'') :
    Extends rows rows'' := fun path shape hseen => h' path shape (h path shape hseen)

/-- A value may take the place of one in which no more is seen. -/
theorem extends_put (h : ∀ v, Table.get? rows (.text name) = some v →
    ∀ path shape, shapeIn path v = some shape → shapeIn path v' = some shape) :
    Extends rows (Table.put rows (.text name) v') := by
  intro path shape hseen
  cases path with
  | nil => exact hseen
  | cons other path =>
    by_cases hname : name = other
    · subst hname
      rw [shapeAt_put_self]
      obtain ⟨v, hget, hv⟩ := Option.bind_eq_some_iff.1 hseen
      exact h v hget path shape hv
    · rwa [shapeAt_put_of_ne hname]

/-- What is seen after a value was put was seen before, or is seen in the value. -/
theorem shapeAt_put (h : shapeAt path (Table.put rows (.text name) v) = some shape) :
    shapeAt path rows = some shape ∨
      ∃ rest, path = name :: rest ∧ shapeIn rest v = some shape := by
  cases path with
  | nil => exact .inl h
  | cons other rest =>
    by_cases hname : name = other
    · subst hname
      exact .inr ⟨rest, rfl, shapeAt_put_self.symm.trans h⟩
    · rw [shapeAt_put_of_ne hname] at h
      exact .inl h

/-! ### Rows and items -/

theorem addRow_eq_ok : addRow name value rows = .ok rows' ↔
    Table.get? rows (.text name) = none ∧ rows' = Table.put rows (.text name) value := by
  rw [addRow, Table.contains]
  cases Table.get? rows (.text name) <;> simp [eq_comm]

/-- An item is added to an array that is there, or to a new one. -/
theorem addItem_eq_ok (h : Draft.addItem name rows = .ok rows') :
    ∃ items, rows' = Table.put rows (.text name) (.list items) ∧
      ∀ v, Table.get? rows (.text name) = some v → ∃ items, v = .list items := by
  rw [Draft.addItem] at h
  split at h
  · next hget => exact ⟨_, (Except.ok.inj h).symm, by simp [hget]⟩
  · next items hget =>
    refine ⟨_, (Except.ok.inj h).symm, ?_⟩
    intro v hv
    exact ⟨items, Option.some.inj (hv.symm.trans hget)⟩
  · cases h

theorem extends_of_addRow (h : addRow name value rows = .ok rows') : Extends rows rows' := by
  obtain ⟨hget, rfl⟩ := addRow_eq_ok.1 h
  exact extends_put (by simp [hget])

theorem extends_of_addItem (h : Draft.addItem name rows = .ok rows') : Extends rows rows' := by
  obtain ⟨items, rfl, harray⟩ := addItem_eq_ok h
  refine extends_put ?_
  intro v hget path shape hseen
  obtain ⟨items', rfl⟩ := harray v hget
  exact shapeIn_list.2 (shapeIn_list.1 hseen)

/-! ### Changes behind a path -/

/-- The first step of a change behind a path goes on in a table, which is made if it is missing,
or in the last table of an array. -/
theorem modifyNest_cons_eq_ok (h : modifyNest openArrays (name :: key) rows change = .ok rows') :
    (∃ nest nest', modifyNest openArrays key nest change = .ok nest' ∧
      rows' = Table.put rows (.text name) (.mapping nest') ∧
      (Table.get? rows (.text name) = none ∧ nest = [] ∨
        Table.get? rows (.text name) = some (.mapping nest))) ∨
    ∃ items items', rows' = Table.put rows (.text name) (.list items') ∧
      Table.get? rows (.text name) = some (.list items) := by
  rw [modifyNest] at h
  split at h
  · next hget =>
    obtain ⟨nest', hnest, hrows⟩ := except_bind_eq_ok.1 h
    exact .inl ⟨[], nest', hnest, (Except.ok.inj hrows).symm, .inl ⟨hget, rfl⟩⟩
  · next nest hget =>
    obtain ⟨nest', hnest, hrows⟩ := except_bind_eq_ok.1 h
    exact .inl ⟨nest, nest', hnest, (Except.ok.inj hrows).symm, .inr hget⟩
  · next items hget =>
    split at h
    · obtain ⟨nest', hnest, hrows⟩ := except_bind_eq_ok.1 h
      exact .inr ⟨items, _, (Except.ok.inj hrows).symm, hget⟩
    · cases h
  · cases h

/-- A path is followed in two parts. -/
theorem modifyNest_append : modifyNest openArrays (key ++ more) rows change =
    modifyNest openArrays key rows fun nest => modifyNest openArrays more nest change := by
  induction key generalizing rows with
  | nil => rfl
  | cons name key ih => simp only [List.cons_append, modifyNest, ih]

theorem modifyNest_extends
    (hchange : ∀ nest nest', change nest = .ok nest' → Extends nest nest')
    (h : modifyNest openArrays key rows change = .ok rows') : Extends rows rows' := by
  induction key generalizing rows rows' with
  | nil => exact hchange rows rows' h
  | cons name key ih =>
    obtain ⟨nest, nest', hnest, rfl, ⟨hget, -⟩ | hget⟩ | ⟨items, items', rfl, hget⟩ :=
      modifyNest_cons_eq_ok h
    · exact extends_put (by simp [hget])
    · refine extends_put ?_
      intro v hv
      obtain rfl := Option.some.inj (hget.symm.trans hv)
      exact ih hnest
    · refine extends_put ?_
      intro v hv path shape hseen
      obtain rfl := Option.some.inj (hget.symm.trans hv)
      exact shapeIn_list.2 (shapeIn_list.1 hseen)

/-- All that a change behind a path brings into sight: the tables on the path, and what the change
brings into sight in the table there. -/
theorem modifyNest_origin {Added : Key → Shape → Prop}
    (hchange : ∀ nest nest', change nest = .ok nest' → ∀ more shape,
      shapeAt more nest' = some shape → shapeAt more nest = some shape ∨ Added more shape)
    (h : modifyNest openArrays key rows change = .ok rows')
    (hseen : shapeAt path rows' = some shape) :
    shapeAt path rows = some shape ∨ (path <+: key ∧ shape = .table) ∨
      ∃ more, path = key ++ more ∧ Added more shape := by
  induction key generalizing rows rows' path with
  | nil =>
    rcases hchange rows rows' h path shape hseen with hold | hnew
    · exact .inl hold
    · exact .inr (.inr ⟨path, rfl, hnew⟩)
  | cons name key ih =>
    obtain ⟨nest, nest', hnest, rfl, hget⟩ | ⟨items, items', rfl, hget⟩ :=
      modifyNest_cons_eq_ok h
    · obtain hold | ⟨rest, rfl, hrest⟩ := shapeAt_put hseen
      · exact .inl hold
      obtain hold | ⟨hstarts, htable⟩ | ⟨more, rfl, hnew⟩ := ih hnest hrest
      · obtain ⟨-, rfl⟩ | hget := hget
        · obtain ⟨rfl, htable⟩ := shapeAt_empty.1 hold
          exact .inr (.inl ⟨by simp, htable⟩)
        · exact .inl ((shapeAt_of_get? hget).trans hold)
      · exact .inr (.inl ⟨by simpa using hstarts, htable⟩)
      · exact .inr (.inr ⟨more, rfl, hnew⟩)
    · obtain hold | ⟨rest, rfl, hrest⟩ := shapeAt_put hseen
      · exact .inl hold
      · exact .inl ((shapeAt_of_get? hget).trans (shapeIn_list.2 (shapeIn_list.1 hrest)))

/-- Without an array on the path, what a change brings into sight in the table there is seen behind
the path. -/
theorem modifyNest_reaches
    (hchange : ∀ nest nest', change nest = .ok nest' → shapeAt more nest' = some shape)
    (harrays : ∀ path, path <+: key → shapeAt path rows ≠ some .array)
    (h : modifyNest openArrays key rows change = .ok rows') :
    shapeAt (key ++ more) rows' = some shape := by
  induction key generalizing rows rows' with
  | nil => exact hchange rows rows' h
  | cons name key ih =>
    obtain ⟨nest, nest', hnest, rfl, hget⟩ | ⟨items, items', -, hget⟩ := modifyNest_cons_eq_ok h
    · refine shapeAt_put_self.trans (ih ?_ hnest)
      intro path hstarts harray
      obtain ⟨-, rfl⟩ | hget := hget
      · cases (shapeAt_empty.1 harray).2
      · exact harrays (name :: path) (by simpa using hstarts)
          ((shapeAt_of_get? hget).trans harray)
    · refine absurd ?_ (harrays [name] (by simp))
      exact shapeAt_of_get? hget

/-- The tables on a path are there after a change behind it, as far as no array comes before. -/
theorem modifyNest_opens (hstarts : path <+: key)
    (harrays : ∀ path', path' <+: path → shapeAt path' rows ≠ some .array)
    (h : modifyNest openArrays key rows change = .ok rows') :
    shapeAt path rows' = some .table := by
  obtain ⟨rest, rfl⟩ := hstarts
  rw [modifyNest_append] at h
  have hreached : shapeAt (path ++ []) rows' = some .table :=
    modifyNest_reaches (fun _ _ _ => rfl) harrays h
  rwa [List.append_nil] at hreached

end BraceScript.Toml
