/-!
# Tables that remember the order of their rows

A table maps keys to values and lists its rows in the order in which the keys were first put.
Putting a known key changes the value and leaves the row where it is.  The look-up laws
(`Table.get?_put`, `Table.get?_erase`) hold for keys with a lawful comparison.
-/

namespace BraceScript

/-- Rows of keys and values, oldest key first. -/
abbrev Table (κ α : Type) := List (κ × α)

namespace Table

variable {κ α : Type} [BEq κ]

/-- The value of a key. -/
def get? : Table κ α → κ → Option α
  | [], _ => none
  | (key, value) :: rows, k => if key == k then some value else get? rows k

/-- Sets the value of a key; a new key gets the last row. -/
def put : Table κ α → κ → α → Table κ α
  | [], k, v => [(k, v)]
  | (key, value) :: rows, k, v =>
    if key == k then (key, v) :: rows else (key, value) :: put rows k v

/-- Takes a key out. -/
def erase (rows : Table κ α) (k : κ) : Table κ α :=
  rows.filter fun row => !(row.1 == k)

/-- The key has a row. -/
def contains (rows : Table κ α) (k : κ) : Bool :=
  (get? rows k).isSome

/-- Puts every row of the second table into the first. -/
def update (rows more : Table κ α) : Table κ α :=
  more.foldl (fun table row => put table row.1 row.2) rows

/-- The keys, oldest first. -/
def keys (rows : Table κ α) : List κ :=
  rows.map Prod.fst

/-- The sum of a number for every row. -/
def total (count : κ × α → Nat) : Table κ α → Nat
  | [] => 0
  | row :: rows => count row + total count rows

/-- The table of the given rows, a later row of a key replacing the value of an earlier one. -/
def ofRows (rows : List (κ × α)) : Table κ α :=
  update [] rows

variable [LawfulBEq κ]

theorem get?_put (rows : Table κ α) (k k' : κ) (v : α) :
    get? (put rows k v) k' = if k == k' then some v else get? rows k' := by
  induction rows with
  | nil => simp [put, get?]
  | cons row rows ih =>
    obtain ⟨key, value⟩ := row
    by_cases hk : key = k
    · subst hk
      by_cases h : key = k' <;> simp [put, get?, h]
    · by_cases h : key = k'
      · subst h
        simp [put, get?, hk, Ne.symm hk]
      · simp [put, get?, hk, h, ih]

theorem get?_erase (rows : Table κ α) (k k' : κ) :
    get? (erase rows k) k' = if k == k' then none else get? rows k' := by
  induction rows with
  | nil => simp [erase, get?]
  | cons row rows ih =>
    obtain ⟨key, value⟩ := row
    unfold erase at ih ⊢
    by_cases hk : key = k
    · subst hk
      by_cases h : key = k' <;> simp_all [get?]
    · by_cases h : key = k'
      · subst h
        simp [get?, hk, Ne.symm hk]
      · simp_all [get?]

end Table

end BraceScript
