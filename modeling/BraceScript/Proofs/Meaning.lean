import BraceScript.Proofs.Scopes

/-!
# What names mean

The meaning of a name in a package is its function and its live keyword (`Namespaces.meaning`).
Here is what each change of the packages does to the meanings: declaring a package changes none,
installing and putting back change the one of their name.
-/

namespace BraceScript

/-- What a name means: its function and its live keyword. -/
abbrev Meaning := Option Function × Option Keyword

namespace Namespaces

/-- What a name means in a package. -/
def meaning (ns : Namespaces) (package name : String) : Meaning :=
  (ns.function? package name, ns.keyword? package name)

/-! ### Functions and keywords of changed packages -/

theorem function?_modify (ns : Namespaces) (package package' name : String)
    (f : Package → Package) :
    (ns.modify package f).function? package' name = if package = package' then
      Table.get? (f ((Table.get? ns package).getD {})).functions name
      else ns.function? package' name := by
  simp only [function?, modify, Table.get?_put, beq_iff_eq]
  split <;> rfl

theorem declaredKeyword?_modify (ns : Namespaces) (package package' name : String)
    (f : Package → Package) :
    (ns.modify package f).declaredKeyword? package' name = if package = package' then
      Table.get? (f ((Table.get? ns package).getD {})).keywords name
      else ns.declaredKeyword? package' name := by
  simp only [declaredKeyword?, modify, Table.get?_put, beq_iff_eq]
  split <;> rfl

theorem get?_functions_getD (ns : Namespaces) (package name : String) :
    Table.get? ((Table.get? ns package).getD {}).functions name = ns.function? package name := by
  rw [function?]
  cases Table.get? ns package <;> rfl

theorem get?_keywords_getD (ns : Namespaces) (package name : String) :
    Table.get? ((Table.get? ns package).getD {}).keywords name =
      ns.declaredKeyword? package name := by
  rw [declaredKeyword?]
  cases Table.get? ns package <;> rfl

variable (ns : Namespaces) (package package' name name' : String)

@[simp] theorem function?_installFunction (f : Function) :
    (ns.installFunction package name f).function? package' name' =
      if package = package' ∧ name = name' then some f else ns.function? package' name' := by
  rw [installFunction, function?_modify]
  by_cases hp : package = package'
  · subst hp
    simp only [Table.get?_put, beq_iff_eq, get?_functions_getD, true_and, ↓reduceIte]
  · simp [hp]

@[simp] theorem declaredKeyword?_installFunction (f : Function) :
    (ns.installFunction package name f).declaredKeyword? package' name' =
      ns.declaredKeyword? package' name' := by
  rw [installFunction, declaredKeyword?_modify]
  by_cases hp : package = package'
  · subst hp
    simp [get?_keywords_getD]
  · simp [hp]

@[simp] theorem function?_declareKeyword (keyword : Option Keyword) :
    (ns.declareKeyword package name keyword).function? package' name' =
      ns.function? package' name' := by
  rw [declareKeyword, function?_modify]
  by_cases hp : package = package'
  · subst hp
    simp [get?_functions_getD]
  · simp [hp]

@[simp] theorem declaredKeyword?_declareKeyword (keyword : Option Keyword) :
    (ns.declareKeyword package name keyword).declaredKeyword? package' name' =
      if package = package' ∧ name = name' then keyword
      else ns.declaredKeyword? package' name' := by
  rw [declareKeyword, declaredKeyword?_modify]
  by_cases hp : package = package'
  · subst hp
    cases keyword with
    | none => simp only [Table.get?_erase, beq_iff_eq, get?_keywords_getD, true_and, ↓reduceIte]
    | some keyword =>
      simp only [Table.get?_put, beq_iff_eq, get?_keywords_getD, true_and, ↓reduceIte]
  · simp [hp]

@[simp] theorem function?_removeFunction :
    (ns.removeFunction package name).function? package' name' =
      if package = package' ∧ name = name' then none else ns.function? package' name' := by
  rw [removeFunction]
  split
  · rw [function?_modify]
    by_cases hp : package = package'
    · subst hp
      simp only [Table.get?_erase, beq_iff_eq, get?_functions_getD, true_and, ↓reduceIte]
    · simp [hp]
  · next hunknown =>
    have hnone : Table.get? ns package = none := by simpa [Table.contains] using hunknown
    split
    · next heq => rw [← heq.1, function?, hnone, Option.bind_none]
    · rfl

@[simp] theorem declaredKeyword?_removeFunction :
    (ns.removeFunction package name).declaredKeyword? package' name' =
      ns.declaredKeyword? package' name' := by
  rw [removeFunction]
  split
  · rw [declaredKeyword?_modify]
    by_cases hp : package = package'
    · subst hp
      simp [get?_keywords_getD]
    · simp [hp]
  · rfl

@[simp] theorem function?_declare :
    (ns.declare package).function? package' name = ns.function? package' name := by
  rw [declare, function?_modify]
  split
  · next hp => rw [id, get?_functions_getD, hp]
  · rfl

@[simp] theorem declaredKeyword?_declare :
    (ns.declare package).declaredKeyword? package' name = ns.declaredKeyword? package' name := by
  rw [declare, declaredKeyword?_modify]
  split
  · next hp => rw [id, get?_keywords_getD, hp]
  · rfl

/-! ### Meanings -/

theorem meaning_declare :
    (ns.declare package).meaning package' name = ns.meaning package' name := by
  simp [meaning, keyword?]

theorem meaning_installFunction_of_ne (f : Function) (h : ¬ (package = package' ∧ name = name')) :
    (ns.installFunction package name f).meaning package' name' = ns.meaning package' name' := by
  simp [meaning, keyword?, h]

/-- What a keyword that is installed means. -/
theorem meaning_install (keyword : Keyword) (f : Function) :
    ((ns.declareKeyword package name (some keyword)).installFunction package name f).meaning
        package' name' =
      if package = package' ∧ name = name' then (some f, some keyword)
      else ns.meaning package' name' := by
  by_cases h : package = package' ∧ name = name' <;> simp [meaning, keyword?, h]

theorem meaning_putBack (f : Option Function) (keyword : Option Keyword) :
    (ns.putBack package name f keyword).meaning package' name' =
      if package = package' ∧ name = name' then (f, if f.isSome then keyword else none)
      else ns.meaning package' name' := by
  cases f <;> by_cases h : package = package' ∧ name = name' <;>
    simp [putBack, meaning, keyword?, h]

end Namespaces

end BraceScript
