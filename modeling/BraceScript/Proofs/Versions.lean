import BraceScript.Proofs.Longest
import BraceScript.Proofs.Statements

/-!
# The grammar of versions

A version is a list of components with points between them (`Version.Dotted`), each made of digits
and underscores with a digit at both ends.  Whole texts are recognised by that grammar, a text is
matched up to the end of the longest version that it starts with, and the reader of numbers, whose
numbers may end with underscores, reads a version back whole in front of any text that does not go
on with it (`Version.grammar`).
-/

namespace BraceScript.Version

open Lexeme (EndsNumber)

variable {text part v w rest : List Char} {parts : List (List Char)}

/-- Digits and underscores, with a digit at both ends. -/
structure Component (part : List Char) : Prop where
  mem : ∀ c ∈ part, c.isDigit = true ∨ c = '_'
  first : ∃ c ∈ part.head?, c.isDigit = true
  last : ∃ c ∈ part.getLast?, c.isDigit = true

/-- Components with points between them, one at least. -/
def Dotted (text : List Char) : Prop :=
  ∃ parts, parts ≠ [] ∧ (∀ part ∈ parts, Component part) ∧ text = List.intercalate ['.'] parts

theorem isComponent_iff_component : isComponent part = true ↔ Component part :=
  isComponent_iff.trans ⟨fun ⟨h, h', h''⟩ => ⟨h, h', h''⟩, fun h => ⟨h.mem, h.first, h.last⟩⟩

/-! ### Texts and their components -/

theorem components_ne_nil (text : List Char) : components text ≠ [] := by
  cases text with
  | nil => simp [components]
  | cons c rest =>
    rw [components]
    split
    · simp
    · split <;> simp

/-- A text is its components with points between them. -/
theorem intercalate_components (text : List Char) :
    List.intercalate ['.'] (components text) = text := by
  induction text with
  | nil => rfl
  | cons c rest ih =>
    obtain ⟨part, parts, hparts⟩ := List.exists_cons_of_ne_nil (components_ne_nil rest)
    rw [hparts] at ih
    rw [components]
    split
    · next hc => rw [hparts, List.intercalate_cons_cons, ih, hc]; rfl
    · rw [hparts, ← ih]
      cases parts with
      | nil => simp
      | cons next parts => simp [List.intercalate_cons_cons]

/-- Components are found again between the points. -/
theorem components_intercalate (hne : parts ≠ []) (h : ∀ part ∈ parts, '.' ∉ part) :
    components (List.intercalate ['.'] parts) = parts := by
  induction parts with
  | nil => exact absurd rfl hne
  | cons part parts ih =>
    rw [List.forall_mem_cons] at h
    cases parts with
    | nil => rw [List.intercalate_singleton, components_of_not_mem h.1]
    | cons next parts =>
      rw [List.intercalate_cons_cons, List.append_assoc, List.singleton_append,
        components_append_point h.1, ih (by simp) h.2]

theorem isVersion_iff : isVersion text = true ↔ Dotted text := by
  rw [isVersion, List.all_eq_true]
  constructor
  · intro h
    exact ⟨components text, components_ne_nil text,
      fun part hpart => isComponent_iff_component.1 (h part hpart),
      (intercalate_components text).symm⟩
  · rintro ⟨parts, hne, hparts, rfl⟩ part hpart
    rw [components_intercalate hne fun part hpart =>
      not_mem_of_isComponent (isComponent_iff_component.2 (hparts part hpart))] at hpart
    exact isComponent_iff_component.2 (hparts part hpart)

/-! ### The longest version -/

theorem Dotted.ne_nil (h : Dotted v) : v ≠ [] := by
  rintro rfl
  exact absurd (isVersion_iff.2 h) (by decide)

theorem match?_eq_none : match? text = none ↔ ∀ w, w <+: text → w ≠ [] → ¬Dotted w := by
  have hlongest := literal?_longest text
  rw [match?, Option.map_eq_none_iff]
  constructor
  · intro hnone w hle _ hw
    rw [hnone] at hlongest
    exact hlongest w hle (isVersion_iff.2 hw)
  · intro h
    cases hliteral : literal? text with
    | none => rfl
    | some literal =>
      rw [hliteral] at hlongest
      have hdotted := isVersion_iff.1 hlongest.holds
      exact absurd hdotted (h literal hlongest.starts hdotted.ne_nil)

theorem match?_eq_some {literal remainder : List Char}
    (h : match? text = some (literal, remainder)) :
    literal ++ remainder = text ∧ Dotted literal ∧
      ∀ w, w <+: text → Dotted w → w.length ≤ literal.length := by
  have hlongest := literal?_longest text
  obtain ⟨literal', hliteral, heq⟩ := Option.map_eq_some_iff.1 h
  obtain ⟨rfl, rfl⟩ := Prod.mk.inj heq
  rw [hliteral] at hlongest
  exact ⟨List.prefix_iff_eq_append.1 hlongest.starts, isVersion_iff.1 hlongest.holds,
    fun w hle hw => hlongest.longest w hle (isVersion_iff.2 hw)⟩

/-- A version is the longest version that it starts with. -/
theorem literal?_self (h : Dotted v) : literal? v = some v := by
  have hself : Lexeme.FindsLongest (isVersion · = true) v (some v) :=
    ⟨List.prefix_rfl, isVersion_iff.2 h, fun w hle _ => hle.length_le⟩
  exact (literal?_longest v).unique hself

/-- **The grammar of versions.**  A whole text is recognised if and only if it is a version.  A text
matches unless no start of it is a version; the match is the longest start that is one, and what is
left is all that follows it.  A version is read as one number in front of a text that does not go on
with a digit, an underscore or a point. -/
theorem grammar :
    (∀ text, isVersion text = true ↔ Dotted text) ∧
    (∀ text, (match? text = none ↔ ∀ w, w <+: text → w ≠ [] → ¬Dotted w) ∧
      ∀ literal remainder, match? text = some (literal, remainder) →
        literal ++ remainder = text ∧ Dotted literal ∧
          ∀ w, w <+: text → Dotted w → w.length ≤ literal.length) ∧
    ∀ v rest, Dotted v → EndsNumber rest → Lexeme.number? (v ++ rest) = some v := by
  refine ⟨fun text => isVersion_iff, fun text => ⟨match?_eq_none, fun _ _ => match?_eq_some⟩,
    fun v rest hv hrest => ?_⟩
  exact Lexeme.number?_append (Lexeme.isNumber_of_literal? (literal?_self hv)) hrest

/-- Underscores and a point that are given back, and a version in front of a letter. -/
theorem grammar_given_back :
    isVersion ['1', '_', '0', '.', '2'] = true ∧ Dotted ['1', '_', '0', '.', '2'] ∧
      match? ['1', '_', '0', '.', '2', '_', '.', 'x'] =
        some (['1', '_', '0', '.', '2'], ['_', '.', 'x']) ∧
      (∀ w, w <+: ['1', '_', '0', '.', '2', '_', '.', 'x'] → Dotted w → w.length ≤ 5) ∧
      (∀ w, w <+: ['_', '1'] → w ≠ [] → ¬Dotted w) ∧ EndsNumber ['x'] ∧
      Lexeme.number? ['1', '_', '0', '.', '2', 'x'] = some ['1', '_', '0', '.', '2'] := by
  obtain ⟨hwhole, hmatch, hnumber⟩ := grammar
  have hversion : isVersion ['1', '_', '0', '.', '2'] = true := by
    simp [isVersion, components, isComponent]
  have hdotted := (hwhole _).1 hversion
  have hfound : match? ['1', '_', '0', '.', '2', '_', '.', 'x'] =
      some (['1', '_', '0', '.', '2'], ['_', '.', 'x']) := by simp [match?, literal?, tail]
  have hnone : match? ['_', '1'] = none := by simp [match?, literal?]
  have hends : EndsNumber ['x'] := by simp [EndsNumber]
  exact ⟨hversion, hdotted, hfound, ((hmatch _).2 _ _ hfound).2.2, (hmatch _).1.1 hnone, hends,
    hnumber _ _ hdotted hends⟩

end BraceScript.Version
