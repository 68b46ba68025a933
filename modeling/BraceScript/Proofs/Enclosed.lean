import BraceScript.Proofs.Opening
import BraceScript.Proofs.Spacing

/-!
# Properties of injected text

A property of texts is piecewise if plain characters and literals of texts have it, and a text made
of texts that have it (`Lexeme.Piecewise`).  The text that an expansion injects has such a property
if the name of the feature, its own statements and those of the `preamble` option have it one by one
(`Lexeme.Piecewise.injected`).

In this way injected text opens no comment and no quoted text that it does not close, if no
statement does (`Site.Closed`).  So what stands behind the injected text is outside quoted texts and
comments if it was so before.
-/

namespace BraceScript

open Lexeme (IsWord Outside outside_singleton)

namespace Lexeme

/-- The character opens no quoted text and no comment, and ends no line. -/
def isPlain (c : Char) : Bool := c != '#' && c != '"' && c != '\n'

theorem isPlain_iff {c : Char} : isPlain c = true ↔ c ≠ '#' ∧ c ≠ '"' ∧ c ≠ '\n' := by
  simp [isPlain, and_assoc]

/-- The property holds of plain characters, of literals of texts, and of a text made of texts. -/
structure Piecewise (P : List Char → Prop) : Prop where
  plain {c : Char} (hc : isPlain c = true) : P [c]
  nil : P []
  append {w w' : List Char} (h : P w) (h' : P w') : P (w ++ w')
  quote (s : String) : P (Literal.quote s)

namespace Piecewise

variable {P : List Char → Prop}

theorem of_plain (hP : Piecewise P) {w : List Char} (h : w.all isPlain = true) : P w := by
  induction w with
  | nil => exact hP.nil
  | cons c w ih =>
    rw [List.all_cons, Bool.and_eq_true] at h
    exact hP.append (hP.plain h.1) (ih h.2)

/-- The characters of words and numbers are plain. -/
theorem of_isDelimiter (hP : Piecewise P) {w : List Char} (h : ∀ c ∈ w, isDelimiter c = false) :
    P w := by
  have hspecial : isDelimiter '#' = true ∧ isDelimiter '"' = true ∧ isDelimiter '\n' = true := by
    simp [isDelimiter_of_ascii]
  have hne {c d : Char} (hc : c ∈ w) (hd : isDelimiter d = true) : c ≠ d := by
    rintro rfl
    cases (h c hc).symm.trans hd
  exact hP.of_plain (List.all_eq_true.2 fun c hc =>
    isPlain_iff.2 ⟨hne hc hspecial.1, hne hc hspecial.2.1, hne hc hspecial.2.2⟩)

theorem word (hP : Piecewise P) {w : List Char} (h : IsWord w) : P w :=
  hP.of_isDelimiter (isLexer_word?.plain h)

/-! ### Literals -/

theorem digits (hP : Piecewise P) {ds : List Char} (h : ∀ c ∈ ds, c.isDigit = true) : P ds :=
  hP.of_isDelimiter fun c hc => isDelimiter_of_isDigit (h c hc)

theorem signed (hP : Piecewise P) (negative : Bool) {w : List Char} (h : P w) :
    P (Binary64.signed negative w) := by
  cases negative with
  | true => exact (hP.append (hP.plain (by decide)) h : P (['-'] ++ w))
  | false => exact h

theorem integer (hP : Piecewise P) (n : Int) : P (Literal.integer n) := by
  rw [Literal.integer_eq_signed]
  exact hP.signed _ (hP.digits fun c hc => Literal.isDigit_of_mem_toDigits hc)

theorem float (hP : Piecewise P) {x : Binary64} (hx : x.hasPositionalText = true) : P x.text := by
  obtain ⟨negative, _, _, whole, fraction, -, htext, hw, hf, -⟩ := Binary64.text_reads_back hx
  rw [htext]
  have hpoint : P ['.'] := hP.plain (by decide)
  exact hP.signed negative (hP.append (hP.digits hw) (hP.append hpoint (hP.digits hf)))

theorem commaList (hP : Piecewise P) {parts : List (List Char)} (h : ∀ part ∈ parts, P part) :
    P (Literal.commaList parts) := by
  have hcomma : P [',', ' '] := hP.of_plain (by decide)
  induction parts with
  | nil => exact hP.nil
  | cons part parts ih =>
    rw [List.forall_mem_cons] at h
    cases parts with
    | nil => simpa using h.1
    | cons next parts =>
      rw [Literal.commaList_cons_cons]
      exact hP.append h.1 (hP.append hcomma (ih h.2))

theorem enclosed (hP : Piecewise P) {open' close : Char} {w : List Char}
    (hopen : isPlain open' = true) (hclose : isPlain close = true) (h : P w) :
    P (open' :: w ++ [close]) :=
  hP.append (hP.append (hP.plain hopen) h) (hP.plain hclose)

mutual

/-- Literals have the property. -/
theorem write (hP : Piecewise P) {v : Value} {written : List Char}
    (h : Literal.write v = .ok written) : P written := by
  cases v with
  | null => obtain rfl := Except.ok.inj h; exact hP.of_plain (by decide)
  | bool b => cases b <;> (obtain rfl := Except.ok.inj h; exact hP.of_plain (by decide))
  | int n =>
    simp only [Literal.write] at h
    split at h
    · obtain rfl := Except.ok.inj h
      exact hP.integer n
    · cases h
  | float x =>
    simp only [Literal.write] at h
    split at h
    · next hx =>
      obtain rfl := Except.ok.inj h
      exact hP.float hx
    · cases h
  | text s =>
    obtain rfl := Except.ok.inj h
    exact hP.quote s
  | list items | tuple items =>
    simp only [Literal.write] at h
    obtain ⟨parts, hparts, h⟩ := Run.except_bind_eq_ok.1 h
    obtain rfl := Except.ok.inj h
    exact hP.enclosed (by decide) (by decide) (hP.commaList (hP.writeItems hparts))
  | mapping rows =>
    simp only [Literal.write] at h
    obtain ⟨parts, hparts, h⟩ := Run.except_bind_eq_ok.1 h
    obtain rfl := Except.ok.inj h
    exact hP.enclosed (by decide) (by decide) (hP.commaList (hP.writeRows hparts))
  | inner | record | foreign => cases h
termination_by sizeOf v

theorem writeItems (hP : Piecewise P) {items : List Value} {parts : List (List Char)}
    (h : Literal.writeItems items = .ok parts) : ∀ part ∈ parts, P part := by
  cases items with
  | nil =>
    obtain rfl := Except.ok.inj h
    simp
  | cons item items =>
    obtain ⟨part, parts, hpart, hparts, rfl⟩ := Literal.writeItems_cons_eq_ok.1 h
    exact List.forall_mem_cons.2 ⟨hP.write hpart, hP.writeItems hparts⟩
termination_by sizeOf items

theorem writeRows (hP : Piecewise P) {rows : List (Value × Value)} {parts : List (List Char)}
    (h : Literal.writeRows rows = .ok parts) : ∀ part ∈ parts, P part := by
  match rows with
  | [] =>
    obtain rfl := Except.ok.inj h
    simp
  | (key, value) :: rows =>
    obtain ⟨key, part, parts, rfl, hpart, hparts, rfl⟩ := Literal.writeRows_cons_eq_ok.1 h
    have harrow : P [' ', '=', '>', ' '] := hP.of_plain (by decide)
    refine List.forall_mem_cons.2 ⟨?_, hP.writeRows hparts⟩
    exact hP.append (hP.append (hP.quote key) harrow) (hP.write hpart)
termination_by sizeOf rows

end

/-! ### Injected statements -/

variable {feature : BlockFeature} {name : String} {version : Option String}
  {options : KeywordOptions} {statements : List String} {package : String}

/-- The package that a declaration names, or in which it stands. -/
theorem target (hP : Piecewise P) {found : Option (List Char)} (hfound : ∀ w ∈ found, IsWord w)
    (hpackage : IsWord package.toList) : P ((found.map String.ofList).getD package).toList := by
  cases found with
  | none => exact hP.word hpackage
  | some w =>
    rw [Option.map_some, Option.getD_some, String.toList_ofList]
    exact hP.word (hfound w rfl)

/-- The version that a declaration gives. -/
theorem literal (hP : Piecewise P) {found : Option (List Char)} {text : List Char}
    (hfound : ∀ v ∈ found, Version.literal? text = some v) :
    ∀ v ∈ found.map String.ofList, P v.toList := by
  intro v hv
  obtain ⟨chars, hchars, rfl⟩ := Option.map_eq_some_iff.1 hv
  rw [String.toList_ofList]
  exact hP.of_isDelimiter (isLexer_literal?.plain (hfound chars hchars))

theorem spaced (hP : Piecewise P) {rows : List (List Char)} (h : ∀ s ∈ rows, P s) :
    P (Parse.spaced rows) := by
  have hblank : P [' '] := hP.plain (by decide)
  have hsemicolon : P [';'] := hP.plain (by decide)
  induction rows with
  | nil => exact hP.nil
  | cons s rows ih =>
    rw [List.forall_mem_cons] at h
    have hrow : P (' ' :: (s ++ [';'])) := hP.append hblank (hP.append h.1 hsemicolon)
    exact hP.append hrow (ih h.2)

theorem innerArguments (hP : Piecewise P) {entry : InnerFeature} {parts : List (List Char)}
    (h : Preamble.innerArguments entry = .ok parts) : ∀ part ∈ parts, P part := by
  intro part hpart
  obtain ⟨v, hv⟩ := (Preamble.innerArguments_eq_ok h).2 part hpart
  exact hP.write hv

/-- The statements for a block have the property one by one. -/
theorem generate (hP : Piecewise P) (hfeature : P feature.name.toList)
    (hextra : ∀ s ∈ feature.extra, P s.toList) (hpreamble : ∀ s ∈ options.preamble, P s.toList)
    (hname : P name.toList) (hversion : ∀ v ∈ version, P v.toList)
    (h : Preamble.generate feature name version options = .ok statements) :
    ∀ s ∈ statements, P s.toList := by
  obtain ⟨use, uses, huse, huses, rfl⟩ := Preamble.generate_eq_ok.1 h
  have hword (word : String) (hword : word.toList.all isPlain = true) {s : List Char} (hs : P s) :
      P (word.toList ++ s) := hP.append (hP.of_plain hword) hs
  have hpackage : P ("package " ++ name).toList := by
    simpa using hword "package " (by decide) hname
  have hversions : ∀ s ∈ Preamble.version version, P s.toList := by
    cases version with
    | none => simp [Preamble.version]
    | some literal =>
      simpa [Preamble.version] using hword "version " (by decide) (hversion literal rfl)
  have huse : P use.toList := by
    obtain ⟨literal, hliteral, rfl⟩ := Preamble.useFeature_eq_ok.1 huse
    have hblank : P [' '] := hP.plain (by decide)
    simpa using hword "use " (by decide)
      (hP.append hfeature (hP.append hblank (hP.write hliteral)))
  have huses : ∀ s ∈ uses, P s.toList := by
    rcases Preamble.useInner_eq_ok huses with ⟨-, rfl⟩ | ⟨-, arguments, harguments, rfl⟩
    · simp
    · have hparts : ∀ part ∈ arguments.flatten, P part := by
        intro part hpart
        obtain ⟨parts, hparts, hpart⟩ := List.mem_flatten.1 hpart
        obtain ⟨entry, -, hentry⟩ := Run.exists_of_mem_except_mapM harguments hparts
        exact hP.innerArguments hentry part hpart
      simpa using hword "use syntax " (by decide) (hP.commaList hparts)
  intro s hs
  simp only [Preamble.package, List.mem_append, List.mem_cons, List.not_mem_nil, or_false] at hs
  rcases hs with (((rfl | hs) | rfl | hs) | hs) | hs
  · exact hpackage
  · exact hversions s hs
  · exact huse
  · exact huses s hs
  · exact hextra s hs
  · exact hpreamble s hs

/-- **Injected text has the property.** -/
theorem injected (hP : Piecewise P) (hfeature : P feature.name.toList)
    (h : ∀ s ∈ statements, P s.toList) :
    P (feature.trigger.toList ++ (Preamble.render statements).toList) := by
  have hbegin : P "begin ".toList := hP.of_plain (by decide)
  have hhook : P ".scope_end".toList := hP.of_plain (by decide)
  have hsemicolon : P [';'] := hP.plain (by decide)
  rw [Preamble.trigger_append_render]
  refine hP.append (hP.append hbegin (hP.append hfeature hhook))
    (hP.append hsemicolon (hP.spaced fun s hs => ?_))
  rcases List.mem_append.1 hs with hs | hs
  · obtain ⟨statement, hstatement, rfl⟩ := List.mem_map.1 hs
    exact h statement hstatement
  · rw [List.mem_singleton.1 hs]
    exact hP.of_plain (by decide)

end Piecewise

/-! ### Closed texts -/

theorem piecewise_outside : Piecewise Outside where
  plain hc := outside_singleton (isPlain_iff.1 hc).1 (isPlain_iff.1 hc).2.1
  nil := rfl
  append h h' := h.append h'
  quote := outside_quote

end Lexeme

/-- What the feature and the options of a declaration inject is closed. -/
structure Site.Closed (site : Site) : Prop where
  name : IsWord site.feature.name.toList
  extra : ∀ s ∈ site.feature.extra, Outside s.toList
  preamble : ∀ s ∈ site.options.preamble, Outside s.toList

end BraceScript
