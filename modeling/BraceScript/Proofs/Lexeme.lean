import BraceScript.Lexeme
import Mathlib.Data.List.Basic
import Mathlib.Tactic.Common

/-!
# Lexemes at the start of a longer text

A lexeme function looks at a whole text, but what it finds depends on the start of the text
only.  The statements here say when a piece is found unchanged in front of any further text:

* `Lexeme.Insignificant` : blanks and complete comments, which are skipped whatever follows;
* `Lexeme.word?_append`, `Lexeme.number?_append` : words and numbers in front of a text that
  does not go on with them (`Lexeme.EndsWord`, `Lexeme.EndsNumber`, `Lexeme.EndsLexeme`).
-/

namespace BraceScript.Lexeme

/-! ### Insignificant input -/

/-- The text from its first significant character on. -/
def significant (text : List Char) : List Char := text.drop (insignificant text)

/-- Blanks and complete comments: whatever follows, exactly this much more is skipped. -/
def Insignificant (w : List Char) : Prop :=
  ∀ rest, insignificant (w ++ rest) = w.length + insignificant rest

theorem insignificant_le_length (text : List Char) : insignificant text ≤ text.length := by
  have from_le : ∀ (inComment : Bool) (text : List Char),
      insignificantFrom inComment text ≤ text.length := by
    intro inComment text
    fun_induction insignificantFrom inComment text <;> simp_all
  exact from_le false text

theorem insignificant_cons {c : Char} (rest : List Char) (hb : Text.isBlank c = false)
    (hc : c ≠ '#') : insignificant (c :: rest) = 0 := by
  simp [insignificant, insignificantFrom, hb, hc]

theorem significant_cons {c : Char} (rest : List Char) (hb : Text.isBlank c = false)
    (hc : c ≠ '#') : significant (c :: rest) = c :: rest := by
  simp [significant, insignificant_cons rest hb hc]

theorem significant_semicolon (rest : List Char) : significant (';' :: rest) = ';' :: rest :=
  significant_cons rest (by decide) (by decide)

theorem Insignificant.nil : Insignificant [] := fun rest => by simp

theorem Insignificant.append {v w : List Char} (hv : Insignificant v) (hw : Insignificant w) :
    Insignificant (v ++ w) := by
  intro rest
  rw [List.append_assoc, hv, hw, List.length_append]
  omega

theorem Insignificant.blank {c : Char} (hb : Text.isBlank c = true) : Insignificant [c] := by
  intro rest
  simp only [insignificant, List.singleton_append, insignificantFrom, hb, ↓reduceIte,
    List.length_singleton]
  omega

theorem Insignificant.significant_append {w : List Char} (hw : Insignificant w)
    (rest : List Char) : significant (w ++ rest) = significant rest := by
  simp [significant, hw rest, List.drop_append]

/-- What is skipped before a significant character is skipped before any other text too.  At the
end of the text this would fail: there a comment may still be open. -/
theorem insignificant_take (text : List Char) (h : significant text ≠ []) :
    Insignificant (text.take (insignificant text)) := by
  -- stated for a text that begins within a comment too, for the induction
  have from_take : ∀ (inComment : Bool) (text rest : List Char),
      text.drop (insignificantFrom inComment text) ≠ [] →
      insignificantFrom inComment (text.take (insignificantFrom inComment text) ++ rest) =
        insignificantFrom inComment text + insignificantFrom false rest := by
    intro inComment text rest
    fun_induction insignificantFrom inComment text with
    | case1 => simp
    | case2 c text ih =>
      intro h
      simp only [List.drop_succ_cons] at h
      simp only [List.take_succ_cons, List.cons_append, insignificantFrom, ih h]
      omega
    | case3 c text hb ih =>
      intro h
      simp only [List.drop_succ_cons] at h
      simp only [List.take_succ_cons, List.cons_append, insignificantFrom, hb, ↓reduceIte, ih h]
      omega
    | case4 text hb ih =>
      intro h
      simp only [List.drop_succ_cons] at h
      simp only [List.take_succ_cons, List.cons_append, insignificantFrom, hb, Bool.false_eq_true,
        ↓reduceIte, ih h]
      omega
    | case5 c text hb hc => simp
  intro rest
  have hle := insignificant_le_length text
  rw [insignificant, insignificant, from_take false text rest h, List.length_take]
  simp only [insignificant] at hle ⊢
  omega

theorem insignificant_significant (text : List Char) : insignificant (significant text) = 0 := by
  have from_drop : ∀ (inComment : Bool) (text : List Char),
      insignificantFrom false (text.drop (insignificantFrom inComment text)) = 0 := by
    intro inComment text
    fun_induction insignificantFrom inComment text with
    | case1 => rfl
    | case2 c text ih => exact ih
    | case3 c text hb ih => exact ih
    | case4 text hb ih => exact ih
    | case5 c text hb hc => simp [insignificantFrom, hb, hc]
  exact from_drop false text

theorem significant_significant (text : List Char) :
    significant (significant text) = significant text := by
  rw [significant, insignificant_significant, List.drop_zero]

/-! ### ASCII characters

The tables of characters outside ASCII are looked through here once; for an ASCII character they
decide nothing. -/

theorem covers_letterRanges_of_ascii {c : Char} (h : c.toNat < 128) :
    Text.letterRanges.covers c = false := by
  have hranges : Text.letterRanges.all (fun range => 128 ≤ range.1) = true := by decide +kernel
  rw [Text.Ranges.covers, List.any_eq_false]
  intro range hrange
  have hle : 128 ≤ range.1 := of_decide_eq_true (List.all_eq_true.1 hranges range hrange)
  simp only [Bool.and_eq_true, decide_eq_true_eq, not_and]
  omega

theorem isWordChar_of_ascii {c : Char} (h : c.toNat < 128) :
    Text.isWordChar c = (c.isAlphanum || c == '_') := by
  rw [Text.isWordChar, covers_letterRanges_of_ascii h, Bool.or_false]

/-! ### Where lexemes end -/

/-- A character that can go on neither a word nor a number. -/
def isDelimiter (c : Char) : Bool :=
  !Text.isWordChar c && c != '.' && c != ':'

/-- The text does not go on with a word or number that stands before it. -/
def EndsLexeme (rest : List Char) : Prop := ∀ c ∈ rest.head?, isDelimiter c = true

theorem EndsLexeme.nil : EndsLexeme [] := by simp [EndsLexeme]

theorem EndsLexeme.cons {c : Char} (rest : List Char) (h : isDelimiter c = true) :
    EndsLexeme (c :: rest) := by simpa [EndsLexeme] using h

theorem isDelimiter_iff {c : Char} :
    isDelimiter c = true ↔ Text.isWordChar c = false ∧ c ≠ '.' ∧ c ≠ ':' := by
  simp [isDelimiter, and_assoc]

theorem isDelimiter_of_ascii {c : Char} (h : c.toNat < 128) :
    isDelimiter c = (!(c.isAlphanum || c == '_') && c != '.' && c != ':') := by
  rw [isDelimiter, isWordChar_of_ascii h]

/-- The text does not go on with a word that stands before it. -/
def EndsWord (rest : List Char) : Prop :=
  ∀ c ∈ rest.head?, Text.isWordChar c = false ∧ c ≠ ':'

theorem EndsLexeme.endsWord {rest : List Char} (h : EndsLexeme rest) : EndsWord rest := by
  intro c hc
  obtain ⟨hw, -, hcolon⟩ := isDelimiter_iff.1 (h c hc)
  exact ⟨hw, hcolon⟩

theorem EndsWord.point (rest : List Char) : EndsWord ('.' :: rest) := by
  have hpoint : Text.isWordChar '.' = false := by simp [isWordChar_of_ascii]
  simpa [EndsWord] using hpoint

/-- Blanks and the characters that separate and close values are delimiters. -/
theorem isDelimiter_of_mem {c : Char}
    (h : c ∈ [' ', '\t', '\r', '\n', ',', ';', ')', ']', '\x7d']) : isDelimiter c = true := by
  have hall : [' ', '\t', '\r', '\n', ',', ';', ')', ']', '\x7d'].all isDelimiter = true := by
    simp [isDelimiter_of_ascii]
  exact List.all_eq_true.1 hall c h

/-! ### Words -/

theorem wordTail_cons {c : Char} (rest : List Char) (h : Text.isWordChar c = true) :
    wordTail (c :: rest) = c :: wordTail rest := by
  rw [wordTail.eq_def]
  simp [h]

theorem wordTail_colons {d : Char} (rest : List Char) (h : Text.isWordStart d = true) :
    wordTail (':' :: ':' :: d :: rest) = ':' :: ':' :: d :: wordTail rest := by
  have hcolon : Text.isWordChar ':' = false := by simp [isWordChar_of_ascii]
  rw [wordTail.eq_def]
  simp [hcolon, h]

theorem wordTail_prefix (text : List Char) : wordTail text <+: text := by
  fun_induction wordTail text with
  | case1 => exact List.nil_prefix
  | case2 c rest hc ih => simpa using ih
  | case3 d rest hc hd ih => simpa using ih
  | case4 => exact List.nil_prefix
  | case5 => exact List.nil_prefix

theorem wordTail_of_endsWord {rest : List Char} (h : EndsWord rest) : wordTail rest = [] := by
  cases rest with
  | nil => rfl
  | cons c rest =>
    obtain ⟨hw, hcolon⟩ := h c rfl
    unfold wordTail
    simp only [hw, Bool.false_eq_true, ↓reduceIte]
    split
    · exact absurd rfl hcolon
    · rfl

theorem wordTail_append {w rest : List Char} (hw : wordTail w = w) (h : EndsWord rest) :
    wordTail (w ++ rest) = w := by
  fun_induction wordTail w with
  | case1 => exact wordTail_of_endsWord h
  | case2 c w hc ih =>
    simp only [List.cons.injEq, true_and] at hw
    rw [List.cons_append, wordTail_cons _ hc, ih hw]
  | case3 d w hd hc ih =>
    simp only [List.cons.injEq, true_and] at hw
    rw [List.cons_append, List.cons_append, List.cons_append, wordTail_colons _ hd, ih hw]
  | case4 => simp at hw
  | case5 => simp at hw

theorem wordTail_wordTail (text : List Char) : wordTail (wordTail text) = wordTail text := by
  fun_induction wordTail text with
  | case1 => rfl
  | case2 c rest hc ih => rw [wordTail_cons _ hc, ih]
  | case3 d rest hd hc ih => rw [wordTail_colons _ hd, ih]
  | case4 => rfl
  | case5 => rfl

theorem wordTail_of_forall {rest : List Char} (h : ∀ c ∈ rest, Text.isWordChar c = true) :
    wordTail rest = rest := by
  induction rest with
  | nil => rw [wordTail]
  | cons c rest ih =>
    rw [List.forall_mem_cons] at h
    rw [wordTail_cons _ h.1, ih h.2]

theorem word?_prefix {text w : List Char} (h : word? text = some w) : w <+: text := by
  cases text with
  | nil => simp [word?] at h
  | cons c rest =>
    simp only [word?] at h
    split at h
    · obtain rfl := Option.some.inj h
      simpa using wordTail_prefix rest
    · cases h

/-- The text is one word: names joined by `::`. -/
def IsWord (w : List Char) : Prop := word? w = some w

instance (w : List Char) : Decidable (IsWord w) :=
  inferInstanceAs (Decidable (word? w = some w))

theorem IsWord.of_word? {text w : List Char} (h : word? text = some w) : IsWord w := by
  cases text with
  | nil => simp [word?] at h
  | cons c rest =>
    simp only [word?] at h
    split at h
    · next hc =>
      obtain rfl := Option.some.inj h
      simp [IsWord, word?, hc, wordTail_wordTail]
    · cases h

theorem IsWord.exists_cons {w : List Char} (h : IsWord w) :
    ∃ c rest, w = c :: rest ∧ Text.isWordStart c = true ∧ wordTail rest = rest := by
  cases w with
  | nil => simp [IsWord, word?] at h
  | cons c rest =>
    simp only [IsWord, word?] at h
    split at h
    · next hc => exact ⟨c, rest, rfl, hc, by simpa using h⟩
    · cases h

/-- A name without `::` is a word. -/
theorem isWord_of_forall {w : List Char} (hfirst : w.head?.any Text.isWordStart = true)
    (h : ∀ c ∈ w, Text.isWordChar c = true) : IsWord w := by
  cases w with
  | nil => cases hfirst
  | cons c w =>
    have hc : Text.isWordStart c = true := by simpa using hfirst
    rw [IsWord, word?, if_pos hc, wordTail_of_forall fun c hc => h c (List.mem_cons_of_mem _ hc)]

/-- A name of ASCII letters, underscores and digits is a word. -/
theorem isWord_of_plain {w : List Char} (hfirst : w.head?.any Text.isWordStart = true)
    (h : w.all (fun c => c.isAlphanum || c == '_') = true) : IsWord w := by
  refine isWord_of_forall hfirst fun c hc => ?_
  rw [Text.isWordChar, List.all_eq_true.1 h c hc, Bool.true_or]

theorem word?_append {w rest : List Char} (hw : IsWord w) (h : EndsWord rest) :
    word? (w ++ rest) = some w := by
  obtain ⟨c, w, rfl, hc, htail⟩ := hw.exists_cons
  simp [word?, hc, wordTail_append htail h]

theorem isWordStart_not_blank {c : Char} (h : Text.isWordStart c = true) :
    Text.isBlank c = false ∧ c ≠ '#' := by
  refine ⟨?_, by rintro rfl; simp [Text.isWordStart] at h⟩
  simp only [Text.isBlank, Bool.or_eq_false_iff, beq_eq_false_iff_ne, ne_eq]
  refine ⟨⟨⟨?_, ?_⟩, ?_⟩, ?_⟩ <;> (rintro rfl; simp [Text.isWordStart] at h)

theorem word?_eq_none {c : Char} (rest : List Char) (h : Text.isWordStart c = false) :
    word? (c :: rest) = none := by simp [word?, h]

/-- No digit of any script begins a word: a word begins with an ASCII character, and no ASCII
digit is a letter. -/
theorem isWordStart_of_isAnyDigit {c : Char} (h : Text.isAnyDigit c = true) :
    Text.isWordStart c = false := by
  have hranges : ∀ range ∈ Text.digitRanges, 128 ≤ range.1 := by decide
  cases hstart : Text.isWordStart c with
  | false => rfl
  | true =>
    have hletter : (decide ('A'.val ≤ c.val ∧ c.val ≤ 'Z'.val) ||
        (decide ('a'.val ≤ c.val) && decide (c.val ≤ 'z'.val)) || c == '_') = true := hstart
    have hascii : 64 < c.toNat ∧ c.toNat < 128 := by
      simp only [Bool.or_eq_true, Bool.and_eq_true, decide_eq_true_eq, beq_iff_eq] at hletter
      rcases hletter with (⟨hle, hge⟩ | ⟨hle, hge⟩) | rfl
      · exact ⟨hle, Nat.lt_of_le_of_lt hge (by decide)⟩
      · exact ⟨Nat.lt_of_lt_of_le (by decide) hle, Nat.lt_of_le_of_lt hge (by decide)⟩
      · decide
    simp only [Text.isAnyDigit, Char.isDigit, Text.Ranges.covers, Bool.or_eq_true,
      Bool.and_eq_true, decide_eq_true_eq, List.any_eq_true] at h
    rcases h with ⟨-, hnine⟩ | ⟨range, hrange, hle, -⟩
    · have hnine' : c.toNat ≤ 57 := hnine
      omega
    · have := hranges range hrange
      omega

/-! ### Numbers -/

theorem isDigit_isWordChar {c : Char} (h : c.isDigit = true) : Text.isWordChar c = true := by
  simp [Text.isWordChar, Char.isAlphanum, h]

theorem isDigit_not_blank {c : Char} (h : c.isDigit = true) :
    Text.isBlank c = false ∧ c ≠ '#' := by
  refine ⟨?_, by rintro rfl; cases h⟩
  simp only [Text.isBlank, Bool.or_eq_false_iff, beq_eq_false_iff_ne, ne_eq]
  refine ⟨⟨⟨?_, ?_⟩, ?_⟩, ?_⟩ <;> (rintro rfl; cases h)

theorem numberTail_cons {c : Char} (rest : List Char) (h : (c.isDigit || c == '_') = true) :
    numberTail (c :: rest) = c :: numberTail rest := by
  rw [numberTail.eq_def]
  simp only [h, ↓reduceIte]

theorem numberTail_digit {c : Char} (rest : List Char) (h : c.isDigit = true) :
    numberTail (c :: rest) = c :: numberTail rest := numberTail_cons rest (by simp [h])

theorem numberTail_point {d : Char} (rest : List Char) (h : d.isDigit = true) :
    numberTail ('.' :: d :: rest) = '.' :: d :: numberTail rest := by
  rw [numberTail.eq_def]
  simp [h]

/-- The text does not go on with a number that stands before it. -/
def EndsNumber (rest : List Char) : Prop :=
  ∀ c ∈ rest.head?, c.isDigit = false ∧ c ≠ '_' ∧ c ≠ '.'

theorem EndsLexeme.endsNumber {rest : List Char} (h : EndsLexeme rest) : EndsNumber rest := by
  intro c hc
  obtain ⟨hw, hdot, -⟩ := isDelimiter_iff.1 (h c hc)
  refine ⟨?_, ?_, hdot⟩
  · by_contra hd
    simp [isDigit_isWordChar (by simpa using hd)] at hw
  · rintro rfl
    simp [Text.isWordChar] at hw

theorem numberTail_of_endsNumber {rest : List Char} (h : EndsNumber rest) :
    numberTail rest = [] := by
  cases rest with
  | nil => rfl
  | cons c rest =>
    obtain ⟨hd, hu, hdot⟩ := h c rfl
    unfold numberTail
    simp only [hd, Bool.false_or, beq_iff_eq, hu, ↓reduceIte]
    split
    · exact absurd rfl hdot
    · rfl

theorem numberTail_append {w rest : List Char} (hw : numberTail w = w) (h : EndsNumber rest) :
    numberTail (w ++ rest) = w := by
  fun_induction numberTail w with
  | case1 => exact numberTail_of_endsNumber h
  | case2 c w hc ih =>
    simp only [List.cons.injEq, true_and] at hw
    rw [List.cons_append, numberTail_cons _ hc, ih hw]
  | case3 d w hd hc ih =>
    simp only [List.cons.injEq, true_and] at hw
    rw [List.cons_append, List.cons_append, numberTail_point _ hd, ih hw]
  | case4 => simp at hw
  | case5 => simp at hw

/-- The text is one number: digits, underscores and single points. -/
def IsNumber (w : List Char) : Prop := number? w = some w

theorem IsNumber.exists_cons {w : List Char} (h : IsNumber w) :
    ∃ c rest, w = c :: rest ∧ c.isDigit = true ∧ numberTail rest = rest := by
  cases w with
  | nil => simp [IsNumber, number?] at h
  | cons c rest =>
    simp only [IsNumber, number?] at h
    split at h
    · next hc => exact ⟨c, rest, rfl, hc, by simpa using h⟩
    · cases h

theorem number?_append {w rest : List Char} (hw : IsNumber w) (h : EndsNumber rest) :
    number? (w ++ rest) = some w := by
  obtain ⟨c, w, rfl, hc, htail⟩ := hw.exists_cons
  simp [number?, hc, numberTail_append htail h]

theorem numberTail_prefix (text : List Char) : numberTail text <+: text := by
  fun_induction numberTail text with
  | case1 => exact List.nil_prefix
  | case2 c rest hc ih => simpa using ih
  | case3 d rest hd hc ih => simpa using ih
  | case4 => exact List.nil_prefix
  | case5 => exact List.nil_prefix

theorem numberTail_digits_append {ds : List Char} (rest : List Char)
    (h : ∀ c ∈ ds, c.isDigit = true) : numberTail (ds ++ rest) = ds ++ numberTail rest := by
  induction ds with
  | nil => rfl
  | cons c ds ih =>
    obtain ⟨hc, hds⟩ := List.forall_mem_cons.1 h
    rw [List.cons_append, numberTail_digit _ hc, ih hds, List.cons_append]

theorem isNumber_digits {ds : List Char} (h : ∀ c ∈ ds, c.isDigit = true) (hne : ds ≠ []) :
    IsNumber ds := by
  obtain ⟨c, ds, rfl⟩ := List.exists_cons_of_ne_nil hne
  obtain ⟨hc, hds⟩ := List.forall_mem_cons.1 h
  have htail := numberTail_digits_append [] hds
  simp only [List.append_nil, numberTail] at htail
  simp [IsNumber, number?, hc, htail]

theorem isNumber_point {whole fraction : List Char} (hw : ∀ c ∈ whole, c.isDigit = true)
    (hf : ∀ c ∈ fraction, c.isDigit = true) (hwne : whole ≠ []) (hfne : fraction ≠ []) :
    IsNumber (whole ++ '.' :: fraction) := by
  obtain ⟨c, whole, rfl⟩ := List.exists_cons_of_ne_nil hwne
  obtain ⟨d, fraction, rfl⟩ := List.exists_cons_of_ne_nil hfne
  obtain ⟨hc, hw⟩ := List.forall_mem_cons.1 hw
  obtain ⟨hd, hf⟩ := List.forall_mem_cons.1 hf
  have htail := numberTail_digits_append [] hf
  simp only [List.append_nil, numberTail] at htail
  simp [IsNumber, number?, hc, numberTail_digits_append _ hw, numberTail_point _ hd, htail]

end BraceScript.Lexeme
