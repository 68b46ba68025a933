import BraceScript.Proofs.Expansion

/-!
# Texts that differ in one gap

A gap is a run of blanks and complete comments.  Two texts that have different gaps at one place
outside quoted texts and comments, and are the same elsewhere (`Lexeme.Respaced`), begin with the
same lexemes:

* `Lexeme.Respaced.significant` : what follows the blanks and comments at their start is the same
  text, or begins with the same character in front of the gap;
* `Lexeme.IsLexer.respaced`, `Lexeme.Respaced.quoted` : the lexeme at the start is the same, and
  what follows it differs in the gap again.

Whether a place is outside quoted texts and comments is told by what stands before it
(`Lexeme.Outside`).
-/

namespace BraceScript.Lexeme

open Declaration.Head (blanks blanks_append_significant)

/-! ### Outside quoted texts and comments -/

/-- What a text ends in. -/
inductive Mode where
  | outside
  | comment
  | quoted
  /-- Behind a backslash in a quoted text. -/
  | escaped
deriving DecidableEq

namespace Mode

/-- What one more character leads to. -/
def next : Mode → Char → Mode
  | outside, c => if c = '#' then comment else if c = '"' then quoted else outside
  | comment, c => if c = '\n' then outside else comment
  | quoted, c => if c = '\\' then escaped else if c = '"' then outside else quoted
  | escaped, _ => quoted

/-- What more text leads to. -/
def after (mode : Mode) (text : List Char) : Mode := text.foldl next mode

end Mode

/-- No comment and no quoted text is open at the end of the text. -/
def Outside (text : List Char) : Prop := Mode.outside.after text = .outside

instance (text : List Char) : Decidable (Outside text) :=
  inferInstanceAs (Decidable (Mode.outside.after text = .outside))

variable {a b r t t' v w w' : List Char} {c : Char}

theorem Outside.append_iff (hv : Outside v) : Outside (v ++ a) ↔ Outside a := by
  unfold Outside Mode.after at hv ⊢
  rw [List.foldl_append, hv]

theorem Outside.append (hv : Outside v) (ha : Outside a) : Outside (v ++ a) :=
  hv.append_iff.2 ha

/-- Characters that open nothing. -/
theorem outside_of_plain (h : ∀ c ∈ a, c ≠ '#' ∧ c ≠ '"') : Outside a := by
  induction a with
  | nil => rfl
  | cons c a ih =>
    rw [List.forall_mem_cons] at h
    obtain ⟨⟨hcomment, hquote⟩, ha⟩ := h
    have hc : Outside [c] := by simp [Outside, Mode.after, Mode.next, hcomment, hquote]
    exact hc.append (ih ha)

theorem outside_singleton (hcomment : c ≠ '#') (hquote : c ≠ '"') : Outside [c] :=
  outside_of_plain (by simp [hcomment, hquote])

/-- The characters of words and numbers open nothing. -/
theorem outside_of_isDelimiter (h : ∀ c ∈ a, isDelimiter c = false) : Outside a := by
  have hopening : isDelimiter '#' = true ∧ isDelimiter '"' = true := by
    simp [isDelimiter_of_ascii]
  refine outside_of_plain fun c hc => ⟨?_, ?_⟩
  · rintro rfl
    rw [h _ hc] at hopening
    cases hopening.1
  · rintro rfl
    rw [h _ hc] at hopening
    cases hopening.2

/-- A comment that has ended has a line break at its end. -/
theorem exists_of_after_comment (h : Mode.comment.after a = .outside) :
    ∃ body rest, a = body ++ '\n' :: rest ∧ '\n' ∉ body ∧ Outside rest := by
  induction a with
  | nil => cases h
  | cons c a ih =>
    by_cases hc : c = '\n'
    · have hnext : Mode.comment.next c = .outside := if_pos hc
      rw [Mode.after, List.foldl_cons, hnext] at h
      exact ⟨[], a, by rw [hc]; rfl, by simp, h⟩
    · have hnext : Mode.comment.next c = .comment := if_neg hc
      rw [Mode.after, List.foldl_cons, hnext] at h
      obtain ⟨body, rest, rfl, hbody, hrest⟩ := ih h
      exact ⟨c :: body, rest, rfl, by simpa [eq_comm] using ⟨hc, hbody⟩, hrest⟩

/-! ### Gaps -/

/-- Blanks and complete comments. -/
inductive Spacing : List Char → Prop
  | nil : Spacing []
  | blank {c : Char} {rest : List Char} (hc : Text.isBlank c = true) (h : Spacing rest) :
      Spacing (c :: rest)
  | comment {body rest : List Char} (hbody : '\n' ∉ body) (h : Spacing rest) :
      Spacing ('#' :: (body ++ '\n' :: rest))

/-- A gap is not empty: it parts what stands before it from what stands behind it. -/
structure IsGap (w : List Char) : Prop where
  spacing : Spacing w
  ne_nil : w ≠ []

theorem isBlank_plain (h : Text.isBlank c = true) : c ≠ '#' ∧ c ≠ '"' := by
  constructor <;> (rintro rfl; cases h)

theorem Insignificant.comment {body : List Char} (hbody : '\n' ∉ body) :
    Insignificant ('#' :: (body ++ ['\n'])) := by
  -- stated for a text that begins within a comment, for the induction
  have from_comment : ∀ rest, insignificantFrom true (body ++ '\n' :: rest) =
      body.length + 1 + insignificantFrom false rest := by
    intro rest
    induction body with
    | nil =>
      simp only [List.nil_append, insignificantFrom, bne_self_eq_false, List.length_nil]
      omega
    | cons c body ih =>
      obtain ⟨hc, hbody⟩ := not_or.1 (List.mem_cons.not.1 hbody)
      have hne : (c != '\n') = true := bne_iff_ne.2 (Ne.symm hc)
      simp only [List.cons_append, insignificantFrom, hne, ih hbody, List.length_cons]
      omega
  intro rest
  have hhash : Text.isBlank '#' = false := by decide
  rw [insignificant, List.cons_append, List.append_assoc, List.singleton_append, insignificantFrom,
    hhash, if_neg (by simp), if_pos rfl, from_comment]
  simp only [List.length_cons, List.length_append, List.length_nil, insignificant]
  omega

theorem Spacing.insignificant (h : Spacing w) : Insignificant w := by
  induction h with
  | nil => exact .nil
  | blank hc _ ih => exact (Insignificant.blank hc).append ih
  | comment hbody _ ih => simpa using (Insignificant.comment hbody).append ih

theorem Spacing.outside (h : Spacing w) : Outside w := by
  induction h with
  | nil => rfl
  | blank hc _ ih =>
    obtain ⟨hcomment, hquote⟩ := isBlank_plain hc
    exact (outside_singleton hcomment hquote).append ih
  | @comment body rest hbody _ ih =>
    have hopen : Mode.comment.after body = .comment := by
      clear ih
      induction body with
      | nil => rfl
      | cons c body ihbody =>
        obtain ⟨hc, hbody⟩ := not_or.1 (List.mem_cons.not.1 hbody)
        have hnext : Mode.comment.next c = .comment := if_neg (Ne.symm hc)
        unfold Mode.after at ihbody ⊢
        rw [List.foldl_cons, hnext, ihbody hbody]
    unfold Outside Mode.after at ih ⊢
    unfold Mode.after at hopen
    rw [List.foldl_cons, List.foldl_append, show Mode.outside.next '#' = .comment from rfl, hopen]
    exact ih

/-- The characters that a gap may begin with. -/
def gapStarts : List Char := [' ', '\t', '\r', '\n', '#']

theorem IsGap.exists_cons (h : IsGap w) : ∃ c rest, w = c :: rest ∧ c ∈ gapStarts := by
  obtain ⟨hspacing, hne⟩ := h
  cases hspacing with
  | nil => exact absurd rfl hne
  | blank hc _ =>
    refine ⟨_, _, rfl, ?_⟩
    simp only [Text.isBlank, Bool.or_eq_true, beq_iff_eq] at hc
    simpa [gapStarts, or_assoc] using hc.imp_right .inl
  | comment => exact ⟨_, _, rfl, by decide⟩

/-- What stands before a gap does not go on into it. -/
theorem isDelimiter_of_mem_gapStarts (h : c ∈ gapStarts) :
    isDelimiter c = true ∧ Text.isAnyDigit c = false ∧ c ≠ '>' := by
  have hall : gapStarts.all (fun c => isDelimiter c && !Text.isAnyDigit c && c != '>') = true := by
    decide +kernel
  simpa [and_assoc] using List.all_eq_true.1 hall c h

theorem IsGap.endsLexeme (h : IsGap w) : EndsLexeme (w ++ b) := by
  obtain ⟨c, rest, rfl, hc⟩ := h.exists_cons
  exact .cons _ (isDelimiter_of_mem_gapStarts hc).1

/-- A text that leaves nothing open is blanks and comments, or has a significant character. -/
theorem Outside.spacing_or (ha : Outside a) :
    Spacing a ∨ ∃ v c rest, a = v ++ c :: rest ∧ Spacing v ∧ Text.isBlank c = false ∧ c ≠ '#' ∧
      Outside (c :: rest) := by
  induction hlength : a.length using Nat.strongRecOn generalizing a with
  | ind n ih =>
    cases a with
    | nil => exact .inl .nil
    | cons c a =>
      rw [List.length_cons] at hlength
      cases hblank : Text.isBlank c with
      | true =>
        obtain ⟨hcomment, hquote⟩ := isBlank_plain hblank
        have ha' : Outside a := (outside_singleton hcomment hquote).append_iff.1 ha
        rcases ih a.length (by omega) ha' rfl with h | ⟨v, d, rest, rfl, hv, hd⟩
        · exact .inl (.blank hblank h)
        · exact .inr ⟨c :: v, d, rest, rfl, .blank hblank hv, hd⟩
      | false =>
        by_cases hcomment : c = '#'
        · subst hcomment
          obtain ⟨body, rest, rfl, hbody, hrest⟩ := exists_of_after_comment ha
          rw [List.length_append, List.length_cons] at hlength
          rcases ih rest.length (by omega) hrest rfl with h | ⟨v, d, rest, rfl, hv, hd⟩
          · exact .inl (.comment hbody h)
          · exact .inr ⟨'#' :: (body ++ '\n' :: v), d, rest, by simp, .comment hbody hv, hd⟩
        · exact .inr ⟨[], c, a, rfl, .nil, hblank, hcomment, ha⟩

/-! ### Two texts -/

/-- The two texts differ in one gap at most, which stands outside quoted texts and comments. -/
inductive Respaced : List Char → List Char → Prop
  | refl (t : List Char) : Respaced t t
  | gap {a w w' : List Char} (b : List Char) (ha : Outside a) (hw : IsGap w) (hw' : IsGap w') :
      Respaced (a ++ (w ++ b)) (a ++ (w' ++ b))

/-- The two texts differ in one gap at most, and not at their start. -/
inductive Aligned : List Char → List Char → Prop
  | refl (t : List Char) : Aligned t t
  | gap {c : Char} {a w w' : List Char} (b : List Char) (hblank : Text.isBlank c = false)
      (hcomment : c ≠ '#') (ha : Outside (c :: a)) (hw : IsGap w) (hw' : IsGap w') :
      Aligned (c :: (a ++ (w ++ b))) (c :: (a ++ (w' ++ b)))

/-- Behind the same text, the two texts differ in one gap at most. -/
def Behind (v t t' : List Char) : Prop :=
  ∃ rest rest', Respaced rest rest' ∧ t = v ++ rest ∧ t' = v ++ rest'

theorem Respaced.symm (h : Respaced t t') : Respaced t' t := by
  cases h with
  | refl => exact .refl _
  | gap b ha hw hw' => exact .gap b ha hw' hw

theorem Respaced.prepend (hv : Outside v) (h : Respaced t t') : Respaced (v ++ t) (v ++ t') := by
  cases h with
  | refl => exact .refl _
  | gap b ha hw hw' =>
    simp only [← List.append_assoc v]
    exact .gap b (hv.append ha) hw hw'

theorem Aligned.respaced (h : Aligned t t') : Respaced t t' := by
  cases h with
  | refl => exact .refl _
  | gap b _ _ ha hw hw' => exact .gap b ha hw hw'

theorem Aligned.head? (h : Aligned t t') : t'.head? = t.head? := by
  cases h <;> rfl

theorem Behind.drop (h : Behind v t t') : Respaced (t.drop v.length) (t'.drop v.length) := by
  obtain ⟨rest, rest', h, rfl, rfl⟩ := h
  rwa [List.drop_left, List.drop_left]

/-- The blanks and comments at the start of two texts that are not the same: the gap stands behind
them, or among them. -/
theorem Respaced.blanks_or (h : Respaced t t') :
    t' = t ∨
      (blanks t' = blanks t ∧ Outside (blanks t) ∧ Aligned (significant t) (significant t')) ∨
      significant t' = significant t ∧ ∀ s, Respaced (blanks t ++ s) (blanks t' ++ s) := by
  cases h with
  | refl => exact .inl rfl
  | @gap a w w' b ha hw hw' =>
    rcases ha.spacing_or with hspacing | ⟨v, c, rest, rfl, hv, hblank, hcomment, hrest⟩
    · refine .inr (.inr ?_)
      have hblanks {u : List Char} (hu : IsGap u) :
          significant (a ++ (u ++ b)) = significant b ∧
            blanks (a ++ (u ++ b)) = a ++ (u ++ blanks b) := by
        have hs : significant (a ++ (u ++ b)) = significant b := by
          rw [hspacing.insignificant.significant_append,
            hu.spacing.insignificant.significant_append]
        refine ⟨hs, (List.append_left_inj (significant b)).1 ?_⟩
        rw [← hs, blanks_append_significant, hs]
        simp only [List.append_assoc, blanks_append_significant]
      refine ⟨by rw [(hblanks hw).1, (hblanks hw').1], fun s => ?_⟩
      rw [(hblanks hw).2, (hblanks hw').2]
      simp only [List.append_assoc]
      exact .gap _ ha hw hw'
    · refine .inr (.inl ?_)
      have hsplit (u : List Char) :
          significant (v ++ c :: rest ++ u) = c :: (rest ++ u) ∧
            blanks (v ++ c :: rest ++ u) = v := by
        have hs : significant (v ++ c :: rest ++ u) = c :: (rest ++ u) := by
          rw [List.append_assoc, hv.insignificant.significant_append, List.cons_append,
            significant_cons _ hblank hcomment]
        refine ⟨hs, (List.append_left_inj (c :: (rest ++ u))).1 ?_⟩
        rw [← hs, blanks_append_significant, hs]
        simp
      rw [(hsplit _).1, (hsplit _).1, (hsplit _).2, (hsplit _).2]
      exact ⟨rfl, hv.outside, .gap b hblank hcomment hrest hw hw'⟩

/-- **Only what is significant counts.**  Behind the blanks and comments at their start, the texts
are the same or begin with the same character. -/
theorem Respaced.significant (h : Respaced t t') : Aligned (significant t) (significant t') := by
  rcases h.blanks_or with rfl | ⟨-, -, h⟩ | ⟨h, -⟩
  · exact .refl _
  · exact h
  · rw [h]
    exact .refl _

/-- A character that is no quote is passed in both texts. -/
theorem Aligned.behind_cons {rest : List Char} (h : Aligned t t') (ht : t = c :: rest)
    (hquote : c ≠ '"') : Behind [c] t t' := by
  cases h with
  | refl => exact ⟨rest, rest, .refl _, ht, ht⟩
  | gap b _ hcomment ha hw hw' =>
    obtain ⟨rfl, rfl⟩ := List.cons.inj ht
    exact ⟨_, _, .gap b ((outside_singleton hcomment hquote).append_iff.1 ha) hw hw', rfl, rfl⟩

/-- The arrow between a key and its value is not parted by a gap. -/
theorem Aligned.arrow (h : Aligned t t') :
    ['=', '>'].isPrefixOf t' = ['=', '>'].isPrefixOf t ∧
      (['=', '>'].isPrefixOf t = true → Behind ['=', '>'] t t') := by
  cases h with
  | refl =>
    refine ⟨rfl, fun h => ?_⟩
    obtain ⟨rest, rfl⟩ := List.isPrefixOf_iff_prefix.1 h
    exact ⟨rest, rest, .refl _, rfl, rfl⟩
  | @gap c a w w' b _ _ ha hw hw' =>
    cases a with
    | nil =>
      -- behind the first character stands the gap
      have hno {u : List Char} (hu : IsGap u) :
          ['=', '>'].isPrefixOf (c :: ([] ++ (u ++ b))) = false := by
        obtain ⟨d, rest, rfl, hd⟩ := hu.exists_cons
        have hne := (isDelimiter_of_mem_gapStarts hd).2.2
        simp [List.isPrefixOf, hne.symm]
      rw [hno hw, hno hw']
      exact ⟨rfl, nofun⟩
    | cons d a =>
      refine ⟨by simp [List.isPrefixOf], fun h => ?_⟩
      obtain ⟨rfl, rfl⟩ : '=' = c ∧ '>' = d := by simpa [List.isPrefixOf] using h
      have harrow : Outside ['=', '>'] := by decide
      exact ⟨_, _, .gap b (harrow.append_iff.1 ha) hw hw', rfl, rfl⟩

/-- The character behind the first one is a digit in both texts or in neither. -/
theorem Aligned.digit (h : Aligned t t') :
    (t'.drop 1).head?.any Text.isAnyDigit = (t.drop 1).head?.any Text.isAnyDigit := by
  cases h with
  | refl => rfl
  | @gap c a w w' b _ _ ha hw hw' =>
    cases a with
    | nil =>
      obtain ⟨d, rest, rfl, hd⟩ := hw.exists_cons
      obtain ⟨d', rest', rfl, hd'⟩ := hw'.exists_cons
      simp [(isDelimiter_of_mem_gapStarts hd).2.1, (isDelimiter_of_mem_gapStarts hd').2.1]
    | cons d a => rfl

/-! ### Lexemes -/

/-- A function that finds a lexeme at the start of a text: it looks no further than to the first
delimiter. -/
structure IsLexer (lexeme? : List Char → Option (List Char)) : Prop where
  append {a rest : List Char} (h : EndsLexeme rest) : lexeme? (a ++ rest) = lexeme? a
  taken {text v : List Char} (h : lexeme? text = some v) : v <+: text
  plain {text v : List Char} (h : lexeme? text = some v) : ∀ c ∈ v, isDelimiter c = false

/-- The lexeme at the start is the same, and the gap stands behind it. -/
theorem IsLexer.respaced {lexeme? : List Char → Option (List Char)} (hlexer : IsLexer lexeme?)
    (h : Respaced t t') : lexeme? t' = lexeme? t ∧ ∀ v, lexeme? t = some v → Behind v t t' := by
  cases h with
  | refl =>
    refine ⟨rfl, fun v hv => ?_⟩
    obtain ⟨rest, rfl⟩ := hlexer.taken hv
    exact ⟨rest, rest, .refl _, rfl, rfl⟩
  | @gap a w w' b ha hw hw' =>
    rw [hlexer.append hw.endsLexeme, hlexer.append hw'.endsLexeme]
    refine ⟨rfl, fun v hv => ?_⟩
    obtain ⟨rest, rfl⟩ := hlexer.taken hv
    have hplain := outside_of_isDelimiter (hlexer.plain hv)
    exact ⟨_, _, .gap b (hplain.append_iff.1 ha) hw hw', by simp, by simp⟩

/-- A character that goes on a word or a number is no delimiter. -/
theorem isDelimiter_of_isWordChar (h : Text.isWordChar c = true) : isDelimiter c = false := by
  simp [isDelimiter, h]

theorem isDelimiter_of_isWordStart (h : Text.isWordStart c = true) : isDelimiter c = false :=
  isDelimiter_of_isWordChar (Text.isWordChar_of_isWordStart h)

theorem isDelimiter_of_isDigit (h : c.isDigit = true) : isDelimiter c = false :=
  isDelimiter_of_isWordChar (isDigit_isWordChar h)

/-- A word ends in front of any other character. -/
theorem wordTail_eq_nil {c : Char} {rest : List Char} (hc : Text.isWordChar c = false)
    (hcolons : ∀ d rest', c = ':' → rest = ':' :: d :: rest' → Text.isWordStart d = false) :
    wordTail (c :: rest) = [] := by
  rw [wordTail.eq_def]
  simp only [hc, Bool.false_eq_true, ↓reduceIte]
  split
  · next d rest' => rw [hcolons d rest' rfl rfl, if_neg (by simp)]
  · rfl

theorem EndsLexeme.wordTail_append (h : EndsLexeme r) : wordTail (a ++ r) = wordTail a := by
  -- the second colon and the letter behind it may only stand in front of what follows
  have hstart : ∀ d s, r = d :: s → Text.isWordStart d = false := by
    rintro d s rfl
    by_contra hd
    have := isDelimiter_of_isWordStart (by simpa using hd : Text.isWordStart d = true)
    rw [h d rfl] at this
    cases this
  have hcolon : ∀ s, r ≠ ':' :: s := by
    rintro s rfl
    have := h _ rfl
    simp [isDelimiter] at this
  fun_induction wordTail a with
  | case1 => exact wordTail_of_endsWord h.endsWord
  | case2 c a hc ih => rw [List.cons_append, wordTail_cons _ hc, ih]
  | case3 d a hd hc ih =>
    rw [List.cons_append, List.cons_append, List.cons_append, wordTail_colons _ hd, ih]
  | case4 d a hd hc =>
    rw [List.cons_append, List.cons_append, List.cons_append]
    refine wordTail_eq_nil (eq_false_of_ne_true hc) fun e s _ heq => ?_
    rw [List.cons.injEq, List.cons.injEq] at heq
    rw [← heq.2.1]
    exact eq_false_of_ne_true hd
  | case5 c a hc hne =>
    rw [List.cons_append]
    refine wordTail_eq_nil (eq_false_of_ne_true hc) fun d s hcolons heq => ?_
    cases a with
    | nil => exact absurd heq (hcolon _)
    | cons e a =>
      rw [List.cons_append, List.cons.injEq] at heq
      obtain ⟨rfl, htail⟩ := heq
      cases a with
      | nil => exact hstart d s htail
      | cons f a => exact absurd rfl (hne f a hcolons)

theorem wordTail_plain (text : List Char) : ∀ c ∈ wordTail text, isDelimiter c = false := by
  have hcolon : isDelimiter ':' = false := by simp [isDelimiter_of_ascii]
  fun_induction wordTail text with
  | case1 => simp
  | case2 c rest hc ih => simpa using ⟨isDelimiter_of_isWordChar hc, ih⟩
  | case3 d rest hd hc ih => simpa [hcolon] using ⟨isDelimiter_of_isWordStart hd, ih⟩
  | case4 => simp
  | case5 => simp

/-- A number ends in front of any other character. -/
theorem numberTail_eq_nil {c : Char} {rest : List Char} (hc : (c.isDigit || c == '_') = false)
    (hpoint : ∀ d rest', c = '.' → rest = d :: rest' → d.isDigit = false) :
    numberTail (c :: rest) = [] := by
  rw [numberTail.eq_def]
  simp only [hc, Bool.false_eq_true, ↓reduceIte]
  split
  · next d rest' => rw [hpoint d rest' rfl rfl, if_neg (by simp)]
  · rfl

theorem EndsLexeme.isDigit_head (h : EndsLexeme (c :: r)) : c.isDigit = false := by
  by_contra hd
  have := isDelimiter_of_isDigit (by simpa using hd : c.isDigit = true)
  rw [h c rfl] at this
  cases this

theorem EndsLexeme.numberTail_append (h : EndsLexeme r) :
    numberTail (a ++ r) = numberTail a := by
  fun_induction numberTail a with
  | case1 => exact numberTail_of_endsNumber h.endsNumber
  | case2 c a hc ih => rw [List.cons_append, numberTail_cons _ hc, ih]
  | case3 d a hd hc ih => rw [List.cons_append, List.cons_append, numberTail_point _ hd, ih]
  | case4 d a hd hc =>
    rw [List.cons_append, List.cons_append]
    refine numberTail_eq_nil (eq_false_of_ne_true hc) fun e s _ heq => ?_
    rw [List.cons.injEq] at heq
    rw [← heq.1]
    exact eq_false_of_ne_true hd
  | case5 c a hc hne =>
    rw [List.cons_append]
    refine numberTail_eq_nil (eq_false_of_ne_true hc) fun d s hpoint heq => ?_
    cases a with
    | nil =>
      obtain rfl : r = d :: s := heq
      exact h.isDigit_head
    | cons e a => exact absurd rfl (hne e a hpoint)

theorem numberTail_plain (text : List Char) : ∀ c ∈ numberTail text, isDelimiter c = false := by
  have hpoint : isDelimiter '.' = false := by simp [isDelimiter_of_ascii]
  have hunderscore : isDelimiter '_' = false := by simp [isDelimiter_of_ascii]
  fun_induction numberTail text with
  | case1 => simp
  | case2 c rest hc ih =>
    rw [Bool.or_eq_true, beq_iff_eq] at hc
    have hc' : isDelimiter c = false := hc.elim isDelimiter_of_isDigit fun h => h ▸ hunderscore
    simpa using ⟨hc', ih⟩
  | case3 d rest hd hc ih => simpa [hpoint] using ⟨isDelimiter_of_isDigit hd, ih⟩
  | case4 => simp
  | case5 => simp

/-- A version ends in front of any other character. -/
theorem tail_eq_nil {held : Nat} {c : Char} {rest : List Char} (hc : c.isDigit = false)
    (hunderscore : c ≠ '_')
    (hpoint : ∀ d rest', c = '.' → held = 0 → rest = d :: rest' → d.isDigit = false) :
    Version.tail held (c :: rest) = [] := by
  rw [Version.tail.eq_def]
  simp only [hc, Bool.false_eq_true, ↓reduceIte, hunderscore]
  split
  · next h =>
    split
    · next d rest' => rw [hpoint d rest' h.1 h.2 rfl, if_neg (by simp)]
    · rfl
  · rfl

theorem EndsLexeme.tail_append (h : EndsLexeme r) (held : Nat) :
    Version.tail held (a ++ r) = Version.tail held a := by
  have hend : ∀ held, Version.tail held r = [] := by
    intro held
    cases r with
    | nil => rfl
    | cons c r =>
      obtain ⟨hword, hpoint, -⟩ := isDelimiter_iff.1 (h c rfl)
      refine tail_eq_nil h.isDigit_head ?_ fun _ _ hc => absurd hc hpoint
      rintro rfl
      simp [Text.isWordChar] at hword
  fun_induction Version.tail held a with
  | case1 => exact hend _
  | case2 held c a hc ih =>
    rw [List.cons_append, Version.tail.eq_def]
    simp only [hc, ↓reduceIte, ih]
  | case3 held a hc ih =>
    rw [List.cons_append, Version.tail.eq_def]
    simp only [hc, ↓reduceIte, ih, Bool.false_eq_true]
  | case4 held c hc hu hdot d a hd ih =>
    obtain ⟨rfl, rfl⟩ := hdot
    rw [List.cons_append, List.cons_append, Version.tail.eq_def]
    simp only [hc, hu, hd, ↓reduceIte, ih, Bool.false_eq_true, and_self]
  | case5 held c hc hu hdot d a hd =>
    rw [List.cons_append, List.cons_append]
    refine tail_eq_nil (eq_false_of_ne_true hc) hu fun e s _ _ heq => ?_
    rw [List.cons.injEq] at heq
    rw [← heq.1]
    exact eq_false_of_ne_true hd
  | case6 held c hc hu hdot =>
    refine tail_eq_nil (eq_false_of_ne_true hc) hu fun d s _ _ heq => ?_
    obtain rfl : r = d :: s := heq
    exact h.isDigit_head
  | case7 held c a hc hu hdot =>
    exact tail_eq_nil (eq_false_of_ne_true hc) hu fun _ _ hpoint hheld =>
      absurd ⟨hpoint, hheld⟩ hdot

theorem tail_plain (held : Nat) (text : List Char) :
    ∀ c ∈ Version.tail held text, isDelimiter c = false := by
  have hpoint : isDelimiter '.' = false := by simp [isDelimiter_of_ascii]
  have hunderscore : isDelimiter '_' = false := by simp [isDelimiter_of_ascii]
  fun_induction Version.tail held text with
  | case1 => simp
  | case2 held c rest hc ih =>
    intro d hd
    rcases List.mem_append.1 hd with hd | hd
    · rw [List.eq_of_mem_replicate hd, hunderscore]
    · rcases List.mem_cons.1 hd with rfl | hd
      · exact isDelimiter_of_isDigit hc
      · exact ih d hd
  | case3 held rest hc ih => exact ih
  | case4 held c hc hu hdot d rest hd ih =>
    simpa [hpoint] using ⟨isDelimiter_of_isDigit hd, ih⟩
  | case5 => simp
  | case6 => simp
  | case7 => simp

/-- A function that looks at the first character and then at the rest finds lexemes. -/
theorem IsLexer.of_tail {lexeme? : List Char → Option (List Char)} {start : Char → Bool}
    {tail : List Char → List Char} (hnil : lexeme? [] = none)
    (hcons : ∀ c rest, lexeme? (c :: rest) = if start c then some (c :: tail rest) else none)
    (hstart : ∀ c, start c = true → isDelimiter c = false)
    (happend : ∀ a r, EndsLexeme r → tail (a ++ r) = tail a)
    (htaken : ∀ text, tail text <+: text)
    (hplain : ∀ text, ∀ c ∈ tail text, isDelimiter c = false) : IsLexer lexeme? := by
  have hsome : ∀ {text v}, lexeme? text = some v →
      ∃ c rest, text = c :: rest ∧ start c = true ∧ v = c :: tail rest := by
    intro text v h
    cases text with
    | nil => rw [hnil] at h; cases h
    | cons c rest =>
      rw [hcons] at h
      split at h
      · next hc => exact ⟨c, rest, rfl, hc, (Option.some.inj h).symm⟩
      · cases h
  refine ⟨fun {a r} h => ?_, fun h => ?_, fun h => ?_⟩
  · cases a with
    | cons c a => rw [List.cons_append, hcons, hcons, happend a r h]
    | nil =>
      cases r with
      | nil => rfl
      | cons c r =>
        have hc : start c ≠ true := fun hc => by
          have := hstart c hc
          rw [h c rfl] at this
          cases this
        rw [List.nil_append, hcons, if_neg hc, hnil]
  · obtain ⟨c, rest, rfl, -, rfl⟩ := hsome h
    exact (List.prefix_cons_inj c).2 (htaken rest)
  · obtain ⟨c, rest, -, hc, rfl⟩ := hsome h
    exact List.forall_mem_cons.2 ⟨hstart c hc, hplain rest⟩

theorem isLexer_word? : IsLexer word? :=
  .of_tail rfl (fun _ _ => rfl) (fun _ => isDelimiter_of_isWordStart)
    (fun _ _ h => h.wordTail_append) wordTail_prefix wordTail_plain

theorem isLexer_number? : IsLexer number? :=
  .of_tail rfl (fun _ _ => rfl) (fun _ => isDelimiter_of_isDigit)
    (fun _ _ h => h.numberTail_append) numberTail_prefix numberTail_plain

theorem isLexer_literal? : IsLexer Version.literal? :=
  .of_tail rfl (fun _ _ => rfl) (fun _ => isDelimiter_of_isDigit)
    (fun _ _ h => h.tail_append 0) (Version.tail_prefix 0) (tail_plain 0)

/-- Behind blanks and comments, the lexeme at the start is the same and the gap stands behind it,
or the gap is among these blanks and comments. -/
theorem IsLexer.respaced_significant {lexeme? : List Char → Option (List Char)}
    (hlexer : IsLexer lexeme?) (h : Respaced t t') :
    (blanks t' = blanks t ∧ (t' = t ∨ Outside (blanks t)) ∧
        lexeme? (significant t') = lexeme? (significant t) ∧
        Respaced ((significant t).drop ((lexeme? (significant t)).getD []).length)
          ((significant t').drop ((lexeme? (significant t)).getD []).length)) ∨
      significant t' = significant t ∧ ∀ s, Respaced (blanks t ++ s) (blanks t' ++ s) := by
  rcases h.blanks_or with rfl | ⟨hblanks, houtside, haligned⟩ | h
  · exact .inl ⟨rfl, .inl rfl, rfl, .refl _⟩
  · obtain ⟨hlexeme, hbehind⟩ := hlexer.respaced haligned.respaced
    refine .inl ⟨hblanks, .inr houtside, hlexeme, ?_⟩
    cases hfound : lexeme? (significant t) with
    | none => exact haligned.respaced
    | some v => exact (hbehind v hfound).drop
  · exact .inr h

/-! ### Quoted texts -/

/-- A quoted text that is closed is read to its end, whatever follows it. -/
theorem quoted_append (h : Mode.quoted.after a = .outside) :
    ∃ chars read, (∀ rest, quoted (a ++ rest) = .ok (chars, read)) ∧ read ≤ a.length ∧
      Outside (a.drop read) := by
  fun_induction quoted a with
  | case1 => cases h
  | case2 a => exact ⟨[], 1, fun rest => rfl, by simp, h⟩
  | case3 => cases h
  | case4 c a ih =>
    obtain ⟨chars, read, hread, hle, houtside⟩ := ih h
    refine ⟨unescape c :: chars, read + 2, fun rest => ?_, by simpa using hle, houtside⟩
    simp only [List.cons_append, quoted, hread]
    rfl
  | case5 c a hquote hend hescape ih =>
    have hbackslash : c ≠ '\\' := by
      rintro rfl
      cases a with
      | nil => exact hend rfl rfl
      | cons d a => exact hescape d a rfl rfl
    have hnext : Mode.quoted.next c = .quoted := by
      rw [Mode.next, if_neg hbackslash, if_neg hquote]
    rw [Mode.after, List.foldl_cons, hnext] at h
    obtain ⟨chars, read, hread, hle, houtside⟩ := ih h
    refine ⟨c :: chars, read + 1, fun rest => ?_, by simpa using hle, houtside⟩
    rw [List.cons_append, quoted, hread]
    · rfl
    · exact hquote
    · exact fun hc => absurd hc hbackslash
    · exact fun d s hc => absurd hc hbackslash

/-- The quoted text at the start is the same, and the gap stands behind it. -/
theorem Aligned.quoted {rest chars : List Char} {read : Nat} (h : Aligned t t')
    (ht : t = '"' :: rest) (hread : quoted (t.drop 1) = .ok (chars, read)) :
    quoted (t'.drop 1) = .ok (chars, read) ∧ Respaced (t.drop (read + 1)) (t'.drop (read + 1)) := by
  cases h with
  | refl => exact ⟨hread, .refl _⟩
  | @gap c a w w' b _ _ ha hw hw' =>
    obtain ⟨rfl, -⟩ := List.cons.inj ht
    obtain ⟨chars', read', hquoted, hle, houtside⟩ := quoted_append ha
    simp only [List.drop_succ_cons, List.drop_zero, hquoted] at hread ⊢
    obtain ⟨rfl, rfl⟩ := Prod.mk.inj (Except.ok.inj hread)
    refine ⟨rfl, ?_⟩
    rw [List.drop_append_of_le_length hle, List.drop_append_of_le_length hle]
    exact .gap b houtside hw hw'

theorem outside_quote (s : String) : Outside (Literal.quote s) := by
  have hescape : ∀ c : Char, Mode.quoted.after (Literal.escape c) = .quoted := by
    intro c
    unfold Literal.escape
    split
    · rfl
    · split
      · rfl
      · split
        · rfl
        · split
          · rfl
          · next hbackslash hquote _ _ => simp [Mode.after, Mode.next, hbackslash, hquote]
  have hinside : ∀ chars : List Char,
      Mode.quoted.after (chars.flatMap Literal.escape) = .quoted := by
    intro chars
    induction chars with
    | nil => rfl
    | cons c chars ih =>
      have hc := hescape c
      unfold Mode.after at ih hc ⊢
      rw [List.flatMap_cons, List.foldl_append, hc, ih]
  have hinside := hinside s.toList
  unfold Outside Mode.after at *
  rw [Literal.quote, List.cons_append, List.foldl_cons, List.foldl_append,
    show Mode.outside.next '"' = .quoted from rfl, hinside]
  rfl

end BraceScript.Lexeme

namespace BraceScript.Declaration.Head

open Lexeme

variable {after after' body : List Char}

/-- What an expansion leaves of a head, with the text that it injects behind the brace. -/
def injected (head : Head) (package : String) (chars body : List Char) : List Char :=
  head.expanded package ++ '\x7b' :: (chars ++ body)

/-- The head up to where its name stood, with what the expansion writes there. -/
def opening (head : Head) (package : String) : List Char :=
  head.before ++ '(' :: (Literal.quote (head.target package) ++ ", do ".toList)

theorem injected_eq (head : Head) (package : String) (chars body : List Char) :
    head.injected package chars body =
      head.opening package ++ (head.between ++ (head.gap ++ '\x7b' :: (chars ++ body))) := by
  simp [injected, expanded, opening]

theorem outside_opening {head : Head} (package : String) (h : Outside head.before) :
    Outside (head.opening package) := by
  have hparen : Outside ['('] := outside_singleton (by decide) (by decide)
  have hdo : Outside ", do ".toList := by decide
  exact h.append (hparen.append ((outside_quote _).append hdo))

/-- The gap stands in front of a brace or behind it. -/
theorem respaced_brace {t t' : List Char} (h : Respaced t t')
    (hbrace : significant t = '\x7b' :: body) :
    ∃ body', significant t' = '\x7b' :: body' ∧ ∀ chars, Outside chars →
      Respaced (blanks t ++ '\x7b' :: (chars ++ body))
        (blanks t' ++ '\x7b' :: (chars ++ body')) := by
  rcases h.blanks_or with rfl | ⟨hblanks, houtside, haligned⟩ | ⟨hs, hgap⟩
  · exact ⟨body, hbrace, fun _ _ => .refl _⟩
  · obtain ⟨_, body', hbody, heq, hbrace'⟩ := haligned.behind_cons hbrace (by decide)
    obtain ⟨-, rfl⟩ := List.cons.inj (hbrace.symm.trans heq)
    refine ⟨body', hbrace', fun chars hchars => ?_⟩
    rw [hblanks]
    have hopened : Outside ['\x7b'] := outside_singleton (by decide) (by decide)
    exact ((hbody.prepend hchars).prepend hopened).prepend houtside
  · exact ⟨body, hs.trans hbrace, fun chars _ => hgap _⟩

/-- The gap stands in front of a version or behind it; the expansion takes the version out. -/
theorem respaced_version {t t' : List Char} (h : Respaced t t')
    (hbrace : significant (afterVersion t) = '\x7b' :: body) :
    Version.literal? (significant t') = Version.literal? (significant t) ∧
      ∃ body', significant (afterVersion t') = '\x7b' :: body' ∧ ∀ chars, Outside chars →
        Respaced (blanks t ++ (blanks (afterVersion t) ++ '\x7b' :: (chars ++ body)))
          (blanks t' ++ (blanks (afterVersion t') ++ '\x7b' :: (chars ++ body'))) := by
  rcases isLexer_literal?.respaced_significant h with
    ⟨hblanks, hsame, hversion, hafter⟩ | ⟨hs, hgap⟩
  · refine ⟨hversion, ?_⟩
    rcases hsame with rfl | houtside
    · exact ⟨body, hbrace, fun _ _ => .refl _⟩
    have hafter : Respaced (afterVersion t) (afterVersion t') := by
      rw [afterVersion, afterVersion, hversion]
      exact hafter
    obtain ⟨body', hbrace', hrespaced⟩ := respaced_brace hafter hbrace
    rw [hblanks]
    exact ⟨body', hbrace', fun chars hchars => (hrespaced chars hchars).prepend houtside⟩
  · have hafter : afterVersion t' = afterVersion t := by rw [afterVersion, afterVersion, hs]
    rw [hs, hafter]
    exact ⟨rfl, body, hbrace, fun chars _ => hgap _⟩

/-- **The gap may stand in the head of a declaration**, between any two of its parts. -/
theorem respaced (h : Respaced after after') (hrest : rest after = '\x7b' :: body) :
    (read after').name = (read after).name ∧ (read after').version = (read after).version ∧
      ∃ body', rest after' = '\x7b' :: body' ∧ ∀ package chars, Outside chars →
        Respaced ((read after).injected package chars body)
          ((read after').injected package chars body') := by
  rcases isLexer_word?.respaced_significant h with ⟨hbefore, hsame, hname, hafter⟩ | ⟨hs, hgap⟩
  · rcases hsame with rfl | houtside
    · exact ⟨rfl, rfl, body, hrest, fun _ _ _ => .refl _⟩
    have hafter : Respaced (afterName after) (afterName after') := by
      rw [afterName, afterName, hname]
      exact hafter
    have hopening (package : String) :
        (read after').opening package = (read after).opening package := by
      simp only [opening, read, target, hbefore, hname]
    obtain ⟨hversion, body', hrest', hrespaced⟩ := respaced_version hafter hrest
    refine ⟨hname, hversion, body', hrest', fun package chars hchars => ?_⟩
    rw [injected_eq, injected_eq, hopening]
    exact (hrespaced chars hchars).prepend (outside_opening package houtside)
  · -- the gap stands in front of the name
    have hafter : afterName after' = afterName after := by rw [afterName, afterName, hs]
    refine ⟨by rw [read, read, hs], by rw [read, read, hafter], body, ?_, fun package chars _ => ?_⟩
    · rw [rest, hafter]
      exact hrest
    · have hread : read after' = { read after with before := blanks after' } := by
        rw [read, read, hs, hafter]
      rw [hread, injected, injected, expanded, expanded, List.append_assoc, List.append_assoc]
      exact hgap _

end BraceScript.Declaration.Head
