import BraceScript.Proofs.Lexeme
import BraceScript.Version

/-!
# The longest name and the longest version

A word and a version are read by functions that decide character by character how far they go.
What they find is described here by what it is, without saying how it is found: of all starts of
the text that are qualified names, or versions, it is the longest one.

* `Lexeme.word?_longest` : the word at the start of a text is its longest qualified name;
* `Version.literal?_longest` : the version at the start of a text is its longest version.
-/

namespace BraceScript

namespace Lexeme

/-- The longest of the starts of a text that are `good`. -/
structure Longest (good : List Char → Prop) (text w : List Char) : Prop where
  starts : w <+: text
  holds : good w
  longest : ∀ v, v <+: text → good v → v.length ≤ w.length

/-- What is found is the longest start of the text that is `good`, and nothing is found only where
no start of the text is. -/
def FindsLongest (good : List Char → Prop) (text : List Char) : Option (List Char) → Prop
  | some w => Longest good text w
  | none => ∀ w, w <+: text → ¬good w

variable {good : List Char → Prop} {text v w : List Char}

theorem Longest.unique (hv : Longest good text v) (hw : Longest good text w) : v = w := by
  have hle := hw.longest v hv.starts hv.holds
  have hge := hv.longest w hw.starts hw.holds
  exact (List.prefix_of_prefix_length_le hv.starts hw.starts hle).eq_of_length (by omega)

theorem FindsLongest.unique {a b : Option (List Char)} (ha : FindsLongest good text a)
    (hb : FindsLongest good text b) : a = b := by
  cases a with
  | none =>
    cases b with
    | none => rfl
    | some w => exact absurd hb.holds (ha w hb.starts)
  | some v =>
    cases b with
    | none => exact absurd ha.holds (hb v ha.starts)
    | some w => rw [Longest.unique ha hb]

/-! ### Names -/

/-- Names joined by `::`, each a letter or an underscore and then any word characters. -/
inductive QualifiedName : List Char → Prop where
  | name {c : Char} {rest : List Char} (hc : Text.isWordStart c = true)
      (hrest : ∀ d ∈ rest, Text.isWordChar d = true) : QualifiedName (c :: rest)
  | joined {c : Char} {rest qualified : List Char} (hc : Text.isWordStart c = true)
      (hrest : ∀ d ∈ rest, Text.isWordChar d = true) (hqualified : QualifiedName qualified) :
      QualifiedName (c :: rest ++ ':' :: ':' :: qualified)

theorem wordTail_wordChars_append (h : ∀ d ∈ v, Text.isWordChar d = true) :
    wordTail (v ++ w) = v ++ wordTail w := by
  induction v with
  | nil => rfl
  | cons c v ih =>
    obtain ⟨hc, hv⟩ := List.forall_mem_cons.1 h
    rw [List.cons_append, wordTail_cons _ hc, ih hv, List.cons_append]

/-- A qualified name is read as one word. -/
theorem QualifiedName.isWord (h : QualifiedName w) : IsWord w := by
  induction h with
  | @name c rest hc hrest =>
    have htail := wordTail_wordChars_append (w := []) hrest
    simp only [List.append_nil, wordTail] at htail
    simp [IsWord, word?, hc, htail]
  | @joined c rest qualified hc hrest hqualified ih =>
    obtain ⟨d, qualified, rfl, hd, htail⟩ := ih.exists_cons
    simp [IsWord, word?, hc, wordTail_wordChars_append hrest, wordTail_colons _ hd, htail]

/-- A name that has begun is completed by what the rest of the word adds to it. -/
theorem qualifiedName_wordTail {c : Char} {begun : List Char} (hc : Text.isWordStart c = true)
    (hbegun : ∀ d ∈ begun, Text.isWordChar d = true) (text : List Char) :
    QualifiedName (c :: begun ++ wordTail text) := by
  fun_induction wordTail text generalizing c begun with
  | case1 =>
    rw [List.append_nil]
    exact .name hc hbegun
  | case2 d rest hd ih =>
    have hlonger : ∀ e ∈ begun ++ [d], Text.isWordChar e = true := by
      simpa [or_imp, forall_and] using ⟨hbegun, hd⟩
    simpa using ih hc hlonger
  | case3 d rest hd hcolon ih =>
    have hrest : QualifiedName (d :: [] ++ wordTail rest) := ih hd (by simp)
    exact .joined hc hbegun hrest
  | case4 =>
    rw [List.append_nil]
    exact .name hc hbegun
  | case5 =>
    rw [List.append_nil]
    exact .name hc hbegun

theorem QualifiedName.of_word? (h : word? text = some w) : QualifiedName w := by
  cases text with
  | nil => cases h
  | cons c rest =>
    simp only [word?] at h
    split at h
    · next hc =>
      obtain rfl := Option.some.inj h
      have hname : QualifiedName (c :: [] ++ wordTail rest) :=
        qualifiedName_wordTail hc (by simp) rest
      exact hname
    · cases h

/-- The rest of a word goes at least as far in a longer text. -/
theorem wordTail_prefix_wordTail (hv : wordTail v = v) (hle : v <+: text) :
    v <+: wordTail text := by
  obtain ⟨rest, rfl⟩ := hle
  fun_induction wordTail v with
  | case1 => exact List.nil_prefix
  | case2 c v hc ih =>
    simp only [List.cons.injEq, true_and] at hv
    rw [List.cons_append, wordTail_cons _ hc]
    exact (List.prefix_cons_inj c).2 (ih hv)
  | case3 d v hd hcolon ih =>
    simp only [List.cons.injEq, true_and] at hv
    rw [List.cons_append, List.cons_append, List.cons_append, wordTail_colons _ hd]
    simpa using ih hv
  | case4 => simp at hv
  | case5 => simp at hv

/-- **The word at the start of a text is its longest qualified name.** -/
theorem word?_longest (text : List Char) : FindsLongest QualifiedName text (word? text) := by
  -- a qualified name that the text starts with makes the text start with a word at least as long
  have hreaches : ∀ v, v <+: text → QualifiedName v →
      ∃ w, word? text = some w ∧ v <+: w := by
    intro v hle hv
    obtain ⟨c, v, rfl, hc, htail⟩ := hv.isWord.exists_cons
    obtain ⟨rest, rfl⟩ := hle
    refine ⟨c :: wordTail (v ++ rest), by simp [word?, hc], (List.prefix_cons_inj c).2 ?_⟩
    exact wordTail_prefix_wordTail htail (List.prefix_append v rest)
  cases hword : word? text with
  | none =>
    intro v hle hv
    obtain ⟨w, hw, -⟩ := hreaches v hle hv
    rw [hword] at hw
    cases hw
  | some w =>
    have hstarts := word?_prefix hword
    refine ⟨hstarts, .of_word? hword, fun v hle hv => ?_⟩
    obtain ⟨w', hw', hlonger⟩ := hreaches v hle hv
    rw [hword] at hw'
    obtain rfl := Option.some.inj hw'
    exact hlonger.length_le

end Lexeme

namespace Version

variable {c : Char} {held : Nat} {text part rest v w : List Char}

/-! ### Components -/

theorem components_of_not_mem (h : '.' ∉ part) : components part = [part] := by
  induction part with
  | nil => rfl
  | cons c part ih =>
    obtain ⟨hc, hpart⟩ : '.' ≠ c ∧ '.' ∉ part := by simpa using h
    rw [components, if_neg (Ne.symm hc), ih hpart]

theorem components_append_point (h : '.' ∉ part) (rest : List Char) :
    components (part ++ '.' :: rest) = part :: components rest := by
  induction part with
  | nil => simp [components]
  | cons c part ih =>
    obtain ⟨hc, hpart⟩ : '.' ≠ c ∧ '.' ∉ part := by simpa using h
    rw [List.cons_append, components, if_neg (Ne.symm hc), ih hpart]

theorem isVersion_of_not_mem (h : '.' ∉ part) : isVersion part = isComponent part := by
  rw [isVersion, components_of_not_mem h, List.all_cons, List.all_nil, Bool.and_true]

theorem isVersion_append_point (h : '.' ∉ part) (rest : List Char) :
    isVersion (part ++ '.' :: rest) = (isComponent part && isVersion rest) := by
  rw [isVersion, components_append_point h, List.all_cons, isVersion]

theorem isComponent_iff :
    isComponent part = true ↔ (∀ c ∈ part, c.isDigit = true ∨ c = '_') ∧
      (∃ c ∈ part.head?, c.isDigit = true) ∧ ∃ c ∈ part.getLast?, c.isDigit = true := by
  simp [isComponent, Option.any_eq_true, and_assoc]

theorem not_mem_of_isComponent (h : isComponent part = true) : '.' ∉ part := by
  intro hmem
  rcases (isComponent_iff.1 h).1 _ hmem with hdigit | hunderscore
  · cases hdigit
  · cases hunderscore

theorem isComponent_digit (h : c.isDigit = true) : isComponent [c] = true := by
  simp [isComponent, h]

/-- A component is extended by underscores and a digit. -/
theorem isComponent_extend (hpart : isComponent part = true) (held : Nat)
    (hc : c.isDigit = true) : isComponent (part ++ List.replicate held '_' ++ [c]) = true := by
  obtain ⟨hall, ⟨d, hd, hdigit⟩, -⟩ := isComponent_iff.1 hpart
  refine isComponent_iff.2 ⟨?_, ⟨d, ?_, hdigit⟩, c, by simp, hc⟩
  · intro e he
    simp only [List.mem_append, List.mem_replicate, List.mem_singleton] at he
    rcases he with (he | ⟨-, rfl⟩) | rfl
    · exact hall e he
    · exact .inr rfl
    · exact .inl hc
  · obtain ⟨tail, rfl⟩ : ∃ tail, part = d :: tail := by
      cases part with
      | nil => cases hd
      | cons e tail => exact ⟨tail, by simpa using hd⟩
    simp

/-- No component ends with an underscore. -/
theorem held_eq_zero (h : isComponent (part ++ List.replicate held '_') = true) : held = 0 := by
  obtain ⟨-, -, c, hc, hdigit⟩ := isComponent_iff.1 h
  cases held with
  | zero => rfl
  | succ held =>
    rw [List.replicate_succ', ← List.append_assoc] at hc
    obtain rfl : '_' = c := by simpa using hc
    cases hdigit

theorem not_mem_held (hpart : isComponent part = true) (held : Nat) :
    '.' ∉ part ++ List.replicate held '_' := by
  simp [not_mem_of_isComponent hpart, List.mem_replicate]

/-- A version starts with a digit. -/
theorem exists_digit_of_isVersion (h : isVersion v = true) :
    ∃ c rest, v = c :: rest ∧ c.isDigit = true := by
  cases v with
  | nil => cases h
  | cons c rest =>
    refine ⟨c, rest, rfl, ?_⟩
    -- the first component begins where the version does
    simp only [isVersion, components] at h
    split at h
    · simp [isComponent] at h
    · cases hparts : components rest with
      | nil =>
        rw [hparts, List.all_cons, List.all_nil, Bool.and_true] at h
        obtain ⟨-, ⟨d, hd, hdigit⟩, -⟩ := isComponent_iff.1 h
        obtain rfl : c = d := by simpa using hd
        exact hdigit
      | cons part parts =>
        rw [hparts] at h
        obtain ⟨hpart, -⟩ := Bool.and_eq_true_iff.1 h
        obtain ⟨-, ⟨d, hd, hdigit⟩, -⟩ := isComponent_iff.1 hpart
        obtain rfl : c = d := by simpa using hd
        exact hdigit

theorem mem_components {c : Char} {text : List Char} (h : c ∈ text) :
    c = '.' ∨ ∃ part ∈ components text, c ∈ part := by
  induction text with
  | nil => cases h
  | cons d text ih =>
    rw [components]
    rcases List.mem_cons.1 h with rfl | h
    · split
      · next hpoint => exact .inl hpoint
      · right
        split <;> simp
    · rcases ih h with hpoint | ⟨part, hpart, hmem⟩
      · exact .inl hpoint
      · right
        split
        · exact ⟨part, by simp [hpart], hmem⟩
        · cases hparts : components text with
          | nil => simp [hparts] at hpart
          | cons first parts =>
            rw [hparts] at hpart
            rcases List.mem_cons.1 hpart with rfl | hpart
            · exact ⟨d :: part, by simp, by simp [hmem]⟩
            · exact ⟨part, by simp [hpart], hmem⟩

/-- A version is made of digits, underscores and points. -/
theorem mem_of_isVersion (h : isVersion v = true) (hc : c ∈ v) :
    c.isDigit = true ∨ c = '_' ∨ c = '.' := by
  rcases mem_components hc with rfl | ⟨part, hpart, hmem⟩
  · exact .inr (.inr rfl)
  · rcases (isComponent_iff.1 (List.all_eq_true.1 h part hpart)).1 c hmem with hd | hu
    · exact .inl hd
    · exact .inr (.inl hu)

/-! ### The longest version -/

theorem tail_prefix (held : Nat) (text : List Char) :
    tail held text <+: List.replicate held '_' ++ text := by
  fun_induction tail held text with
  | case1 => exact List.nil_prefix
  | case2 held c rest hc ih => simpa using ih
  | case3 held rest hc ih =>
    rwa [List.replicate_succ', List.append_assoc] at ih
  | case4 held c hc hu hdot d rest hd ih =>
    obtain ⟨rfl, rfl⟩ := hdot
    simpa using ih
  | case5 => exact List.nil_prefix
  | case6 => exact List.nil_prefix
  | case7 => exact List.nil_prefix

theorem literal?_prefix {text v : List Char} (h : literal? text = some v) : v <+: text := by
  cases text with
  | nil => simp [literal?] at h
  | cons c rest =>
    simp only [literal?] at h
    split at h
    · obtain rfl := Option.some.inj h
      simpa using tail_prefix 0 rest
    · cases h

/-- A component is completed to a version by what the rest of the version adds to it. -/
theorem isVersion_tail (hpart : isComponent part = true) (held : Nat) (text : List Char) :
    isVersion (part ++ tail held text) = true := by
  have hdone {part : List Char} (hpart : isComponent part = true) :
      isVersion (part ++ []) = true := by
    rw [List.append_nil, isVersion_of_not_mem (not_mem_of_isComponent hpart), hpart]
  fun_induction tail held text generalizing part with
  | case1 => exact hdone hpart
  | case2 held c rest hc ih => simpa using ih (isComponent_extend hpart held hc)
  | case3 held rest hc ih => exact ih hpart
  | case4 held c hc hu hpoint d rest hd ih =>
    have hrest : isVersion (d :: tail 0 rest) = true := ih (isComponent_digit hd)
    rw [isVersion_append_point (not_mem_of_isComponent hpart), hpart, hrest]
    rfl
  | case5 => exact hdone hpart
  | case6 => exact hdone hpart
  | case7 => exact hdone hpart

/-- Nothing is held where a version ends. -/
theorem held_prefix (hpart : isComponent part = true)
    (h : isVersion (part ++ (List.replicate held '_' ++ [])) = true) (text : List Char) :
    List.replicate held '_' ++ [] <+: text := by
  rw [List.append_nil, isVersion_of_not_mem (not_mem_held hpart held)] at h
  obtain rfl := held_eq_zero h
  exact List.nil_prefix

/-- A version that goes on with a point holds nothing there, and its next component starts with
a digit. -/
theorem isVersion_held_point (hpart : isComponent part = true)
    (h : isVersion (part ++ (List.replicate held '_' ++ '.' :: v)) = true) :
    held = 0 ∧ isVersion v = true := by
  rw [← List.append_assoc, isVersion_append_point (not_mem_held hpart held),
    Bool.and_eq_true] at h
  exact ⟨held_eq_zero h.1, h.2⟩

/-- The rest of a version goes as far as any version does that the text continues to. -/
theorem prefix_tail (hpart : isComponent part = true) (hle : v <+: text)
    (h : isVersion (part ++ (List.replicate held '_' ++ v)) = true) :
    List.replicate held '_' ++ v <+: tail held text := by
  cases v with
  | nil => exact held_prefix hpart h _
  | cons e v =>
  fun_induction tail held text generalizing part e v with
  | case1 => simp at hle
  | case2 held c rest hc ih =>
    obtain ⟨rfl, hrest⟩ := List.cons_prefix_cons.1 hle
    have hmore : isComponent (part ++ List.replicate held '_' ++ [e]) = true :=
      isComponent_extend hpart held hc
    cases v with
    | nil => simp
    | cons d v => simpa using ih hmore d v hrest (by simpa using h)
  | case3 held rest hc ih =>
    obtain ⟨rfl, hrest⟩ := List.cons_prefix_cons.1 hle
    have hheld : List.replicate held '_' ++ '_' :: v = List.replicate (held + 1) '_' ++ v := by
      rw [List.replicate_succ', List.append_assoc, List.singleton_append]
    rw [hheld] at h ⊢
    cases v with
    | nil => exact held_prefix hpart h _
    | cons d v => exact ih hpart d v hrest h
  | case4 held c hc hu hpoint d rest hd ih =>
    obtain ⟨rfl, hrest⟩ := List.cons_prefix_cons.1 hle
    obtain ⟨rfl, rfl⟩ := hpoint
    obtain ⟨-, hv⟩ := isVersion_held_point hpart h
    obtain ⟨f, v, rfl, hf⟩ := exists_digit_of_isVersion hv
    obtain ⟨rfl, hmore⟩ := List.cons_prefix_cons.1 hrest
    cases v with
    | nil => simp
    | cons f v => simpa using ih (isComponent_digit hd) f v hmore (by simpa using hv)
  | case5 held c hc hu hpoint d rest hd =>
    -- a point that no digit follows does not belong to a version
    obtain ⟨rfl, hrest⟩ := List.cons_prefix_cons.1 hle
    rw [hpoint.1] at h
    obtain ⟨f, v, rfl, hf⟩ := exists_digit_of_isVersion (isVersion_held_point hpart h).2
    obtain ⟨rfl, -⟩ := List.cons_prefix_cons.1 hrest
    exact absurd hf hd
  | case6 held c hc hu hpoint =>
    obtain ⟨rfl, hrest⟩ := List.cons_prefix_cons.1 hle
    rw [hpoint.1] at h
    obtain ⟨f, v, rfl, hf⟩ := exists_digit_of_isVersion (isVersion_held_point hpart h).2
    simp at hrest
  | case7 held c rest hc hu hpoint =>
    -- no version has a character that is not one of its own, or a point behind an underscore
    obtain ⟨rfl, -⟩ := List.cons_prefix_cons.1 hle
    rcases mem_of_isVersion (c := e) h (by simp) with hd | hunderscore | rfl
    · exact absurd hd hc
    · exact absurd hunderscore hu
    · exact absurd ⟨rfl, (isVersion_held_point hpart h).1⟩ hpoint

/-- **The version at the start of a text is the longest version that it starts with.** -/
theorem literal?_longest (text : List Char) :
    Lexeme.FindsLongest (isVersion · = true) text (literal? text) := by
  cases text with
  | nil =>
    intro v hle hv
    obtain rfl := List.prefix_nil.1 hle
    cases hv
  | cons c rest =>
    by_cases hc : c.isDigit = true
    · rw [literal?, if_pos hc]
      have hcomponent : isComponent [c] = true := isComponent_digit hc
      refine ⟨?_, isVersion_tail hcomponent 0 rest, ?_⟩
      · simpa using tail_prefix 0 rest
      · intro v hle hv
        obtain ⟨d, v, rfl, -⟩ := exists_digit_of_isVersion hv
        obtain ⟨rfl, hrest⟩ := List.cons_prefix_cons.1 hle
        have hreaches : List.replicate 0 '_' ++ v <+: tail 0 rest :=
          prefix_tail hcomponent hrest hv
        simpa using hreaches.length_le
    · rw [literal?, if_neg hc]
      intro v hle hv
      obtain ⟨d, v, rfl, hd⟩ := exists_digit_of_isVersion hv
      obtain ⟨rfl, -⟩ := List.cons_prefix_cons.1 hle
      exact absurd hd hc

end Version

end BraceScript
