import BraceScript.Proofs.Longest
import BraceScript.Proofs.Scopes

/-!
# What expanding a declaration does to the text

The text behind a keyword starts with a head: a name, a version and the blanks and comments around
them (`Declaration.Head.read`).  An expansion succeeds only where a brace follows the head, and
then it changes two places of the text and no other (`Declaration.expand_eq_ok`):

* the name and the version are taken out of the head, and the call of the keyword's function is
  written before what is left of it (`Declaration.Head.expanded`);
* the trigger and the preamble are written behind the brace.
-/

namespace BraceScript

open Lexeme (Insignificant insignificant significant)

namespace Declaration

/-- What stands between a keyword and the brace of its block. -/
structure Head where
  before : List Char
  name : Option (List Char)
  between : List Char
  version : Option (List Char)
  gap : List Char

namespace Head

/-- The blanks and comments at the start of a text. -/
def blanks (text : List Char) : List Char := text.take (insignificant text)

/-- What follows the name, in a text that starts with one or with none. -/
def afterName (text : List Char) : List Char :=
  (significant text).drop ((Lexeme.word? (significant text)).getD []).length

/-- What follows the version, in a text that starts with one or with none. -/
def afterVersion (text : List Char) : List Char :=
  (significant text).drop ((Version.literal? (significant text)).getD []).length

/-- The head at the start of a text. -/
def read (text : List Char) : Head where
  before := blanks text
  name := Lexeme.word? (significant text)
  between := blanks (afterName text)
  version := Version.literal? (significant (afterName text))
  gap := blanks (afterVersion (afterName text))

/-- What follows the head at the start of a text. -/
def rest (text : List Char) : List Char := significant (afterVersion (afterName text))

/-- The head as it is written. -/
def text (head : Head) : List Char :=
  head.before ++ (head.name.getD [] ++ (head.between ++ (head.version.getD [] ++ head.gap)))

/-- The package that is declared in `package`. -/
def target (head : Head) (package : String) : String :=
  (head.name.map String.ofList).getD package

/-- How far the head gets. -/
def stage (head : Head) : Stage :=
  if head.version.isSome then .version else if head.name.isSome then .name else .keyword

/-- The head as the expansion leaves it in `package`. -/
def expanded (head : Head) (package : String) : List Char :=
  head.before ++ '(' :: (Literal.quote (head.target package) ++ (", do ".toList ++
    (head.between ++ head.gap)))

theorem blanks_append_significant (text : List Char) : blanks text ++ significant text = text :=
  List.take_append_drop _ _

theorem blanks_significant (text : List Char) : blanks (significant text) = [] := by
  rw [blanks, Lexeme.insignificant_significant, List.take_zero]

theorem append_drop_of_prefix {w text : List Char} (h : w <+: text) :
    w ++ text.drop w.length = text := by
  obtain ⟨rest, rfl⟩ := h
  rw [List.drop_left]

theorem name_append_afterName (text : List Char) :
    (Lexeme.word? (significant text)).getD [] ++ afterName text = significant text := by
  refine append_drop_of_prefix ?_
  cases h : Lexeme.word? (significant text) with
  | none => exact List.nil_prefix
  | some w => exact Lexeme.word?_prefix h

theorem version_append_afterVersion (text : List Char) :
    (Version.literal? (significant text)).getD [] ++ afterVersion text = significant text := by
  refine append_drop_of_prefix ?_
  cases h : Version.literal? (significant text) with
  | none => exact List.nil_prefix
  | some v => exact Version.literal?_prefix h

/-- A text is its head and what follows it. -/
theorem text_append_rest (text : List Char) : (read text).text ++ rest text = text := by
  simp only [Head.text, read, rest, List.append_assoc, blanks_append_significant,
    version_append_afterVersion, name_append_afterName]

end Head

end Declaration

/-! ### A cursor between two parts of a text -/

namespace Cursor

/-- The cursor stands between two parts of the text of a file. -/
structure Between (c : Cursor) (file : String) (before after : List Char) : Prop where
  text : c.buffer.text = before ++ after
  offset : c.offset = before.length
  file : c.buffer.file = file

variable {c c' : Cursor} {file : String} {before after : List Char}

theorem Between.rest (h : c.Between file before after) : c.rest = after := by
  rw [Cursor.rest, h.text, h.offset, List.drop_left]

theorem Between.eq (h : c.Between file before after) :
    c = ⟨⟨before ++ after, file⟩, before.length⟩ := by
  obtain ⟨⟨text, file'⟩, offset⟩ := c
  obtain ⟨rfl, rfl, rfl⟩ := h
  rfl

/-- A cursor inside the text divides it. -/
theorem between_of_inside (hc : c.offset ≤ c.buffer.text.length) :
    c.Between c.buffer.file (c.buffer.text.take c.offset) c.rest where
  text := (List.take_append_drop _ _).symm
  offset := by rw [List.length_take, Nat.min_eq_left hc]
  file := rfl

theorem Between.skip (h : c.Between file before after) :
    c.skip.Between file (before ++ Declaration.Head.blanks after) (significant after) := by
  refine ⟨?_, ?_, h.file⟩
  · rw [List.append_assoc, Declaration.Head.blanks_append_significant]
    exact h.text
  · have hlen := Lexeme.insignificant_le_length after
    simp only [Cursor.skip, advance, h.rest, h.offset, List.length_append,
      Declaration.Head.blanks, List.length_take, Nat.min_eq_left hlen]

theorem Between.advance {skipped : List Char} (h : c.Between file before (skipped ++ after)) :
    (c.advance skipped.length).Between file (before ++ skipped) after := by
  refine ⟨?_, ?_, h.file⟩
  · rw [List.append_assoc]
    exact h.text
  · rw [Cursor.advance, h.offset, List.length_append]

/-- Text is inserted `skip` characters further on. -/
theorem Between.inject {skipped : List Char} (h : c.Between file before (skipped ++ after))
    (chars : List Char) :
    ∃ c', c.inject chars skipped.length = .ok c' ∧
      c'.Between file (before ++ skipped ++ chars) after := by
  have hoffset : (c.offset : Int) + skipped.length = ((before ++ skipped).length : Nat) := by
    rw [h.offset, List.length_append]
    omega
  have htext : c.buffer.text = (before ++ skipped) ++ after := by
    rw [h.text, List.append_assoc]
  refine ⟨⟨{ c.buffer with text := before ++ skipped ++ chars ++ after },
    (before ++ skipped ++ chars).length⟩, ?_, rfl, rfl, h.file⟩
  have hinsert : c.buffer.insert ((before ++ skipped).length : Nat) chars =
      .ok { c.buffer with text := before ++ skipped ++ chars ++ after } :=
    Parse.insert_eq_ok.2 ⟨by rw [htext]; exact (List.prefix_append _ _).length_le, by
      rw [htext, List.take_left, List.drop_left]⟩
  rw [Cursor.inject, hoffset, hinsert]
  simp only [bind, Except.bind, pure, Except.pure, List.length_append]
  congr

/-- As many characters are taken out as come next, up to the length that is asked for. -/
theorem Between.strip_take (h : c.Between file before after) (length : Nat) :
    ∃ c', c.strip length = .ok (after.take length, c') ∧
      c'.Between file before (after.drop length) := by
  obtain rfl := h.eq
  refine ⟨⟨⟨before ++ after.drop length, file⟩, before.length⟩, ?_, rfl, rfl, rfl⟩
  have hdelete : Buffer.delete ⟨before ++ after, file⟩ before.length length =
      .ok ⟨before ++ after.drop length, file⟩ :=
    Parse.delete_eq_ok.2 ⟨(List.prefix_append _ _).length_le, by
      rw [List.take_left, List.drop_length_add_append]⟩
  rw [Cursor.strip, hdelete, Cursor.ahead_natCast, h.rest]
  rfl

theorem Between.strip {removed : List Char} (h : c.Between file before (removed ++ after)) :
    ∃ c', c.strip removed.length = .ok (removed, c') ∧ c'.Between file before after := by
  simpa using h.strip_take removed.length

/-- A lexeme that comes next is taken out. -/
theorem Between.stripLexeme {lexeme? : List Char → Option (List Char)}
    (htaken : ∀ text w, lexeme? text = some w → w <+: text)
    (h : c.Between file before after) :
    ∃ c', c.stripLexeme lexeme? = .ok (lexeme? (significant after), c') ∧
      c'.Between file (before ++ Declaration.Head.blanks after)
        ((significant after).drop ((lexeme? (significant after)).getD []).length) := by
  have hskip := h.skip
  rw [Cursor.stripLexeme]
  simp only [hskip.rest]
  cases hlexeme : lexeme? (significant after) with
  | none => exact ⟨c.skip, rfl, hskip⟩
  | some w =>
    rw [← Declaration.Head.append_drop_of_prefix (htaken _ _ hlexeme)] at hskip
    obtain ⟨c', hstrip, hc'⟩ := hskip.strip
    refine ⟨c', ?_, hc'⟩
    simp only [hstrip]
    rfl

end Cursor

/-! ### The expansion -/

namespace Declaration

variable {feature : BlockFeature} {options : KeywordOptions} {package declarator : String}

theorem edit_of_ok {α : Type} {f : Cursor → Except OutsideBuffer (α × Cursor)} {c c' : Cursor}
    {a : α} (h : f c = .ok (a, c')) : edit f c = .ok a c' := by
  simp only [edit, h]

theorem inject_of_between {c : Cursor} {file : String} {before s after : List Char}
    (h : c.Between file before (s ++ after)) (chars : List Char) :
    ∃ c', inject chars s.length c = .ok () c' ∧
      c'.Between file (before ++ s ++ chars) after := by
  obtain ⟨c', hinject, hc'⟩ := h.inject chars
  exact ⟨c', edit_of_ok (by rw [hinject]; rfl), hc'⟩

/-- Text is inserted at the cursor. -/
theorem inject_here {c : Cursor} {file : String} {before after : List Char}
    (h : c.Between file before after) (chars : List Char) :
    ∃ c', inject chars 0 c = .ok () c' ∧ c'.Between file (before ++ chars) after := by
  obtain ⟨c', hinject, hc'⟩ := inject_of_between (s := []) h chars
  exact ⟨c', hinject, by simpa using hc'⟩

/-- Both insertions into a body that a brace opens, one behind the other. -/
theorem inject_body {c : Cursor} {file : String} {before body : List Char}
    (h : c.Between file before ('\x7b' :: body)) (trigger preamble : List Char) :
    ∃ c₁ c₂, inject trigger 1 c = .ok () c₁ ∧ inject preamble 0 c₁ = .ok () c₂ ∧
      c₂.Between file (before ++ '\x7b' :: (trigger ++ preamble)) body := by
  obtain ⟨c₁, htrigger, hc₁⟩ := inject_of_between (s := ['\x7b']) h trigger
  obtain ⟨c₂, hpreamble, hc₂⟩ := inject_here hc₁ preamble
  refine ⟨c₁, c₂, htrigger, hpreamble, ?_⟩
  simpa using hc₂

/-- The test that an expansion makes before it edits the body. -/
theorem lacksBrace_iff {rest : List Char} :
    (!(['\x7b'].isPrefixOf rest)) = true ↔ ¬∃ body, rest = '\x7b' :: body := by
  cases rest with
  | nil => simp
  | cons c body =>
    simp only [List.isPrefixOf, Bool.and_true, Bool.not_eq_true', beq_eq_false_iff_ne, ne_eq,
      List.cons.injEq, exists_and_left, exists_eq', and_true]
    exact not_congr eq_comm

/-- How an expansion ends: it fails if the options cannot be written or no brace follows the head,
and otherwise leaves the text edited in two places.  Without a brace it has already edited the
head when it fails, and reports what stands behind it. -/
theorem expand_cases (feature : BlockFeature) (options : KeywordOptions)
    (package declarator : String) (file : String) (before after : List Char) :
    ∃ c', match Preamble.generate feature ((Head.read after).target package)
        ((Head.read after).version.map String.ofList) options with
      | .error cause => expand feature options package declarator
          ⟨⟨before ++ (declarator.toList ++ after), file⟩, before.length⟩ =
            .error (.ofUnwritable cause) c'
      | .ok statements =>
        (∃ body, Head.rest after = '\x7b' :: body ∧ expand feature options package declarator
            ⟨⟨before ++ (declarator.toList ++ after), file⟩, before.length⟩ =
              .ok ⟨(Head.read after).target package, (Head.read after).version.map String.ofList,
                (Head.read after).stage,
                (before ++ declarator.toList ++ (Head.read after).expanded package).length + 1⟩ c' ∧
            c'.Between file (before ++ declarator.toList ++ (Head.read after).expanded package ++
              '\x7b' :: (feature.trigger.toList ++ (Preamble.render statements).toList)) body) ∨
        (¬∃ body, Head.rest after = '\x7b' :: body) ∧
          expand feature options package declarator
            ⟨⟨before ++ (declarator.toList ++ after), file⟩, before.length⟩ =
              .error (.missingBlock ⟨declarator, (Head.read after).stage,
                String.ofList ((Head.rest after).takeWhile (· != '\n')),
                c'.buffer.place c'.offset⟩) c' ∧
            c'.Between file (before ++ declarator.toList ++ (Head.read after).expanded package)
              (Head.rest after) := by
  have hstart : Cursor.Between ⟨⟨before ++ (declarator.toList ++ after), file⟩, before.length⟩
      file before (declarator.toList ++ after) := ⟨rfl, rfl, rfl⟩
  -- the edits one after the other, each at the cursor that the one before has left
  obtain ⟨c₁, hparen, hc₁⟩ := inject_here hstart.advance.skip ['(']
  obtain ⟨c₂, hname, hc₂⟩ := hc₁.stripLexeme fun _ _ => Lexeme.word?_prefix
  obtain ⟨c₃, hquote, hc₃⟩ := inject_here hc₂ (Literal.quote ((Head.read after).target package))
  obtain ⟨c₄, hdo, hc₄⟩ := inject_here hc₃ ", do ".toList
  obtain ⟨c₅, hversion, hc₅⟩ := hc₄.stripLexeme fun _ _ => Version.literal?_prefix
  rw [Lexeme.significant_significant] at hname hc₂ hc₃ hc₄ hc₅ hversion
  have hc₆ : c₅.skip.Between file
      (before ++ declarator.toList ++ (Head.read after).expanded package) (Head.rest after) := by
    simpa [Head.expanded, Head.read, Head.rest, Head.afterName, Head.afterVersion,
      Head.blanks_significant] using hc₅.skip
  have hstripName : edit Cursor.stripName c₁ = .ok (Head.read after).name c₂ := edit_of_ok hname
  have hstripVersion : edit Cursor.stripVersion c₄ = .ok (Head.read after).version c₅ :=
    edit_of_ok hversion
  have hmodify : (modify fun c => (c.advance declarator.length).skip : Expansion Unit)
      ⟨⟨before ++ (declarator.toList ++ after), file⟩, before.length⟩ =
      .ok () (Cursor.advance ⟨⟨before ++ (declarator.toList ++ after), file⟩, before.length⟩
        declarator.toList.length).skip := by
    rw [String.length_toList]
    rfl
  unfold Head.target at hquote ⊢
  rw [expand, Run.bind_of_ok hmodify, Run.bind_of_ok hparen, Run.bind_of_ok hstripName,
    Run.bind_of_ok hquote, Run.bind_of_ok hdo, Run.bind_of_ok hstripVersion]
  dsimp only
  cases Preamble.generate feature (((Head.read after).name.map String.ofList).getD package)
      ((Head.read after).version.map String.ofList) options with
  | error cause => exact ⟨c₅, rfl⟩
  | ok statements =>
    dsimp only
    rw [Run.bind_of_ok (show (modify Cursor.skip : Expansion Unit) c₅ = .ok () c₅.skip from rfl),
      Run.get_bind, Cursor.startsWith, hc₆.rest]
    -- without a brace the expansion fails, whatever has been edited so far
    by_cases hbrace : ∃ body, Head.rest after = '\x7b' :: body
    · obtain ⟨body, hbody⟩ := hbrace
      rw [hbody] at hc₆ ⊢
      obtain ⟨c₇, c₈, htrigger, hpreamble, hc₈⟩ := inject_body hc₆ feature.trigger.toList
        (Preamble.render statements).toList
      refine ⟨c₈, .inl ⟨body, rfl, ?_, hc₈⟩⟩
      rw [if_neg (by simp), Run.bind_of_ok htrigger, Run.bind_of_ok hpreamble, hc₆.offset]
      rfl
    · rw [if_pos (lacksBrace_iff.2 hbrace)]
      rw [← hc₆.rest]
      exact ⟨c₅.skip, .inr ⟨by rwa [hc₆.rest], rfl, by rwa [hc₆.rest]⟩⟩

/-- **What an expansion does to the text.**  It succeeds if and only if a brace follows the head
and the options can be written. -/
theorem expand_eq_ok {file : String} {before after : List Char}
    {d : Declaration} {c' : Cursor} :
    expand feature options package declarator
        ⟨⟨before ++ (declarator.toList ++ after), file⟩, before.length⟩ = .ok d c' ↔
      ∃ body statements, Head.rest after = '\x7b' :: body ∧
        Preamble.generate feature ((Head.read after).target package)
          ((Head.read after).version.map String.ofList) options = .ok statements ∧
        d = ⟨(Head.read after).target package, (Head.read after).version.map String.ofList,
          (Head.read after).stage,
          (before ++ declarator.toList ++ (Head.read after).expanded package).length + 1⟩ ∧
        c'.Between file (before ++ declarator.toList ++ (Head.read after).expanded package ++
          '\x7b' :: (feature.trigger.toList ++ (Preamble.render statements).toList)) body := by
  obtain ⟨c₈, hcases⟩ := expand_cases feature options package declarator file before after
  cases hgenerate : Preamble.generate feature ((Head.read after).target package)
      ((Head.read after).version.map String.ofList) options with
  | error cause =>
    rw [hgenerate] at hcases
    simp [hcases]
  | ok statements =>
    rw [hgenerate] at hcases
    rcases hcases with ⟨body, hbody, hexpand, hc₈⟩ | ⟨hbrace, hexpand, -⟩
    · rw [hexpand, EStateM.Result.ok.injEq]
      constructor
      · rintro ⟨rfl, rfl⟩
        exact ⟨body, statements, hbody, rfl, rfl, hc₈⟩
      · rintro ⟨_, _, hbody', hstatements, rfl, hc'⟩
        obtain ⟨-, rfl⟩ := List.cons.inj (hbody.symm.trans hbody')
        obtain rfl := Except.ok.inj hstatements
        exact ⟨rfl, hc₈.eq.trans hc'.eq.symm⟩
    · rw [hexpand]
      constructor
      · exact nofun
      · rintro ⟨body, _, hbody, -⟩
        exact absurd ⟨body, hbody⟩ hbrace

end Declaration

end BraceScript
