import BraceScript.Text.Letters
import BraceScript.Text.Digits
import BraceScript.Text.Unprintable

/-!
# Classes of characters

The classes that the reader of scripts and the printer of messages tell apart.  Every class is
decided on ASCII by a comparison and beyond it by a table of ranges.  The first character of a
word is an ASCII letter or an underscore; the later ones may be any letter or numeral.
-/

namespace BraceScript.Text

/-- A character that separates tokens: space, tab, carriage return, line feed. -/
def isBlank (c : Char) : Bool :=
  c == ' ' || c == '\t' || c == '\r' || c == '\n'

/-- A character a word may start with. -/
def isWordStart (c : Char) : Bool :=
  c.isAlpha || c == '_'

/-- A character a word may go on with. -/
def isWordChar (c : Char) : Bool :=
  c.isAlphanum || c == '_' || letterRanges.covers c

/-- A digit of any script, superscripts and circled digits included.  Only the ASCII ones can be
part of a number; the others announce a number that is then missing. -/
def isAnyDigit (c : Char) : Bool :=
  c.isDigit || digitRanges.covers c

/-- A character that quoted text shows as itself. -/
def isPrintable (c : Char) : Bool :=
  if c.toNat < 128 then 32 ≤ c.toNat && c.toNat < 127 else !unprintableRanges.covers c

theorem isWordChar_of_isWordStart {c : Char} (h : isWordStart c = true) :
    isWordChar c = true := by
  simp only [isWordStart, Bool.or_eq_true] at h
  simp only [isWordChar, Char.isAlphanum, Bool.or_eq_true]
  exact .inl (h.imp .inl id)

theorem isAnyDigit_of_isDigit {c : Char} (h : c.isDigit = true) : isAnyDigit c = true := by
  simp [isAnyDigit, h]

end BraceScript.Text
