import BraceScript.Literal.Writer

/-!
# The options of a keyword

The record into which options are normalised: the spelling of the keyword, the features to make
available inside its blocks, and the statements to put at the top of them.
-/

namespace BraceScript

/-- A feature to make available inside a block; options `null` are no options. -/
structure InnerFeature where
  name : String
  options : Value
deriving Inhabited

/-- The raw form of an inner feature: its name, or a pair of name and options. -/
def InnerFeature.toValue (entry : InnerFeature) : Value :=
  match entry.options with
  | .null => .text entry.name
  | options => .list [.text entry.name, options]

/-- Normalised options. -/
structure KeywordOptions where
  spelling : String
  inner : List InnerFeature
  preamble : List String
deriving Inhabited

namespace KeywordOptions

/-- The mapping that normalises to the record. -/
def toValue (options : KeywordOptions) : Value :=
  .mapping [(.text "as", .text options.spelling),
    (.text "inner", .list (options.inner.map InnerFeature.toValue)),
    (.text "preamble", .list (options.preamble.map .text))]

/-- The record itself as a value. -/
def asValue (options : KeywordOptions) : Value :=
  .record options.spelling (options.inner.map fun entry => (entry.name, entry.options))
    options.preamble

end KeywordOptions

/-- The record, if the value is one. -/
def Value.record? : Value → Option KeywordOptions
  | .record spelling entries preamble =>
    some ⟨spelling, entries.map fun entry => ⟨entry.1, entry.2⟩, preamble⟩
  | _ => none

@[simp] theorem KeywordOptions.record?_asValue (options : KeywordOptions) :
    options.asValue.record? = some options := by
  simp [asValue, Value.record?, Function.comp_def]

/-- The letters outside ASCII that count as one of the letters `i`, `s` and `k` when case does
not matter: dotted capital I, dotless i, long s, and the Kelvin sign. -/
def letterVariants : List Char := ['İ', 'ı', 'ſ', '\u212A']

/-- The text can be the spelling of a keyword: a letter or an underscore, then letters, digits and
underscores. -/
def isSpelling (text : String) : Bool :=
  let isLetter (c : Char) := c.isAlpha || c == '_' || letterVariants.contains c
  match text.toList with
  | [] => false
  | c :: rest => isLetter c && rest.all fun d => isLetter d || d.isDigit

end BraceScript
