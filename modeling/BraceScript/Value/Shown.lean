import BraceScript.Lexeme
import BraceScript.Text.Quoted

/-!
# The text that shows a value

Messages and the command line show values in this form: texts are quoted, a tuple of one item
keeps its comma, mappings are shown in order of insertion.  A value with an integer of more digits
than any integer may be written with cannot be shown.
-/

namespace BraceScript.Value

/-- Texts with commas between them. -/
def commaList (texts : List String) : String :=
  String.intercalate ", " texts

/-- Texts in round brackets with commas between them and after a single one. -/
def roundList : List String → String
  | [single] => "(" ++ single ++ ",)"
  | texts => "(" ++ commaList texts ++ ")"

mutual

/-- The text that shows a value. -/
def shown : Value → String
  | null => "None"
  | bool true => "True"
  | bool false => "False"
  | int n => toString n
  | float x => String.ofList x.text
  | text s => Text.quoted s
  | list items => "[" ++ commaList (shownItems items) ++ "]"
  | tuple items => roundList (shownItems items)
  | mapping rows => "\x7b" ++ commaList (shownRows rows) ++ "\x7d"
  | inner name options => "InnerFeature(name=" ++ Text.quoted name ++ ", options=" ++
      shown options ++ ")"
  | record spelling entries preamble => "KeywordOptions(alias_name=" ++ Text.quoted spelling ++
      ", inner=" ++ roundList (shownEntries entries) ++
      ", preamble=" ++ roundList (preamble.map Text.quoted) ++ ")"
  | foreign _ shown => shown

/-- The texts that show the items. -/
def shownItems : List Value → List String
  | [] => []
  | item :: items => shown item :: shownItems items

/-- The texts that show the rows. -/
def shownRows : List (Value × Value) → List String
  | [] => []
  | (key, value) :: rows => (shown key ++ ": " ++ shown value) :: shownRows rows

/-- The texts that show the inner features of a record. -/
def shownEntries : List (String × Value) → List String
  | [] => []
  | (name, options) :: entries =>
    ("InnerFeature(name=" ++ Text.quoted name ++ ", options=" ++ shown options ++ ")") ::
      shownEntries entries

end

mutual

/-- No integer in the value has too many digits to be shown. -/
def isShowable : Value → Bool
  | int n => (Nat.toDigits 10 n.natAbs).length ≤ Lexeme.maxDigits
  | list items | tuple items => areShowable items
  | mapping rows => areShowableRows rows
  | inner _ options => isShowable options
  | record _ entries _ => areShowableEntries entries
  | null | bool _ | float _ | text _ | foreign _ _ => true

/-- All items can be shown. -/
def areShowable : List Value → Bool
  | [] => true
  | item :: items => isShowable item && areShowable items

/-- All rows can be shown. -/
def areShowableRows : List (Value × Value) → Bool
  | [] => true
  | (key, value) :: rows => isShowable key && isShowable value && areShowableRows rows

/-- The options of all inner features can be shown. -/
def areShowableEntries : List (String × Value) → Bool
  | [] => true
  | (_, options) :: entries => isShowable options && areShowableEntries entries

end

end BraceScript.Value
