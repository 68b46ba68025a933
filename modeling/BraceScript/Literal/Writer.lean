import BraceScript.Value.Shown
import BraceScript.Lexeme

/-!
# Writing values as literals

The literal of a value is the source text that reads back as that value; a tuple reads back as
a list.  Floating-point numbers whose text has an exponent, integers of too many digits, mappings
with keys that are no texts, and objects of other kinds have no literal.
-/

namespace BraceScript.Literal

/-- Why a value has no literal. -/
inductive Unwritable where
  | float (x : Binary64)
  | key (k : Value)
  | kind (name : String)
  /-- An integer of more digits than any integer may be written with. -/
  | integerTooLong

/-- The message for a value without a literal. -/
def Unwritable.message : Unwritable → String
  | float x => "No literal syntax for float " ++ String.ofList x.text
  | key k => "Mapping keys must be strings, not " ++ k.shown
  | kind name => "Cannot render " ++ name ++ " as a literal"
  | integerTooLong => "Integer has too many digits"

/-- A character between the quotes of a literal. -/
def escape (c : Char) : List Char :=
  if c = '\\' then ['\\', '\\']
  else if c = '"' then ['\\', '"']
  else if c = '\n' then ['\\', 'n']
  else if c = '\t' then ['\\', 't']
  else [c]

/-- A text between quotes. -/
def quote (s : String) : List Char :=
  '"' :: s.toList.flatMap escape ++ ['"']

/-- An integer in decimal. -/
def integer (n : Int) : List Char :=
  if n < 0 then '-' :: Nat.toDigits 10 n.natAbs else Nat.toDigits 10 n.natAbs

/-- Literals with commas between them. -/
def commaList (parts : List (List Char)) : List Char :=
  List.intercalate [',', ' '] parts

mutual

/-- The literal of a value. -/
def write : Value → Except Unwritable (List Char)
  | .null => .ok "null".toList
  | .bool true => .ok "true".toList
  | .bool false => .ok "false".toList
  | .int n =>
    if (Nat.toDigits 10 n.natAbs).length ≤ Lexeme.maxDigits then .ok (integer n)
    else .error .integerTooLong
  | .float x => if x.hasPositionalText then .ok x.text else .error (.float x)
  | .text s => .ok (quote s)
  | .list items | .tuple items => do
    let parts ← writeItems items
    return '[' :: commaList parts ++ [']']
  | .mapping rows => do
    let parts ← writeRows rows
    return '{' :: commaList parts ++ ['}']
  | v@(.inner _ _) | v@(.record _ _ _) | v@(.foreign _ _) => .error (.kind v.kind)

/-- The literals of the items of a list. -/
def writeItems : List Value → Except Unwritable (List (List Char))
  | [] => .ok []
  | item :: items => do
    let part ← write item
    let parts ← writeItems items
    return part :: parts

/-- The literals of the rows of a mapping. -/
def writeRows : List (Value × Value) → Except Unwritable (List (List Char))
  | [] => .ok []
  | (.text key, value) :: rows => do
    let part ← write value
    let parts ← writeRows rows
    return (quote key ++ [' ', '=', '>', ' '] ++ part) :: parts
  | (key, _) :: _ => .error (if key.isShowable then .key key else .integerTooLong)

end

end BraceScript.Literal
