import BraceScript.Config.Basic
import BraceScript.Options.Basic
import BraceScript.Text.CharClass

/-!
# Valid logging

A level is one of eight words, in letters of either case.  A format is empty or has a field in
it: `%(name)`, flags, width and precision as wanted, and the letter of a conversion.
-/

namespace BraceScript.Config

/-- The words for levels. -/
def levels : List String :=
  ["CRITICAL", "FATAL", "ERROR", "WARN", "WARNING", "INFO", "DEBUG", "NOTSET"]

/-- A letter as a capital: besides the ASCII letters, dotless i and long s have an ASCII capital. -/
def capital (c : Char) : Char :=
  if c = 'ı' then 'I' else if c = 'ſ' then 'S' else c.toUpper

/-- The level is known. -/
def isLevel (level : String) : Bool :=
  levels.contains (String.ofList (level.toList.map capital))

/-- What follows a number or a star, if one comes first. -/
def afterWidth : List Char → List Char
  | '*' :: rest => rest
  | text => text.dropWhile Char.isDigit

/-- What follows a point with a number or a star, if they come first. -/
def afterPrecision : List Char → List Char
  | '.' :: rest =>
    match rest with
    | '*' :: rest => rest
    | c :: _ => if c.isDigit then rest.dropWhile Char.isDigit else '.' :: rest
    | [] => ['.']
  | text => text

/-- The character is the letter of a conversion, or a percent sign. -/
def isConversion (c : Char) : Bool :=
  "diouxefgcrsa%".toList.contains c.toLower || c == 'İ' || c == 'ı' || c == 'ſ'

/-- A field stands at the start of a text. -/
def fieldFirst : List Char → Bool
  | '%' :: '(' :: text =>
    let (name, rest) := text.span Text.isWordChar
    match name, rest with
    | _ :: _, ')' :: rest =>
      let rest := rest.dropWhile fun c => ['#', '0', '+', ' ', '-'].contains c
      ((afterPrecision (afterWidth rest)).head?.map isConversion).getD false
    | _, _ => false
  | _ => false

/-- A field stands somewhere in a text. -/
def hasField : List Char → Bool
  | [] => false
  | c :: rest => fieldFirst (c :: rest) || hasField rest

/-- Records can be logged as the configuration says. -/
def hasValidLogging (config : Config) : Bool :=
  isLevel config.level && (config.format.isEmpty || hasField config.format.toList)

end BraceScript.Config
