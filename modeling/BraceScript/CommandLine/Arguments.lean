/-!
# Arguments of a command line

Arguments are switches and positional arguments.  A switch is written in full after two dashes, or
by its letter after one; letters can share a dash.  A value follows as the next argument, after an
equals sign, or directly after the letter.  Two dashes alone end the switches.
-/

namespace BraceScript.CommandLine

/-- A switch. -/
inductive Switch where
  | version
  | help
  | config
deriving DecidableEq, Repr

namespace Switch

/-- The word of a switch. -/
def word : Switch → List Char
  | version => "version".toList
  | help => "help".toList
  | config => "config".toList

/-- The letter of a switch. -/
def letter? : Switch → Option Char
  | version => some 'v'
  | help => none
  | config => some 'c'

/-- The switch is followed by a value. -/
def takesValue : Switch → Bool
  | config => true
  | _ => false

end Switch

/-- A switch with its value, which is empty if it takes none. -/
abbrev Given := Switch × String

/-- What an argument is. -/
inductive Piece where
  | positional
  /-- Switches with their values. -/
  | complete (given : List Given)
  /-- Switches with their values, and one of which the value is the next argument. -/
  | pending (given : List Given) (last : Switch)
deriving DecidableEq, Repr

/-- A switch before a piece. -/
def Piece.after (first : Given) : Piece → Piece
  | positional => complete [first]
  | complete given => complete (first :: given)
  | pending given last => pending (first :: given) last

/-- The switches behind two dashes; none if there is no such switch among the known ones. -/
def readWord (known : List Switch) (text : List Char) : Option Piece :=
  let (word, value) := text.span (· != '=')
  match known.find? (·.word == word) with
  | none => none
  | some switch => match switch.takesValue, value with
    | false, [] => some (.complete [(switch, "")])
    | false, _ :: _ => none
    | true, [] => some (.pending [] switch)
    | true, _ :: value => some (.complete [(switch, String.ofList value)])

/-- The switches behind one dash. -/
def readLetters (known : List Switch) : List Char → Option Piece
  | [] => some (.complete [])
  | c :: rest => match known.find? (·.letter? == some c) with
    | none => none
    | some switch =>
      if !switch.takesValue then (readLetters known rest).map (Piece.after (switch, ""))
      else if rest.isEmpty then some (.pending [] switch)
      else some (.complete [(switch, String.ofList rest)])

/-- What an argument is; a dash alone is positional. -/
def readArgument (known : List Switch) (argument : String) : Option Piece :=
  match argument.toList with
  | '-' :: '-' :: text => readWord known text
  | '-' :: c :: text => readLetters known (c :: text)
  | _ => some .positional

/-- Arguments told apart. -/
structure Arguments where
  given : List Given := []
  positional : List String := []
deriving DecidableEq, Repr

/-- Switches before arguments. -/
def Arguments.withGiven (arguments : Arguments) (given : List Given) : Arguments :=
  { arguments with given := given ++ arguments.given }

/-- A positional argument before arguments. -/
def Arguments.withPositional (arguments : Arguments) (first : String) : Arguments :=
  { arguments with positional := first :: arguments.positional }

/-- Tells arguments apart, unless a switch is unknown or lacks its value.  With `mixed`, switches
can follow positional arguments; otherwise the first positional argument ends them. -/
def sortArguments (known : List Switch) (mixed : Bool) : List String → Option Arguments
  | [] => some {}
  | argument :: rest =>
    if argument = "--" then some { positional := rest }
    else match readArgument known argument with
      | none => none
      | some .positional =>
        if mixed then (sortArguments known mixed rest).map (·.withPositional argument)
        else some { positional := argument :: rest }
      | some (.complete given) => (sortArguments known mixed rest).map (·.withGiven given)
      | some (.pending given last) => match rest with
        | [] => none
        | value :: rest =>
          (sortArguments known mixed rest).map (·.withGiven (given ++ [(last, value)]))

end BraceScript.CommandLine
