/-!
# Places in a source text

A place names a file, a line and a column, both counted from one, and may quote the line.
`Place.text` is the form in which error messages begin.
-/

namespace BraceScript

/-- Where in a source text something is. -/
structure Place where
  file : String
  line : Int
  column : Int
  /-- The line itself. -/
  snippet : Option String := none
deriving DecidableEq, Repr, Inhabited

namespace Place

/-- The mark under the column of a quoted line. -/
def marker : String := "^^^"

/-- The width to which line numbers are padded. -/
def lineWidth : Nat := 4

/-- The line number and the bar before a quoted line. -/
def margin (line : Int) : String :=
  let number := toString line
  String.ofList (List.replicate (lineWidth - number.length) ' ') ++ number ++ " | "

/-- The place, followed by the quoted line and a mark under the column if there is a line. -/
def text (place : Place) : String :=
  let position := place.file ++ ":" ++ toString place.line ++ ":" ++ toString place.column
  match place.snippet with
  | none => position
  | some snippet =>
    let margin := margin place.line
    let indent := ((margin.length : Int) + place.column - 1).toNat
    position ++ "\n" ++ margin ++ snippet ++ "\n" ++
      String.ofList (List.replicate indent ' ') ++ marker

end Place

end BraceScript
