import BraceScript.Lexeme
import BraceScript.Text.Quoted

/-!
# What can be wrong with a source text

The causes for which reading a script stops, and the message of each.
-/

namespace BraceScript

/-- Why a source text cannot be read. -/
inductive Fault where
  | expectedExpression
  | unexpected (found : Char)
  | unexpectedAfterEnd (found : Char)
  | expectedChar (wanted : Char) (found : Option Char)
  /-- A word was expected; `what` says of what kind. -/
  | expectedWord (what : String)
  | expectedSeparator (found : Char)
  | missingClosing (closing : String)
  | expectedVersion
  | expectedNumber
  | expectedData (found : Option Char)
  | expectedArrow
  | keyNotText
  | negatedVersion (literal : String)
  | reservedWord (word : String)
  | unknownFeature (name : String)
  | unknownHook (feature hook : String)
  | quote (fault : Lexeme.QuoteFault)
  /-- An integer of more digits than any integer may have. -/
  | integerTooLong
  /-- The reader has used up its fuel. -/
  | exhausted
deriving DecidableEq, Repr

namespace Fault

/-- A character found instead of the expected one, or the end of the text. -/
def found : Option Char → String
  | some c => Text.quoted c.toString
  | none => "end of input"

/-- The message of a fault. -/
def message : Fault → String
  | expectedExpression => "Expected an expression, got end of input"
  | unexpected c => "Unexpected " ++ Text.quoted c.toString
  | unexpectedAfterEnd c => "Unexpected " ++ Text.quoted c.toString ++ " after end of program"
  | expectedChar wanted c => "Expected '" ++ wanted.toString ++ "', got " ++ found c
  | expectedWord what => "Expected " ++ what
  | expectedSeparator c =>
    "Expected ';' between statements, got " ++ Text.quoted c.toString
  | missingClosing closing => "Missing '" ++ closing ++ "' before end of input"
  | expectedVersion => "Expected a version number"
  | expectedNumber => "Expected a number"
  | expectedData c => "Expected a literal value, got " ++ found c
  | expectedArrow => "Expected '=>' after mapping key"
  | keyNotText => "Mapping keys must be strings"
  | negatedVersion literal => "Cannot negate version literal " ++ literal
  | reservedWord word => "'" ++ word ++ "' cannot be used as an expression"
  | unknownFeature name => "Unknown syntax feature: " ++ name
  | unknownHook feature hook => "Syntax feature " ++ feature ++ " has no hook " ++ hook
  | quote fault => fault.message
  | integerTooLong => "Integer literal has too many digits"
  | exhausted => "Reading did not end"

end Fault

end BraceScript
