import BraceScript.Cursor
import BraceScript.Error
import BraceScript.Preamble

/-!
# Expanding a declaration

A declaration `module Foo::Bar 1.23 { ... }` is expanded, from just after its keyword on, into a
call of the keyword's function:

    module ("Foo::Bar", do {begin module.scope_end; package Foo::Bar; version 1.23; ...; ();

The name and the version are taken out, the preamble goes into the block, and the closing
parenthesis is inserted when the block has been read.
-/

namespace BraceScript

/-- What an expanded declaration declares. -/
structure Declaration where
  name : String
  version : Option String
  stage : Stage
  /-- The offset just behind the opening brace of the block. -/
  block : Nat
deriving DecidableEq, Repr, Inhabited

namespace Declaration

/-- An expansion of the text at a cursor; the edits made before an error stay made. -/
abbrev Expansion := EStateM Error Cursor

/-- Moves or edits. -/
def edit {α : Type} (f : Cursor → Except OutsideBuffer (α × Cursor)) : Expansion α := fun c =>
  match f c with
  | .ok (a, c') => .ok a c'
  | .error cause => .error (.outsideBuffer cause) c

/-- Inserts text `skip` characters past the cursor. -/
def inject (text : List Char) (skip : Int := 0) : Expansion Unit :=
  edit fun c => do return ((), ← c.inject text skip)

/-- Expands the declaration at the cursor.  Without a name it declares the current `package`. -/
def expand (feature : BlockFeature) (options : KeywordOptions) (package declarator : String) :
    Expansion Declaration := do
  modify fun c => (c.advance declarator.length).skip
  inject ['(']
  let name ← edit Cursor.stripName
  let target := (name.map String.ofList).getD package
  inject (Literal.quote target)
  inject ", do ".toList
  let version ← edit Cursor.stripVersion
  let stage : Stage :=
    if version.isSome then .version else if name.isSome then .name else .keyword
  let version := version.map String.ofList
  match Preamble.generate feature target version options with
  | .error cause => throw (.ofUnwritable cause)
  | .ok statements =>
    modify Cursor.skip
    let c ← get
    if !c.startsWith ['{'] then
      throw (.missingBlock ⟨declarator, stage, String.ofList c.restOfLine,
        c.buffer.place c.offset⟩)
    inject feature.trigger.toList 1
    inject (Preamble.render statements).toList
    return ⟨target, version, stage, c.offset + 1⟩

end Declaration

end BraceScript
