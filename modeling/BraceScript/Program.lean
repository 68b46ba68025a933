import BraceScript.Feature

/-!
# Program trees

What a script is read into.  Only what happens when the program runs leaves a node; packages,
`use`, `begin` and `sub` take effect while the script is read.
-/

namespace BraceScript

/-- A function that a host supplies; it has no value for arguments of the wrong number. -/
structure Native where
  name : String
  run : List Value → Option Value

instance : Inhabited Native := ⟨⟨"", fun _ => none⟩⟩

mutual

/-- A node of a program. -/
inductive Node where
  | literal (value : Value)
  | list (items : List Node)
  /-- A call written as `name` inside `package`.  The target is the function that the name meant
  while the script was read, if it meant one. -/
  | call (name package : String) (arguments : List Node) (target : Option Function)
  /-- Sets the version of a package. -/
  | version (package literal : String)
  | block (statements : List Node)
  | doBlock (statements : List Node)

/-- A function. -/
inductive Function where
  | subroutine (name package : String) (body : List Node)
  | native (native : Native)
  /-- The function behind a keyword, which takes a package name and the value of its block. -/
  | trampoline (outcome : Outcome)

end

instance : Inhabited Node := ⟨.literal .null⟩
instance : Inhabited Function := ⟨.trampoline .package⟩

end BraceScript
