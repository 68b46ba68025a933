import BraceScript.Declaration
import BraceScript.Reader

/-!
# A parser at work

A parser holds the text that it reads and that keywords expand ahead of it, its position, the
packages and features known so far, and the open scopes.  What is to be done when a scope ends
is kept as data: a function to put back, or a finalizer that closes a declaration.
-/

namespace BraceScript

/-- Closes a declaration, once: at the position of the parser, `drop` characters are taken out
and `closing` is inserted. -/
structure Finalizer where
  closing : List Char := [')']
  drop : Int := 0
  /-- The finalizer waits for the end of a scope. -/
  armed : Bool := false
  /-- The finalizer has done its work. -/
  fired : Bool := false
deriving DecidableEq, Repr, Inhabited

/-- What is to be done when a scope ends. -/
inductive ScopeHook where
  /-- What `name` meant in `package` before a keyword was installed is put back: without an
  earlier function the function is removed, otherwise function and keyword are restored. -/
  | restore (package name : String) (function : Option Function) (keyword : Option Keyword)
  /-- The finalizer of this number fires. -/
  | finalize (index : Nat)
deriving Inhabited

/-- An open scope: a block that is being read, or the whole script. -/
structure Scope where
  package : String
  /-- What is to be done at its end, in this order. -/
  hooks : List ScopeHook := []
deriving Inhabited

/-- A declaration in the text of a script. -/
structure Site where
  /-- The offset of the keyword. -/
  offset : Nat
  /-- The keyword as it is written. -/
  word : String
  /-- The package in which the declaration stands. -/
  package : String
  feature : BlockFeature
  options : KeywordOptions
  declaration : Declaration

/-- What a parser has done. -/
inductive Event where
  | opened
  | closed
  /-- A scope hook was registered with the innermost scope. -/
  | registered (hook : ScopeHook)
  /-- A scope hook was run, with the parser at this position. -/
  | ran (hook : ScopeHook) (pos : Nat)
  /-- A declaration was expanded. -/
  | dispatched (site : Site)
  /-- A `begin` statement at this offset was read and its hook found. -/
  | began (offset : Nat)
  /-- A subroutine was read and installed. -/
  | defined (package name : String)

/-- A parser at work on one text. -/
structure Parser where
  buffer : Buffer
  /-- The offset of the first character that is not yet read. -/
  pos : Nat := 0
  namespaces : Namespaces
  features : Registry
  /-- The open scopes, innermost first. -/
  scopes : List Scope
  /-- The package in which the script starts. -/
  root : String
  /-- All finalizers; hooks name them by their index. -/
  finalizers : List Finalizer := []
  /-- What has been done, latest first. -/
  journal : List Event := []
deriving Inhabited

namespace Parser

/-- A parser at the start of a text. -/
def start (buffer : Buffer) (namespaces : Namespaces) (features : Registry) (package : String) :
    Parser where
  buffer := buffer
  namespaces := namespaces.declare package
  features := features
  scopes := [{ package }]
  root := package

/-- The text that is not yet read. -/
def unread (p : Parser) : List Char := p.buffer.text.drop p.pos

/-- The package of the innermost open scope. -/
def currentPackage (p : Parser) : String :=
  match p.scopes with
  | scope :: _ => scope.package
  | [] => p.root

/-- Adds an event to the journal. -/
def note (p : Parser) (event : Event) : Parser := { p with journal := event :: p.journal }

/-- A fault at an offset as an error. -/
def errorAt (p : Parser) (offset : Nat) : Fault → Error
  | .integerTooLong => .integerTooLong
  | .exhausted => .exhausted
  | fault => .unreadable fault (p.buffer.place offset)

end Parser

/-- A step of a parser with a result of type `α`; an error leaves the parser as it then is. -/
abbrev Parse := EStateM Error Parser

namespace Parse

/-- Fails at an offset. -/
def failAt {α : Type} (offset : Nat) (fault : Fault) : Parse α := do
  throw ((← get).errorAt offset fault)

/-- Fails at the position of the parser. -/
def fail {α : Type} (fault : Fault) : Parse α := do
  failAt (← get).pos fault

/-- Reads from the unread text. -/
def read {α : Type} (reader : Reader α) : Parse α := fun p =>
  let unread := p.unread
  match reader unread with
  | .ok a rest => .ok a { p with pos := p.pos + (unread.length - rest.length) }
  | .error e rest =>
    .error (p.errorAt (p.pos + (unread.length - e.place.length)) e.fault)
      { p with pos := p.pos + (unread.length - rest.length) }

/-- Takes the result of a computation that may be refused. -/
def orMisconfigured {α : Type} : Except Misconfiguration α → Parse α
  | .ok a => return a
  | .error cause => throw (.ofRefusal (.of cause))

/-- Changes the packages. -/
def modifyNamespaces (f : Namespaces → Namespaces) : Parse Unit :=
  modify fun p => { p with namespaces := f p.namespaces }

/-! ### Scopes -/

/-- Opens a scope in the current package. -/
def openScope : Parse Unit :=
  modify fun p => { p with scopes := { package := p.currentPackage } :: p.scopes }.note .opened

/-- Adds a hook to the innermost scope. -/
def onScopeEnd (hook : ScopeHook) : Parse Unit := do
  let p ← get
  match p.scopes with
  | [] => throw .noScope
  | scope :: scopes =>
    set ({ p with scopes := { scope with hooks := scope.hooks ++ [hook] } :: scopes }.note
      (.registered hook))

/-- Makes `package` the package of the innermost scope. -/
def enterPackage (package : String) : Parse Unit := do
  let p ← get
  match p.scopes with
  | [] => throw .noScope
  | scope :: scopes => set { p with scopes := { scope with package } :: scopes }

/-! ### Finalizers -/

/-- Adds a finalizer and gives its number. -/
def addFinalizer (finalizer : Finalizer) : Parse Nat := modifyGet fun p =>
  (p.finalizers.length, { p with finalizers := p.finalizers ++ [finalizer] })

/-- Changes the finalizer of a number. -/
def modifyFinalizer (index : Nat) (f : Finalizer → Finalizer) : Parse Unit :=
  modify fun p => { p with finalizers := p.finalizers.modify index f }

/-- Lets a finalizer wait for the end of the innermost scope, unless it already waits. -/
def arm (index : Nat) : Parse Unit := do
  match (← get).finalizers[index]? with
  | none => return
  | some finalizer =>
    if finalizer.armed then return
    modifyFinalizer index fun f => { f with armed := true }
    onScopeEnd (.finalize index)

/-- Edits the text at the position of the parser. -/
def editHere (f : Cursor → Except OutsideBuffer Cursor) : Parse Unit := do
  let p ← get
  match f ⟨p.buffer, p.pos⟩ with
  | .ok c => set { p with buffer := c.buffer }
  | .error cause => throw (.outsideBuffer cause)

/-- Fires a finalizer that is armed and has not fired.  The position stays, so that the inserted
text is read next. -/
def fire (index : Nat) : Parse Unit := do
  match (← get).finalizers[index]? with
  | none => return
  | some finalizer =>
    if !finalizer.armed || finalizer.fired then return
    modifyFinalizer index fun f => { f with fired := true }
    if finalizer.drop ≠ 0 then
      editHere fun c => do return (← c.strip finalizer.drop).2
    editHere fun c => c.inject finalizer.closing

/-- Lets the declaration whose block is being read be closed at the end of the block. -/
def closeAtScopeEnd : Parse Unit := do
  arm (← addFinalizer {})

/-- Runs a scope hook. -/
def runHook (hook : ScopeHook) : Parse Unit := do
  modify fun p => p.note (.ran hook p.pos)
  match hook with
  | .finalize index => fire index
  | .restore package name none _ =>
    modifyNamespaces fun ns => ns.removeFunction package name
  | .restore package name (some function) keyword =>
    modifyNamespaces fun ns =>
      (ns.installFunction package name function).declareKeyword package name keyword

/-- Closes the innermost scope and runs its hooks. -/
def closeScope : Parse Unit := do
  let p ← get
  match p.scopes with
  | [] => throw .noScope
  | scope :: scopes =>
    set ({ p with scopes }.note .closed)
    scope.hooks.forM runHook

end Parse

end BraceScript
