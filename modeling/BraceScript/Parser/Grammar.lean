import BraceScript.Parser.Install
import BraceScript.Literal.Reader

/-!
# Reading scripts

    program     → statements end
    statements  → (statement? ";")* statement?
    statement   → "package" name
                | "version" (number | quoted)
                | "use" word (data ("," data)*)?
                | "begin" word "." word
                | "sub" word block
                | expression
    expression  → quoted | number | "null" | "true" | "false" | "__PACKAGE__"
                | "(" ")" | "(" expression ("," expression)* ")"
                | "[" (expression ("," expression)*)? "]"
                | "do" block
                | name "(" (expression ("," expression)*)? ")"
                | name
    block       → "{" statements "}"

The text is read in one pass.  When a word is a live keyword, the declaration is expanded
before reading goes on.  Since an expanded text is longer and may hold keywords again, reading
takes fuel.
-/

namespace BraceScript.Parse

open Reader (peek accept expect word peekWord advance quoted number)

/-- Words that begin a statement or a block and so are no expressions. -/
def statementWords : List String := ["package", "version", "use", "begin", "sub", "do"]

/-- The word that stands for the current package. -/
def packageWord : String := "__PACKAGE__"

/-! ### Statements without blocks -/

/-- Reads what follows `package`. -/
def packageStatement : Parse Unit := do
  let name ← read (word "a package name")
  modifyNamespaces fun ns => ns.declare name
  enterPackage name

/-- Reads a version, as a number or between quotes. -/
def versionLiteral : Reader String := do
  match ← peek with
  | some '"' => quoted
  | _ => return String.ofList (← number .expectedVersion)

/-- Reads what follows `version`. -/
def versionStatement : Parse Node := do
  let literal ← read versionLiteral
  return .version (← get).currentPackage literal

/-- Reads further data, each after a comma. -/
def moreData : Nat → Reader (List Value)
  | 0 => Reader.fail .exhausted
  | fuel + 1 => do
    if ← accept ',' then
      let value ← Literal.value
      return value :: (← moreData fuel)
    else return []

/-- Reads the options after the name of a feature: none, one value, or a list of several. -/
def useArguments : Reader Value := do
  let next ← peek
  if next.all fun c => c == ';' || c == '}' then return .null
  let first ← Literal.value
  match ← moreData ((← get).length + 1) with
  | [] => return first
  | more => return .list (first :: more)

/-- Reads the name of a registered feature. -/
def featureName : Parse (String × Feature) := do
  let _ ← read peek
  let start := (← get).pos
  let name ← read (word "a syntax feature name")
  match Table.get? (← get).features name with
  | none => failAt start (.unknownFeature name)
  | some feature => return (name, feature)

/-- Reads what follows `use` and installs the feature. -/
def useStatement : Parse Unit := do
  let (_, feature) ← featureName
  let options ← read useArguments
  install feature (← get).currentPackage options

/-- Reads what follows a `begin` at an offset and runs the compile hook. -/
def beginStatement (offset : Nat) : Parse Unit := do
  let _ ← read peek
  let start := (← get).pos
  let name ← read (word "a syntax feature name")
  read (expect '.')
  let hook ← read (word "a compile hook name")
  match Table.get? (← get).features name with
  | none => failAt start (.unknownFeature name)
  | some (.bare _ _) => throw .notFeature
  | some .dispatcher => failAt start (.unknownHook name hook)
  | some (.block feature) =>
    if feature.hooks.contains hook then
      modify fun p => p.note (.began offset)
      closeAtScopeEnd
    else failAt start (.unknownHook name hook)

/-! ### Keywords -/

/-- Expands the declaration of a keyword at an offset. -/
def expandAt (feature : BlockFeature) (options : KeywordOptions) (offset : Nat)
    (declarator : String) : Parse (Declaration × Nat) := fun p =>
  match Declaration.expand feature options p.currentPackage declarator ⟨p.buffer, offset⟩ with
  | .ok declaration c => .ok (declaration, c.offset) { p with buffer := c.buffer }
  | .error e c => .error e { p with buffer := c.buffer }

/-- Lets a keyword that was read at an offset do its work. -/
def dispatch (keyword : Keyword) (offset : Nat) (declarator : String) : Parse Unit := do
  match keyword with
  | .idle => return
  | .expand feature options =>
    let package := (← get).currentPackage
    let (declaration, _) ← expandAt feature options offset declarator
    modify fun p => p.note
      (.dispatched ⟨offset, declarator, package, feature, options, declaration⟩)

/-! ### Expressions and blocks -/

/-- The character closes the statements that are being read. -/
def closes (closing : Option String) (c : Char) : Bool :=
  closing == some c.toString

mutual

/-- Reads statements up to the closing text, or up to the end if there is none. -/
def statementsWithin (closing : Option String) : Nat → Parse (List Node)
  | 0 => throw .exhausted
  | fuel + 1 => do
    match ← read peek with
    | none => match closing with
      | some closing => fail (.missingClosing closing)
      | none => return []
    | some c =>
      if closes closing c then return []
      if c = ';' then
        read (advance 1)
        statementsWithin closing fuel
      else
        let node ← statementWithin fuel
        match ← read peek with
        | none => return node.toList ++ (← statementsWithin closing fuel)
        | some d =>
          if d = ';' then read (advance 1)
          else if !closes closing d then fail (.expectedSeparator d)
          return node.toList ++ (← statementsWithin closing fuel)

/-- Reads a statement, which may leave no node. -/
def statementWithin : Nat → Parse (Option Node)
  | 0 => throw .exhausted
  | fuel + 1 => do
    match ← read peekWord with
    | some "package" =>
      read (advance 7)
      packageStatement
      return none
    | some "version" =>
      read (advance 7)
      return some (← versionStatement)
    | some "use" =>
      read (advance 3)
      useStatement
      return none
    | some "begin" =>
      let offset := (← get).pos
      read (advance 5)
      beginStatement offset
      return none
    | some "sub" =>
      read (advance 3)
      let name ← read (word "a subroutine name")
      let package := (← get).currentPackage
      let body ← blockWithin fuel
      modifyNamespaces fun ns =>
        ns.installFunction package name (.subroutine name package body)
      modify fun p => p.note (.defined package name)
      return none
    | _ => return some (← expressionWithin fuel)

/-- Reads an expression. -/
def expressionWithin : Nat → Parse Node
  | 0 => throw .exhausted
  | fuel + 1 => do
    match ← read peek with
    | none => fail .expectedExpression
    | some '"' => return .literal (.text (← read quoted))
    | some '(' =>
      read (advance 1)
      parenthesizedWithin fuel
    | some '[' =>
      read (advance 1)
      return .list (← expressionsWithin ']' fuel)
    | some c =>
      let next := ((← get).unread.drop 1).head?
      if Text.isAnyDigit c || (c == '-' && next.any Text.isAnyDigit) then
        return .literal (← read Literal.number)
      match ← read peekWord with
      | none => fail (.unexpected c)
      | some word =>
        if word = "do" then
          read (advance word.length)
          return .doBlock (← blockWithin fuel)
        if statementWords.contains word then fail (.reservedWord word)
        if let some value := Literal.constant? word then
          read (advance word.length)
          return .literal value
        if word = packageWord then
          read (advance word.length)
          return .literal (.text (← get).currentPackage)
        let p ← get
        if !Name.isQualified word then
          if let some keyword := p.namespaces.keyword? p.currentPackage word then
            dispatch keyword p.pos word
        read (advance word.length)
        nameWithin word fuel

/-- Reads what may follow a name: arguments. -/
def nameWithin (written : String) : Nat → Parse Node
  | 0 => throw .exhausted
  | fuel + 1 => do
    let p ← get
    let (package, name) := Name.split written p.currentPackage
    let target := p.namespaces.function? package name
    if ← read (accept '(') then
      let arguments ← expressionsWithin ')' fuel
      return .call written (← get).currentPackage arguments target
    if target.isSome then return .call written (← get).currentPackage [] target
    return .literal (.text written)

/-- Reads what follows an opening parenthesis. -/
def parenthesizedWithin : Nat → Parse Node
  | 0 => throw .exhausted
  | fuel + 1 => do
    if ← read (accept ')') then return .literal .null
    let first ← expressionWithin fuel
    if ← read (accept ')') then return first
    read (expect ',')
    return .list (first :: (← expressionsWithin ')' fuel))

/-- Reads expressions with commas between them up to the closing character. -/
def expressionsWithin (closing : Char) : Nat → Parse (List Node)
  | 0 => throw .exhausted
  | fuel + 1 => do
    if ← read (accept closing) then return []
    let item ← expressionWithin fuel
    if ← read (accept ',') then return item :: (← expressionsWithin closing fuel)
    read (expect closing)
    return [item]

/-- Reads a block, in a scope of its own. -/
def blockWithin : Nat → Parse (List Node)
  | 0 => throw .exhausted
  | fuel + 1 => do
    read (expect '{')
    openScope
    let statements ← statementsWithin (some "\x7d") fuel
    read (expect '}')
    closeScope
    return statements

end

/-! ### Fuel -/

/-- The number of characters that the options of a keyword take in a text. -/
def writtenLength (options : KeywordOptions) : Nat :=
  match Literal.write options.toValue with
  | .ok literal => literal.length
  | .error _ => 0

/-- The number of characters that a keyword adds to the text for its feature and options. -/
def keywordGrowth : Keyword → Nat
  | .idle => 0
  | .expand feature options =>
    2 * writtenLength options + 2 * feature.name.length +
      (feature.extra ++ options.preamble).foldl (fun n s => n + s.length) 0

/-- The number of characters that one declaration can add to the text: the options of any keyword
that is installed or can still be read, and a name. -/
def growth (p : Parser) : Nat :=
  p.buffer.text.length + 2 * p.root.length +
    Table.total (fun row => 2 * row.1.length + Table.total (fun row => keywordGrowth row.2)
      row.2.keywords) p.namespaces

/-- Fuel for reading the rest of a text: every character may begin a declaration, which adds
characters, and every few calls read a character. -/
def fuelFor (p : Parser) : Nat :=
  16 * (p.buffer.text.length + 1) * (growth p + 256)

/-- Gives a reader of scripts its fuel. -/
def withFuel {α : Type} (parse : Nat → Parse α) : Parse α := do
  parse (fuelFor (← get))

/-- Reads statements. -/
def statements (closing : Option String) : Parse (List Node) := withFuel (statementsWithin closing)

/-- Reads a statement. -/
def statement : Parse (Option Node) := withFuel statementWithin

/-- Reads an expression. -/
def expression : Parse Node := withFuel expressionWithin

/-- Reads a block. -/
def block : Parse (List Node) := withFuel blockWithin

/-- Reads a whole script. -/
def program : Parse (List Node) := do
  let statements ← statements none
  closeScope
  match ← read peek with
  | none => return statements
  | some c => fail (.unexpectedAfterEnd c)

end BraceScript.Parse
