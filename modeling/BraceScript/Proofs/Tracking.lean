import BraceScript.Proofs.Statements
import BraceScript.Script

/-!
# Relations that reading keeps

A relation between the parser before and the parser after a step is one that reading keeps if it
holds over every part of reading but a keyword, and over a block as soon as it holds over what
stands in the block (`Tracks`).  Such a relation holds over every successful call of the grammar
if it holds over the expressions that begin with a live keyword (`Tracks.all`), which every
relation has to deal with in its own way: an expanded declaration is longer than what it was
before, and some relations hold only once it has been read to its end.

The induction on the fuel, with one case for each form of the grammar, is made here once.
-/

namespace BraceScript

open Lexeme (significant IsWord)
open Parse

/-- The parser has moved within the text. -/
def IsMove (p p' : Parser) : Prop := ∃ count ≤ p.unread.length, p' = p.move count

variable {R : Parser → Parser → Prop} {fuel : Nat} {p q r p' : Parser}

theorem IsMove.refl (p : Parser) : IsMove p p := ⟨0, Nat.zero_le _, rfl⟩

theorem IsMove.trans (h : IsMove p q) (h' : IsMove q r) : IsMove p r := by
  obtain ⟨m, hm, rfl⟩ := h
  obtain ⟨n, hn, rfl⟩ := h'
  rw [Parser.unread_move, List.length_drop] at hn
  exact ⟨m + n, by omega, Parser.move_move _ _ _⟩

theorem IsMove.skip (p : Parser) : IsMove p p.skip :=
  ⟨_, Lexeme.insignificant_le_length _, rfl⟩

/-- A significant character is passed. -/
theorem IsMove.pass {c : Char} {rest : List Char} (h : significant p.unread = c :: rest) :
    IsMove p (p.skip.move 1) :=
  (IsMove.skip p).trans ⟨1, by rw [p.unread_skip, h]; simp, rfl⟩

/-- A word that comes next is passed. -/
theorem IsMove.word {w : String} (h : Lexeme.word? p.unread = some w.toList) :
    IsMove p (p.move w.length) :=
  ⟨_, by rw [← String.length_toList]; exact length_le_of_word? h, rfl⟩

/-- A word is passed, with what is insignificant in front of it. -/
theorem IsMove.skip_word {w : String} (h : Lexeme.word? (significant p.unread) = some w.toList) :
    IsMove p (p.skip.move w.length) :=
  (IsMove.skip p).trans (.word (p.unread_skip ▸ h))

theorem IsMove.read {α : Type} {x : Reader α} {a : α} (hx : Reader.Drops x)
    (h : Parse.read x p = .ok a q) : IsMove p q := by
  obtain ⟨count, hcount, -, rfl⟩ := (read_eq_ok hx).1 h
  exact ⟨count, hcount, rfl⟩

/-- The relation holds over the parts that reading is made of, keywords left out. -/
structure Tracks (R : Parser → Parser → Prop) : Prop where
  trans {p q r : Parser} : R p q → R q r → R p r
  move {p q : Parser} : IsMove p q → R p q
  /-- A `package` statement. -/
  entered {p q : Parser} {name : String} (hname : IsWord name.toList)
    (h : enterPackage name { p with namespaces := p.namespaces.declare name } = .ok () q) : R p q
  /-- Keywords are installed with options that were read. -/
  installed {p q : Parser} : Installs Value.Readable p q → R p q
  /-- A `begin` statement. -/
  began {p q : Parser} {count : Nat} (hword : Lexeme.word? p.unread = some "begin".toList)
    (hpos : 0 < count) (hle : count ≤ p.unread.length)
    (h : closeAtScopeEnd ((p.move count).note (.began p.pos)) = .ok () q) : R p q
  /-- A subroutine is installed. -/
  defined (p : Parser) (package name : String) (function : Function) :
    R p ({ p with namespaces := p.namespaces.installFunction package name function }.note
      (.defined package name))
  /-- A block, from behind its opening brace on. -/
  block {p q r : Parser} {rest : List Char} (hbody : R p.opened q)
    (hbrace : q.unread = '\x7d' :: rest) (hclose : closeScope (q.move 1) = .ok () r) : R p r

/-- The relation holds over every successful call of the grammar with so much fuel. -/
structure Tracked (R : Parser → Parser → Prop) (fuel : Nat) : Prop where
  statements {closing : Option String} {p p' : Parser} {nodes : List Node} :
    statementsWithin closing fuel p = .ok nodes p' → R p p'
  statement {p p' : Parser} {node : Option Node} : statementWithin fuel p = .ok node p' → R p p'
  expression {p p' : Parser} {node : Node} : expressionWithin fuel p = .ok node p' → R p p'
  name {written : String} {p p' : Parser} {node : Node} :
    nameWithin written fuel p = .ok node p' → R p p'
  parenthesized {p p' : Parser} {node : Node} :
    parenthesizedWithin fuel p = .ok node p' → R p p'
  expressions {closing : Char} {p p' : Parser} {nodes : List Node} :
    expressionsWithin closing fuel p = .ok nodes p' → R p p'
  block {p p' : Parser} {nodes : List Node} : blockWithin fuel p = .ok nodes p' → R p p'

/-- Without fuel nothing is read. -/
theorem Tracked.zero (R : Parser → Parser → Prop) : Tracked R 0 where
  statements h := nomatch statementsWithin_fuel h
  statement h := nomatch statementWithin_fuel h
  expression h := nomatch expressionWithin_fuel h
  name h := nomatch nameWithin_fuel h
  parenthesized h := nomatch parenthesizedWithin_fuel h
  expressions h := nomatch expressionsWithin_fuel h
  block h := nomatch blockWithin_fuel h

/-- The relation holds over an expression that begins with a live keyword, if it holds over all
that is read with less fuel. -/
def TracksKeywords (R : Parser → Parser → Prop) : Prop :=
  ∀ {fuel : Nat} {p q r p' : Parser} {written : String} {keyword : Keyword} {node : Node},
    (∀ n ≤ fuel, Tracked R n) → Lexeme.word? p.unread = some written.toList →
    Name.isQualified written = false →
    p.namespaces.keyword? p.currentPackage written = some keyword →
    dispatch keyword p.pos written p = .ok () q →
    read (Reader.advance written.length) q = .ok () r →
    nameWithin written fuel r = .ok node p' → R p p'

namespace Tracks

theorem skip (hR : Tracks R) (p : Parser) : R p p.skip := hR.move (.skip p)

/-- A significant character is passed. -/
theorem pass (hR : Tracks R) {c : Char} {rest : List Char}
    (h : significant p.unread = c :: rest) : R p (p.skip.move 1) :=
  hR.move (.pass h)

/-! ### Statements without blocks -/

theorem packageStatement (hR : Tracks R) (h : Parse.packageStatement p = .ok () q) : R p q := by
  obtain ⟨name, hword, henter⟩ := packageStatement_eq_ok h
  exact hR.trans (hR.move (.skip_word hword)) (hR.entered (IsWord.of_word? hword) henter)

theorem versionStatement (hR : Tracks R) {node : Node}
    (h : Parse.versionStatement p = .ok node q) : R p q := by
  obtain ⟨literal, r, hread, h⟩ := Run.bind_eq_ok.1 h
  rw [Run.get_bind] at h
  obtain ⟨-, rfl⟩ := Run.pure_eq_ok.1 h
  exact hR.move (.read drops_versionLiteral hread)

theorem useStatement (hR : Tracks R) (h : Parse.useStatement p = .ok () q) : R p q := by
  obtain ⟨name, feature, options, hword, hfeature, count, hcount, hread, hinstall⟩ :=
    useStatement_eq_ok h
  have hinstalls : Installs Value.Readable ((p.skip.move name.length).move count) q :=
    installWithin_installs Value.Readable.handsOn (finds_useArguments.value hread) hfeature hinstall
  exact hR.trans (hR.move ((IsMove.skip_word hword).trans ⟨count, hcount, rfl⟩))
    (hR.installed hinstalls)

/-- The offset of a `begin` statement is where its word begins. -/
theorem beginStatement (hR : Tracks R) (hword : Lexeme.word? p.unread = some "begin".toList)
    (h : Parse.beginStatement p.pos (p.move 5) = .ok () q) : R p q := by
  obtain ⟨name, hook, hname, ⟨rest, hpoint⟩, hhook, hclose⟩ := beginStatement_eq_ok h
  have hmove : IsMove (p.move 5) ((((p.move 5).skip.move name.length).skip.move 1).skip.move
      hook.length) := ((IsMove.skip_word hname).trans (.pass hpoint)).trans (.skip_word hhook)
  obtain ⟨count, hcount, heq⟩ := hmove
  rw [heq, Parser.move_move] at hclose
  refine hR.began hword (by omega) ?_ hclose
  have hfive : 5 ≤ p.unread.length := length_le_of_word? hword
  rw [Parser.unread_move, List.length_drop] at hcount
  omega

/-! ### The forms of the grammar -/

/-- A semicolon, or nothing, between two statements. -/
theorem statements_succ (hR : Tracks R) (ih : Tracked R fuel) {closing : Option String}
    {nodes : List Node} (h : statementsWithin closing (fuel + 1) p = .ok nodes p') : R p p' := by
  rcases statementsWithin_eq_ok h with ⟨-, rfl, -⟩ | ⟨rest, hs, h⟩ | ⟨node, q, nodes', hnode, -, h⟩
  · exact hR.skip p
  · exact hR.trans (hR.pass hs) (ih.statements h)
  · have hstatement := hR.trans (hR.skip p) (ih.statement hnode)
    rcases h with ⟨rest, hs, h⟩ | ⟨-, h⟩
    · exact hR.trans (hR.trans hstatement (hR.pass hs)) (ih.statements h)
    · exact hR.trans (hR.trans hstatement (hR.skip q)) (ih.statements h)

theorem statement_succ (hR : Tracks R) (ih : Tracked R fuel) {node : Option Node}
    (h : statementWithin (fuel + 1) p = .ok node p') : R p p' := by
  refine hR.trans (hR.skip p) ?_
  cases statementWithin_eq_ok h with
  | package hword h => exact hR.trans (hR.move (.word hword)) (hR.packageStatement h)
  | version hword h => exact hR.trans (hR.move (.word hword)) (hR.versionStatement h)
  | use hword h => exact hR.trans (hR.move (.word hword)) (hR.useStatement h)
  | begin hword h => exact hR.beginStatement hword h
  | sub hword hname hbody =>
    have hhead := (IsMove.word hword).trans (IsMove.read (Reader.drops_word _) hname)
    exact hR.trans (hR.trans (hR.move hhead) (ih.block hbody)) (hR.defined _ _ _ _)
  | expression _ h => exact ih.expression h

/-- A name that stands for itself or is called. -/
theorem name_succ (hR : Tracks R) (ih : Tracked R fuel) {written : String} {node : Node}
    (h : nameWithin written (fuel + 1) p = .ok node p') : R p p' := by
  rcases nameWithin_eq_ok h with ⟨rest, arguments, hs, harguments, -⟩ | ⟨-, rfl⟩
  · exact hR.trans (hR.pass hs) (ih.expressions harguments)
  · exact hR.skip p

theorem parenthesized_succ (hR : Tracks R) (ih : Tracked R fuel) {node : Node}
    (h : parenthesizedWithin (fuel + 1) p = .ok node p') : R p p' := by
  rcases parenthesizedWithin_eq_ok h with ⟨rest, hs, -, rfl⟩ | ⟨-, first, q, hfirst, h⟩
  · exact hR.pass hs
  · have hfirst := hR.trans (hR.skip p) (ih.expression hfirst)
    rcases h with ⟨rest, hs, -, rfl⟩ | ⟨rest, items, hs, -, h⟩
    · exact hR.trans hfirst (hR.pass hs)
    · exact hR.trans (hR.trans hfirst (hR.pass hs)) (ih.expressions h)

theorem expressions_succ (hR : Tracks R) (ih : Tracked R fuel) {closing : Char}
    {nodes : List Node} (h : expressionsWithin closing (fuel + 1) p = .ok nodes p') : R p p' := by
  rcases expressionsWithin_eq_ok h with ⟨rest, hs, -, rfl⟩ | ⟨-, item, q, hitem, h⟩
  · exact hR.pass hs
  · have hitem := hR.trans (hR.skip p) (ih.expression hitem)
    rcases h with ⟨rest, items, hs, -, h⟩ | ⟨-, rest, hs, -, rfl⟩
    · exact hR.trans (hR.trans hitem (hR.pass hs)) (ih.expressions h)
    · exact hR.trans hitem (hR.pass hs)

theorem block_succ (hR : Tracks R) (ih : Tracked R fuel) {nodes : List Node}
    (h : blockWithin (fuel + 1) p = .ok nodes p') : R p p' := by
  obtain ⟨rest, q, rest', hs, hstatements, hs', hclose⟩ := blockWithin_eq_ok h
  have hbody := hR.trans (ih.statements hstatements) (hR.skip q)
  exact hR.trans (hR.pass hs) (hR.block hbody (q.unread_skip.trans hs') hclose)

theorem expression_succ (hR : Tracks R) (hkeywords : TracksKeywords R)
    (ih : ∀ n ≤ fuel, Tracked R n) {node : Node}
    (h : expressionWithin (fuel + 1) p = .ok node p') : R p p' := by
  have here := ih fuel (Nat.le_refl _)
  refine hR.trans (hR.skip p) ?_
  cases expressionWithin_eq_ok h with
  | literal hcount _ => exact hR.move ⟨_, hcount, rfl⟩
  | parentheses hopen h =>
    exact hR.trans (hR.move ⟨1, by simp [hopen], rfl⟩) (here.parenthesized h)
  | brackets hopen h =>
    exact hR.trans (hR.move ⟨1, by simp [hopen], rfl⟩) (here.expressions h)
  | doBlock hword h => exact hR.trans (hR.move (IsMove.word (w := "do") hword)) (here.block h)
  | name hword _ _ h => exact hR.trans (hR.move (.word hword)) (here.name h)
  | keyword hword _ hqualified hlive hdispatch hadvance h =>
    exact hkeywords ih hword hqualified hlive hdispatch hadvance h

/-- **What reading keeps, holds over every successful call of the grammar.** -/
theorem all (hR : Tracks R) (hkeywords : TracksKeywords R) (fuel : Nat) : Tracked R fuel := by
  induction fuel using Nat.strongRecOn with
  | ind fuel ih =>
    cases fuel with
    | zero => exact .zero R
    | succ fuel =>
      have here := ih fuel (Nat.lt_succ_self fuel)
      exact ⟨hR.statements_succ here, hR.statement_succ here,
        hR.expression_succ hkeywords fun n hn => ih n (Nat.lt_succ_of_le hn),
        hR.name_succ here, hR.parenthesized_succ here, hR.expressions_succ here,
        hR.block_succ here⟩

end Tracks

/-! ### Whole programs -/

namespace Parse

theorem withFuel_apply {α : Type} (parse : Nat → Parse α) (p : Parser) :
    withFuel parse p = parse (fuelFor p) p := rfl

/-- A program: its statements are read in the scope that is open, which is then closed, and
nothing but blanks and comments is left. -/
theorem program_reads {nodes : List Node} (h : program p = .ok nodes p') :
    ∃ q r, statementsWithin none (fuelFor p) p = .ok nodes q ∧ closeScope q = .ok () r ∧
      significant r.unread = [] ∧ p' = r.skip := by
  obtain ⟨nodes', q, hstatements, h⟩ := Run.bind_eq_ok.1 h
  obtain ⟨_, r, hclose, h⟩ := Run.bind_eq_ok.1 h
  rw [statements, withFuel_apply] at hstatements
  rw [Run.bind_of_ok (read_peek r)] at h
  cases hs : significant r.unread with
  | cons c rest =>
    rw [hs] at h
    exact absurd h fail_eq_ok
  | nil =>
    rw [hs] at h
    obtain ⟨rfl, rfl⟩ := Run.pure_eq_ok.1 h
    exact ⟨q, r, hstatements, hclose, hs, rfl⟩

/-- A prelude installs keywords with the options that it gives. -/
theorem installPrelude_given {Given : Value → Prop} (hkind : HandsOn Given) {package : String}
    {rows : List (String × Value)} (hrows : ∀ row ∈ rows, Given row.2)
    (h : installPrelude package rows p = .ok () q) : Installs Given p q := by
  refine forM_installs (fun row hmem {p q} hrow => ?_) h
  rw [Run.get_bind] at hrow
  obtain ⟨feature, hregistered, hinstall⟩ := require_bind_eq_ok hrow
  exact installWithin_installs hkind (hrows row hmem) hregistered hinstall

theorem installPrelude_installs {package : String} {rows : List (String × Value)}
    (h : installPrelude package rows p = .ok () q) : Installs (fun _ => True) p q :=
  installPrelude_given .any (fun _ _ => trivial) h

end Parse

end BraceScript
