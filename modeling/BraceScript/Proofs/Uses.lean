import BraceScript.Proofs.Statements

/-!
# `use` statements read in full

A `use` statement that names a registered feature and gives its arguments as literals is nothing
but the installation of that feature with the values of the literals
(`Parse.statementWithin_use`).  The equation holds for failing installations too, so it can be
used from either side.
-/

namespace BraceScript.Parse

open Lexeme (significant IsWord EndsWord)

/-- The text gives the options of a `use` statement, up to the semicolon that ends it. -/
structure IsArguments (arguments : List Char) (options : Value) : Prop where
  ends : ∀ rest, EndsWord (arguments ++ ';' :: rest)
  reads : ∀ rest, useArguments (arguments ++ ';' :: rest) = .ok options (';' :: rest)

/-- Literals with commas between them give their values, tuples as lists. -/
theorem IsArguments.literals {vs : List Value} {parts : List (List Char)}
    (h : Literal.writeItems vs = .ok parts) (hproper : Value.ProperItems vs) :
    IsArguments (' ' :: Literal.commaList parts) (ofArguments (Value.listedItems vs)) where
  ends rest := Lexeme.endsWord_blank _
  reads rest := by
    obtain ⟨found, hfound, hlisted⟩ := useArguments_append h rest
    rw [List.cons_append, hfound, hlisted hproper]

/-- One literal gives its value. -/
theorem IsArguments.literal {v : Value} {literal : List Char} (h : Literal.write v = .ok literal)
    (hproper : v.Proper) : IsArguments (' ' :: literal) v.listed := by
  have hitems : Literal.writeItems [v] = .ok [literal] := by rw [Literal.writeItems, h]; rfl
  simpa [ofArguments, Value.listedItems] using IsArguments.literals hitems ⟨hproper, trivial⟩

/-- Nothing gives no options. -/
theorem IsArguments.nothing : IsArguments [] .null where
  ends rest := (endsLexeme_semicolon rest).endsWord
  reads rest := by
    have hs := Lexeme.significant_semicolon rest
    rw [List.nil_append, useArguments, Run.bind_of_ok (Reader.peek_eq _), hs]
    rfl

variable {p : Parser} {name arguments rest : List Char} {feature : Feature} {options : Value}

theorem featureName_of_word (hname : IsWord name) (hrest : EndsWord rest)
    (hfeature : Table.get? p.features (String.ofList name) = some feature)
    (hp : p.unread = ' ' :: (name ++ rest)) :
    featureName p = .ok (String.ofList name, feature) (p.move (1 + name.length)) := by
  have hskip := skip_blank hp hname
  have hword : Lexeme.word? (significant (p.move 1).unread) = some (String.ofList name).toList := by
    rw [← hskip, Parser.unread_skip, Lexeme.significant_significant, hp, word?_blank hname hrest,
      String.toList_ofList]
  have hskip' : (p.move 1).skip = p.move 1 := by rw [← hskip, Parser.skip_skip]
  have hlength : (String.ofList name).length = name.length := by
    rw [← String.length_toList, String.toList_ofList]
  have hfound : Table.get? (p.move (1 + name.length)).features (String.ofList name) =
      some feature := hfeature
  rw [featureName, Run.bind_of_ok (read_peek p), hskip, Run.get_bind,
    Run.bind_of_ok (read_word hword), hskip', Run.get_bind, hlength, Parser.move_move, hfound]
  rfl

/-- What follows `use` is an installation in the current package. -/
theorem useStatement_of_arguments (hname : IsWord name) (harguments : IsArguments arguments options)
    (hfeature : Table.get? p.features (String.ofList name) = some feature)
    (hp : p.unread = ' ' :: (name ++ (arguments ++ ';' :: rest))) :
    useStatement p = install feature p.currentPackage options
      (p.move (1 + name.length + arguments.length)) := by
  have hunread : (p.move (1 + name.length)).unread = arguments ++ ';' :: rest := by
    rw [Parser.unread_move, hp, Nat.add_comm, List.drop_succ_cons, List.drop_left]
  have hread : read useArguments (p.move (1 + name.length)) =
      .ok options (p.move (1 + name.length + arguments.length)) := by
    rw [read_of_ok hunread (by rw [hunread, harguments.reads]), Parser.move_move]
  rw [useStatement, Run.bind_of_ok (featureName_of_word hname (harguments.ends rest) hfeature hp)]
  dsimp only
  rw [Run.bind_of_ok hread, Run.get_bind]
  rfl

/-- A `use` statement is the installation of its feature, behind the statement. -/
theorem statementWithin_use (hname : IsWord name) (harguments : IsArguments arguments options)
    (hfeature : Table.get? p.features (String.ofList name) = some feature)
    (hp : p.unread = "use ".toList ++ (name ++ (arguments ++ ';' :: rest))) (fuel : Nat) :
    statementWithin (fuel + 1) p =
      (do install feature p.currentPackage options; return none : Parse (Option Node))
        (p.move ("use ".toList ++ (name ++ arguments)).length) := by
  have hp' : p.unread = "use".toList ++ ' ' :: (name ++ (arguments ++ ';' :: rest)) := hp
  have hmove : (p.move 3).unread = ' ' :: (name ++ (arguments ++ ';' :: rest)) :=
    Parser.unread_move_append hp' rfl
  have hlength : 3 + (1 + name.length + arguments.length) =
      ("use ".toList ++ (name ++ arguments)).length := by
    rw [List.length_append, List.length_append, show "use ".toList.length = 4 from rfl]
    omega
  have huses := useStatement_of_arguments (p := p.move 3) hname harguments hfeature hmove
  rw [Parser.move_move, hlength] at huses
  rw [statementWithin_useWord hp']
  exact Run.bind_congr_left huses

/-- A feature whose name is no word, so that no `use` statement finds it. -/
def dashedFeature : BlockFeature where
  kind := "Dashed"
  name := "my-module"
  keyword := "dashed"

end BraceScript.Parse
