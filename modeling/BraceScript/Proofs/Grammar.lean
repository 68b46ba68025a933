import BraceScript.Proofs.Scopes

/-!
# The grammar taken apart

For each function of the grammar, what a successful call has done: which calls it has made, on
which parsers, and what its result is made of.  The readers in between have become moves.
-/

namespace BraceScript.Parse

open Lexeme (significant)
open Reader (peek accept expect word peekWord advance quoted)

variable {fuel : Nat} {p p' : Parser}

theorem read_advance_skip {c : Char} {rest : List Char} (h : significant p.unread = c :: rest) :
    read (advance 1) p.skip = .ok () (p.skip.move 1) :=
  read_advance (by rw [Parser.unread_skip, h, List.length_cons]; omega)

/-- What `accept` finds, and what is read then. -/
theorem accept_bind_eq_ok {α : Type} {c : Char} {f : Bool → Parse α} {a : α}
    (h : (read (accept c) >>= f) p = .ok a p') :
    (∃ rest, significant p.unread = c :: rest ∧ f true (p.skip.move 1) = .ok a p') ∨
      (significant p.unread).head? ≠ some c ∧ f false p.skip = .ok a p' := by
  cases hs : significant p.unread with
  | nil =>
    rw [Run.bind_of_ok (read_accept_ne (by simp [hs]))] at h
    exact .inr ⟨by simp, h⟩
  | cons d rest =>
    by_cases hd : d = c
    · subst hd
      rw [Run.bind_of_ok (read_accept hs)] at h
      exact .inl ⟨rest, rfl, h⟩
    · rw [Run.bind_of_ok (read_accept_ne (by simpa [hs] using hd))] at h
      exact .inr ⟨by simpa using hd, h⟩

/-! ### Fuel

Without fuel nothing is read, so a successful call has fuel for the calls that it makes. -/

section

variable {closing : Option String} {close : Char} {written : String} {node : Node}
  {statement : Option Node} {nodes : List Node}

theorem statementsWithin_fuel (h : statementsWithin closing fuel p = .ok nodes p') :
    ∃ n, fuel = n + 1 := by
  cases fuel with
  | zero => rw [statementsWithin.eq_def] at h; exact absurd h Run.throw_eq_ok
  | succ n => exact ⟨n, rfl⟩

theorem statementWithin_fuel (h : statementWithin fuel p = .ok statement p') :
    ∃ n, fuel = n + 1 := by
  cases fuel with
  | zero => rw [statementWithin.eq_def] at h; exact absurd h Run.throw_eq_ok
  | succ n => exact ⟨n, rfl⟩

theorem expressionWithin_fuel (h : expressionWithin fuel p = .ok node p') :
    ∃ n, fuel = n + 1 := by
  cases fuel with
  | zero => rw [expressionWithin.eq_def] at h; exact absurd h Run.throw_eq_ok
  | succ n => exact ⟨n, rfl⟩

theorem nameWithin_fuel (h : nameWithin written fuel p = .ok node p') :
    ∃ n, fuel = n + 1 := by
  cases fuel with
  | zero => rw [nameWithin.eq_def] at h; exact absurd h Run.throw_eq_ok
  | succ n => exact ⟨n, rfl⟩

theorem parenthesizedWithin_fuel (h : parenthesizedWithin fuel p = .ok node p') :
    ∃ n, fuel = n + 1 := by
  cases fuel with
  | zero => rw [parenthesizedWithin.eq_def] at h; exact absurd h Run.throw_eq_ok
  | succ n => exact ⟨n, rfl⟩

theorem expressionsWithin_fuel (h : expressionsWithin close fuel p = .ok nodes p') :
    ∃ n, fuel = n + 1 := by
  cases fuel with
  | zero => rw [expressionsWithin.eq_def] at h; exact absurd h Run.throw_eq_ok
  | succ n => exact ⟨n, rfl⟩

theorem blockWithin_fuel (h : blockWithin fuel p = .ok nodes p') :
    ∃ n, fuel = n + 1 := by
  cases fuel with
  | zero => rw [blockWithin.eq_def] at h; exact absurd h Run.throw_eq_ok
  | succ n => exact ⟨n, rfl⟩

end

/-! ### Statements -/

/-- A list of statements ends, or skips a semicolon, or reads a statement. -/
theorem statementsWithin_eq_ok {closing : Option String} {nodes : List Node}
    (h : statementsWithin closing (fuel + 1) p = .ok nodes p') :
    (nodes = [] ∧ p' = p.skip ∧ (significant p.unread).head?.all (closes closing)) ∨
    (∃ rest, significant p.unread = ';' :: rest ∧
      statementsWithin closing fuel (p.skip.move 1) = .ok nodes p') ∨
    ∃ node q nodes', statementWithin fuel p.skip = .ok node q ∧ nodes = node.toList ++ nodes' ∧
      ((∃ rest, significant q.unread = ';' :: rest ∧
          statementsWithin closing fuel (q.skip.move 1) = .ok nodes' p') ∨
        ((significant q.unread).head? ≠ some ';' ∧
            (significant q.unread).head?.all (closes closing) = true) ∧
          statementsWithin closing fuel q.skip = .ok nodes' p') := by
  rw [statementsWithin.eq_def] at h
  dsimp only at h
  rw [Run.bind_of_ok (read_peek p)] at h
  cases hs : significant p.unread with
  | nil =>
    rw [hs] at h
    cases closing with
    | some closing => exact absurd h fail_eq_ok
    | none =>
      obtain ⟨rfl, rfl⟩ := Run.pure_eq_ok.1 h
      exact .inl ⟨rfl, rfl, rfl⟩
  | cons c rest =>
    rw [hs] at h
    dsimp only [List.head?_cons] at h
    by_cases hc : closes closing c = true
    · rw [if_pos hc] at h
      obtain ⟨rfl, rfl⟩ := Run.pure_eq_ok.1 h
      exact .inl ⟨rfl, rfl, by simpa using hc⟩
    · rw [if_neg hc] at h
      by_cases hsemicolon : c = ';'
      · subst hsemicolon
        rw [if_pos rfl, Run.bind_of_ok (read_advance_skip hs)] at h
        exact .inr (.inl ⟨rest, rfl, h⟩)
      · rw [if_neg hsemicolon] at h
        obtain ⟨node, q, hnode, h⟩ := Run.bind_eq_ok.1 h
        rw [Run.bind_of_ok (read_peek q)] at h
        refine .inr (.inr ⟨node, q, ?_⟩)
        -- behind a statement comes its semicolon, or the end of the list
        cases hs' : significant q.unread with
        | nil =>
          rw [hs'] at h
          obtain ⟨nodes', r, hnodes, h⟩ := Run.bind_eq_ok.1 h
          obtain ⟨rfl, rfl⟩ := Run.pure_eq_ok.1 h
          exact ⟨nodes', hnode, rfl, .inr ⟨⟨by simp, rfl⟩, hnodes⟩⟩
        | cons d rest' =>
          rw [hs'] at h
          dsimp only [List.head?_cons] at h
          by_cases hd : d = ';'
          · subst hd
            rw [if_pos rfl, Run.bind_of_ok (read_advance_skip hs')] at h
            obtain ⟨nodes', r, hnodes, h⟩ := Run.bind_eq_ok.1 h
            obtain ⟨rfl, rfl⟩ := Run.pure_eq_ok.1 h
            exact ⟨nodes', hnode, rfl, .inl ⟨rest', rfl, hnodes⟩⟩
          · rw [if_neg hd] at h
            split at h
            · obtain ⟨_, _, h, -⟩ := Run.bind_eq_ok.1 h
              exact absurd h fail_eq_ok
            · next hcloses =>
              obtain ⟨nodes', r, hnodes, h⟩ := Run.bind_eq_ok.1 h
              obtain ⟨rfl, rfl⟩ := Run.pure_eq_ok.1 h
              exact ⟨nodes', hnode, rfl,
                .inr ⟨⟨by simpa using hd, by simpa using hcloses⟩, hnodes⟩⟩

theorem read_advance_word {w : String} {n : Nat} (h : Lexeme.word? p.unread = some w.toList)
    (hn : w.length = n) : read (advance n) p = .ok () (p.move n) :=
  read_advance (by rw [← hn, ← String.length_toList]; exact length_le_of_word? h)

/-- The statements of the grammar, with what each has read. -/
inductive StatementRead (fuel : Nat) (p : Parser) : Option Node → Parser → Prop
  | package {q : Parser} (hword : Lexeme.word? p.unread = some "package".toList)
      (h : packageStatement (p.move 7) = .ok () q) : StatementRead fuel p none q
  | version {node : Node} {q : Parser} (hword : Lexeme.word? p.unread = some "version".toList)
      (h : versionStatement (p.move 7) = .ok node q) : StatementRead fuel p (some node) q
  | use {q : Parser} (hword : Lexeme.word? p.unread = some "use".toList)
      (h : useStatement (p.move 3) = .ok () q) : StatementRead fuel p none q
  | begin {q : Parser} (hword : Lexeme.word? p.unread = some "begin".toList)
      (h : beginStatement p.pos (p.move 5) = .ok () q) : StatementRead fuel p none q
  | sub {name : String} {q r : Parser} {body : List Node}
      (hword : Lexeme.word? p.unread = some "sub".toList)
      (hname : read (word "a subroutine name") (p.move 3) = .ok name q)
      (hbody : blockWithin fuel q = .ok body r) :
      StatementRead fuel p none
        ({ r with
          namespaces := (r.namespaces.installFunction q.currentPackage name
            (.subroutine name q.currentPackage body)) }.note (.defined q.currentPackage name))
  | expression {node : Node} {q : Parser}
      (hword : ∀ w ∈ ["package", "version", "use", "begin", "sub"],
        Lexeme.word? p.unread ≠ some w.toList)
      (h : expressionWithin fuel p = .ok node q) : StatementRead fuel p (some node) q

/-- The word that is found is the one behind what is skipped. -/
theorem found_iff_word? (p : Parser) (w : String) :
    (Lexeme.word? (significant p.unread)).map String.ofList = some w ↔
      Lexeme.word? p.skip.unread = some w.toList := by
  rw [Parser.unread_skip, Option.map_eq_some_iff]
  constructor
  · rintro ⟨chars, hchars, rfl⟩
    rw [hchars, String.toList_ofList]
  · exact fun h => ⟨w.toList, h, String.ofList_toList⟩

theorem statementWithin_eq_ok {node : Option Node}
    (h : statementWithin (fuel + 1) p = .ok node p') : StatementRead fuel p.skip node p' := by
  rw [statementWithin.eq_def] at h
  dsimp only at h
  rw [Run.bind_of_ok (read_peekWord p)] at h
  have hword {w : String} := (found_iff_word? p w).1
  have hother (w : String) := mt (found_iff_word? p w).2
  generalize (Lexeme.word? (significant p.unread)).map String.ofList = w at h hword hother
  split at h
  · rw [Run.bind_of_ok (read_advance_word (hword rfl) (show "package".length = 7 from rfl))] at h
    obtain ⟨_, q, hpackage, h⟩ := Run.bind_eq_ok.1 h
    obtain ⟨rfl, rfl⟩ := Run.pure_eq_ok.1 h
    exact .package (hword rfl) hpackage
  · rw [Run.bind_of_ok (read_advance_word (hword rfl) (show "version".length = 7 from rfl))] at h
    obtain ⟨node, q, hversion, h⟩ := Run.bind_eq_ok.1 h
    obtain ⟨rfl, rfl⟩ := Run.pure_eq_ok.1 h
    exact .version (hword rfl) hversion
  · rw [Run.bind_of_ok (read_advance_word (hword rfl) (show "use".length = 3 from rfl))] at h
    obtain ⟨_, q, huse, h⟩ := Run.bind_eq_ok.1 h
    obtain ⟨rfl, rfl⟩ := Run.pure_eq_ok.1 h
    exact .use (hword rfl) huse
  · rw [Run.get_bind,
      Run.bind_of_ok (read_advance_word (hword rfl) (show "begin".length = 5 from rfl))] at h
    obtain ⟨_, q, hbegin, h⟩ := Run.bind_eq_ok.1 h
    obtain ⟨rfl, rfl⟩ := Run.pure_eq_ok.1 h
    exact .begin (hword rfl) hbegin
  · rw [Run.bind_of_ok (read_advance_word (hword rfl) (show "sub".length = 3 from rfl))] at h
    obtain ⟨name, q, hname, h⟩ := Run.bind_eq_ok.1 h
    rw [Run.get_bind] at h
    obtain ⟨body, r, hbody, h⟩ := Run.bind_eq_ok.1 h
    obtain ⟨_, r', hmodify, h⟩ := Run.bind_eq_ok.1 h
    obtain rfl := Run.modify_eq_ok.1 hmodify
    obtain ⟨_, r'', hnote, h⟩ := Run.bind_eq_ok.1 h
    obtain rfl := Run.modify_eq_ok.1 hnote
    obtain ⟨rfl, rfl⟩ := Run.pure_eq_ok.1 h
    exact .sub (hword rfl) hname hbody
  · next hpackage hversion huse hbegin hsub =>
    obtain ⟨node, q, hexpression, h⟩ := Run.bind_eq_ok.1 h
    obtain ⟨rfl, rfl⟩ := Run.pure_eq_ok.1 h
    refine .expression (fun w hw => hother w fun heq => ?_) hexpression
    simp only [List.mem_cons, List.not_mem_nil, or_false] at hw
    rcases hw with rfl | rfl | rfl | rfl | rfl
    · exact hpackage heq
    · exact hversion heq
    · exact huse heq
    · exact hbegin heq
    · exact hsub heq

/-! ### Expressions -/

/-- The word stands for a value by itself. -/
def IsValueWord (w : String) : Prop := (Literal.constant? w).isSome ∨ w = packageWord

instance (w : String) : Decidable (IsValueWord w) :=
  inferInstanceAs (Decidable ((Literal.constant? w).isSome ∨ w = packageWord))

/-- The expressions of the grammar, with what each has read. -/
inductive ExpressionRead (fuel : Nat) (p : Parser) : Node → Parser → Prop
  /-- A literal is read where it stands. -/
  | literal {value : Value} {count : Nat} (hcount : count ≤ p.unread.length)
      (hword : ∀ w : String, Lexeme.word? p.unread = some w.toList → IsValueWord w) :
      ExpressionRead fuel p (.literal value) (p.move count)
  | parentheses {rest : List Char} {node : Node} {q : Parser} (hopen : p.unread = '(' :: rest)
      (h : parenthesizedWithin fuel (p.move 1) = .ok node q) : ExpressionRead fuel p node q
  | brackets {rest : List Char} {items : List Node} {q : Parser} (hopen : p.unread = '[' :: rest)
      (h : expressionsWithin ']' fuel (p.move 1) = .ok items q) :
      ExpressionRead fuel p (.list items) q
  | doBlock {statements : List Node} {q : Parser}
      (hword : Lexeme.word? p.unread = some "do".toList)
      (h : blockWithin fuel (p.move 2) = .ok statements q) :
      ExpressionRead fuel p (.doBlock statements) q
  /-- A name that is no live keyword, or a qualified one. -/
  | name {written : String} {node : Node} {q : Parser}
      (hword : Lexeme.word? p.unread = some written.toList) (hdo : written ≠ "do")
      (hkeyword : Name.isQualified written = false →
        p.namespaces.keyword? p.currentPackage written = none)
      (h : nameWithin written fuel (p.move written.length) = .ok node q) :
      ExpressionRead fuel p node q
  /-- A live keyword. -/
  | keyword {written : String} {keyword : Keyword} {node : Node} {q r s : Parser}
      (hword : Lexeme.word? p.unread = some written.toList) (hdo : written ≠ "do")
      (hqualified : Name.isQualified written = false)
      (hkeyword : p.namespaces.keyword? p.currentPackage written = some keyword)
      (hdispatch : dispatch keyword p.pos written p = .ok () q)
      (hadvance : read (advance written.length) q = .ok () r)
      (h : nameWithin written fuel r = .ok node s) : ExpressionRead fuel p node s

/-- What an expression reads from a word on. -/
def wordExpression (written : String) (fuel : Nat) : Parse Node := do
  if written = "do" then
    read (advance written.length)
    return .doBlock (← blockWithin fuel)
  if statementWords.contains written then fail (.reservedWord written)
  if let some value := Literal.constant? written then
    read (advance written.length)
    return .literal value
  if written = packageWord then
    read (advance written.length)
    return .literal (.text (← get).currentPackage)
  let p ← get
  if !Name.isQualified written then
    if let some keyword := p.namespaces.keyword? p.currentPackage written then
      dispatch keyword p.pos written
  read (advance written.length)
  nameWithin written fuel

theorem wordExpression_eq_ok {written : String} {node : Node}
    (hword : Lexeme.word? p.unread = some written.toList)
    (h : wordExpression written fuel p = .ok node p') : ExpressionRead fuel p node p' := by
  have hlength : written.length ≤ p.unread.length := by
    rw [← String.length_toList]
    exact length_le_of_word? hword
  have hadvance := read_advance hlength
  have hvalue : IsValueWord written → ∀ w : String,
      Lexeme.word? p.unread = some w.toList → IsValueWord w := by
    intro hvalue w hw
    obtain rfl : written = w := String.toList_inj.1 (Option.some.inj (hword.symm.trans hw))
    exact hvalue
  rw [wordExpression] at h
  dsimp only at h
  -- the cases are in the order of the tests: a word that is none of these may be a keyword
  by_cases hdo : written = "do"
  · rw [if_pos hdo, Run.bind_of_ok hadvance] at h
    obtain ⟨statements, q, hblock, h⟩ := Run.bind_eq_ok.1 h
    obtain ⟨rfl, rfl⟩ := Run.pure_eq_ok.1 h
    subst hdo
    exact .doBlock hword hblock
  rw [if_neg hdo] at h
  by_cases hreserved : statementWords.contains written = true
  · rw [if_pos hreserved] at h
    obtain ⟨_, _, h, -⟩ := Run.bind_eq_ok.1 h
    exact absurd h fail_eq_ok
  rw [if_neg hreserved] at h
  cases hconstant : Literal.constant? written with
  | some value =>
    rw [hconstant] at h
    dsimp only at h
    rw [Run.bind_of_ok hadvance] at h
    obtain ⟨rfl, rfl⟩ := Run.pure_eq_ok.1 h
    exact .literal hlength (hvalue (.inl (by rw [hconstant]; rfl)))
  | none =>
    rw [hconstant] at h
    dsimp only at h
    by_cases hpackage : written = packageWord
    · rw [if_pos hpackage, Run.bind_of_ok hadvance, Run.get_bind] at h
      obtain ⟨rfl, rfl⟩ := Run.pure_eq_ok.1 h
      exact .literal hlength (hvalue (.inr hpackage))
    rw [if_neg hpackage, Run.get_bind] at h
    cases hqualified : Name.isQualified written with
    | true =>
      rw [hqualified, if_neg (by simp), Run.bind_of_ok hadvance] at h
      exact .name hword hdo (by simp [hqualified]) h
    | false =>
      rw [hqualified, if_pos (by simp)] at h
      cases hkeyword : p.namespaces.keyword? p.currentPackage written with
      | none =>
        rw [hkeyword] at h
        dsimp only at h
        rw [Run.bind_of_ok hadvance] at h
        exact .name hword hdo (fun _ => hkeyword) h
      | some keyword =>
        rw [hkeyword] at h
        obtain ⟨_, q, hdispatch, h⟩ := Run.bind_eq_ok.1 h
        obtain ⟨_, r, hread, h⟩ := Run.bind_eq_ok.1 h
        exact .keyword hword hdo hqualified hkeyword hdispatch hread h

theorem expressionWithin_eq_ok {node : Node}
    (h : expressionWithin (fuel + 1) p = .ok node p') : ExpressionRead fuel p.skip node p' := by
  rw [expressionWithin.eq_def] at h
  dsimp only at h
  rw [Run.bind_of_ok (read_peek p)] at h
  have hunread := p.unread_skip
  cases hs : significant p.unread with
  | nil => rw [hs] at h; exact absurd h fail_eq_ok
  | cons c rest =>
    rw [hs] at h hunread
    rw [List.head?_cons] at h
    -- the next character is taken out of the match, so that the cases do not unfold it
    generalize hnext : some c = next at h
    have hadvance : read (advance 1) p.skip = .ok () (p.skip.move 1) := read_advance_skip hs
    have hnoWord : Text.isWordStart c = false → ∀ w : String,
        Lexeme.word? p.skip.unread = some w.toList → IsValueWord w := by
      intro hc w hw
      rw [hunread, Lexeme.word?_eq_none rest hc] at hw
      cases hw
    split at h
    · cases hnext
    · obtain rfl := Option.some.inj hnext
      obtain ⟨text, q, hquoted, h⟩ := Run.bind_eq_ok.1 h
      obtain ⟨rfl, rfl⟩ := Run.pure_eq_ok.1 h
      obtain ⟨count, hcount, -, rfl⟩ := (read_eq_ok Reader.drops_quoted).1 hquoted
      exact .literal hcount (hnoWord (by decide))
    · obtain rfl := Option.some.inj hnext
      rw [Run.bind_of_ok hadvance] at h
      exact .parentheses hunread h
    · obtain rfl := Option.some.inj hnext
      rw [Run.bind_of_ok hadvance] at h
      obtain ⟨items, q, hitems, h⟩ := Run.bind_eq_ok.1 h
      obtain ⟨rfl, rfl⟩ := Run.pure_eq_ok.1 h
      exact .brackets hunread hitems
    · rw [Run.get_bind] at h
      obtain rfl := Option.some.inj hnext
      split at h
      · next hnumeric =>
        obtain ⟨value, q, hnumber, h⟩ := Run.bind_eq_ok.1 h
        obtain ⟨rfl, rfl⟩ := Run.pure_eq_ok.1 h
        obtain ⟨count, hcount, -, rfl⟩ := (read_eq_ok Literal.drops_number).1 hnumber
        refine .literal hcount (hnoWord ?_)
        rw [Bool.or_eq_true, Bool.and_eq_true, beq_iff_eq] at hnumeric
        rcases hnumeric with hdigit | ⟨rfl, -⟩
        · exact Lexeme.isWordStart_of_isAnyDigit hdigit
        · decide
      · rw [Run.bind_of_ok (read_peekWord _), Parser.skip_skip] at h
        rw [hunread, ← hs, Lexeme.significant_significant, ← p.unread_skip] at h
        cases hword : Lexeme.word? p.skip.unread with
        | none => rw [hword] at h; exact absurd h fail_eq_ok
        | some chars =>
          obtain ⟨written, rfl⟩ : ∃ written : String, chars = written.toList :=
            ⟨String.ofList chars, String.toList_ofList.symm⟩
          rw [hword, Option.map_some, String.ofList_toList] at h
          exact wordExpression_eq_ok hword h

/-- A name with arguments, or without. -/
theorem nameWithin_eq_ok {written : String} {node : Node}
    (h : nameWithin written (fuel + 1) p = .ok node p') :
    (∃ rest arguments, significant p.unread = '(' :: rest ∧
      expressionsWithin ')' fuel (p.skip.move 1) = .ok arguments p' ∧
      node = .call written p'.currentPackage arguments
        (p.namespaces.function? (Name.split written p.currentPackage).1
          (Name.split written p.currentPackage).2)) ∨
    (significant p.unread).head? ≠ some '(' ∧ p' = p.skip := by
  rw [nameWithin.eq_def] at h
  dsimp only at h
  rw [Run.get_bind] at h
  rcases accept_bind_eq_ok h with ⟨rest, hs, h⟩ | ⟨hs, h⟩
  · rw [if_pos rfl] at h
    obtain ⟨arguments, q, harguments, h⟩ := Run.bind_eq_ok.1 h
    rw [Run.get_bind] at h
    obtain ⟨rfl, rfl⟩ := Run.pure_eq_ok.1 h
    exact .inl ⟨rest, arguments, hs, harguments, rfl⟩
  · rw [if_neg (by simp)] at h
    split at h
    · rw [Run.get_bind] at h
      exact .inr ⟨hs, (Run.pure_eq_ok.1 h).2.symm⟩
    · exact .inr ⟨hs, (Run.pure_eq_ok.1 h).2.symm⟩

/-- The closing character was accepted or expected, after a comma was not accepted. -/
theorem expect_skip_bind_eq_ok {α : Type} {c : Char} {a b : α}
    (h : ((do read (expect c); return b) : Parse α) p.skip = .ok a p') :
    ∃ rest, significant p.unread = c :: rest ∧ a = b ∧ p' = p.skip.move 1 := by
  obtain ⟨_, q, hexpect, h⟩ := Run.bind_eq_ok.1 h
  obtain ⟨rest, hs, rfl⟩ := read_expect_eq_ok hexpect
  obtain ⟨rfl, rfl⟩ := Run.pure_eq_ok.1 h
  rw [Parser.unread_skip, Lexeme.significant_significant] at hs
  exact ⟨rest, hs, rfl, by rw [Parser.skip_skip]⟩

/-- Expressions with commas between them end, or an expression is read. -/
theorem expressionsWithin_eq_ok {closing : Char} {items : List Node}
    (h : expressionsWithin closing (fuel + 1) p = .ok items p') :
    (∃ rest, significant p.unread = closing :: rest ∧ items = [] ∧ p' = p.skip.move 1) ∨
    (significant p.unread).head? ≠ some closing ∧
      ∃ item q, expressionWithin fuel p.skip = .ok item q ∧
        ((∃ rest items', significant q.unread = ',' :: rest ∧ items = item :: items' ∧
            expressionsWithin closing fuel (q.skip.move 1) = .ok items' p') ∨
          (significant q.unread).head? ≠ some ',' ∧
            ∃ rest, significant q.unread = closing :: rest ∧ items = [item] ∧
              p' = q.skip.move 1) := by
  rw [expressionsWithin.eq_def] at h
  dsimp only at h
  rcases accept_bind_eq_ok h with ⟨rest, hs, h⟩ | ⟨hs, h⟩
  · rw [if_pos rfl] at h
    obtain ⟨rfl, rfl⟩ := Run.pure_eq_ok.1 h
    exact .inl ⟨rest, hs, rfl, rfl⟩
  · rw [if_neg (by simp)] at h
    obtain ⟨item, q, hitem, h⟩ := Run.bind_eq_ok.1 h
    refine .inr ⟨hs, item, q, hitem, ?_⟩
    rcases accept_bind_eq_ok h with ⟨rest, hs, h⟩ | ⟨hs, h⟩
    · rw [if_pos rfl] at h
      obtain ⟨items', r, hitems, h⟩ := Run.bind_eq_ok.1 h
      obtain ⟨rfl, rfl⟩ := Run.pure_eq_ok.1 h
      exact .inl ⟨rest, items', hs, rfl, hitems⟩
    · rw [if_neg (by simp)] at h
      exact .inr ⟨hs, expect_skip_bind_eq_ok h⟩

/-- What follows an opening parenthesis: nothing, an expression, or a list of expressions. -/
theorem parenthesizedWithin_eq_ok {node : Node}
    (h : parenthesizedWithin (fuel + 1) p = .ok node p') :
    (∃ rest, significant p.unread = ')' :: rest ∧ node = .literal .null ∧ p' = p.skip.move 1) ∨
    (significant p.unread).head? ≠ some ')' ∧
      ∃ first q, expressionWithin fuel p.skip = .ok first q ∧
        ((∃ rest, significant q.unread = ')' :: rest ∧ node = first ∧ p' = q.skip.move 1) ∨
          ∃ rest items, significant q.unread = ',' :: rest ∧ node = .list (first :: items) ∧
            expressionsWithin ')' fuel (q.skip.move 1) = .ok items p') := by
  rw [parenthesizedWithin.eq_def] at h
  dsimp only at h
  rcases accept_bind_eq_ok h with ⟨rest, hs, h⟩ | ⟨hs, h⟩
  · rw [if_pos rfl] at h
    obtain ⟨rfl, rfl⟩ := Run.pure_eq_ok.1 h
    exact .inl ⟨rest, hs, rfl, rfl⟩
  · rw [if_neg (by simp)] at h
    obtain ⟨first, q, hfirst, h⟩ := Run.bind_eq_ok.1 h
    refine .inr ⟨hs, first, q, hfirst, ?_⟩
    rcases accept_bind_eq_ok h with ⟨rest, hs, h⟩ | ⟨hs, h⟩
    · rw [if_pos rfl] at h
      obtain ⟨rfl, rfl⟩ := Run.pure_eq_ok.1 h
      exact .inl ⟨rest, hs, rfl, rfl⟩
    · rw [if_neg (by simp)] at h
      obtain ⟨_, r, hcomma, h⟩ := Run.bind_eq_ok.1 h
      obtain ⟨rest, hs, rfl⟩ := read_expect_eq_ok hcomma
      rw [Parser.unread_skip, Lexeme.significant_significant] at hs
      rw [Parser.skip_skip] at h
      obtain ⟨items, r, hitems, h⟩ := Run.bind_eq_ok.1 h
      obtain ⟨rfl, rfl⟩ := Run.pure_eq_ok.1 h
      exact .inr ⟨rest, items, hs, rfl, hitems⟩

/-- A block: its statements are read in a scope of their own. -/
theorem blockWithin_eq_ok {body : List Node} (h : blockWithin (fuel + 1) p = .ok body p') :
    ∃ rest q rest', significant p.unread = '\x7b' :: rest ∧
      statementsWithin (some "\x7d") fuel (p.skip.move 1).opened = .ok body q ∧
      significant q.unread = '\x7d' :: rest' ∧ closeScope (q.skip.move 1) = .ok () p' := by
  rw [blockWithin.eq_def] at h
  dsimp only at h
  obtain ⟨_, q, hbrace, h⟩ := Run.bind_eq_ok.1 h
  obtain ⟨rest, hs, rfl⟩ := read_expect_eq_ok hbrace
  obtain ⟨_, q, hopen, h⟩ := Run.bind_eq_ok.1 h
  obtain rfl := openScope_eq_ok.1 hopen
  obtain ⟨statements, q, hstatements, h⟩ := Run.bind_eq_ok.1 h
  obtain ⟨_, r, hbrace, h⟩ := Run.bind_eq_ok.1 h
  obtain ⟨rest', hs', rfl⟩ := read_expect_eq_ok hbrace
  obtain ⟨_, r, hclose, h⟩ := Run.bind_eq_ok.1 h
  obtain ⟨rfl, rfl⟩ := Run.pure_eq_ok.1 h
  exact ⟨rest, q, rest', hs, hstatements, hs', hclose⟩

end BraceScript.Parse
