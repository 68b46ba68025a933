import BraceScript.Proofs.Sufficiency
import BraceScript.Proofs.Tracking

/-!
# The calls that a call makes

The readers of the grammar call each other.  `Calls fuel f p g q` says that the call of the form
`f` on the parser `p`, with one more unit of fuel, calls the form `g` on the parser `q`: all that
it reads before has been read.  The call may fail later on.  A call that fails, fails by itself
(`Halts`) or in a call that it makes (`Form.fails_succ`), so what holds along calls holds up to
the place of an error.
-/

namespace BraceScript

open Lexeme (significant IsWord)
open Parse
open Reader (expect word quoted)

/-- The forms of the grammar that are read with fuel. -/
inductive Form where
  | statements (closing : Option String)
  | statement
  | expression
  | name (written : String)
  | parenthesized
  | expressions (closing : Char)
  | block

namespace Form

/-- Reading the form with so much fuel fails. -/
def Fails : Form → Nat → Parser → Error → Parser → Prop
  | statements closing, fuel, p, e, q => statementsWithin closing fuel p = .error e q
  | statement, fuel, p, e, q => statementWithin fuel p = .error e q
  | expression, fuel, p, e, q => expressionWithin fuel p = .error e q
  | name written, fuel, p, e, q => nameWithin written fuel p = .error e q
  | parenthesized, fuel, p, e, q => parenthesizedWithin fuel p = .error e q
  | expressions closing, fuel, p, e, q => expressionsWithin closing fuel p = .error e q
  | block, fuel, p, e, q => blockWithin fuel p = .error e q

end Form

/-- A call of a form, and the calls that it makes. -/
inductive Calls (fuel : Nat) : Form → Parser → Form → Parser → Prop
  | statement {closing : Option String} {p : Parser} {c : Char} {rest : List Char}
      (hs : significant p.unread = c :: rest) (hclosed : closes closing c = false)
      (hc : c ≠ ';') : Calls fuel (.statements closing) p .statement p.skip
  /-- The statements behind a semicolon. -/
  | skipped {closing : Option String} {p : Parser} {rest : List Char}
      (hs : significant p.unread = ';' :: rest) :
      Calls fuel (.statements closing) p (.statements closing) (p.skip.move 1)
  /-- The statements behind a statement and its semicolon. -/
  | more {closing : Option String} {p q : Parser} {node : Option Node} {rest : List Char}
      (hcall : Calls fuel (.statements closing) p .statement p.skip)
      (hnode : statementWithin fuel p.skip = .ok node q)
      (hs : significant q.unread = ';' :: rest) :
      Calls fuel (.statements closing) p (.statements closing) (q.skip.move 1)
  /-- What follows the last statement: the end of the list. -/
  | last {closing : Option String} {p q : Parser} {node : Option Node}
      (hcall : Calls fuel (.statements closing) p .statement p.skip)
      (hnode : statementWithin fuel p.skip = .ok node q)
      (hs : (significant q.unread).head? ≠ some ';')
      (hend : (significant q.unread).head?.all (closes closing)) :
      Calls fuel (.statements closing) p (.statements closing) q.skip
  | body {p q : Parser} {name : String} (hword : Lexeme.word? p.skip.unread = some "sub".toList)
      (hname : read (word "a subroutine name") (p.skip.move 3) = .ok name q) :
      Calls fuel .statement p .block q
  | expression {p : Parser} (hword : ∀ w ∈ ["package", "version", "use", "begin", "sub"],
      Lexeme.word? p.skip.unread ≠ some w.toList) : Calls fuel .statement p .expression p.skip
  | parentheses {p : Parser} {rest : List Char} (hopen : significant p.unread = '(' :: rest) :
      Calls fuel .expression p .parenthesized (p.skip.move 1)
  | brackets {p : Parser} {rest : List Char} (hopen : significant p.unread = '[' :: rest) :
      Calls fuel .expression p (.expressions ']') (p.skip.move 1)
  | doBlock {p : Parser} (hword : Lexeme.word? p.skip.unread = some "do".toList) :
      Calls fuel .expression p .block (p.skip.move 2)
  /-- A name that is no live keyword, or a qualified one. -/
  | name {p : Parser} {written : String}
      (hword : Lexeme.word? p.skip.unread = some written.toList) (hdo : written ≠ "do")
      (hkeyword : Name.isQualified written = false →
        p.skip.namespaces.keyword? p.skip.currentPackage written = none) :
      Calls fuel .expression p (.name written) (p.skip.move written.length)
  /-- The name of a live keyword, which has done its work. -/
  | keyword {p q r : Parser} {written : String} {keyword : Keyword}
      (hword : Lexeme.word? p.skip.unread = some written.toList) (hdo : written ≠ "do")
      (hqualified : Name.isQualified written = false)
      (hkeyword : p.skip.namespaces.keyword? p.skip.currentPackage written = some keyword)
      (hdispatch : dispatch keyword p.skip.pos written p.skip = .ok () q)
      (hadvance : read (Reader.advance written.length) q = .ok () r) :
      Calls fuel .expression p (.name written) r
  | arguments {p : Parser} {written : String} {rest : List Char}
      (hs : significant p.unread = '(' :: rest) :
      Calls fuel (.name written) p (.expressions ')') (p.skip.move 1)
  | first {p : Parser} (hs : (significant p.unread).head? ≠ some ')') :
      Calls fuel .parenthesized p .expression p.skip
  | others {p q : Parser} {node : Node} {rest : List Char}
      (hs : (significant p.unread).head? ≠ some ')')
      (hfirst : expressionWithin fuel p.skip = .ok node q)
      (hs' : significant q.unread = ',' :: rest) :
      Calls fuel .parenthesized p (.expressions ')') (q.skip.move 1)
  | item {p : Parser} {closing : Char} (hs : (significant p.unread).head? ≠ some closing) :
      Calls fuel (.expressions closing) p .expression p.skip
  | items {p q : Parser} {closing : Char} {node : Node} {rest : List Char}
      (hs : (significant p.unread).head? ≠ some closing)
      (hitem : expressionWithin fuel p.skip = .ok node q)
      (hs' : significant q.unread = ',' :: rest) :
      Calls fuel (.expressions closing) p (.expressions closing) (q.skip.move 1)
  /-- The statements of a block, in a scope of their own. -/
  | inner {p : Parser} {rest : List Char} (hs : significant p.unread = '\x7b' :: rest) :
      Calls fuel .block p (.statements (some "\x7d")) (p.skip.move 1).opened

/-! ### Failures -/

namespace Parse

/-- The parts of the grammar that do not call it again and may fail, where a parser runs them. -/
inductive Elementary (p : Parser) : (α : Type) → Parse α → Prop
  | fail {α : Type} {fault : Fault} (h : fault ≠ .exhausted ∧ fault ≠ .integerTooLong) :
      Elementary p α (fail fault)
  | expect (c : Char) : Elementary p _ (read (expect c))
  | word (what : String) : Elementary p _ (read (word what))
  | quoted : Elementary p _ (read quoted)
  | number : Elementary p _ (read Literal.number)
  | packageStatement : Elementary p _ packageStatement
  | versionStatement : Elementary p _ versionStatement
  | useStatement : Elementary p _ useStatement
  | beginStatement (offset : Nat) : Elementary p _ (beginStatement offset)
  | dispatch {keyword : Keyword} {declarator : String}
      (hword : Lexeme.word? p.unread = some declarator.toList)
      (hkeyword : p.namespaces.keyword? p.currentPackage declarator = some keyword) :
      Elementary p _ (dispatch keyword p.pos declarator)
  | closeScope : Elementary p _ closeScope

/-- The parser stops at an elementary part that fails, after it has moved on. -/
def Stops (p : Parser) (e : Error) (q : Parser) : Prop :=
  ∃ r α x, IsMove p r ∧ Elementary r α x ∧ x r = .error e q

end Parse

/-- A call of a form that has fuel for its calls fails by itself. -/
inductive Halts (fuel : Nat) : Form → Parser → Error → Parser → Prop
  | first {f : Form} {p q : Parser} {e : Error} (h : Stops p e q) : Halts fuel f p e q
  /-- Behind a statement. -/
  | statement {closing : Option String} {p q r : Parser} {e : Error} {node : Option Node}
      (hnode : statementWithin fuel p.skip = .ok node r) (h : Stops r e q) :
      Halts fuel (.statements closing) p e q
  /-- Behind the first expression between parentheses. -/
  | parenthesized {p q r : Parser} {e : Error} {node : Node}
      (hfirst : expressionWithin fuel p.skip = .ok node r) (h : Stops r e q) :
      Halts fuel .parenthesized p e q
  /-- Behind an expression of a list. -/
  | item {closing : Char} {p q r : Parser} {e : Error} {node : Node}
      (hitem : expressionWithin fuel p.skip = .ok node r) (h : Stops r e q) :
      Halts fuel (.expressions closing) p e q
  /-- At the end of a block. -/
  | block {p q r : Parser} {e : Error} {rest : List Char} {nodes : List Node}
      (hs : significant p.unread = '\x7b' :: rest)
      (hbody : statementsWithin (some "\x7d") fuel (p.skip.move 1).opened = .ok nodes r)
      (h : Stops r e q) : Halts fuel .block p e q

namespace Parse

variable {fuel : Nat} {p q r : Parser} {e : Error} {α β : Type}

theorem Stops.of_error {x : Parse α} (hx : Elementary p α x) (h : x p = .error e q) : Stops p e q :=
  ⟨p, α, x, .refl p, hx, h⟩

theorem Stops.of_move (hmove : IsMove p r) (h : Stops r e q) : Stops p e q := by
  obtain ⟨s, α, x, hs, hx, h⟩ := h
  exact ⟨s, α, x, hmove.trans hs, hx, h⟩

end Parse

namespace Parse

/-- Moving on does not fail. -/
theorem read_advance_ne_error {count : Nat} {p q : Parser} {e : Error} :
    ¬ read (Reader.advance count) p = .error e q := nofun

/-- What `accept` finds, and what fails then. -/
theorem accept_bind_eq_error {α : Type} {c : Char} {f : Bool → Parse α} {p q : Parser} {e : Error}
    (h : (read (Reader.accept c) >>= f) p = .error e q) :
    (∃ rest, significant p.unread = c :: rest ∧ f true (p.skip.move 1) = .error e q) ∨
      (significant p.unread).head? ≠ some c ∧ f false p.skip = .error e q := by
  by_cases hc : (significant p.unread).head? = some c
  · obtain ⟨rest, hs⟩ : ∃ rest, significant p.unread = c :: rest := List.head?_eq_some_iff.1 hc
    rw [Run.bind_of_ok (read_accept hs)] at h
    exact .inl ⟨rest, hs, h⟩
  · rw [Run.bind_of_ok (read_accept_ne hc)] at h
    exact .inr ⟨hc, h⟩

end Parse

/-- A call fails by itself or in a call that it makes. -/
def Form.FailsIn (f : Form) (fuel : Nat) (p : Parser) (e : Error) (q : Parser) : Prop :=
  Halts fuel f p e q ∨ ∃ g r, Calls fuel f p g r ∧ g.Fails fuel r e q

namespace Form.FailsIn

open Parse

variable {fuel : Nat} {p q r : Parser} {e : Error} {f g : Form} {α : Type}

theorem of_elementary {x : Parse α} (hx : Elementary r α x) (hmove : IsMove p r)
    (h : x r = .error e q) : f.FailsIn fuel p e q :=
  .inl (.first ⟨r, α, x, hmove, hx, h⟩)

theorem of_call (hcall : Calls fuel f p g r) (h : g.Fails fuel r e q) : f.FailsIn fuel p e q :=
  .inr ⟨g, r, hcall, h⟩

theorem statements {closing : Option String}
    (h : statementsWithin closing (fuel + 1) p = .error e q) :
    (Form.statements closing).FailsIn fuel p e q := by
  rw [statementsWithin.eq_def] at h
  dsimp only at h
  rw [Run.bind_of_ok (read_peek p)] at h
  cases hs : significant p.unread with
  | nil =>
    rw [hs] at h
    cases closing with
    | some closing => exact of_elementary (.fail (by simp)) (.skip p) h
    | none => exact absurd h Run.pure_eq_error
  | cons c rest =>
    rw [hs] at h
    dsimp only [List.head?_cons] at h
    by_cases hc : closes closing c = true
    · rw [if_pos hc] at h
      exact absurd h Run.pure_eq_error
    · rw [if_neg hc] at h
      by_cases hsemicolon : c = ';'
      · subst hsemicolon
        rw [if_pos rfl, Run.bind_of_ok (read_advance_skip hs)] at h
        exact of_call (.skipped hs) h
      · rw [if_neg hsemicolon] at h
        have hcall : Calls fuel (.statements closing) p .statement p.skip :=
          .statement hs (by simpa using hc) hsemicolon
        rcases Run.bind_eq_error.1 h with h | ⟨node, r, hnode, h⟩
        · exact of_call hcall h
        rw [Run.bind_of_ok (read_peek r)] at h
        -- what would be returned after the further statements does not fail
        have hmore {s : Parser}
            (h : (do return node.toList ++ (← statementsWithin closing fuel)) s =
              .error e q) : statementsWithin closing fuel s = .error e q := by
          rcases Run.bind_eq_error.1 h with h | ⟨nodes, t, -, h⟩
          · exact h
          · exact absurd h Run.pure_eq_error
        cases hs' : significant r.unread with
        | nil =>
          rw [hs'] at h
          exact of_call (.last hcall hnode (by simp [hs']) (by simp [hs'])) (hmore h)
        | cons d rest' =>
          rw [hs'] at h
          dsimp only [List.head?_cons] at h
          by_cases hd : d = ';'
          · subst hd
            rw [if_pos rfl, Run.bind_of_ok (read_advance_skip hs')] at h
            exact of_call (.more hcall hnode hs') (hmore h)
          · rw [if_neg hd] at h
            split at h
            · rcases Run.bind_eq_error.1 h with h | ⟨a, t, h, -⟩
              · exact .inl (.statement hnode ⟨_, _, _, .skip r, .fail (by simp), h⟩)
              · exact absurd h fail_eq_ok
            · next hend =>
              refine of_call (.last hcall hnode (by simpa [hs'] using hd) ?_) (hmore h)
              rw [hs', List.head?_cons, Option.all_some]
              simpa using hend

theorem statement (h : statementWithin (fuel + 1) p = .error e q) :
    Form.statement.FailsIn fuel p e q := by
  rw [statementWithin.eq_def] at h
  dsimp only at h
  rw [Run.bind_of_ok (read_peekWord p)] at h
  have hword {w : String} := (found_iff_word? p w).1
  have hother (w : String) := mt (found_iff_word? p w).2
  -- a statement without a block is elementary, and nothing fails behind it
  have helementary {α : Type} {x : Parse α} {y : α → Parse (Option Node)} {n : Nat} {w : String}
      (hx : Elementary (p.skip.move n) α x) (hw : Lexeme.word? p.skip.unread = some w.toList)
      (hn : w.length = n)
      (hy : ∀ a s, ¬ y a s = .error e q) (h : (x >>= y) (p.skip.move n) = .error e q) :
      Form.statement.FailsIn fuel p e q := by
    rcases Run.bind_eq_error.1 h with h | ⟨a, t, -, h⟩
    · refine of_elementary hx ((IsMove.skip p).trans ?_) h
      rw [← hn]
      exact .word hw
    · exact absurd h (hy a t)
  generalize (Lexeme.word? (significant p.unread)).map String.ofList = w at h hword hother
  split at h
  · rw [Run.bind_of_ok (read_advance_word (hword rfl) (show "package".length = 7 from rfl))] at h
    exact helementary .packageStatement (hword rfl) rfl (fun _ _ => Run.pure_eq_error) h
  · rw [Run.bind_of_ok (read_advance_word (hword rfl) (show "version".length = 7 from rfl))] at h
    exact helementary .versionStatement (hword rfl) rfl (fun _ _ => Run.pure_eq_error) h
  · rw [Run.bind_of_ok (read_advance_word (hword rfl) (show "use".length = 3 from rfl))] at h
    exact helementary .useStatement (hword rfl) rfl (fun _ _ => Run.pure_eq_error) h
  · rw [Run.get_bind,
      Run.bind_of_ok (read_advance_word (hword rfl) (show "begin".length = 5 from rfl))] at h
    exact helementary (.beginStatement _) (hword rfl) rfl (fun _ _ => Run.pure_eq_error) h
  · rw [Run.bind_of_ok (read_advance_word (hword rfl) (show "sub".length = 3 from rfl))] at h
    rcases Run.bind_eq_error.1 h with h | ⟨name, r, hname, h⟩
    · refine of_elementary (.word _) ((IsMove.skip p).trans ?_) h
      exact .word (w := "sub") (hword rfl)
    · rw [Run.get_bind] at h
      rcases Run.bind_eq_error.1 h with h | ⟨body, t, -, h⟩
      · exact of_call (.body (hword rfl) hname) h
      · rcases Run.bind_eq_error.1 h with h | ⟨_, _, -, h⟩
        · cases h
        · rcases Run.bind_eq_error.1 h with h | ⟨_, _, -, h⟩
          · cases h
          · exact absurd h Run.pure_eq_error
  · next hpackage hversion huse hbegin hsub =>
    rcases Run.bind_eq_error.1 h with h | ⟨node, t, -, h⟩
    · refine of_call (.expression fun w hw => hother w fun heq => ?_) h
      simp only [List.mem_cons, List.not_mem_nil, or_false] at hw
      rcases hw with rfl | rfl | rfl | rfl | rfl
      · exact hpackage heq
      · exact hversion heq
      · exact huse heq
      · exact hbegin heq
      · exact hsub heq
    · exact absurd h Run.pure_eq_error

/-- What an expression reads from a word on. -/
theorem wordExpression {written : String} (hword : Lexeme.word? p.skip.unread = some written.toList)
    (h : Parse.wordExpression written fuel p.skip = .error e q) :
    Form.expression.FailsIn fuel p e q := by
  have hadvance : read (Reader.advance written.length) p.skip =
      .ok () (p.skip.move written.length) := read_advance_word hword rfl
  rw [Parse.wordExpression] at h
  dsimp only at h
  by_cases hdo : written = "do"
  · rw [if_pos hdo, Run.bind_of_ok hadvance] at h
    subst hdo
    rcases Run.bind_eq_error.1 h with h | ⟨_, _, -, h⟩
    · exact of_call (.doBlock hword) h
    · exact absurd h Run.pure_eq_error
  rw [if_neg hdo] at h
  by_cases hreserved : statementWords.contains written = true
  · rw [if_pos hreserved] at h
    rcases Run.bind_eq_error.1 h with h | ⟨_, _, h, -⟩
    · exact of_elementary (.fail (by simp)) (.skip p) h
    · exact absurd h fail_eq_ok
  rw [if_neg hreserved] at h
  cases hconstant : Literal.constant? written with
  | some value =>
    rw [hconstant] at h
    dsimp only at h
    rw [Run.bind_of_ok hadvance] at h
    exact absurd h Run.pure_eq_error
  | none =>
    rw [hconstant] at h
    dsimp only at h
    by_cases hpackage : written = packageWord
    · rw [if_pos hpackage, Run.bind_of_ok hadvance, Run.get_bind] at h
      exact absurd h Run.pure_eq_error
    rw [if_neg hpackage, Run.get_bind] at h
    cases hqualified : Name.isQualified written with
    | true =>
      rw [hqualified, if_neg (by simp), Run.bind_of_ok hadvance] at h
      exact of_call (.name hword hdo (by simp [hqualified])) h
    | false =>
      rw [hqualified, if_pos (by simp)] at h
      cases hkeyword : p.skip.namespaces.keyword? p.skip.currentPackage written with
      | none =>
        rw [hkeyword] at h
        dsimp only at h
        rw [Run.bind_of_ok hadvance] at h
        exact of_call (.name hword hdo fun _ => hkeyword) h
      | some keyword =>
        rw [hkeyword] at h
        rcases Run.bind_eq_error.1 h with h | ⟨_, s, hdispatch, h⟩
        · exact of_elementary (.dispatch hword hkeyword) (.skip p) h
        rcases Run.bind_eq_error.1 h with h | ⟨_, t, hread, h⟩
        · exact absurd h read_advance_ne_error
        · exact of_call (.keyword hword hdo hqualified hkeyword hdispatch hread) h

theorem expression (h : expressionWithin (fuel + 1) p = .error e q) :
    Form.expression.FailsIn fuel p e q := by
  rw [expressionWithin.eq_def] at h
  dsimp only at h
  rw [Run.bind_of_ok (read_peek p)] at h
  have hunread := p.unread_skip
  cases hs : significant p.unread with
  | nil =>
    rw [hs] at h
    exact of_elementary (.fail (by simp)) (.skip p) h
  | cons c rest =>
    rw [hs] at h hunread
    rw [List.head?_cons] at h
    -- the next character is taken out of the match, so that the cases do not unfold it
    generalize hnext : some c = next at h
    have hadvance : read (Reader.advance 1) p.skip = .ok () (p.skip.move 1) := read_advance_skip hs
    split at h
    · cases hnext
    · rcases Run.bind_eq_error.1 h with h | ⟨_, _, -, h⟩
      · exact of_elementary .quoted (.skip p) h
      · exact absurd h Run.pure_eq_error
    · obtain rfl := Option.some.inj hnext
      rw [Run.bind_of_ok hadvance] at h
      exact of_call (.parentheses hs) h
    · obtain rfl := Option.some.inj hnext
      rw [Run.bind_of_ok hadvance] at h
      rcases Run.bind_eq_error.1 h with h | ⟨_, _, -, h⟩
      · exact of_call (.brackets hs) h
      · exact absurd h Run.pure_eq_error
    · rw [Run.get_bind] at h
      obtain rfl := Option.some.inj hnext
      split at h
      · rcases Run.bind_eq_error.1 h with h | ⟨_, _, -, h⟩
        · exact of_elementary .number (.skip p) h
        · exact absurd h Run.pure_eq_error
      · rw [Run.bind_of_ok (read_peekWord _), Parser.skip_skip] at h
        rw [hunread, ← hs, Lexeme.significant_significant, ← p.unread_skip] at h
        cases hword : Lexeme.word? p.skip.unread with
        | none =>
          rw [hword] at h
          exact of_elementary (.fail (by simp)) (.skip p) h
        | some chars =>
          obtain ⟨written, rfl⟩ : ∃ written : String, chars = written.toList :=
            ⟨String.ofList chars, String.toList_ofList.symm⟩
          rw [hword, Option.map_some, String.ofList_toList] at h
          exact wordExpression hword h

theorem name {written : String} (h : nameWithin written (fuel + 1) p = .error e q) :
    (Form.name written).FailsIn fuel p e q := by
  rw [nameWithin.eq_def] at h
  dsimp only at h
  rw [Run.get_bind] at h
  rcases accept_bind_eq_error h with ⟨rest, hs, h⟩ | ⟨-, h⟩
  · rw [if_pos rfl] at h
    rcases Run.bind_eq_error.1 h with h | ⟨_, _, -, h⟩
    · exact of_call (.arguments hs) h
    · rw [Run.get_bind] at h
      exact absurd h Run.pure_eq_error
  · rw [if_neg (by simp)] at h
    split at h
    · rw [Run.get_bind] at h
      exact absurd h Run.pure_eq_error
    · exact absurd h Run.pure_eq_error

theorem parenthesized (h : parenthesizedWithin (fuel + 1) p = .error e q) :
    Form.parenthesized.FailsIn fuel p e q := by
  rw [parenthesizedWithin.eq_def] at h
  dsimp only at h
  rcases accept_bind_eq_error h with ⟨rest, -, h⟩ | ⟨hs, h⟩
  · rw [if_pos rfl] at h
    exact absurd h Run.pure_eq_error
  rw [if_neg (by simp)] at h
  rcases Run.bind_eq_error.1 h with h | ⟨first, r, hfirst, h⟩
  · exact of_call (.first hs) h
  rcases accept_bind_eq_error h with ⟨rest, -, h⟩ | ⟨-, h⟩
  · rw [if_pos rfl] at h
    exact absurd h Run.pure_eq_error
  rw [if_neg (by simp)] at h
  rcases Run.bind_eq_error.1 h with h | ⟨_, s, hcomma, h⟩
  · exact .inl (.parenthesized hfirst ⟨_, _, _, .skip r, .expect ',', h⟩)
  · obtain ⟨rest, hs', rfl⟩ := read_expect_eq_ok hcomma
    rw [Parser.unread_skip, Lexeme.significant_significant] at hs'
    rw [Parser.skip_skip] at h
    rcases Run.bind_eq_error.1 h with h | ⟨_, _, -, h⟩
    · exact of_call (.others hs hfirst hs') h
    · exact absurd h Run.pure_eq_error

theorem expressions {closing : Char} (h : expressionsWithin closing (fuel + 1) p = .error e q) :
    (Form.expressions closing).FailsIn fuel p e q := by
  rw [expressionsWithin.eq_def] at h
  dsimp only at h
  rcases accept_bind_eq_error h with ⟨rest, -, h⟩ | ⟨hs, h⟩
  · rw [if_pos rfl] at h
    exact absurd h Run.pure_eq_error
  rw [if_neg (by simp)] at h
  rcases Run.bind_eq_error.1 h with h | ⟨item, r, hitem, h⟩
  · exact of_call (.item hs) h
  rcases accept_bind_eq_error h with ⟨rest, hs', h⟩ | ⟨-, h⟩
  · rw [if_pos rfl] at h
    rcases Run.bind_eq_error.1 h with h | ⟨_, _, -, h⟩
    · exact of_call (.items hs hitem hs') h
    · exact absurd h Run.pure_eq_error
  · rw [if_neg (by simp)] at h
    rcases Run.bind_eq_error.1 h with h | ⟨_, _, -, h⟩
    · exact .inl (.item hitem ⟨_, _, _, .skip r, .expect closing, h⟩)
    · exact absurd h Run.pure_eq_error

theorem block (h : blockWithin (fuel + 1) p = .error e q) : Form.block.FailsIn fuel p e q := by
  rw [blockWithin.eq_def] at h
  dsimp only at h
  rcases Run.bind_eq_error.1 h with h | ⟨_, r, hbrace, h⟩
  · exact of_elementary (.expect _) (.refl p) h
  obtain ⟨rest, hs, rfl⟩ := read_expect_eq_ok hbrace
  rcases Run.bind_eq_error.1 h with h | ⟨_, r, hopen, h⟩
  · cases h
  obtain rfl := openScope_eq_ok.1 hopen
  rcases Run.bind_eq_error.1 h with h | ⟨nodes, r, hbody, h⟩
  · exact of_call (.inner hs) h
  rcases Run.bind_eq_error.1 h with h | ⟨_, s, hbrace, h⟩
  · exact .inl (.block hs hbody (.of_error (.expect _) h))
  obtain ⟨rest', hs', rfl⟩ := read_expect_eq_ok hbrace
  rcases Run.bind_eq_error.1 h with h | ⟨_, s, -, h⟩
  · exact .inl (.block hs hbody ⟨_, _, _, .pass hs', .closeScope, h⟩)
  · exact absurd h Run.pure_eq_error

end Form.FailsIn

/-- **A call that fails, fails by itself or in a call that it makes.** -/
theorem Form.fails_succ {f : Form} {fuel : Nat} {p q : Parser} {e : Error}
    (h : f.Fails (fuel + 1) p e q) : f.FailsIn fuel p e q := by
  cases f with
  | statements closing => exact FailsIn.statements h
  | statement => exact FailsIn.statement h
  | expression => exact FailsIn.expression h
  | name written => exact FailsIn.name h
  | parenthesized => exact FailsIn.parenthesized h
  | expressions closing => exact FailsIn.expressions h
  | block => exact FailsIn.block h

end BraceScript
