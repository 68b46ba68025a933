import BraceScript.Proofs.Installation

/-!
# The statements of a preamble

Each statement that an expansion injects is read as what it was written for: the trigger
registers a finalizer, `package` enters the package, `version` leaves its node, `use` installs,
and the placeholder is an empty expression.  The position afterwards is the semicolon behind the
statement.
-/

namespace BraceScript

open Lexeme (significant Insignificant IsWord EndsLexeme EndsWord)

/-! ### What the statements are -/

namespace Preamble

variable {feature : BlockFeature} {name : String} {version : Option String}
  {options : KeywordOptions} {statements : List String}

/-- What the statements for a block are, if there are any. -/
theorem generate_eq_ok : generate feature name version options = .ok statements ↔
    ∃ use uses, useFeature feature.name options = .ok use ∧ useInner options.inner = .ok uses ∧
      statements = package name ++ Preamble.version version ++ (use :: uses) ++ feature.extra ++
        options.preamble := by
  constructor
  · intro h
    obtain ⟨defaults, hdefault, h⟩ := Run.except_bind_eq_ok.1 h
    obtain rfl := Except.ok.inj h
    obtain ⟨propagated, hpropagation, h⟩ := Run.except_bind_eq_ok.1 hdefault
    obtain rfl := Except.ok.inj h
    obtain ⟨use, huse, h⟩ := Run.except_bind_eq_ok.1 hpropagation
    obtain ⟨uses, huses, h⟩ := Run.except_bind_eq_ok.1 h
    obtain rfl := Except.ok.inj h
    exact ⟨use, uses, huse, huses, rfl⟩
  · rintro ⟨use, uses, huse, huses, rfl⟩
    rw [generate, default, propagation, huse, huses]
    rfl

theorem useFeature_eq_ok {feature statement : String} :
    useFeature feature options = .ok statement ↔
      ∃ literal, Literal.write options.toValue = .ok literal ∧
        statement = "use " ++ feature ++ " " ++ String.ofList literal := by
  constructor
  · intro h
    obtain ⟨literal, hliteral, h⟩ := Run.except_bind_eq_ok.1 h
    exact ⟨literal, hliteral, (Except.ok.inj h).symm⟩
  · rintro ⟨literal, hliteral, rfl⟩
    rw [useFeature, hliteral]
    rfl

/-- There is at most one statement for the inner features. -/
theorem useInner_eq_ok {inner : List InnerFeature} (h : useInner inner = .ok statements) :
    inner = [] ∧ statements = [] ∨
      inner ≠ [] ∧ ∃ arguments, inner.mapM innerArguments = .ok arguments ∧
        statements = ["use syntax " ++ String.ofList (Literal.commaList arguments.flatten)] := by
  rw [useInner] at h
  split at h
  · next hempty => exact .inl ⟨List.isEmpty_iff.1 hempty, (Except.ok.inj h).symm⟩
  · next hne =>
    obtain ⟨arguments, harguments, h⟩ := Run.except_bind_eq_ok.1 h
    exact .inr ⟨by simpa using hne, arguments, harguments, (Except.ok.inj h).symm⟩

end Preamble

/-! ### Words and blanks -/

namespace Parser

variable {p q : Parser} {w s rest : List Char}

/-- A move over what comes first. -/
theorem unread_move_append {count : Nat} (hp : p.unread = s ++ rest) (hcount : s.length = count) :
    (p.move count).unread = rest := by
  rw [unread_move, hp, ← hcount, List.drop_left]

theorem skip_eq_move (hp : p.unread = w ++ rest) (hw : Insignificant w)
    (hrest : significant rest = rest) : p.skip = p.move w.length := by
  have hinsignificant : Lexeme.insignificant rest = 0 := by
    rw [← hrest, Lexeme.insignificant_significant]
  rw [skip, hp, hw, hinsignificant, Nat.add_zero]

/-- In front of a character that counts there is nothing to skip. -/
theorem skip_eq_self (hp : p.unread = s) (hs : significant s = s) : p.skip = p :=
  skip_eq_move (w := []) hp .nil hs

/-- A character that counts is what the parser stands before. -/
theorem at_mark {c : Char} (hp : p.unread = c :: rest) (hblank : Text.isBlank c = false)
    (hcomment : c ≠ '#') : significant p.unread = c :: rest ∧ p.skip = p := by
  have hs : significant (c :: rest) = c :: rest := Lexeme.significant_cons rest hblank hcomment
  exact ⟨hp ▸ hs, skip_eq_self hp hs⟩

end Parser

namespace Lexeme

theorem IsWord.significant_append {w : List Char} (hw : IsWord w) (rest : List Char) :
    significant (w ++ rest) = w ++ rest := by
  obtain ⟨c, tail, rfl, hc, -⟩ := hw.exists_cons
  obtain ⟨hblank, hcomment⟩ := isWordStart_not_blank hc
  exact significant_cons _ hblank hcomment

theorem significant_blank (rest : List Char) : significant (' ' :: rest) = significant rest :=
  (Insignificant.blank (by decide) : Insignificant [' ']).significant_append rest

theorem endsWord_blank (rest : List Char) : EndsWord (' ' :: rest) :=
  (EndsLexeme.cons rest (isDelimiter_of_mem (by simp))).endsWord

/-- A version is read as a number. -/
theorem isNumber_of_literal? {text v : List Char} (h : Version.literal? text = some v) :
    IsNumber v := by
  have hzeros : ∀ (n : Nat) (rest : List Char),
      numberTail (List.replicate n '_' ++ rest) = List.replicate n '_' ++ numberTail rest := by
    intro n rest
    induction n with
    | zero => rfl
    | succ n ih =>
      rw [List.replicate_succ, List.cons_append, numberTail_cons _ (by decide), ih]
      rfl
  have htail : ∀ (held : Nat) (text : List Char),
      numberTail (Version.tail held text) = Version.tail held text := by
    intro held text
    fun_induction Version.tail held text with
    | case1 => rfl
    | case2 held c rest hc ih => rw [hzeros, numberTail_digit _ hc, ih]
    | case3 held rest hc ih => exact ih
    | case4 held c hc hu hdot d rest hd ih => rw [numberTail_point _ hd, ih]
    | case5 => rfl
    | case6 => rfl
    | case7 => rfl
  cases text with
  | nil => simp [Version.literal?] at h
  | cons c rest =>
    simp only [Version.literal?] at h
    split at h
    · next hc =>
      obtain rfl := Option.some.inj h
      simp [IsNumber, number?, hc, htail]
    · cases h

end Lexeme

namespace Parse

variable {fuel : Nat} {p q : Parser}

/-- The word behind a blank. -/
theorem word?_blank {w : List Char} (hw : IsWord w) {rest : List Char} (hrest : EndsWord rest) :
    Lexeme.word? (significant (' ' :: (w ++ rest))) = some w := by
  rw [Lexeme.significant_blank, hw.significant_append, Lexeme.word?_append hw hrest]

theorem skip_blank {w rest : List Char} (hp : p.unread = ' ' :: (w ++ rest)) (hw : IsWord w) :
    p.skip = p.move 1 :=
  Parser.skip_eq_move (w := [' ']) hp (.blank (by decide)) (hw.significant_append rest)

/-- In front of a word there is nothing to skip. -/
theorem skip_of_word? {w : List Char} (hword : Lexeme.word? p.unread = some w) : p.skip = p := by
  obtain ⟨rest, hrest⟩ := Lexeme.word?_prefix hword
  exact Parser.skip_eq_self hrest.symm ((IsWord.of_word? hword).significant_append rest)

/-- A `package` statement enters the package. -/
theorem packageStatement_eq_ok (h : packageStatement p = .ok () q) :
    ∃ name : String, Lexeme.word? (significant p.unread) = some name.toList ∧
      enterPackage name { p.skip.move name.length with
        namespaces := p.namespaces.declare name } = .ok () q := by
  obtain ⟨name, r, hname, h⟩ := Run.bind_eq_ok.1 h
  obtain ⟨hword, rfl⟩ := read_word_eq_ok hname
  obtain ⟨_, r, hmodify, h⟩ := Run.bind_eq_ok.1 h
  obtain rfl := Run.modify_eq_ok.1 hmodify
  exact ⟨name, hword, h⟩

/-- A `use` statement with written options installs and does nothing else. -/
theorem useStatement_quiet {name part : List Char} {parts : List (List Char)} {rest : List Char}
    (h : useStatement p = .ok () q) (hname : IsWord name) (hpart : IsLiteral part)
    (hparts : ∀ part ∈ parts, IsLiteral part)
    (hp : p.unread =
      ' ' :: (name ++ ' ' :: (Literal.commaList (part :: parts) ++ ';' :: rest))) :
    Quiet (' ' :: (name ++ ' ' :: Literal.commaList (part :: parts))).length p q := by
  obtain ⟨name', feature, options, hword, hfeature, count, hcount, hread, hinstall⟩ :=
    useStatement_eq_ok h
  rw [hp, word?_blank hname (Lexeme.endsWord_blank _)] at hword
  obtain rfl : name = name'.toList := Option.some.inj hword
  have hskip := skip_blank hp hname
  rw [hskip, Parser.move_move, ← String.length_toList] at hcount hread hinstall
  have hunread : (p.move (1 + name'.toList.length)).unread =
      ' ' :: (Literal.commaList (part :: parts) ++ ';' :: rest) := by
    rw [Parser.unread_move, hp, Nat.add_comm, List.drop_succ_cons, List.drop_left]
  obtain ⟨vs, hvs⟩ := exists_writeItems (List.forall_mem_cons.2 ⟨hpart, hparts⟩)
  obtain ⟨found, hv, -⟩ := useArguments_append hvs rest
  rw [hunread] at hcount hread
  rw [hv] at hread
  have hcount' : count = 1 + (Literal.commaList (part :: parts)).length := by
    have hlength := congrArg List.length (EStateM.Result.ok.inj hread).2
    simp only [List.length_drop, List.length_cons, List.length_append] at hlength hcount
    omega
  rw [Parser.move_move, ← Nat.add_assoc] at hinstall
  have hquiet := (Quiet.move p (1 + name'.toList.length + count) (by
    rw [hp, hcount']
    simp only [List.length_cons, List.length_append]
    omega)).trans (installWithin_quiet hfeature hinstall)
  rwa [show 1 + name'.toList.length + count + 0 =
    (' ' :: (name'.toList ++ ' ' :: Literal.commaList (part :: parts))).length by
      simp only [hcount', List.length_cons, List.length_append]; omega] at hquiet

theorem versionStatement_eq_ok {v rest : List Char} {node : Node} (hv : Lexeme.IsNumber v)
    (h : versionStatement p = .ok node q) (hp : p.unread = ' ' :: (v ++ ';' :: rest)) :
    node = .version p.currentPackage (String.ofList v) ∧ q = p.move (1 + v.length) := by
  obtain ⟨c, tail, hcons, hc, -⟩ := hv.exists_cons
  obtain ⟨hblank, hcomment⟩ := Lexeme.isDigit_not_blank hc
  have hs : significant p.unread = v ++ ';' :: rest := by
    rw [hp, Lexeme.significant_blank, hcons]
    exact Lexeme.significant_cons _ hblank hcomment
  have hpeek : Reader.peek p.unread = .ok (some c) (v ++ ';' :: rest) := by
    rw [Reader.peek_eq, hs, hcons]
    rfl
  have hnumber : Reader.number .expectedVersion (v ++ ';' :: rest) = .ok v (';' :: rest) := by
    simp only [Reader.number, Run.get_bind,
      Lexeme.number?_append hv (endsLexeme_semicolon rest).endsNumber,
      Run.bind_of_ok (Reader.advance_eq _), List.drop_left]
    rfl
  have hliteral : versionLiteral p.unread = .ok (String.ofList v) (';' :: rest) := by
    rw [versionLiteral, Run.bind_of_ok hpeek]
    generalize hnext : some c = next
    split
    · obtain rfl := Option.some.inj hnext
      cases hc
    · rw [Run.bind_of_ok hnumber]
      rfl
  have hmove : read versionLiteral p = .ok (String.ofList v) (p.move (1 + v.length)) := by
    have hp' : p.unread = ([' '] ++ v) ++ ';' :: rest := hp
    simpa [Nat.add_comm] using read_of_ok hp' hliteral
  rw [versionStatement, Run.bind_of_ok hmove, Run.get_bind] at h
  obtain ⟨rfl, rfl⟩ := Run.pure_eq_ok.1 h
  exact ⟨rfl, rfl⟩

/-- A `begin` statement registers a finalizer. -/
theorem beginStatement_eq_ok {offset : Nat} (h : beginStatement offset p = .ok () q) :
    ∃ name hook : String, Lexeme.word? (significant p.unread) = some name.toList ∧
      (∃ rest, significant (p.skip.move name.length).unread = '.' :: rest) ∧
      Lexeme.word? (significant ((p.skip.move name.length).skip.move 1).unread) =
        some hook.toList ∧
      closeAtScopeEnd
        ((((p.skip.move name.length).skip.move 1).skip.move hook.length).note (.began offset)) =
        .ok () q := by
  rw [beginStatement, Run.bind_of_ok (read_peek p), Run.get_bind] at h
  obtain ⟨name, r, hname, h⟩ := Run.bind_eq_ok.1 h
  obtain ⟨hword, rfl⟩ := read_word_eq_ok hname
  rw [Parser.unread_skip, Lexeme.significant_significant] at hword
  rw [Parser.skip_skip] at h
  obtain ⟨_, r, hpoint, h⟩ := Run.bind_eq_ok.1 h
  obtain ⟨rest, hs, rfl⟩ := read_expect_eq_ok hpoint
  obtain ⟨hook, r, hhook, h⟩ := Run.bind_eq_ok.1 h
  obtain ⟨hhookWord, rfl⟩ := read_word_eq_ok hhook
  refine ⟨name, hook, hword, ⟨rest, hs⟩, hhookWord, ?_⟩
  rw [Run.get_bind] at h
  generalize Table.get? _ name = found at h
  split at h
  · exact absurd h failAt_eq_ok
  · exact absurd h Run.throw_eq_ok
  · exact absurd h failAt_eq_ok
  · split at h
    · obtain ⟨_, r, hnote, h⟩ := Run.bind_eq_ok.1 h
      obtain rfl := Run.modify_eq_ok.1 hnote
      exact h
    · exact absurd h failAt_eq_ok

/-! ### A list of statements -/

theorem StartsStatement.significant_append (hs : StartsStatement s) (rest : List Char) :
    significant (s ++ rest) = s ++ rest := by
  obtain ⟨c, tail, rfl, hblank, hcomment, -⟩ := hs
  exact Lexeme.significant_cons _ hblank hcomment

/-- A statement behind blanks and comments is what a parser has in front of it. -/
theorem StartsStatement.skip_eq {w : List Char} (hs : StartsStatement s) (hw : Insignificant w)
    (hp : p.unread = w ++ (s ++ rest)) :
    p.skip = p.move w.length ∧ significant p.unread = s ++ rest := by
  have hsignificant := hs.significant_append rest
  refine ⟨Parser.skip_eq_move hp hw hsignificant, ?_⟩
  rw [hp, hw.significant_append, hsignificant]

theorem closes_brace {c : Char} : closes (some "\x7d") c = true ↔ c = '\x7d' := by
  simp only [closes, beq_iff_eq, Option.some.injEq]
  constructor
  · intro h
    have hlist := congrArg String.toList h
    simpa [Char.toString, eq_comm] using hlist
  · rintro rfl
    rfl

/-- A list of statements may begin behind blanks and comments. -/
theorem statementsWithin_insignificant {w rest : List Char} (closing : Option String) (fuel : Nat)
    (hw : Insignificant w) (hp : p.unread = w ++ rest) :
    statementsWithin closing (fuel + 1) p =
      statementsWithin closing (fuel + 1) (p.move w.length) := by
  have hmove : (p.move w.length).unread = rest := Parser.unread_move_append hp rfl
  have hskip : p.skip = (p.move w.length).skip := by
    rw [Parser.skip, Parser.skip, Parser.move_move, hp, hw rest, hmove]
  rw [statementsWithin.eq_def]
  dsimp only
  rw [Run.bind_of_ok (read_peek p), Run.bind_of_ok (read_peek (p.move w.length)),
    ← Parser.unread_skip, ← Parser.unread_skip, hskip]

/-- The first statement of a block, with a semicolon behind it. -/
theorem statementsWithin_cons {w s rest : List Char} {nodes : List Node} {r : Parser}
    (hs : StartsStatement s) (hw : Insignificant w) (hp : p.unread = w ++ (s ++ ';' :: rest))
    (h : statementsWithin (some "\x7d") fuel p = .ok nodes r)
    (hread : ∀ {fuel node q}, (p.move w.length).unread = s ++ ';' :: rest →
      statementWithin fuel (p.move w.length) = .ok node q → q.unread = ';' :: rest) :
    ∃ n < fuel, ∃ node q nodes', statementWithin n (p.move w.length) = .ok node q ∧
      statementsWithin (some "\x7d") n (q.move 1) = .ok nodes' r ∧
      nodes = node.toList ++ nodes' := by
  obtain ⟨n, rfl⟩ := statementsWithin_fuel h
  obtain ⟨hskip, hfirst⟩ := hs.skip_eq hw hp
  obtain ⟨c, tail, rfl, -, -, hsemicolon, hbrace⟩ := hs
  rw [List.cons_append] at hfirst
  -- the statement begins with neither a brace nor a semicolon, so it is what is read
  rcases statementsWithin_eq_ok h with ⟨-, -, hclosed⟩ | ⟨_, hempty, -⟩ |
    ⟨node, q, nodes', hnode, rfl, hmore⟩
  · rw [hfirst, List.head?_cons, Option.all_some, closes_brace] at hclosed
    exact absurd hclosed hbrace
  · rw [hfirst] at hempty
    exact absurd (List.cons.inj hempty).1 hsemicolon
  · rw [hskip] at hnode
    have hq := hread (by rw [Parser.unread_move, hp, List.drop_left]) hnode
    have hs' := Lexeme.significant_semicolon rest
    rw [Parser.skip_eq_self hq hs', hq, hs'] at hmore
    rcases hmore with ⟨_, -, hmore⟩ | ⟨hne, -⟩
    · exact ⟨n, Nat.lt_succ_self n, node, q, nodes', hnode, hmore, rfl⟩
    · exact absurd rfl hne.1

/-- The text is a statement that is read quietly in a package, and leaves a node or none. -/
structure ReadQuietly (package : String) (s : List Char) (node : Option Node) : Prop where
  starts : StartsStatement s
  reads : ∀ {fuel : Nat} {p q : Parser} {rest : List Char} {found : Option Node},
    p.unread = s ++ ';' :: rest → p.currentPackage = package →
      statementWithin fuel p = .ok found q → found = node ∧ Quiet s.length p q

theorem MovesOver.readQuietly {s : List Char} {node : String → Option Node} (h : MovesOver s node)
    (package : String) : ReadQuietly package s (node package) := by
  refine ⟨h.starts, fun {fuel p q rest found} hp hpackage hread => ?_⟩
  obtain ⟨rfl, rfl⟩ := h.reads hp hread
  exact ⟨by rw [hpackage], .move p _ (by simp [hp])⟩

/-- Statements as they stand behind another one. -/
def spaced (statements : List (List Char)) : List Char :=
  statements.flatMap fun s => ' ' :: (s ++ [';'])

theorem length_spaced_cons {α : Type} (row : List Char × α) (rows : List (List Char × α)) :
    1 + row.1.length + 1 + (spaced (rows.map (·.1))).length =
      (spaced ((row :: rows).map (·.1))).length := by
  simp [spaced]
  omega

/-- A list of statements that are read quietly, each with its node. -/
theorem statementsWithin_spaced {package : String} {rows : List (List Char × Option Node)}
    (hrows : ∀ row ∈ rows, ReadQuietly package row.1 row.2) {rest : List Char}
    {nodes : List Node} {r : Parser} (hp : p.unread = spaced (rows.map (·.1)) ++ rest)
    (hpackage : p.currentPackage = package)
    (h : statementsWithin (some "\x7d") fuel p = .ok nodes r) :
    ∃ n ≤ fuel, ∃ q nodes', Quiet (spaced (rows.map (·.1))).length p q ∧
      statementsWithin (some "\x7d") n q = .ok nodes' r ∧
      nodes = rows.flatMap (·.2.toList) ++ nodes' := by
  induction rows generalizing fuel p nodes with
  | nil => exact ⟨fuel, Nat.le_refl _, p, nodes, .refl p, h, rfl⟩
  | cons row rows ih =>
    rw [List.forall_mem_cons] at hrows
    obtain ⟨hrow, hrows⟩ := hrows
    have hp' : p.unread = [' '] ++ (row.1 ++ ';' :: (spaced (rows.map (·.1)) ++ rest)) := by
      simpa [spaced] using hp
    have hblank : Quiet 1 p (p.move 1) := .move p 1 (by simp [hp'])
    obtain ⟨n, hn, node, q, nodes', hnode, hmore, rfl⟩ := statementsWithin_cons hrow.starts
      (.blank (by decide)) hp' h fun hunread hread =>
        (hrow.reads hunread hpackage hread).2.unread hunread
    have hunread : (p.move 1).unread = row.1 ++ ';' :: (spaced (rows.map (·.1)) ++ rest) := by
      rw [Parser.unread_move, hp']
      rfl
    obtain ⟨rfl, hquiet⟩ := hrow.reads hunread hpackage hnode
    have hq : q.unread = ';' :: (spaced (rows.map (·.1)) ++ rest) := hquiet.unread hunread
    have hstatement := (hblank.trans hquiet).trans (.move q 1 (by simp [hq]))
    -- the package is the same behind the statement, as the next one needs it
    obtain ⟨n', hn', q', nodes'', hquiet', hmore', rfl⟩ := ih hrows
      (by rw [Parser.unread_move, hq]; rfl) (hstatement.package.trans hpackage) hmore
    refine ⟨n', by omega, q', nodes'', ?_, hmore', by simp⟩
    exact length_spaced_cons row rows ▸ hstatement.trans hquiet'

/-! ### The statements that an expansion injects -/

theorem isWord_of_mem_statementWords : ∀ w ∈ statementWords, IsWord w.toList := by
  simp only [statementWords, List.forall_mem_cons]
  refine ⟨?_, ?_, ?_, ?_, ?_, ?_, by simp⟩ <;> exact Lexeme.isWord_of_plain (by decide) (by decide)

/-- The word of a statement is found where it stands, in front of a blank, and is passed. -/
theorem read_statementWord {w : String} {rest : List Char} (hw : w ∈ statementWords)
    (hp : p.unread = w.toList ++ ' ' :: rest) :
    read Reader.peekWord p = .ok (some w) p ∧
      read (Reader.advance w.length) p = .ok () (p.move w.length) := by
  have hisWord := isWord_of_mem_statementWords w hw
  have hword : Lexeme.word? p.unread = some w.toList := by
    rw [hp, Lexeme.word?_append hisWord (Lexeme.endsWord_blank rest)]
  have hskip : p.skip = p :=
    Parser.skip_eq_self hp (hisWord.significant_append (' ' :: rest))
  have hpeek := read_peekWord p
  rw [← p.unread_skip, hskip, hword, Option.map_some, String.ofList_toList] at hpeek
  exact ⟨hpeek, read_advance_word hword rfl⟩

/-! Each word of a statement is read by what follows it; the equations hold for failures too. -/

theorem statementWithin_useWord {rest : List Char} (hp : p.unread = "use".toList ++ ' ' :: rest)
    (fuel : Nat) : statementWithin (fuel + 1) p =
      (do useStatement; return none : Parse (Option Node)) (p.move 3) := by
  obtain ⟨hpeek, hadvance⟩ := read_statementWord (by simp [statementWords]) hp
  rw [statementWithin.eq_def]
  exact (Run.bind_of_ok hpeek).trans (Run.bind_of_ok hadvance)

theorem statementWithin_versionWord {rest : List Char}
    (hp : p.unread = "version".toList ++ ' ' :: rest) (fuel : Nat) :
    statementWithin (fuel + 1) p =
      (do return some (← versionStatement) : Parse (Option Node)) (p.move 7) := by
  obtain ⟨hpeek, hadvance⟩ := read_statementWord (by simp [statementWords]) hp
  rw [statementWithin.eq_def]
  exact (Run.bind_of_ok hpeek).trans (Run.bind_of_ok hadvance)

theorem statementWithin_packageWord {rest : List Char}
    (hp : p.unread = "package".toList ++ ' ' :: rest) (fuel : Nat) :
    statementWithin (fuel + 1) p =
      (do packageStatement; return none : Parse (Option Node)) (p.move 7) := by
  obtain ⟨hpeek, hadvance⟩ := read_statementWord (by simp [statementWords]) hp
  rw [statementWithin.eq_def]
  exact (Run.bind_of_ok hpeek).trans (Run.bind_of_ok hadvance)

theorem statementWithin_beginWord {rest : List Char}
    (hp : p.unread = "begin".toList ++ ' ' :: rest) (fuel : Nat) :
    statementWithin (fuel + 1) p =
      (do beginStatement p.pos; return none : Parse (Option Node)) (p.move 5) := by
  obtain ⟨hpeek, hadvance⟩ := read_statementWord (by simp [statementWords]) hp
  rw [statementWithin.eq_def]
  refine (Run.bind_of_ok hpeek).trans ?_
  change (do
    let offset := (← get).pos
    read (Reader.advance "begin".length)
    beginStatement offset
    return none : Parse (Option Node)) p = _
  rw [Run.get_bind]
  exact Run.bind_of_ok hadvance

/-- A `version` statement leaves its node. -/
theorem movesOver_version {v : List Char} (hv : Lexeme.IsNumber v) :
    MovesOver ("version ".toList ++ v)
      fun package => some (.version package (String.ofList v)) := by
  refine ⟨⟨'v', _, rfl, by decide⟩, fun {fuel p q rest found} hp h => ?_⟩
  have hp' : p.unread = "version".toList ++ ' ' :: (v ++ ';' :: rest) := by
    simpa using hp
  obtain ⟨n, rfl⟩ := statementWithin_fuel h
  rw [statementWithin_versionWord hp'] at h
  obtain ⟨node, r, hversion, hnode⟩ := Run.bind_eq_ok.1 h
  obtain ⟨rfl, rfl⟩ := Run.pure_eq_ok.1 hnode
  have hmove : (p.move 7).unread = ' ' :: (v ++ ';' :: rest) :=
    Parser.unread_move_append hp' rfl
  obtain ⟨rfl, rfl⟩ := versionStatement_eq_ok hv hversion hmove
  rw [Parser.move_move, show 7 + (1 + v.length) = ("version ".toList ++ v).length by
    rw [List.length_append, show "version ".toList.length = 8 from rfl]
    omega]
  exact ⟨rfl, rfl⟩

theorem readQuietly_use (package : String) {name part : List Char}
    {parts : List (List Char)} (hname : IsWord name) (hpart : IsLiteral part)
    (hparts : ∀ part ∈ parts, IsLiteral part) :
    ReadQuietly package
      ("use ".toList ++ (name ++ ' ' :: Literal.commaList (part :: parts))) none := by
  refine ⟨⟨'u', _, rfl, by decide⟩, fun {fuel p q rest found} hp hpackage h => ?_⟩
  have hp' : p.unread = "use".toList ++
      ' ' :: (name ++ ' ' :: (Literal.commaList (part :: parts) ++ ';' :: rest)) := by
    simpa using hp
  obtain ⟨n, rfl⟩ := statementWithin_fuel h
  rw [statementWithin_useWord hp'] at h
  obtain ⟨_, r, huse, hnode⟩ := Run.bind_eq_ok.1 h
  obtain ⟨rfl, rfl⟩ := Run.pure_eq_ok.1 hnode
  have hmove : (p.move 3).unread =
      ' ' :: (name ++ ' ' :: (Literal.commaList (part :: parts) ++ ';' :: rest)) :=
    Parser.unread_move_append hp' rfl
  have hquiet := useStatement_quiet huse hname hpart hparts hmove
  have hlength : 3 + (' ' :: (name ++ ' ' :: Literal.commaList (part :: parts))).length =
      ("use ".toList ++ (name ++ ' ' :: Literal.commaList (part :: parts))).length := by
    rw [List.length_append, List.length_cons, show "use ".toList.length = 4 from rfl]
    omega
  exact ⟨rfl, hlength ▸ (Quiet.move p 3 (by simp [hp'])).trans hquiet⟩

/-- An opening parenthesis. -/
theorem expressionWithin_parenthesis {rest : List Char} (hp : significant p.unread = '(' :: rest) :
    expressionWithin (fuel + 1) p = parenthesizedWithin fuel (p.skip.move 1) := by
  rw [expressionWithin.eq_def]
  dsimp only
  rw [Run.bind_of_ok (read_peek p), hp]
  exact Run.bind_of_ok (read_advance_skip hp)

theorem parenthesizedWithin_closed {rest : List Char} (hp : significant p.unread = ')' :: rest) :
    parenthesizedWithin (fuel + 1) p = .ok (.literal .null) (p.skip.move 1) := by
  rw [parenthesizedWithin.eq_def]
  dsimp only
  rw [Run.bind_of_ok (read_accept hp)]
  rfl

/-- The placeholder is an empty expression. -/
theorem expressionWithin_placeholder {rest : List Char} (hp : p.unread = '(' :: ')' :: rest)
    (n : Nat) : expressionWithin (n + 2) p = .ok (.literal .null) (p.move 2) := by
  have hinside : (p.move 1).unread = ')' :: rest := Parser.unread_move_append (s := ['(']) hp rfl
  obtain ⟨hopen, hskip⟩ := Parser.at_mark hp (by decide) (by decide)
  obtain ⟨hclosed, hskip'⟩ := Parser.at_mark hinside (by decide) (by decide)
  rw [expressionWithin_parenthesis hopen, hskip, parenthesizedWithin_closed hclosed, hskip',
    Parser.move_move]

theorem movesOver_placeholder :
    MovesOver Preamble.placeholder.toList fun _ => some (.literal .null) := by
  refine ⟨⟨'(', _, rfl, by decide⟩, fun {fuel p q rest found} hp h => ?_⟩
  replace hp : p.unread = '(' :: ')' :: ';' :: rest := hp
  obtain ⟨hopen, hskip⟩ := Parser.at_mark hp (by decide) (by decide)
  have hword : Lexeme.word? p.unread = none := by
    rw [hp]
    exact Lexeme.word?_eq_none _ (by decide)
  obtain ⟨n, rfl⟩ := statementWithin_fuel h
  have hread := statementWithin_eq_ok h
  rw [hskip] at hread
  cases hread with
  | expression _ h =>
    obtain ⟨n, rfl⟩ := expressionWithin_fuel h
    have hinside := h
    rw [expressionWithin_parenthesis hopen] at hinside
    obtain ⟨n, rfl⟩ := parenthesizedWithin_fuel hinside
    rw [expressionWithin_placeholder hp] at h
    obtain ⟨rfl, rfl⟩ := EStateM.Result.ok.inj h
    exact ⟨rfl, rfl⟩
  | package hother | version hother | use hother | begin hother | sub hother =>
    rw [hword] at hother
    cases hother

end Parse

end BraceScript
