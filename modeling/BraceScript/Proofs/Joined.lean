import BraceScript.Proofs.Fuel
import BraceScript.Proofs.Tandem

/-!
# Statements of a preamble, joined and one by one

The statements of a preamble are joined to one text, with the genuine source behind it.  Where a
statement that stands alone has ended, the joined text has a semicolon (`Lexeme.Extended`); so each
statement is read there as it is read alone, if it leaves nothing open.

`Parse.statements_rendered` is the main result: a rendered preamble is read as its statements are
read one by one, each as a text of its own, then comes the placeholder, and then the rest is read
from where the statements have left the parser.  A comment at the end of a statement must be
complete: otherwise it goes on over the separator and the rest (`Parse.comment_swallows_block`).
-/

namespace BraceScript

open Lexeme (significant Insignificant Outside Level Ended ReadAlike EndsLexeme outside_singleton)
open BraceScript.Parser (Apart Dispatches)

/-! ### Texts that go on with a semicolon -/

namespace Lexeme

variable {tail t t' : List Char}

/-- The second text goes on with a semicolon behind the first one, which leaves nothing open. -/
structure Extended (tail t t' : List Char) : Prop where
  eq : t' = t ++ ';' :: tail
  outside : Outside t

/-- **A text is read alike on its own and with a semicolon behind it.** -/
theorem readAlike_extended (tail : List Char) : ReadAlike (Extended tail) where
  level := by
    rintro t _ ⟨rfl, houtside⟩
    have hsemicolon := Lexeme.significant_semicolon tail
    rcases houtside.spacing_or with hspacing | ⟨v, c, rest, rfl, hv, hblank, hcomment, hrest⟩
    · have hnil : significant t = [] := by
        have happend := hspacing.insignificant.significant_append []
        rw [List.append_nil] at happend
        exact happend
      rw [hspacing.insignificant.significant_append, hsemicolon, hnil]
      exact .inr ⟨⟨rfl, rfl⟩, rfl, ';', .inl rfl, rfl⟩
    · have hsignificant (rest : List Char) : significant (c :: rest) = c :: rest :=
        significant_cons rest hblank hcomment
      rw [List.append_assoc, hv.insignificant.significant_append,
        hv.insignificant.significant_append, List.cons_append, hsignificant, hsignificant]
      exact .inl ⟨⟨rfl, hrest⟩, rfl, hsignificant _, hsignificant _⟩
  cons := by
    rintro c t t' ⟨heq, houtside⟩ _ hcomment hquote
    exact ⟨(List.cons.inj heq).2, (outside_singleton hcomment hquote).append_iff.1 houtside⟩
  lexeme := by
    rintro lexeme? hlexer t _ ⟨rfl, houtside⟩
    have hends : EndsLexeme (';' :: tail) := .cons tail (Lexeme.isDelimiter_of_mem (by simp))
    refine ⟨hlexer.append hends, fun v hv => ?_⟩
    obtain ⟨rest, rfl⟩ := hlexer.taken hv
    have hplain := outside_of_isDelimiter (hlexer.plain hv)
    exact ⟨rest, rest ++ ';' :: tail, ⟨rfl, hplain.append_iff.1 houtside⟩, rfl,
      List.append_assoc _ _ _⟩
  quoted := by
    rintro t t' chars read ⟨heq, houtside⟩ hread
    obtain ⟨-, rfl⟩ := List.cons.inj heq
    obtain ⟨chars', read', hquoted, hle, hrest⟩ := quoted_append (a := t) houtside
    have hread' := hquoted []
    rw [List.append_nil, hread] at hread'
    obtain ⟨rfl, rfl⟩ := Prod.mk.inj (Except.ok.inj hread')
    exact ⟨hquoted _, List.drop_append_of_le_length hle, hrest⟩
  arrow := by
    rintro t _ ⟨⟨rfl, houtside⟩, -⟩
    match t, houtside with
    | [], _ => exact ⟨rfl, nofun⟩
    | [c], _ => exact ⟨by simp [List.isPrefixOf], by simp [List.isPrefixOf]⟩
    | c :: d :: t, houtside =>
      refine ⟨by simp [List.isPrefixOf], fun h => ?_⟩
      obtain ⟨rfl, rfl⟩ : '=' = c ∧ '>' = d := by simpa [List.isPrefixOf] using h
      have harrow : Outside ['=', '>'] := by decide
      exact ⟨t, t ++ ';' :: tail, ⟨rfl, harrow.append_iff.1 houtside⟩, rfl, rfl⟩
  digit := by
    rintro t _ ⟨⟨rfl, -⟩, hhead, -⟩
    match t with
    | [] => cases hhead
    | [c] => simp [show Text.isAnyDigit ';' = false by decide]
    | c :: d :: t => rfl

end Lexeme

open Lexeme (Extended readAlike_extended)

namespace Parse

/-- No declaration is expanded. -/
theorem tandem_extended (tail : List Char) :
    Tandem (fun _ => False) (fun _ => True) (Extended tail) where
  toReadAlike := readAlike_extended tail
  word _ _ := trivial
  close := by
    rintro t _ ⟨rfl, houtside⟩
    have hparen : Outside [')'] := by decide
    exact ⟨rfl, hparen.append houtside⟩
  dispatch A d keyword written p p' := by
    cases keyword with
    | idle => exact .pure fun _ _ h => h.1
    | expand feature options =>
      have hfails {s s' : Parser}
          (h : dispatch (.expand feature options) p.pos written s = .ok () s')
          (hgood : Dispatches (fun _ => False) s') : False := by
        rw [dispatch, Run.get_bind] at h
        obtain ⟨⟨declaration, count⟩, r, -, h⟩ := Run.bind_eq_ok.1 h
        obtain rfl := Run.modify_eq_ok.1 h
        exact hgood _ List.mem_cons_self
      exact ⟨fun h hgood => (hfails h hgood).elim, fun _ h hgood => (hfails h hgood).elim⟩

/-! ### A list of statements, step by step -/

variable {p q r : Parser} {closing : Option String} {fuel n : Nat} {c : Char}
  {rest : List Char} {nodes : List Node} {node : Option Node}

/-- The list goes on behind a semicolon. -/
theorem statementsWithin_semicolon (hp : significant p.unread = ';' :: rest)
    (hc : closes closing ';' = false) :
    statementsWithin closing (fuel + 1) p = statementsWithin closing fuel (p.skip.move 1) := by
  rw [statementsWithin.eq_def]
  dsimp only
  rw [Run.bind_of_ok (read_peek p), hp]
  dsimp only [List.head?_cons]
  rw [if_neg (by rw [hc]; decide), if_pos rfl, Run.bind_of_ok (read_advance_skip hp)]

/-- The list goes on behind a statement and its semicolon. -/
theorem statementsWithin_statement (hp : significant p.unread = c :: rest)
    (hc : closes closing c = false) (hne : c ≠ ';')
    (hnode : statementWithin fuel p.skip = .ok node q) {rest' : List Char}
    (hq : significant q.unread = ';' :: rest') :
    statementsWithin closing (fuel + 1) p =
      (do return node.toList ++ (← statementsWithin closing fuel) : Parse (List Node))
        (q.skip.move 1) := by
  rw [statementsWithin.eq_def]
  dsimp only
  rw [Run.bind_of_ok (read_peek p), hp]
  dsimp only [List.head?_cons]
  rw [if_neg (by rw [hc]; decide), if_neg hne, Run.bind_of_ok hnode,
    Run.bind_of_ok (read_peek q), hq]
  dsimp only [List.head?_cons]
  rw [if_pos rfl, Run.bind_of_ok (read_advance_skip hq)]

/-- What comes next ends a list of statements: what closes it, or the end of the text. -/
def EndsList (closing : Option String) (p : Parser) : Prop :=
  match (significant p.unread).head? with
  | none => closing = none
  | some c => closes closing c = true

theorem EndsList.none (hp : significant p.unread = []) : EndsList none p := by
  rw [EndsList, hp]
  rfl

theorem EndsList.brace (hp : significant p.unread = '\x7d' :: rest) :
    EndsList (some "\x7d") p := by
  rw [EndsList, hp]
  exact closes_brace.2 rfl

theorem statementsWithin_end (hp : EndsList closing p) (fuel : Nat) :
    statementsWithin closing (fuel + 1) p = .ok [] p.skip := by
  rw [EndsList] at hp
  rw [statementsWithin.eq_def]
  dsimp only
  rw [Run.bind_of_ok (read_peek p)]
  -- the next character is taken out of the match, so that the cases do not unfold it
  generalize (significant p.unread).head? = next at hp
  cases next with
  | none =>
    obtain rfl := hp
    rfl
  | some c =>
    dsimp only at hp ⊢
    rw [if_pos hp]
    rfl

/-- The list ends behind a statement. -/
theorem statementsWithin_last (hp : significant p.unread = c :: rest)
    (hc : closes closing c = false) (hne : c ≠ ';')
    (hnode : statementWithin (fuel + 1) p.skip = .ok node q) (hq : EndsList closing q)
    (hsemicolon : (significant q.unread).head? ≠ some ';') :
    statementsWithin closing (fuel + 2) p = .ok node.toList q.skip := by
  have hend : statementsWithin closing (fuel + 1) q.skip = .ok [] q.skip := by
    rw [statementsWithin_end (by rwa [EndsList, Parser.unread_skip,
      Lexeme.significant_significant]), q.skip_skip]
  rw [EndsList] at hq
  rw [statementsWithin.eq_def]
  dsimp only
  rw [Run.bind_of_ok (read_peek p), hp]
  dsimp only [List.head?_cons]
  rw [if_neg (by rw [hc]; decide), if_neg hne, Run.bind_of_ok hnode, Run.bind_of_ok (read_peek q)]
  generalize (significant q.unread).head? = next at hq hsemicolon
  cases next with
  | none =>
    dsimp only
    rw [Run.bind_of_ok hend, List.append_nil]
    rfl
  | some d =>
    dsimp only
    rw [if_neg fun h => hsemicolon (congrArg some h), if_neg (by rw [hq]; decide),
      Run.bind_of_ok hend, List.append_nil]
    rfl

/-- No statement begins with what parts statements or closes a block. -/
theorem statementWithin_delimiter
    (hp : (significant p.unread).head?.all (fun c => c == ';' || c == '\x7d') = true) :
    statementWithin n p ≠ .ok node q := by
  intro h
  have hdelimiter {c : Char} (hc : (significant p.unread).head? = some c) :
      c = ';' ∨ c = '\x7d' := by
    simpa [hc] using hp
  have hword : Lexeme.word? (significant p.unread) = none := by
    cases hs : significant p.unread with
    | nil => rfl
    | cons c rest =>
      refine Lexeme.word?_eq_none rest ?_
      rcases hdelimiter (congrArg List.head? hs) with rfl | rfl <;> decide
  cases n with
  | zero => exact Run.throw_eq_ok h
  | succ n =>
    rw [statementWithin.eq_def] at h
    dsimp only at h
    rw [Run.bind_of_ok (read_peekWord p), hword] at h
    obtain ⟨node, r, h, -⟩ := Run.bind_eq_ok.1 h
    cases n with
    | zero => exact Run.throw_eq_ok h
    | succ n =>
      rw [expressionWithin.eq_def] at h
      dsimp only at h
      rw [Run.bind_of_ok (read_peek p.skip), Parser.unread_skip,
        Lexeme.significant_significant] at h
      -- the next character is taken out of the match, so that the cases do not unfold it
      generalize hnext : (significant p.unread).head? = next at h
      split at h
      · exact fail_eq_ok h
      · rcases hdelimiter hnext with hc | hc <;> cases hc
      · rcases hdelimiter hnext with hc | hc <;> cases hc
      · rcases hdelimiter hnext with hc | hc <;> cases hc
      · next c _ _ _ =>
        have hdigit : (Text.isAnyDigit c || c == '-' && ((p.skip.skip.unread.drop 1).head?.any
            Text.isAnyDigit)) = false := by
          rcases hdelimiter hnext with rfl | rfl
          · simp [show Text.isAnyDigit ';' = false by decide]
          · simp [show Text.isAnyDigit '\x7d' = false by decide]
        rw [Run.get_bind, hdigit, if_neg (by decide), Run.bind_of_ok (read_peekWord _),
          Parser.skip_skip, Parser.unread_skip, Lexeme.significant_significant, hword] at h
        exact fail_eq_ok h

/-! ### A text of its own, and the same text with more behind it -/

variable {tail : List Char} {p' : Parser}

theorem extended_skip (h : Apart (fun _ => True) (Extended tail) p p') :
    Apart (fun _ => True) (Extended tail) p.skip p'.skip :=
  h.skip (readAlike_extended tail).significant

theorem extended_significant (h : Apart (fun _ => True) (Extended tail) p p') {t : List Char}
    (hs : significant p.unread = t) : significant p'.unread = t ++ ';' :: tail :=
  hs ▸ ((readAlike_extended tail).significant h.text).eq

/-- Both go on behind a semicolon of the first text. -/
theorem extended_semicolon (h : Apart (fun _ => True) (Extended tail) p p')
    (hs : significant p.unread = ';' :: rest) :
    Apart (fun _ => True) (Extended tail) (p.skip.move 1) (p'.skip.move 1) := by
  have hunread : p.skip.unread = ';' :: rest := p.unread_skip.trans hs
  have hunread' : p'.skip.unread = ';' :: (rest ++ ';' :: tail) :=
    p'.unread_skip.trans (extended_significant h hs)
  refine (extended_skip h).move (by simp [hunread]) (by simp [hunread']) ?_
  rw [hunread, hunread']
  have hsemicolon : Outside [';'] := by decide
  have houtside := (extended_skip h).text.outside
  rw [hunread] at houtside
  exact ⟨rfl, hsemicolon.append_iff.1 houtside⟩

/-- Where the first text has ended, the second one goes on behind its semicolon. -/
theorem extended_end (h : Apart (fun _ => True) (Extended tail) p p')
    (hs : significant p.unread = []) :
    Apart (fun _ => True) (fun _ t' => t' = tail) p.skip (p'.skip.move 1) := by
  have hunread : p'.skip.unread = ';' :: tail :=
    p'.unread_skip.trans (extended_significant h hs)
  exact (extended_skip h).move (k := 0) (Nat.zero_le _) (by simp [hunread]) (by rw [hunread]; rfl)

/-- Nothing closes statements that go up to the end of the text. -/
theorem ends_of_closes_none {text : List Char} (h : text.head?.all (closes none) = true) :
    text = [] := by
  cases text with
  | nil => rfl
  | cons c text => cases h

theorem exists_of_statementWithin (h : statementWithin n p = .ok node q) :
    ∃ c rest, significant p.unread = c :: rest ∧ c ≠ ';' ∧ c ≠ '\x7d' := by
  by_contra hnone
  refine statementWithin_delimiter ?_ h
  cases hs : significant p.unread with
  | nil => rfl
  | cons c rest =>
    by_contra hc
    exact hnone ⟨c, rest, hs, by simpa [not_or] using hc⟩

theorem statementsWithin_ended_eq_ok (hp : significant p.unread = [])
    (h : statementsWithin none n p.skip = .ok nodes q) : nodes = [] ∧ q = p.skip := by
  have hs : significant p.skip.unread = [] := by
    rw [Parser.unread_skip, Lexeme.significant_significant, hp]
  cases n with
  | zero => exact absurd h Run.throw_eq_ok
  | succ n =>
    rcases statementsWithin_eq_ok h with ⟨rfl, rfl, -⟩ | ⟨rest, hsemicolon, -⟩ |
      ⟨node, r, nodes', hnode, -⟩
    · exact ⟨rfl, p.skip_skip⟩
    · cases hs.symm.trans hsemicolon
    · obtain ⟨c, rest, hc, -⟩ := exists_of_statementWithin hnode
      rw [Parser.unread_skip, Lexeme.significant_significant, hs] at hc
      cases hc

/-- **Statements that stand alone are read alike in front of a semicolon**; then the list goes on
behind it. -/
theorem statementsWithin_extended
    (happart : Apart (fun _ => True) (Extended tail) p p')
    (h : statementsWithin none n p = .ok nodes q) (hgood : q.Dispatches fun _ => False) :
    ∃ steps q', Apart (fun _ => True) (fun _ t' => t' = tail) q q' ∧ ∀ fuel ≥ n,
      statementsWithin (some "\x7d") (fuel + steps) p' =
        (do return nodes ++ (← statementsWithin (some "\x7d") fuel) : Parse (List Node)) q' := by
  induction n generalizing p p' nodes with
  | zero => exact absurd h Run.throw_eq_ok
  | succ n ih =>
    rcases statementsWithin_eq_ok h with ⟨rfl, rfl, hclosed⟩ | ⟨rest, hs, h⟩ |
      ⟨node, r, nodes', hnode, rfl, hmore⟩
    · have hs : significant p.unread = [] := ends_of_closes_none hclosed
      refine ⟨1, _, extended_end happart hs, fun fuel _ => ?_⟩
      rw [statementsWithin_semicolon (extended_significant happart hs) rfl]
      simp
    · obtain ⟨steps, q', hq, hrun⟩ := ih (extended_semicolon happart hs) h
      refine ⟨steps + 1, q', hq, fun fuel hfuel => ?_⟩
      rw [← Nat.add_assoc, statementsWithin_semicolon (extended_significant happart hs) rfl]
      exact hrun fuel (Nat.le_of_succ_le hfuel)
    · -- both read the statement
      have hr : r.Dispatches fun _ => False := by
        rcases hmore with ⟨rest', -, hmore⟩ | ⟨-, hmore⟩
        · exact hgood.of_suffix ((allRuns n).statements hmore).journal_suffix
        · exact hgood.of_suffix ((allRuns n).statements hmore).journal_suffix
      obtain ⟨r', hnode', hrr⟩ := (allFollow (tandem_extended tail) .same n).statement.follows
        (extended_skip happart) hnode hr
      have hmoreFuel {fuel : Nat} (hfuel : n ≤ fuel) :
          statementWithin fuel p'.skip = .ok node r' := (allMore hfuel).statement.eq_ok hnode'
      obtain ⟨c, rest, hs, hsemicolon, hbrace⟩ := exists_of_statementWithin hnode
      rw [Parser.unread_skip, Lexeme.significant_significant] at hs
      have hs' := extended_significant happart hs
      have hc : closes (some "\x7d") c = false := Bool.eq_false_iff.2 (mt closes_brace.1 hbrace)
      rcases hmore with ⟨rest', hsr, hmore⟩ | ⟨⟨-, hclosed⟩, hmore⟩
      · -- its semicolon stands in both texts
        obtain ⟨steps, q', hq, hrun⟩ := ih (extended_semicolon hrr hsr) hmore
        refine ⟨steps + 1, q', hq, fun fuel hfuel => ?_⟩
        have hfuel := Nat.le_of_succ_le hfuel
        rw [← Nat.add_assoc, statementsWithin_statement hs' hc hsemicolon
          (hmoreFuel (hfuel.trans (Nat.le_add_right _ _))) (extended_significant hrr hsr),
          Run.bind_congr_left (hrun fuel hfuel)]
        simp
      · -- the first text ends
        have hsr : significant r.unread = [] := ends_of_closes_none hclosed
        obtain ⟨rfl, rfl⟩ := statementsWithin_ended_eq_ok hsr hmore
        refine ⟨1, _, extended_end hrr hsr, fun fuel hfuel => ?_⟩
        rw [statementsWithin_statement hs' hc hsemicolon (hmoreFuel (Nat.le_of_succ_le hfuel))
          (extended_significant hrr hsr), List.append_nil]

end Parse

/-! ### Preambles -/

/-- A parser at the start of a text of its own, which has done nothing yet. -/
def Parser.alone (p : Parser) (text : String) : Parser :=
  { p with buffer := ⟨text.toList, p.buffer.file⟩, pos := 0, journal := [] }

/-- The parsers differ at most in their texts and in what they have done so far. -/
structure Parser.SameState (p p' : Parser) : Prop where
  namespaces : p'.namespaces = p.namespaces
  features : p'.features = p.features
  scopes : p'.scopes = p.scopes
  root : p'.root = p.root
  finalizers : p'.finalizers = p.finalizers

theorem Parser.SameState.trans {p q r : Parser} (h : p.SameState q) (h' : q.SameState r) :
    p.SameState r where
  namespaces := h'.namespaces.trans h.namespaces
  features := h'.features.trans h.features
  scopes := h'.scopes.trans h.scopes
  root := h'.root.trans h.root
  finalizers := h'.finalizers.trans h.finalizers

namespace Parse

variable {p p' q r : Parser} {rest : List Char} {nodes : List Node} {statements : List String}

/-- Statements are read one by one, each as a text of its own and up to its end, from the state in
which the one before it has left the parser.  None of them expands a declaration. -/
inductive ReadAlone : List String → Parser → List Node → Parser → Prop
  | nil (p : Parser) : ReadAlone [] p [] p
  | cons {s : String} {statements : List String} {p q r : Parser} {nodes more : List Node}
      {fuel : Nat} (hread : statementsWithin none fuel (p.alone s) = .ok nodes q)
      (hquiet : q.Dispatches fun _ => False) (hrest : ReadAlone statements q more r) :
      ReadAlone (s :: statements) p (nodes ++ more) r

/-- The placeholder is read in front of its semicolon. -/
theorem statementWithin_placeholder (hp : p.unread = '(' :: ')' :: ';' :: rest) (n : Nat) :
    statementWithin (n + 3) p = .ok (some (.literal .null)) (p.move 2) := by
  obtain ⟨hopen, hskip⟩ := Parser.at_mark hp (by decide) (by decide)
  have hword : Lexeme.word? (significant p.unread) = none := by
    rw [hopen]
    exact Lexeme.word?_eq_none _ (by decide)
  rw [statementWithin.eq_def]
  dsimp only
  rw [Run.bind_of_ok (read_peekWord p), hword, hskip]
  dsimp only [Option.map_none]
  rw [Run.bind_of_ok (expressionWithin_placeholder hp n)]
  rfl

/-- The placeholder and its semicolon. -/
theorem statementsWithin_placeholder (hp : significant p.unread = '(' :: ')' :: ';' :: rest) :
    ∃ q : Parser, p.SameState q ∧ q.unread = rest ∧ ∀ fuel ≥ 3,
      statementsWithin (some "\x7d") (fuel + 1) p =
        (do return .literal .null :: (← statementsWithin (some "\x7d") fuel) : Parse (List Node))
          q := by
  have hunread : p.skip.unread = ['(', ')'] ++ ';' :: rest := p.unread_skip.trans hp
  have hbehind : (p.skip.move 2).unread = ';' :: rest := Parser.unread_move_append hunread rfl
  have hsemicolon := (Parser.at_mark hbehind (by decide) (by decide)).1
  refine ⟨(p.skip.move 2).skip.move 1, ⟨rfl, rfl, rfl, rfl, rfl⟩, ?_, fun fuel hfuel => ?_⟩
  · rw [Parser.unread_move, Parser.unread_skip, hsemicolon]
    rfl
  · obtain ⟨n, rfl⟩ := Nat.exists_eq_add_of_le' hfuel
    rw [statementsWithin_statement hp (by decide) (by decide)
      (statementWithin_placeholder hunread n) hsemicolon]
    rfl

theorem statementsWithin_render (h : ReadAlone statements p nodes r)
    (houtside : ∀ s ∈ statements, Outside s.toList) {w : List Char} (hw : Insignificant w)
    (hsame : p.SameState p') (hplain : ∀ f ∈ p.finalizers, f.Plain)
    (hp : p'.unread = w ++ ((Preamble.render statements).toList ++ rest)) :
    ∃ steps least q, r.SameState q ∧ q.unread = rest ∧ ∀ fuel ≥ least,
      statementsWithin (some "\x7d") (fuel + steps) p' =
        (do return nodes ++ .literal .null :: (← statementsWithin (some "\x7d") fuel) :
          Parse (List Node)) q := by
  induction h generalizing w p' with
  | nil p =>
    have hplaceholder : significant p'.unread = '(' :: ')' :: ';' :: rest := by
      rw [hp, hw.significant_append]
      exact Lexeme.significant_cons _ (by decide) (by decide)
    obtain ⟨q, hq, hrest, hrun⟩ := statementsWithin_placeholder hplaceholder
    exact ⟨1, 3, q, hsame.trans hq, hrest, hrun⟩
  | @cons s statements p q r nodes more fuel hread hquiet _ ih =>
    rw [List.forall_mem_cons] at houtside
    obtain ⟨hs, houtside⟩ := houtside
    rw [Preamble.render_cons, List.append_assoc] at hp
    have hunread : (p'.move w.length).unread =
        s.toList ++ ';' :: ' ' :: ((Preamble.render statements).toList ++ rest) :=
      Parser.unread_move_append hp rfl
    have hlength : (p'.move w.length).pos < (p'.move w.length).buffer.text.length := by
      by_contra hle
      rw [Parser.unread, List.drop_eq_nil_of_le (Nat.le_of_not_lt hle)] at hunread
      simp at hunread
    have happart : Apart (fun _ => True)
        (Extended (' ' :: ((Preamble.render statements).toList ++ rest))) (p.alone s)
        (p'.move w.length) :=
      { hsame with
        text := ⟨hunread, hs⟩
        inside := Nat.zero_le _
        inside' := hlength.le
        plain := hplain
        packages := fun _ _ => trivial
        named := trivial }
    obtain ⟨steps, q', hq, hrun⟩ := statementsWithin_extended happart hread hquiet
    obtain ⟨steps', least, r', hr, hrest, hrun'⟩ := ih houtside (w := [' ']) (.blank (by decide))
      { hq with } hq.plain hq.text
    refine ⟨steps' + steps, max (fuel + 1) least, r', hr, hrest, fun n hn => ?_⟩
    obtain ⟨hfuel, hleast⟩ := max_le_iff.1 hn
    have hbehind : statementsWithin (some "\x7d") (n + (steps' + steps)) p' =
        statementsWithin (some "\x7d") (n + (steps' + steps)) (p'.move w.length) := by
      obtain ⟨m, hm⟩ := Nat.exists_eq_add_of_le' (show 1 ≤ n + (steps' + steps) by omega)
      rw [hm]
      exact statementsWithin_insignificant _ m hw hp
    rw [hbehind, ← Nat.add_assoc, hrun (n + steps') (by omega),
      Run.bind_congr_left (hrun' n hleast)]
    simp

/-- **Statements of a preamble stay inside the preamble**, if each leaves no comment open.  They are
read as they are one by one, the placeholder stands behind their nodes, and the rest is read from
the state in which they have left the parser: with so much more fuel, and in success as in failure.
So does `statements`, where its own fuel suffices. -/
theorem statements_rendered (h : ReadAlone statements p nodes r)
    (houtside : ∀ s ∈ statements, Outside s.toList) (hplain : ∀ f ∈ p.finalizers, f.Plain)
    (hp : p.unread = (Preamble.render statements).toList ++ rest) :
    ∃ q, r.SameState q ∧ q.unread = rest ∧
      (∃ steps least, ∀ fuel ≥ least, statementsWithin (some "\x7d") (fuel + steps) p =
        (do return nodes ++ .literal .null :: (← statementsWithin (some "\x7d") fuel) :
          Parse (List Node)) q) ∧
      ((∀ t, Parse.statements (some "\x7d") p ≠ .error .exhausted t) →
        (∀ t, Parse.statements (some "\x7d") q ≠ .error .exhausted t) →
        Parse.statements (some "\x7d") p =
          (do return nodes ++ .literal .null :: (← Parse.statements (some "\x7d")) :
            Parse (List Node)) q) := by
  obtain ⟨steps, least, q, hq, hrest, hrun⟩ := statementsWithin_render h houtside .nil
    ⟨rfl, rfl, rfl, rfl, rfl⟩ hplain (hp.trans (List.nil_append _).symm)
  refine ⟨q, hq, hrest, ⟨steps, least, hrun⟩, fun hends hends' => ?_⟩
  have hfuel {u : Parser} (hu : ∀ t, Parse.statements (some "\x7d") u ≠ .error .exhausted t)
      {n : Nat} (hn : fuelFor u ≤ n) :
      statementsWithin (some "\x7d") n u = Parse.statements (some "\x7d") u := by
    rcases (allMore hn).statements (some "\x7d") u with heq | ⟨t, hcut⟩
    · exact heq
    · exact absurd hcut (hu t)
  have hboth := hrun (max least (max (fuelFor p) (fuelFor q))) (le_max_left _ _)
  rw [hfuel hends (by omega), Run.bind_congr_left (hfuel hends' (by omega))] at hboth
  exact hboth

/-- A parser at the start of a text. -/
def reading (text : String) : Parser :=
  .start { text := text.toList } Namespaces.initial Registry.standard Namespaces.startPackage

/-- A version and a number in front of a block body. -/
theorem statements_rendered_version :
    let p := reading (Preamble.render ["version 2", "1;"] ++ " 3 \x7d")
    ∃ nodes r q, nodes.length = 2 ∧ ReadAlone ["version 2", "1;"] p nodes r ∧
      q.unread = " 3 \x7d".toList ∧
      ∃ steps least, ∀ fuel ≥ least, statementsWithin (some "\x7d") (fuel + steps) p =
        (do return nodes ++ .literal .null :: (← statementsWithin (some "\x7d") fuel) :
          Parse (List Node)) q := by
  intro p
  have hread : Run.passes (fun first q => q.journal.isEmpty && Run.passes (fun second r =>
      r.journal.isEmpty && first.length + second.length == 2)
      (statementsWithin none 9 (q.alone "1;")))
      (statementsWithin none 9 (p.alone "version 2")) = true := by decide +kernel
  obtain ⟨first, q, hfirst, hread⟩ := Run.passes_iff.1 hread
  obtain ⟨hq, hread⟩ := (Bool.and_eq_true _ _).mp hread
  obtain ⟨second, r, hsecond, hread⟩ := Run.passes_iff.1 hread
  obtain ⟨hr, hlength⟩ := (Bool.and_eq_true _ _).mp hread
  have halone : ReadAlone ["version 2", "1;"] p (first ++ (second ++ [])) r :=
    .cons hfirst (.of_isEmpty hq) (.cons hsecond (.of_isEmpty hr) (.nil r))
  have hp : p.unread = (Preamble.render ["version 2", "1;"]).toList ++ " 3 \x7d".toList := by
    decide +kernel
  obtain ⟨t, -, hrest, hrun, -⟩ :=
    statements_rendered halone (by decide) (List.forall_mem_nil _) hp
  refine ⟨_, r, t, ?_, halone, hrest, hrun⟩
  rw [List.length_append, List.append_nil]
  exact beq_iff_eq.1 hlength

/-- A comment at the end of a statement goes on over the separator, the placeholder and the body of
the block.  The statement and the body are complete, each on its own. -/
theorem comment_swallows_block :
    let p := reading (Preamble.render ["1 # one"] ++ " 2 \x7d")
    (∃ nodes r, ReadAlone ["1 # one"] p nodes r ∧
      Run.passes (fun _ _ => true) (Parse.statements (some "\x7d") (r.alone " 2 \x7d")) = true) ∧
    Run.passes (fun _ _ => true) (Parse.statements (some "\x7d") p) = false := by
  intro p
  have hread : Run.passes (fun _ r => r.journal.isEmpty && Run.passes (fun _ _ => true)
      (Parse.statements (some "\x7d") (r.alone " 2 \x7d")))
      (statementsWithin none 9 (p.alone "1 # one")) = true := by decide +kernel
  obtain ⟨nodes, r, hfirst, hread⟩ := Run.passes_iff.1 hread
  obtain ⟨hr, hblock⟩ := (Bool.and_eq_true _ _).mp hread
  exact ⟨⟨nodes ++ [], r, .cons hfirst (.of_isEmpty hr) (.nil r), hblock⟩, by decide +kernel⟩

end Parse

end BraceScript
