import BraceScript.Proofs.Failures
import BraceScript.Proofs.Prelude

/-!
# Expansion terminates

Reading takes fuel, since an expanded text is longer than the text was and may hold keywords again.
`Form.Fails.settles` shows that fuel in proportion to what is left to be read (`Parser.weight`) is
always enough, if declarations inject the default statements only.  The injected statements are
read with a fixed amount of fuel, and either one of them fails for a reason or the body of the
block is reached (`Form.Fails.opening`); it weighs less than the declaration did.

So a script is always read to its end or to an error that gives its reason, and expands no more
declarations than braces are opened in its text (`script_terminates`).
-/

namespace BraceScript

open Lexeme (significant Insignificant IsWord)
open Parse

variable {n : Nat} {e : Error} {p q r : Parser} {w s rest body : List Char} {site : Site}

/-! ### Failures in the call that a declaration has become -/

namespace Form.Fails

/-- A name in front of an opening parenthesis. -/
theorem name_call {written : String} (hw : Insignificant w) (hp : p.unread = w ++ '(' :: rest)
    (h : (Form.name written).Fails (n + 1) p e q) :
    Stops p e q ∨ (Form.expressions ')').Fails n (p.move (w.length + 1)) e q := by
  have hopen : significant ('(' :: rest) = '(' :: rest :=
    Lexeme.significant_cons rest (by decide) (by decide)
  rcases Form.fails_succ h with hhalts | ⟨g, s, hcall, h⟩
  · cases hhalts with
    | first h => exact .inl h
  · cases hcall with
    | arguments _ =>
      rw [Parser.skip_eq_move hp hw hopen, Parser.move_move] at h
      exact .inr h

/-- The word `do` in front of a block. -/
theorem expression_do (hp : significant p.unread = "do".toList ++ ' ' :: rest)
    (h : Form.expression.Fails (n + 1) p e q) :
    Stops p e q ∨ Form.block.Fails n (p.skip.move 2) e q := by
  have hunread : p.skip.unread = 'd' :: 'o' :: ' ' :: rest := p.unread_skip.trans hp
  have hword : Lexeme.word? p.skip.unread = some "do".toList := by
    rw [p.unread_skip, hp, word?_do]
  have hdo {v : String} (hv : Lexeme.word? p.skip.unread = some v.toList) : v = "do" :=
    String.toList_inj.1 (Option.some.inj (hv.symm.trans hword))
  rcases Form.fails_succ h with hhalts | ⟨g, s, hcall, h⟩
  · cases hhalts with
    | first h => exact .inl h
  · cases hcall with
    | parentheses hopen | brackets hopen =>
      rw [← p.unread_skip, hunread] at hopen
      cases hopen
    | doBlock _ => exact .inr h
    | name hv hne | keyword hv hne => exact absurd (hdo hv) hne

/-- The arguments of the call, if its block ends in front of a parenthesis. -/
theorem expressions_call {name : String} (hp : p.AtArguments name rest)
    (hclosed : ∀ {fuel block t}, blockWithin fuel (p.move ((Literal.quote name).length + 4)) =
      .ok block t → ∃ behind, t.unread = ')' :: behind)
    (h : (Form.expressions ')').Fails (n + 3) p e q) :
    Stops p e q ∨ Form.block.Fails n (p.move ((Literal.quote name).length + 4)) e q ∨
      ∃ block t, blockWithin n (p.move ((Literal.quote name).length + 4)) = .ok block t ∧
        Stops t e q := by
  have hmove {count : Nat} (hcount : count ≤ (Literal.quote name).length + 4) :
      IsMove p (p.move count) := by
    refine ⟨count, ?_, rfl⟩
    rw [show p.unread = _ from hp]
    simp only [List.length_append, show ", do ".toList.length = 5 from rfl]
    omega
  have hstop {t : Parser} (ht : Stops t e q) (h : IsMove p t) : Stops p e q := .of_move h ht
  rcases Form.fails_succ h with hhalts | ⟨g, t, hcall, h⟩
  · cases hhalts with
    | first h => exact .inl h
    | item hitem h =>
      rw [hp.skip, hp.reads_name] at hitem
      obtain ⟨-, rfl⟩ := EStateM.Result.ok.inj hitem
      exact .inl (hstop h (hmove (by omega)))
  cases hcall with
  | item _ =>
    -- the name has been read
    have hnone : expressionWithin (n + 2) p.skip = .error e q := h
    rw [hp.skip, hp.reads_name] at hnone
    cases hnone
  | items _ hitem _ =>
    rw [hp.skip, hp.reads_name] at hitem
    obtain ⟨-, rfl⟩ := EStateM.Result.ok.inj hitem
    rw [hp.skip_comma] at h
    rcases Form.fails_succ h with hhalts | ⟨g, t, hcall, h⟩
    · cases hhalts with
      | first h => exact .inl (hstop h (hmove (by omega)))
      | item hitem h =>
        obtain ⟨statements, hstatements, -⟩ := hp.reads_block hitem
        exact .inr (.inr ⟨statements, _, hstatements, h⟩)
    cases hcall with
    | item _ =>
      rw [hp.skip_behind] at h
      rcases expression_do hp.significant_do h with h | h
      · exact .inl (hstop h (hmove (by omega)))
      · rw [hp.skip_do, Parser.move_move] at h
        exact .inr (.inl h)
    | items _ hitem hcomma =>
      -- a parenthesis stands behind the block, and no comma
      obtain ⟨statements, hstatements, -⟩ := hp.reads_block hitem
      obtain ⟨behind, hparen⟩ := hclosed hstatements
      rw [hparen, Lexeme.significant_cons _ (by decide) (by decide)] at hcomma
      exact absurd (List.cons.inj hcomma).1 (by decide)

/-- A block behind insignificant text. -/
theorem block_open (hw : Insignificant w) (hp : p.unread = w ++ '\x7b' :: rest)
    (h : Form.block.Fails (n + 1) p e q) :
    Stops p e q ∨
      (Form.statements (some "\x7d")).Fails n (p.move (w.length + 1)).opened e q ∨
      ∃ nodes t, statementsWithin (some "\x7d") n (p.move (w.length + 1)).opened = .ok nodes t ∧
        Stops t e q := by
  have hopen : significant ('\x7b' :: rest) = '\x7b' :: rest :=
    Lexeme.significant_cons rest (by decide) (by decide)
  have hskip : p.skip.move 1 = p.move (w.length + 1) := by
    rw [Parser.skip_eq_move hp hw hopen, Parser.move_move]
  rcases Form.fails_succ h with hhalts | ⟨g, t, hcall, h⟩
  · cases hhalts with
    | first h => exact .inl h
    | block _ hbody h =>
      rw [hskip] at hbody
      exact .inr (.inr ⟨_, _, hbody, h⟩)
  · cases hcall with
    | inner _ =>
      rw [hskip] at h
      exact .inr (.inl h)

end Form.Fails

/-! ### Failures in the injected statements -/

namespace Parse

/-- The text is a statement that is read with three units of fuel, or fails for a reason. -/
def Terse (s : List Char) : Prop :=
  ∀ (n : Nat) (p q : Parser) (e : Error) (rest : List Char), p.unread = s ++ ';' :: rest →
    Form.statement.Fails (n + 3) p e q → Stops p e q

/-- A statement that begins with one of the words that have no block behind them. -/
theorem terse_word {w s : List Char} (hw : w ∈ ["package", "version", "use", "begin"].map
    String.toList) : Terse (w ++ ' ' :: s) := by
  intro n p q e rest hp h
  have hword : IsWord w := by
    obtain ⟨v, hv, rfl⟩ := List.mem_map.1 hw
    exact isWord_of_mem_statementWords v (List.mem_of_mem_take (i := 4) hv)
  have hp' : p.unread = w ++ ' ' :: (s ++ ';' :: rest) := by simpa using hp
  have hskip : p.skip = p := Parser.skip_eq_self hp' (hword.significant_append _)
  have hfound : Lexeme.word? p.skip.unread = some w := by
    rw [hskip, hp']
    exact Lexeme.word?_append hword (Lexeme.endsWord_blank _)
  rcases Form.fails_succ h with hhalts | ⟨g, t, hcall, h⟩
  · cases hhalts with
    | first h => exact h
  · cases hcall with
    | body hsub _ =>
      rw [hfound] at hsub
      rw [Option.some.inj hsub] at hw
      exact absurd hw (by decide)
    | expression hother =>
      obtain ⟨v, hv, rfl⟩ := List.mem_map.1 hw
      exact absurd hfound (hother v (List.mem_append_left ["sub"] hv))

/-- The placeholder. -/
theorem terse_placeholder : Terse Preamble.placeholder.toList := by
  intro n p q e rest hp h
  replace hp : p.unread = '(' :: ')' :: ';' :: rest := hp
  have hskip := (Parser.at_mark hp (by decide) (by decide)).2
  have hword : Lexeme.word? p.skip.unread = none := by
    rw [hskip, hp]
    exact Lexeme.word?_eq_none _ (by decide)
  rcases Form.fails_succ h with hhalts | ⟨g, t, hcall, h⟩
  · cases hhalts with
    | first h => exact h
  · cases hcall with
    | body hsub _ =>
      rw [hword] at hsub
      cases hsub
    | expression _ =>
      have hnone : expressionWithin (n + 2) p.skip = .error e q := h
      rw [hskip, expressionWithin_placeholder hp] at hnone
      cases hnone

end Parse

/-- The default statements, of which there are four at most. -/
theorem Preamble.generate_terse {feature : BlockFeature} {name : String} {version : Option String}
    {options : KeywordOptions} {statements : List String} (hextra : feature.extra = [])
    (hpreamble : options.preamble = [])
    (h : generate feature name version options = .ok statements) :
    statements.length ≤ 4 ∧ ∀ s ∈ statements, Terse s.toList := by
  obtain ⟨use, uses, huse, huses, rfl⟩ := generate_eq_ok.1 h
  have hterse (word : String) (s : List Char)
      (hword : word ∈ ["package", "version", "use", "begin"]) :
      Terse (word.toList ++ ' ' :: s) := terse_word (List.mem_map_of_mem hword)
  have hpackage : Terse ("package " ++ name).toList := by
    simpa using hterse "package" name.toList (by simp)
  have hversion : (Preamble.version version).length ≤ 1 ∧
      ∀ s ∈ Preamble.version version, Terse s.toList := by
    cases version with
    | none => simp [Preamble.version]
    | some literal => simpa [Preamble.version] using hterse "version" literal.toList (by simp)
  have huse : Terse use.toList := by
    obtain ⟨literal, -, rfl⟩ := useFeature_eq_ok.1 huse
    simpa using hterse "use" (feature.name.toList ++ ' ' :: literal) (by simp)
  have huses : uses.length ≤ 1 ∧ ∀ s ∈ uses, Terse s.toList := by
    rcases useInner_eq_ok huses with ⟨-, rfl⟩ | ⟨-, arguments, -, rfl⟩
    · simp
    · simpa using hterse "use" ("syntax ".toList ++ Literal.commaList arguments.flatten) (by simp)
  rw [hextra, hpreamble]
  simp only [Preamble.package, List.append_nil, List.length_append, List.length_cons,
    List.length_nil, List.mem_append, List.mem_cons, List.not_mem_nil, or_false]
  refine ⟨by omega, ?_⟩
  rintro s ((rfl | hs) | rfl | hs)
  · exact hpackage
  · exact hversion.2 s hs
  · exact huse
  · exact huses.2 s hs

namespace Form.Fails

/-- The first statement of a block, which fails for a reason or is followed by what fails. -/
theorem statements_cons (hs : StartsStatement s) (hterse : Terse s) (hw : Insignificant w)
    (hp : p.unread = w ++ (s ++ ';' :: rest))
    (h : (Form.statements (some "\x7d")).Fails (n + 4) p e q)
    (hread : ∀ {fuel node r}, (p.move w.length).unread = s ++ ';' :: rest →
      statementWithin fuel (p.move w.length) = .ok node r → r.unread = ';' :: rest) :
    Stops p e q ∨ ∃ node r, statementWithin (n + 3) (p.move w.length) = .ok node r ∧
      (Stops r e q ∨ (Form.statements (some "\x7d")).Fails (n + 3) (r.move 1) e q) := by
  obtain ⟨hskip, hfirst⟩ := hs.skip_eq hw hp
  have hmove : IsMove p (p.move w.length) := ⟨_, by rw [hp]; simp, rfl⟩
  have hunread : (p.move w.length).unread = s ++ ';' :: rest := Parser.unread_move_append hp rfl
  have hs' := Lexeme.significant_semicolon rest
  obtain ⟨c, tail, rfl, -, -, hsemicolon, -⟩ := hs
  rw [List.cons_append] at hfirst
  rcases Form.fails_succ h with hhalts | ⟨g, t, hcall, h⟩
  · cases hhalts with
    | first h => exact .inl h
    | statement hnode h =>
      rw [hskip] at hnode
      exact .inr ⟨_, _, hnode, .inl h⟩
  cases hcall with
  | statement _ _ _ =>
    rw [hskip] at h
    exact .inl (.of_move hmove (hterse _ _ _ _ _ hunread h))
  | skipped hempty =>
    rw [hfirst] at hempty
    exact absurd (List.cons.inj hempty).1 hsemicolon
  | more _ hnode _ =>
    rw [hskip] at hnode
    have hr := hread hunread hnode
    rw [Parser.skip_eq_self hr hs'] at h
    exact .inr ⟨_, _, hnode, .inr h⟩
  | last _ hnode hne _ =>
    rw [hskip] at hnode
    rw [hread hunread hnode, hs'] at hne
    exact absurd rfl hne

end Form.Fails

/-- What fails for a reason behind a run that expands nothing. -/
theorem Quits.of_runs {events : List Event} {hooks : List ScopeHook} (hruns : Runs events hooks p r)
    (hnone : expansions events = 0) (h : Quits r e q) : Quits p e q := by
  obtain ⟨later, hjournal, hlater⟩ := h.journal
  refine ⟨h.lasts, later ++ events, ?_, by rw [expansions_append, hnone, hlater]⟩
  rw [hjournal, hruns.frame.journal, List.append_assoc]

theorem Quits.of_quiet {count : Nat} (hquiet : Quiet count p r) (h : Quits r e q) :
    Quits p e q := by
  obtain ⟨events, hooks, hruns, hevents, -⟩ := hquiet.runs
  exact h.of_runs hruns (expansions_eq_zero.2 fun event hevent => (hevents event hevent).1)

namespace Form.Fails

/-- A list of statements that are read quietly: one of them fails for a reason, or they are
followed by what fails. -/
theorem statements_spaced {package : String} {rows : List (List Char × Option Node)}
    (hrows : ∀ row ∈ rows, ReadQuietly package row.1 row.2)
    (hterse : ∀ row ∈ rows, Terse row.1) (hp : p.unread = spaced (rows.map (·.1)) ++ rest)
    (hpackage : p.currentPackage = package)
    (h : (Form.statements (some "\x7d")).Fails (n + rows.length + 3) p e q) :
    Quits p e q ∨ ∃ r, Quiet (spaced (rows.map (·.1))).length p r ∧
      (Form.statements (some "\x7d")).Fails (n + 3) r e q := by
  induction rows generalizing p with
  | nil => exact .inr ⟨p, .refl p, h⟩
  | cons row rows ih =>
    rw [List.forall_mem_cons] at hrows hterse
    obtain ⟨hrow, hrows⟩ := hrows
    have hp' : p.unread = [' '] ++ (row.1 ++ ';' :: (spaced (rows.map (·.1)) ++ rest)) := by
      simpa [spaced] using hp
    have hunread : (p.move 1).unread = row.1 ++ ';' :: (spaced (rows.map (·.1)) ++ rest) :=
      Parser.unread_move_append hp' rfl
    have hblank : Quiet 1 p (p.move 1) := .move p 1 (by simp [hp'])
    rcases statements_cons (n := n + rows.length) hrow.starts hterse.1 (.blank (by decide)) hp' h
      fun hunread hread => (hrow.reads hunread hpackage hread).2.unread hunread with
      h | ⟨node, r, hread, h⟩
    · exact .inl h.quits
    have hquiet := hblank.trans (hrow.reads hunread hpackage hread).2
    rcases h with h | h
    · exact .inl (h.quits.of_quiet hquiet)
    have hr : r.unread = ';' :: (spaced (rows.map (·.1)) ++ rest) :=
      (hrow.reads hunread hpackage hread).2.unread hunread
    have hstatement := hquiet.trans (.move r 1 (by simp [hr]))
    rcases ih hrows hterse.2 (by rw [Parser.unread_move, hr]; rfl)
      (hstatement.package.trans hpackage) h with h | ⟨r', hquiet', h⟩
    · exact .inl (h.of_quiet hstatement)
    · refine .inr ⟨r', ?_, h⟩
      exact length_spaced_cons row rows ▸ hstatement.trans hquiet'

/-- The trigger of a block and the opening of its package. -/
theorem entered {feature name : String} (hfeature : IsWord feature.toList)
    (hname : IsWord name.toList)
    (hp : p.unread = "begin ".toList ++ (feature.toList ++ ".scope_end".toList) ++
      ';' :: (' ' :: ("package ".toList ++ name.toList ++ ';' :: rest)))
    (h : (Form.statements (some "\x7d")).Fails (n + 5) p e q) :
    Quits p e q ∨ ∃ r, Entered name p r ∧ r.unread = rest ∧
      r.pos + rest.length = p.pos + p.unread.length ∧
      (Form.statements (some "\x7d")).Fails (n + 3) r e q := by
  have hword (word : String) (s : List Char)
      (hword : word ∈ ["package", "version", "use", "begin"]) :
      Terse (word.toList ++ ' ' :: s) := terse_word (List.mem_map_of_mem hword)
  rcases statements_cons (n := n + 1) (w := []) (startsStatement_trigger feature)
    (hword "begin" _ (by simp)) .nil hp h fun hunread hread =>
      (trigger_read hfeature hunread hread).2.2.2.2.2 with h | ⟨node, r, hread, h⟩
  · exact .inl h.quits
  obtain ⟨-, hruns, hbuffer, hpos, hfinalizers, hunread⟩ := trigger_read hfeature hp hread
  rcases h with h | h
  · exact .inl (h.quits.of_runs hruns rfl)
  have hr : (r.move 1).unread = [' '] ++ ("package ".toList ++ name.toList ++ ';' :: rest) := by
    rw [Parser.unread_move, hunread]
    rfl
  replace hruns := hruns.seq (.move r (by simp [hunread] : 1 ≤ r.unread.length))
  rcases statements_cons (n := n) (w := [' ']) (startsStatement_package name)
    (hword "package" _ (by simp)) (.blank (by decide)) hr h fun hunread hread =>
      (package_read hname hunread hread).2.2.2.2.2.2 with h | ⟨node, r', hread', h⟩
  · exact .inl (h.quits.of_runs hruns rfl)
  have hr' : ((r.move 1).move 1).unread = "package ".toList ++ name.toList ++ ';' :: rest :=
    Parser.unread_move_append hr rfl
  obtain ⟨-, hruns', hbuffer', hpos', hfinalizers', hpackage, hunread'⟩ :=
    package_read hname hr' hread'
  replace hruns := (hruns.seq (.move (r.move 1) (by simp [hr] : 1 ≤ _))).seq hruns'
  rcases h with h | h
  · exact .inl (h.quits.of_runs hruns rfl)
  refine .inr ⟨r'.move 1, ⟨hruns.seq (.move r' (by simp [hunread'])), hbuffer'.trans hbuffer,
    hfinalizers'.trans hfinalizers, hpackage⟩, ?_, ?_, h⟩
  · rw [Parser.unread_move, hunread']
    rfl
  · rw [Parser.move_pos, hpos', Parser.move_pos, Parser.move_pos, hpos, hp]
    simp only [List.length_append, List.length_cons]
    omega

/-- The injected statements of a declaration fail for a reason, or the body is reached. -/
theorem opening {statements : List String} (hsite : site.Plain) (hextra : site.feature.extra = [])
    (hname : IsWord site.declaration.name.toList)
    (hversion : ∀ v ∈ site.declaration.version, Lexeme.IsNumber v.toList)
    (hgenerate : Preamble.generate site.feature site.declaration.name site.declaration.version
      site.options = .ok statements)
    (hp : p.unread = site.injected ++ body) (hpos : p.pos = site.declaration.block)
    (h : (Form.statements (some "\x7d")).Fails (n + 9) p e q) :
    Quits p e q ∨ ∃ m r events hooks, n ≤ m ∧ m ≤ n + 4 ∧ Runs events hooks p r ∧
      Injected site events hooks p r ∧ (Form.statements (some "\x7d")).Fails (m + 3) r e q := by
  obtain ⟨rows, -, hrows, hquiet, -, -⟩ := Preamble.generate_rows hsite.feature.extra
    hsite.preamble hsite.feature.name hversion hgenerate
  obtain ⟨hcount, hterse⟩ := Preamble.generate_terse hextra hsite.preamble hgenerate
  have hlength := congrArg List.length hp
  rw [List.length_append] at hlength
  -- behind the statement that opens the package come three others at most, and the placeholder
  have hfour : rows.length ≤ 4 := by
    have hlength := congrArg List.length hrows
    simp only [List.length_append, List.length_map, List.length_cons, List.length_nil] at hlength
    omega
  have hrowsTerse : ∀ row ∈ rows, Terse row.1 := by
    intro row hrow
    have hmem : row.1 ∈ statements.map String.toList ++ [Preamble.placeholder.toList] := by
      rw [hrows]
      exact List.mem_cons_of_mem _ (List.mem_map_of_mem hrow)
    rcases List.mem_append.1 hmem with hmem | hmem
    · obtain ⟨s, hs, heq⟩ := List.mem_map.1 hmem
      exact heq ▸ hterse s hs
    · rw [List.mem_singleton.1 hmem]
      exact terse_placeholder
  have hp' := Site.unread_injected hgenerate hrows hp
  rcases entered (n := n + 4) hsite.feature.name hname hp' h with
    h | ⟨r, hentered, hunread, hpos', h⟩
  · exact .inl h
  rw [List.length_append] at hpos'
  rw [show n + 4 + 3 = (n + (4 - rows.length)) + rows.length + 3 by omega] at h
  rcases statements_spaced hquiet hrowsTerse hunread hentered.package h with h | ⟨r', hrest, h⟩
  · exact .inl (h.of_runs hentered.runs rfl)
  · obtain ⟨events, hooks, hruns, hinjected', -⟩ := hentered.injected hrest hp hpos (by omega)
    exact .inr ⟨_, r', events, hooks, by omega, by omega, hruns, hinjected', h⟩

end Form.Fails

/-! ### Failures in a declaration -/

/-- The body of a declaration begins with less left than the declaration. -/
theorem Injected.reaches {events : List Event} {hooks : List ScopeHook} {count : Nat}
    {after : List Char} {s : Parser} (hp : p.Plain) (hexpand : Expands site p s)
    (hrewritten : Rewritten site after body p s)
    (hopen : Runs events hooks (s.move count).opened r)
    (hinjected : Injected site events hooks s r) : Reaches p r ∧ r.weight < p.weight := by
  obtain ⟨hweight, hbraces, hnone, -⟩ := hinjected.spends hexpand hrewritten hopen
  refine ⟨⟨(hopen.plain ((hexpand.plain hp).1.move _).opened).1,
    events ++ [.opened, .dispatched site], ?_, Nat.le_of_lt hweight, ?_⟩, hweight⟩
  · have hjournal : (s.move count).opened.journal = .opened :: .dispatched site :: p.journal :=
      congrArg (Event.opened :: ·) hexpand.frame.2.journal
    rw [hopen.frame.journal, hjournal, List.append_assoc]
    rfl
  · rw [expansions_append, hnone, Nat.zero_add, Nat.add_comm]
    exact hbraces

/-- What fails for a reason in a declaration that has been expanded. -/
theorem Quits.of_expanded {after : List Char} {s : Parser} (hexpand : Expands site p s)
    (hrewritten : Rewritten site after body p s) (hjournal : r.journal = s.journal)
    (h : Quits r e q) : Settles p e q := by
  obtain ⟨events, hq, hnone⟩ := h.journal
  refine ⟨h.lasts, events ++ [.dispatched site], ?_, ?_⟩
  · rw [hq, hjournal, hexpand.frame.2.journal, List.append_assoc]
  · rw [expansions_append, hnone, Parser.braces, hrewritten.unread_eq, List.count_append,
      List.count_append, List.count_cons_self, Nat.zero_add]
    change 1 ≤ _
    omega

/-- **A declaration that fails**, with fuel for the injected statements, fails for a reason or in
the body of its block. -/
theorem Form.Fails.declared {s : Parser} (hsite : site.Default) (hp : p.Plain) (hclean : q.Clean)
    (hexpand : Expands site p s)
    (hadvance : read (Reader.advance site.word.length) s = .ok () r)
    (h : (Form.name site.word).Fails (n + 14) r e q) :
    Settles p e q ∨ ∃ m t, n ≤ m ∧ m ≤ n + 4 ∧ Reaches p t ∧ t.weight < p.weight ∧
      (Form.statements (some "\x7d")).Fails (m + 3) t e q := by
  have hplain : site.Plain := hsite.plain hp hexpand
  obtain ⟨after, body, hrewritten, statements, hgenerate⟩ := hexpand.rewritten
  obtain ⟨c⟩ := hrewritten.called
  have hruns (fuel : Nat) : ∀ n < fuel, ∀ {p nodes p'},
      statementsWithin (some "\x7d") n p = .ok nodes p' → ∃ e hooks, Runs e hooks p p' :=
    fun n _ _ _ _ h => statementsWithin_isRun h
  have hstops {t : Parser} (h : Stops t e q) (hjournal : t.journal = s.journal) :
      Settles p e q := h.quits.of_expanded hexpand hrewritten hjournal
  rw [hrewritten.read_word hadvance] at h
  rcases name_call c.before_insignificant c.unread h with h | h
  · exact .inl (hstops h rfl)
  rw [Parser.move_move] at h
  rcases expressions_call c.unread_arguments (fun hblock => by
    rw [Parser.move_move] at hblock
    obtain ⟨behind, hparen, -⟩ :=
      blockWithin_declared hplain hrewritten hgenerate c hblock (hruns _)
    exact ⟨behind, hparen⟩) h with h | h | ⟨block, t, hblock, h⟩
  · exact .inl (hstops h rfl)
  · rw [Parser.move_move] at h
    rcases block_open c.blank_insignificant c.unread_block h with h | h | ⟨nodes, t, hbody, h⟩
    · exact .inl (hstops h rfl)
    · -- the injected statements, or the body
      rw [Parser.move_move] at h
      rcases opening (p := (s.move c.inside).opened) hplain hsite.extra (hrewritten.isWord hplain)
        hrewritten.isNumber hgenerate c.unread_inside c.starts.symm h with
        h | ⟨m, t, events, hooks, hm, hm', hopen, hinjected, h⟩
      · refine .inl (Quits.of_expanded (r := s) hexpand hrewritten rfl ?_)
        obtain ⟨events, hjournal, hnone⟩ := h.journal
        refine ⟨h.lasts, events ++ [.opened], ?_, by rw [expansions_append, hnone]; rfl⟩
        rw [hjournal, List.append_assoc]
        rfl
      · have hinjected : Injected site events hooks s t :=
          ⟨hinjected.buffer, hinjected.pos, hinjected.events, hinjected.hooks,
            hinjected.finalizers, hinjected.package⟩
        obtain ⟨hreach, hweight⟩ := hinjected.reaches hp hexpand hrewritten hopen
        exact .inr ⟨m, t, hm, hm', hreach, hweight, h⟩
    · -- behind the body
      rw [Parser.move_move] at hbody
      obtain ⟨_, -, start, _, events, hooks, hopen, hinjected, -, hread, -⟩ :=
        Parse.opening (p := (s.move c.inside).opened) hplain (hrewritten.isWord hplain)
          hrewritten.isNumber hgenerate c.unread_inside c.starts.symm hbody
      have hinjected : Injected site events hooks s start :=
        ⟨hinjected.buffer, hinjected.pos, hinjected.events, hinjected.hooks,
          hinjected.finalizers, hinjected.package⟩
      have hreach := (hinjected.reaches hp hexpand hrewritten hopen).1
      have hinner := Reaches.of_isRun (statementsWithin_isRun hread) hreach.plain
        (hclean.of_suffix h.quits.journal_suffix)
      exact .inl ((hreach.trans hinner).settles h.quits.settles)
  · -- behind the block, which was read in full
    rw [Parser.move_move] at hblock
    obtain ⟨-, -, -, nodes, d, -⟩ :=
      blockWithin_declared hplain hrewritten hgenerate c hblock (hruns _)
    have hrun : IsRun p (t.move 1) := by
      rw [d.behind]
      exact ⟨_, _, .declared hplain hexpand d.inside d.opens d.injected d.reads d.brace d.closes⟩
    have hreach := Reaches.of_isRun hrun hp (hclean.of_suffix h.quits.journal_suffix)
    have hquits : Quits (t.move 1) e q := ⟨h.quits.lasts, h.quits.journal⟩
    exact .inl (hreach.settles hquits.settles)

/-! ### Whole scripts -/

/-- **With fuel in proportion to what is left**, a call of the grammar fails for a reason only, and
has expanded no more declarations than braces were unread. -/
theorem Form.Fails.settles {f : Form} (h : f.Fails n p e q) (hp : p.Plain) (hclean : q.Clean)
    (hneed : f.need p ≤ n) : Settles p e q := by
  induction n using Nat.strongRecOn generalizing f p with
  | ind n ih =>
    cases n with
    | zero =>
      have := f.slack_pos
      rw [Form.need] at hneed
      omega
    | succ n =>
      rcases Form.fails_succ h with hhalts | ⟨g, r, hcall, h⟩
      · exact hhalts.settles hp hclean
      have hr : r.Clean := hclean.of_suffix h.journal_suffix
      rcases hcall.reaches hp hr with ⟨hreach, hless⟩ | ⟨hreach, closing, rfl, rfl, hne, hend⟩ |
        ⟨site, s, rfl, rfl, hexpand, hadvance⟩
      · exact hreach.settles (ih n (by omega) h hreach.plain (by omega))
      · rw [Form.need, Form.slack] at hneed
        obtain ⟨n, rfl⟩ : ∃ m, n = m + 1 := ⟨n - 1, by omega⟩
        exact hreach.settles (h.of_closes hne hend hreach.plain hclean)
      · -- the fuel covers the injected statements, as the body weighs less
        have hskip := Reaches.skip hp
        have hsite : site.Default := hr site (by
          rw [(IsMove.read (Reader.drops_advance _) hadvance).journal, hexpand.frame.2.journal]
          exact List.mem_cons_self)
        obtain ⟨after, body, hrewritten, -⟩ := hexpand.rewritten
        have hweight : 1 ≤ p.skip.weight := by
          rw [Parser.weight, hrewritten.unread_eq]
          simp only [List.length_append, List.length_cons]
          omega
        have hle := hskip.weight_le
        rw [Form.need, Form.slack] at hneed
        obtain ⟨n, rfl⟩ : ∃ m, n = m + 14 := ⟨n - 14, by omega⟩
        rcases h.declared hsite hskip.plain hclean hexpand hadvance with
          h | ⟨m, t, hm, hm', hreach, hlight, h⟩
        · exact hskip.settles h
        · refine hskip.settles (hreach.settles (ih (m + 3) (by omega) h hreach.plain ?_))
          rw [Form.need, Form.slack]
          omega

namespace Parse

theorem modest_installPrelude (package : String) (rows : List (String × Value)) :
    Modest (installPrelude package rows) p :=
  modest_forM fun _ _ _ => modest_get.bind fun _ _ _ =>
    (modest_orMisconfigured _).bind fun _ _ _ => modest_install _ _ _

theorem modest_finish (nodes : List Node) : Modest (finish nodes) p := by
  refine modest_closeScope.bind fun _ _ _ =>
    (modest_read fun _ => Reader.lasts_peek).bind fun next _ _ => ?_
  cases next with
  | none => exact modest_pure _
  | some c => exact modest_fail (by simp)

/-- The fuel of a reader of scripts is more than it needs. -/
theorem need_le_fuelFor (closing : Option String) (h : p.weight ≤ p.buffer.text.length) :
    (Form.statements closing).need p ≤ fuelFor p := by
  have hfuel : 16 * (p.buffer.text.length + 1) * 1 ≤ fuelFor p :=
    Nat.mul_le_mul_left _ (by omega)
  rw [Form.need, Form.slack]
  omega

/-- What a run has used up when it is over, in success or in an error. -/
structure Ends {α : Type} (x : Parse α) (p : Parser) : Prop where
  lasts : ∀ q, x p ≠ .error .exhausted q
  journal : ∃ events, (Run.final (x p)).journal = events ++ p.journal ∧
    expansions events ≤ p.braces

variable {α : Type} {x : Parse α}

theorem Modest.ends (h : Modest x p) : Ends x p := by
  obtain ⟨events, hjournal, hevents⟩ := h.journal
  exact ⟨h.lasts, events, hjournal, by rw [expansions_eq_zero.2 hevents]; exact Nat.zero_le _⟩

theorem Ends.of_reaches {y : Parse α} (hreach : Reaches p q) (heq : x p = y q) (h : Ends y q) :
    Ends x p := by
  obtain ⟨e₁, hjournal₁, hspends⟩ := hreach.spends
  obtain ⟨e₂, hjournal₂, hcount⟩ := h.journal
  refine ⟨fun r => by rw [heq]; exact h.lasts r, e₂ ++ e₁, ?_, ?_⟩
  · rw [heq, hjournal₂, hjournal₁, List.append_assoc]
  · have := hspends.braces
    rw [expansions_append]
    omega

/-- A program whose declarations inject the default statements ends. -/
theorem program_ends (hp : p.Plain) (hclean : (Run.final (program p)).Clean)
    (hweight : p.weight ≤ p.buffer.text.length) : Ends program p := by
  have heq := program_eq p
  cases h : statementsWithin none (fuelFor p) p with
  | ok nodes q =>
    have hfinish : program p = finish nodes q := heq.trans (Run.bind_of_ok h)
    obtain ⟨events, hjournal, -⟩ := (modest_finish nodes : Modest (finish nodes) q).journal
    rw [hfinish] at hclean
    have hq : q.Clean := hclean.of_suffix ⟨events, hjournal.symm⟩
    exact .of_reaches (.of_isRun (statementsWithin_isRun h) hp hq) hfinish
      (modest_finish nodes).ends
  | error e q =>
    have hfail : program p = .error e q := by
      rw [heq, programWithin]
      simp only [Bind.bind, EStateM.bind, h]
    rw [hfail] at hclean
    have hfails : (Form.statements none).Fails (fuelFor p) p e q := h
    have hsettles := hfails.settles hp hclean (need_le_fuelFor none hweight)
    refine ⟨fun r hr => ?_, by rw [hfail]; exact hsettles.journal⟩
    rw [hfail] at hr
    exact hsettles.lasts (EStateM.Result.error.inj hr).1

/-- A script whose declarations inject the default statements ends. -/
theorem script_ends {setting : Setting} {text : String} (hsetting : setting.Plain)
    (hdefault : ∀ site, .dispatched site ∈
      (Run.final (script setting (setting.parser text))).journal → site.Default) :
    Ends (script setting) (setting.parser text) := by
  have hp := hsetting.parser text
  have hprelude := modest_installPrelude setting.package setting.prelude (p := setting.parser text)
  cases h : installPrelude setting.package setting.prelude (setting.parser text) with
  | ok _ q =>
    have hprogram : script setting (setting.parser text) = program q := Run.bind_of_ok h
    have hquiet := (installPrelude_installs h).quiet
    obtain ⟨events, hooks, hruns, hevents, -⟩ := hquiet.runs
    have hreach : Reaches (setting.parser text) q :=
      ⟨(hruns.plain hp).1, events, hruns.frame.journal, hruns.spends hp fun site hsite =>
        absurd (hevents _ hsite).1 (by simp [Event.site?])⟩
    rw [hprogram] at hdefault
    refine .of_reaches hreach hprogram (program_ends hreach.plain hdefault ?_)
    rw [hquiet.buffer]
    exact hreach.weight_le
  | error e q =>
    have hfail : script setting (setting.parser text) = .error e q := by
      rw [script]
      simp only [Bind.bind, EStateM.bind, h]
    have hsettles := (hprelude.quits h).settles
    refine ⟨fun r hr => ?_, by rw [hfail]; exact hsettles.journal⟩
    rw [hfail] at hr
    exact hsettles.lasts (EStateM.Result.error.inj hr).1

theorem compile_ne_exhausted {setting : Setting} {text : String}
    (h : Ends (script setting) (setting.parser text)) :
    compile text setting ≠ .error .exhausted := by
  intro hcompile
  rw [compile] at hcompile
  cases hscript : script setting (setting.parser text) with
  | ok program q =>
    rw [hscript] at hcompile
    cases hcompile
  | error e q =>
    rw [hscript] at hcompile
    exact h.lasts q (by rw [hscript, Except.error.inj hcompile])

/-- **Expansion terminates.**  Where all features and keywords to start with are plain, and the
declarations that were expanded, in success or before an error, have injected the default statements
only, a script never runs out of fuel, and no more declarations were expanded than braces are opened
in its text. -/
theorem script_terminates {setting : Setting} {text : String} (hsetting : setting.Plain)
    (hdefault : ∀ site, .dispatched site ∈
      (Run.final (script setting (setting.parser text))).journal → site.Default) :
    compile text setting ≠ .error .exhausted ∧
      (∀ q, script setting (setting.parser text) ≠ .error .exhausted q) ∧
      expansions (Run.final (script setting (setting.parser text))).journal ≤
        text.toList.count '\x7b' := by
  have hends := script_ends hsetting hdefault
  refine ⟨compile_ne_exhausted hends, hends.lasts, ?_⟩
  obtain ⟨events, hjournal, hcount⟩ := hends.journal
  rw [hjournal, show (setting.parser text).journal = [] from rfl, List.append_nil]
  exact hcount

/-- Two modules, of which none is closed. -/
def unfinishedModules : String := "use module; module A \x7b module B \x7b 1"

/-- Both modules are expanded before the error. -/
theorem unfinishedModules_terminates :
    Setting.Plain {} ∧
      (∀ site, .dispatched site ∈
        (Run.final (script {} (({} : Setting).parser unfinishedModules))).journal → site.Default) ∧
      compile unfinishedModules {} ≠ .error .exhausted ∧
      (∀ q, script {} (({} : Setting).parser unfinishedModules) ≠ .error .exhausted q) ∧
      expansions (Run.final (script {} (({} : Setting).parser unfinishedModules))).journal = 2 ∧
      expansions (Run.final (script {} (({} : Setting).parser unfinishedModules))).journal ≤
        unfinishedModules.toList.count '\x7b' := by
  have hsetting : Setting.Plain {} :=
    ⟨Registry.standard_plain, Namespaces.initial_plain, by decide +kernel⟩
  have hread : (fun p : Parser => decide (expansions p.journal = 2) &&
      decide (∀ site ∈ p.journal.filterMap Event.site?, site.options.preamble = [] ∧
        site.feature.extra = []))
      (Run.final (script {} (({} : Setting).parser unfinishedModules))) = true := by
    decide +kernel
  simp only [Bool.and_eq_true, decide_eq_true_iff] at hread
  have hdefault : ∀ site, .dispatched site ∈
      (Run.final (script {} (({} : Setting).parser unfinishedModules))).journal →
        site.Default := by
    intro site hsite
    obtain ⟨hpreamble, hextra⟩ := hread.2 site (mem_filterMap_site?.2 hsite)
    exact ⟨hpreamble, hextra⟩
  obtain ⟨hcompile, hscript, hcount⟩ := script_terminates hsetting hdefault
  exact ⟨hsetting, hdefault, hcompile, hscript, hread.1, hcount⟩

end Parse

end BraceScript
