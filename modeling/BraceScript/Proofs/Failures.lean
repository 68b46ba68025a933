import BraceScript.Proofs.Calls
import BraceScript.Proofs.Parsing
import BraceScript.Proofs.Weight

/-!
# What a failed reading has used up

A call of the grammar that fails may have read and expanded much before.  What it has used up is
followed along the calls that it has made: every call but that of an expanded keyword begins with
less left than the call that makes it (`Calls.reaches`), and a call that fails by itself gives its
reason at once (`Halts.settles`).
-/

namespace BraceScript

open Lexeme (significant)
open Parse

variable {fuel : Nat} {e : Error} {f g : Form} {p q r p' : Parser}

/-! ### Failures with a reason -/

/-- The failure gives a reason, and nothing was expanded before. -/
structure Quits (p : Parser) (e : Error) (q : Parser) : Prop where
  lasts : e ≠ .exhausted
  journal : ∃ events, q.journal = events ++ p.journal ∧ expansions events = 0

/-- The failure gives a reason, and no more declarations were expanded before than braces were
unread. -/
structure Settles (p : Parser) (e : Error) (q : Parser) : Prop where
  lasts : e ≠ .exhausted
  journal : ∃ events, q.journal = events ++ p.journal ∧ expansions events ≤ p.braces

theorem Quits.settles (h : Quits p e q) : Settles p e q := by
  obtain ⟨events, hjournal, hnone⟩ := h.journal
  exact ⟨h.lasts, events, hjournal, by omega⟩

theorem Quits.of_journal (hjournal : r.journal = p.journal) (h : Quits r e q) : Quits p e q :=
  ⟨h.lasts, hjournal ▸ h.journal⟩

theorem IsMove.journal (h : IsMove p q) : q.journal = p.journal := by
  obtain ⟨count, -, rfl⟩ := h
  rfl

namespace Parse

theorem Modest.quits {α : Type} {x : Parse α} (hx : Modest x p) (h : x p = .error e q) :
    Quits p e q := by
  obtain ⟨events, hjournal, hevents⟩ := hx.journal
  rw [h] at hjournal
  exact ⟨fun he => hx.lasts q (he ▸ h), events, hjournal, expansions_eq_zero.2 hevents⟩

/-- The parts of the grammar that do not call it again fail for a reason. -/
theorem Elementary.quits {α : Type} {x : Parse α} (hx : Elementary p α x) (h : x p = .error e q) :
    Quits p e q := by
  cases hx with
  | fail hfault => exact (modest_fail hfault.1).quits h
  | expect c => exact (modest_read fun _ => Reader.lasts_expect c).quits h
  | word what => exact (modest_read fun _ => Reader.lasts_word what).quits h
  | quoted => exact (modest_read fun _ => Reader.lasts_quoted).quits h
  | number => exact (modest_read fun _ => Literal.lasts_number).quits h
  | packageStatement => exact modest_packageStatement.quits h
  | versionStatement => exact modest_versionStatement.quits h
  | useStatement => exact modest_useStatement.quits h
  | beginStatement offset => exact (modest_beginStatement offset).quits h
  | dispatch _ _ =>
    obtain ⟨hlasts, hjournal⟩ := dispatch_eq_error h
    exact ⟨hlasts, [], hjournal, rfl⟩
  | closeScope => exact modest_closeScope.quits h

theorem Stops.quits (h : Stops p e q) : Quits p e q := by
  obtain ⟨r, α, x, hmove, hx, h⟩ := h
  exact (hx.quits h).of_journal hmove.journal

end Parse

/-! ### Journals grow -/

theorem Quits.journal_suffix (h : Quits p e q) : p.journal <:+ q.journal := by
  obtain ⟨events, hjournal, -⟩ := h.journal
  exact ⟨events, hjournal.symm⟩

theorem IsRun.journal_suffix (h : IsRun p q) : p.journal <:+ q.journal := by
  obtain ⟨events, hooks, hruns⟩ := h
  exact ⟨events, hruns.frame.journal.symm⟩

theorem Calls.journal_suffix (h : Calls fuel f p g q) : p.journal <:+ q.journal := by
  cases h with
  | more _ hnode _ | last _ hnode _ _ => exact ((allRuns fuel).statement hnode).journal_suffix
  | others _ hfirst _ => exact ((allRuns fuel).expression hfirst).journal_suffix
  | items _ hitem _ => exact ((allRuns fuel).expression hitem).journal_suffix
  | body hword hname =>
    rw [(IsMove.read (Reader.drops_word _) hname).journal]
    exact List.suffix_rfl
  | @keyword _ s _ written _ hword _ _ hkeyword hdispatch hadvance =>
    rw [(IsMove.read (Reader.drops_advance _) hadvance).journal]
    rcases dispatch_eq_ok hword hkeyword hdispatch with ⟨-, rfl⟩ | ⟨site, -, -, hexpand⟩
    · exact List.suffix_rfl
    · exact ⟨_, hexpand.frame.2.journal.symm⟩
  | inner _ => exact ⟨[.opened], rfl⟩
  | _ => exact List.suffix_rfl

theorem Halts.journal_suffix (h : Halts fuel f p e q) : p.journal <:+ q.journal := by
  cases h with
  | first h => exact h.quits.journal_suffix
  | statement hnode h =>
    exact ((allRuns fuel).statement hnode).journal_suffix.trans h.quits.journal_suffix
  | parenthesized hfirst h =>
    exact ((allRuns fuel).expression hfirst).journal_suffix.trans h.quits.journal_suffix
  | item hitem h =>
    exact ((allRuns fuel).expression hitem).journal_suffix.trans h.quits.journal_suffix
  | block _ hbody h =>
    have hopened : p.journal <:+ (p.skip.move 1).opened.journal := ⟨[.opened], rfl⟩
    exact hopened.trans
      (((allRuns fuel).statements hbody).journal_suffix.trans h.quits.journal_suffix)

/-- Without fuel nothing is read. -/
theorem Form.Fails.zero (h : f.Fails 0 p e q) : q = p := by
  cases f <;> exact (Run.throw_eq_error.1 h).2.symm

theorem Form.Fails.journal_suffix (h : f.Fails fuel p e q) : p.journal <:+ q.journal := by
  induction fuel generalizing f p with
  | zero => exact h.zero ▸ List.suffix_rfl
  | succ fuel ih =>
    rcases Form.fails_succ h with hhalts | ⟨g, r, hcall, h⟩
    · exact hhalts.journal_suffix
    · exact hcall.journal_suffix.trans (ih h)

/-! ### What is left along the calls -/

/-- All declarations that were expanded inject the default statements only. -/
def Parser.Clean (p : Parser) : Prop := ∀ site, .dispatched site ∈ p.journal → site.Default

theorem Parser.Clean.of_suffix (h : q.Clean) (hjournal : p.journal <:+ q.journal) : p.Clean :=
  fun site hsite => h site (hjournal.subset hsite)

/-- Reading has come from one parser to the other, and has used up what the expansions need. -/
structure Reaches (p q : Parser) : Prop where
  plain : q.Plain
  spends : ∃ events, q.journal = events ++ p.journal ∧ Spends events p q

namespace Reaches

theorem trans (h : Reaches p q) (h' : Reaches q r) : Reaches p r := by
  obtain ⟨e₁, hjournal₁, hspends₁⟩ := h.spends
  obtain ⟨e₂, hjournal₂, hspends₂⟩ := h'.spends
  exact ⟨h'.plain, e₂ ++ e₁, by rw [hjournal₂, hjournal₁, List.append_assoc],
    hspends₁.trans hspends₂⟩

theorem move (hp : p.Plain) (count : Nat) : Reaches p (p.move count) :=
  ⟨hp.move count, [], rfl, .move p count⟩

theorem skip (hp : p.Plain) : Reaches p p.skip := move hp _

/-- A significant character is passed. -/
theorem pass (hp : p.Plain) : Reaches p (p.skip.move 1) := (skip hp).trans (move (hp.move _) 1)

theorem opened (hp : p.Plain) : Reaches p p.opened := ⟨hp.opened, [.opened], rfl, .opened p⟩

theorem of_isRun (h : IsRun p q) (hp : p.Plain) (hq : q.Clean) : Reaches p q := by
  obtain ⟨events, hooks, hruns⟩ := h
  have hjournal := hruns.frame.journal
  refine ⟨(hruns.plain hp).1, events, hjournal, hruns.spends hp fun site hsite => hq site ?_⟩
  rw [hjournal]
  exact List.mem_append_left _ hsite

theorem weight_le (h : Reaches p q) : q.weight ≤ p.weight := by
  obtain ⟨_, -, hspends⟩ := h.spends
  exact hspends.weight

/-- What fails behind the second parser, fails behind the first one. -/
theorem settles (h : Reaches p r) (h' : Settles r e q) : Settles p e q := by
  obtain ⟨e₁, hjournal₁, hspends⟩ := h.spends
  obtain ⟨e₂, hjournal₂, hcount⟩ := h'.journal
  refine ⟨h'.lasts, e₂ ++ e₁, by rw [hjournal₂, hjournal₁, List.append_assoc], ?_⟩
  have := hspends.braces
  rw [expansions_append]
  omega

end Reaches

/-- A call that fails by itself gives a reason. -/
theorem Halts.settles (h : Halts fuel f p e q) (hp : p.Plain) (hq : q.Clean) : Settles p e q := by
  have hread {s t : Parser} (hrun : IsRun s t) (hs : s.Plain) (hstops : Stops t e q) :
      Settles s e q :=
    (Reaches.of_isRun hrun hs (hq.of_suffix hstops.quits.journal_suffix)).settles
      hstops.quits.settles
  cases h with
  | first h => exact h.quits.settles
  | statement hnode h =>
    exact (Reaches.skip hp).settles (hread ((allRuns fuel).statement hnode) (hp.move _) h)
  | parenthesized hfirst h =>
    exact (Reaches.skip hp).settles (hread ((allRuns fuel).expression hfirst) (hp.move _) h)
  | item hitem h =>
    exact (Reaches.skip hp).settles (hread ((allRuns fuel).expression hitem) (hp.move _) h)
  | block _ hbody h =>
    have hopened := (Reaches.pass hp).trans (Reaches.opened ((hp.move _).move 1))
    exact hopened.settles (hread ((allRuns fuel).statements hbody) hopened.plain h)

namespace Form

/-- The calls that a form can make without reading anything, and one more. -/
def slack : Form → Nat
  | statements _ => 3
  | statement | parenthesized | expressions _ => 2
  | expression | name _ | block => 1

theorem slack_le (f : Form) : f.slack ≤ 3 := by cases f <;> simp [slack]

theorem slack_pos (f : Form) : 0 < f.slack := by cases f <;> simp [slack]

/-- The fuel that a form takes at most. -/
def need (f : Form) (p : Parser) : Nat := 16 * p.weight + f.slack

end Form

/-- **A call begins with less left than the call that makes it**, unless it finds the end of a list
of statements, or is that of a keyword that has been expanded. -/
theorem Calls.reaches (h : Calls fuel f p g q) (hp : p.Plain) (hq : q.Clean) :
    (Reaches p q ∧ g.need q < f.need p) ∨
    (Reaches p q ∧ ∃ closing, f = .statements closing ∧ g = .statements closing ∧
      (significant q.unread).head? ≠ some ';' ∧
      (significant q.unread).head?.all (closes closing)) ∨
    ∃ site s, f = .expression ∧ g = .name site.word ∧ Expands site p.skip s ∧
      read (Reader.advance site.word.length) s = .ok () q := by
  have hskip := Reaches.skip hp
  -- with a character less, there is fuel for the forms that begin again
  have hlighter {s : Parser} (hreach : Reaches p s) (hless : s.weight < p.weight) :
      Reaches p s ∧ g.need s < f.need p := by
    have := f.slack_pos
    have := g.slack_le
    exact ⟨hreach, by rw [Form.need, Form.need]; omega⟩
  -- behind a part that was read comes a character
  have hbehind {s : Parser} {c : Char} {rest : List Char} (hrun : IsRun p.skip s)
      (hs : significant s.unread = c :: rest) (hclean : s.Clean) :
      Reaches p (s.skip.move 1) ∧ g.need (s.skip.move 1) < f.need p := by
    have hreach := hskip.trans (.of_isRun hrun (hp.move _) hclean)
    have hless := Parser.weight_pass hs
    have hle := hreach.weight_le
    exact hlighter (hreach.trans (.pass hreach.plain)) (by omega)
  cases h with
  | statement => exact .inl ⟨hskip, by have := hskip.weight_le; simp [Form.need, Form.slack]; omega⟩
  | skipped hs => exact .inl (hlighter (.pass hp) (Parser.weight_pass hs))
  | more _ hnode hs => exact .inl (hbehind ((allRuns fuel).statement hnode) hs hq)
  | last _ hnode hs hend =>
    refine .inr (.inl ⟨?_, _, rfl, rfl, ?_, ?_⟩)
    · have hreach := hskip.trans (.of_isRun ((allRuns fuel).statement hnode) (hp.move _) hq)
      exact hreach.trans (.skip hreach.plain)
    · rwa [Parser.unread_skip, Lexeme.significant_significant]
    · rwa [Parser.unread_skip, Lexeme.significant_significant]
  | body hword hname =>
    obtain ⟨count, -, hmove⟩ := IsMove.read (Reader.drops_word _) hname
    have hless : (p.skip.move 3).weight < p.skip.weight := Parser.weight_word hword
    have hsub : Reaches p.skip (p.skip.move 3) := .move hskip.plain 3
    have hname : Reaches (p.skip.move 3) ((p.skip.move 3).move count) := .move hsub.plain count
    have := hskip.weight_le
    have := hname.weight_le
    rw [hmove]
    exact .inl (hlighter ((hskip.trans hsub).trans hname) (by omega))
  | expression =>
    have hweight := hskip.weight_le
    exact .inl ⟨hskip, by simp [Form.need, Form.slack]; omega⟩
  | parentheses hs | brackets hs => exact .inl (hlighter (.pass hp) (Parser.weight_pass hs))
  | doBlock hword =>
    have hless := Parser.weight_word hword
    have := hskip.weight_le
    exact .inl (hlighter (hskip.trans (.move hskip.plain 2)) (Nat.lt_of_lt_of_le hless this))
  | name hword _ _ =>
    have hless := Parser.weight_word hword
    have := hskip.weight_le
    exact .inl (hlighter (hskip.trans (.move hskip.plain _)) (by omega))
  | keyword hword _ _ hkeyword hdispatch hadvance =>
    rcases dispatch_eq_ok hword hkeyword hdispatch with ⟨-, rfl⟩ | ⟨site, -, rfl, hexpand⟩
    · have hless := Parser.weight_word hword
      have hread := read_advance_word hword rfl
      obtain rfl := (EStateM.Result.ok.inj (hadvance.symm.trans hread)).2
      have := hskip.weight_le
      exact .inl (hlighter (hskip.trans (.move hskip.plain _)) (by omega))
    · exact .inr (.inr ⟨site, _, rfl, rfl, hexpand, hadvance⟩)
  | arguments hs => exact .inl (hlighter (.pass hp) (Parser.weight_pass hs))
  | first => exact .inl ⟨hskip, by have := hskip.weight_le; simp [Form.need, Form.slack]; omega⟩
  | others _ hfirst hs => exact .inl (hbehind ((allRuns fuel).expression hfirst) hs hq)
  | item => exact .inl ⟨hskip, by have := hskip.weight_le; simp [Form.need, Form.slack]; omega⟩
  | items _ hitem hs => exact .inl (hbehind ((allRuns fuel).expression hitem) hs hq)
  | inner hs =>
    have hopened := Reaches.opened ((hp.move _).move 1 : (p.skip.move 1).Plain)
    exact .inl (hlighter ((Reaches.pass hp).trans hopened)
      (Nat.lt_of_le_of_lt hopened.weight_le (Parser.weight_pass hs)))

/-- At the end of a list of statements nothing more is called. -/
theorem Form.Fails.of_closes {closing : Option String}
    (h : (Form.statements closing).Fails (fuel + 1) p e q)
    (hne : (significant p.unread).head? ≠ some ';')
    (hend : (significant p.unread).head?.all (closes closing)) (hp : p.Plain) (hq : q.Clean) :
    Settles p e q := by
  have hnone {r : Parser} (hcall : Calls fuel (.statements closing) p .statement r) : False := by
    cases hcall with
    | statement hs hclosed _ =>
      rw [hs, List.head?_cons, Option.all_some, hclosed] at hend
      cases hend
  rcases Form.fails_succ h with hhalts | ⟨g, r, hcall, -⟩
  · exact hhalts.settles hp hq
  · cases hcall with
    | statement hs hclosed hc => exact (hnone (.statement hs hclosed hc)).elim
    | skipped hs =>
      rw [hs] at hne
      exact absurd rfl hne
    | more hcall _ _ | last hcall _ _ _ => exact (hnone hcall).elim

end BraceScript
