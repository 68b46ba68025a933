import BraceScript.Proofs.DeclaredMeaning
import BraceScript.Proofs.Reached
import BraceScript.Proofs.Renewal

/-!
# Keywords in nested blocks

A keyword that is followed from a parser on is live at the top of every block that one of its
declarations opens, however deep the block is nested (`Followed.live_in_block`).

Reading goes from the parser to the block by calls (`Leads`).  At each of them either all
declarations by the keyword have installed it again, or the last one has not: then its head is
being read, or the statements at the top of its block (`Followed.At`).  The calls keep this
(`Followed.At.calls`), since whatever they have read to its end leaves the keyword as it was.
-/

namespace BraceScript

open Lexeme (significant Insignificant IsWord)
open Parse

variable {n m fuel : Nat} {f g h : Form} {p q r b u : Parser} {body : List Char} {site : Site}

/-! ### Calls of statements by statements -/

theorem Proceeds.trans {j : Nat} (h : Proceeds n p m q) (h' : Proceeds m q j r) :
    Proceeds n p j r := by
  induction h with
  | here => exact h'
  | skipped hs _ ih => exact .skipped hs (ih h')
  | statement hnode hs _ ih => exact .statement hnode hs (ih h')
  | last hnode hs _ ih => exact .last hnode hs (ih h')

/-- A list of statements calls itself behind each of them. -/
theorem Proceeds.call {closing closing' : Option String} (h : Proceeds n p (m + 1) q)
    (hcall : Calls m (.statements closing) q (.statements closing') r) : Proceeds n p m r := by
  refine h.trans ?_
  cases hcall with
  | skipped hs => exact .skipped hs (.here _ _)
  | more _ hnode hs => exact .statement hnode hs (.here _ _)
  | last _ hnode hs _ => exact .last hnode hs (.here _ _)

/-- Reading goes through statements that are read quietly, or has not got behind them. -/
theorem Proceeds.spaced {package : String} {rows : List (List Char × Option Node)}
    (hrows : ∀ row ∈ rows, ReadQuietly package row.1 row.2)
    (hp : p.unread = spaced (rows.map (·.1)) ++ body) (hpackage : p.currentPackage = package)
    (h : Proceeds fuel p n r) :
    r.pos < p.pos + (spaced (rows.map (·.1))).length ∨
      ∃ m e, Quiet (spaced (rows.map (·.1))).length p e ∧ Proceeds fuel p m e ∧
        Proceeds m e n r := by
  induction rows generalizing fuel p with
  | nil => exact .inr ⟨fuel, p, .refl p, .here _ _, h⟩
  | cons row rows ih =>
    rw [List.forall_mem_cons] at hrows
    obtain ⟨hrow, hrows⟩ := hrows
    have hp' : p.unread = [' '] ++ (row.1 ++ ';' :: (spaced (rows.map (·.1)) ++ body)) := by
      simpa [spaced] using hp
    have hlength := (length_spaced_cons row rows).symm
    have hunread : (p.move 1).unread = row.1 ++ ';' :: (spaced (rows.map (·.1)) ++ body) := by
      rw [Parser.unread_move, hp']
      rfl
    have hblank : Quiet 1 p (p.move 1) := .move p 1 (by simp [hp'])
    rcases h.cons hrow.starts (.blank (by decide)) hp' fun hread =>
        (hrow.reads hunread hpackage hread).2.unread hunread with
      rfl | ⟨j, -, node, q, hread, hfirst, hmore⟩
    · left
      omega
    · obtain ⟨-, hquiet⟩ := hrow.reads hunread hpackage hread
      have hq : q.unread = ';' :: (spaced (rows.map (·.1)) ++ body) := hquiet.unread hunread
      have hstatement := (hblank.trans hquiet).trans (.move q 1 (by simp [hq]))
      rcases ih hrows (by rw [Parser.unread_move, hq]; rfl) (hstatement.package.trans hpackage)
        hmore with hbefore | ⟨m, e, hrest, hreached, hmore⟩
      · left
        rw [hstatement.pos] at hbefore
        omega
      · right
        rw [hlength]
        exact ⟨m, e, hstatement.trans hrest, hfirst.trans hreached, hmore⟩

/-! ### The head of a declaration -/

/-- The calls by which reading goes from the name of an expanded declaration to its block. -/
inductive Header {site : Site} {body : List Char} {p : Parser} (c : Called site body p) :
    Form → Parser → Prop
  | name : Header c (.name site.word) (p.move site.word.toList.length)
  | arguments : Header c (.expressions ')') (p.move c.arguments)
  /-- The quoted name of the package. -/
  | target : Header c .expression (p.move c.arguments)
  | behind : Header c (.expressions ')')
      ((p.move c.arguments).move ((Literal.quote site.declaration.name).length + 1))
  | doBlock : Header c .expression
      ((p.move c.arguments).move ((Literal.quote site.declaration.name).length + 2))
  | block : Header c .block (p.move c.block)

namespace Called

variable (c : Called site body p)

theorem significant_name :
    significant (p.move site.word.toList.length).unread =
      '(' :: (Literal.quote site.declaration.name ++ (", do ".toList ++
        (c.gap ++ '\x7b' :: (site.injected ++ body)))) := by
  rw [c.unread, c.before_insignificant.significant_append]
  exact Lexeme.significant_cons _ (by decide) (by decide)

theorem skip_name :
    (p.move site.word.toList.length).skip.move 1 = p.move c.arguments := by
  have hs := c.significant_name
  rw [c.unread, c.before_insignificant.significant_append] at hs
  rw [Parser.skip_eq_move c.unread c.before_insignificant hs, Parser.move_move, Parser.move_move]
  rfl

theorem atArguments : (p.move c.arguments).AtArguments site.declaration.name
    (c.gap ++ '\x7b' :: (site.injected ++ body)) := c.unread_arguments

theorem move_block : (p.move c.arguments).move ((Literal.quote site.declaration.name).length + 4) =
    p.move c.block := Parser.move_move ..

theorem move_do : ((p.move c.arguments).move
    ((Literal.quote site.declaration.name).length + 2)).move 2 = p.move c.block :=
  (Parser.move_move ..).trans c.move_block

theorem significant_block :
    significant (p.move c.block).unread = '\x7b' :: (site.injected ++ body) := by
  rw [c.unread_block, c.blank_insignificant.significant_append]
  exact Lexeme.significant_cons _ (by decide) (by decide)

theorem skip_block : (p.move c.block).skip.move 1 = p.move c.inside := by
  rw [Parser.skip_eq_move c.unread_block c.blank_insignificant
    (Lexeme.significant_cons _ (by decide) (by decide)), Parser.move_move, Parser.move_move]
  rfl

end Called

/-- Reading a quoted text calls nothing. -/
theorem not_calls_quote {s : String} {rest : List Char}
    (hs : significant p.unread = Literal.quote s ++ rest) : ¬ Calls n .expression p h r := by
  intro hcall
  rw [Literal.quote] at hs
  have hword : ∀ {w : List Char}, Lexeme.word? p.skip.unread ≠ some w := by
    intro w
    rw [Parser.unread_skip, hs]
    change Lexeme.word? ('"' :: _) ≠ _
    rw [Lexeme.word?_eq_none _ (by decide)]
    exact (Option.some_ne_none w).symm
  cases hcall with
  | parentheses hopen | brackets hopen =>
    rw [hs] at hopen
    cases hopen
  | doBlock hdo => exact hword hdo
  | name hname => exact hword hname
  | keyword hname => exact hword hname

/-- The name of an expanded declaration leads to its block. -/
theorem Called.leads (c : Called site body p) (n : Nat) :
    Leads (n + 5) (.name site.word) (p.move site.word.toList.length) n
      (.statements (some "\x7d")) (p.move c.inside).opened := by
  have ha := c.atArguments
  have hname : Calls (n + 4) (.name site.word) (p.move site.word.toList.length)
      (.expressions ')') (p.move c.arguments) :=
    c.skip_name ▸ .arguments c.significant_name
  have hbehind : Calls (n + 3) (.expressions ')') (p.move c.arguments) (.expressions ')')
      ((p.move c.arguments).move ((Literal.quote site.declaration.name).length + 1)) := by
    rw [← ha.skip_comma]
    refine .items ?_ (by rw [ha.skip]; exact ha.reads_name (n + 2)) ha.significant_comma
    rw [ha.significant_name, Literal.quote]
    simp
  have hdo : Calls (n + 2) (.expressions ')')
      ((p.move c.arguments).move ((Literal.quote site.declaration.name).length + 1)) .expression
      ((p.move c.arguments).move ((Literal.quote site.declaration.name).length + 2)) := by
    rw [← ha.skip_behind]
    refine .item ?_
    rw [ha.significant_behind]
    simp
  have hblock : Calls (n + 1) .expression
      ((p.move c.arguments).move ((Literal.quote site.declaration.name).length + 2)) .block
      (p.move c.block) := by
    have hcall : Calls (n + 1) _ _ _ _ := .doBlock (ha.skip_do.symm ▸ ha.word_do)
    rwa [ha.skip_do, c.move_do] at hcall
  have hinner : Calls n .block (p.move c.block) (.statements (some "\x7d"))
      (p.move c.inside).opened := c.skip_block ▸ .inner c.significant_block
  exact .first hname (.first hbehind (.first hdo (.first hblock (.first hinner (.here _ _ _)))))

/-- **A declaration leads to its block.** -/
theorem Expands.leads (h : Expands site p.skip q) (hdo : site.word ≠ "do")
    (hqualified : Name.isQualified site.word = false) (c : Called site body q) (n : Nat) :
    Leads (n + 6) .expression p n (.statements (some "\x7d")) (q.move c.inside).opened := by
  obtain ⟨after, body', hrewritten, -⟩ := h.rewritten
  exact .first (.keyword h.word hdo hqualified h.live h.dispatch_eq hrewritten.advance_word)
    (c.leads n)

/-- The parser behind some statements, if each has a semicolon behind it. -/
def Parser.behind? (fuel : Nat) : Nat → Parser → Option Parser
  | 0, p => some p
  | count + 1, p => match statementWithin (fuel + count) p.skip with
    | .ok _ q => if (significant q.unread).head? = some ';' then behind? fuel count (q.skip.move 1)
      else none
    | .error .. => none

theorem Proceeds.of_behind? {count : Nat} (h : p.behind? n count = some u) :
    Proceeds (n + count) p n u := by
  induction count generalizing p with
  | zero =>
    obtain rfl := Option.some.inj h
    exact .here n p
  | succ count ih =>
    rw [Parser.behind?] at h
    split at h
    · next node q hnode =>
      split at h
      · next hsemicolon =>
        obtain ⟨rest, hs⟩ := List.head?_eq_some_iff.1 hsemicolon
        exact .statement hnode hs (ih h)
      · cases h
    · cases h

/-- The parser at the beginning of the block of a declaration at its position. -/
def Parser.blockOf (p : Parser) (feature : BlockFeature) (options : KeywordOptions)
    (word : String) (declaration : Declaration) : Parser :=
  ((Run.final (dispatch (.expand feature options) p.skip.pos word p.skip)).move
    (declaration.block - p.skip.pos)).opened

/-- A declaration that can be expanded leads to its block. -/
theorem Parser.exists_leads_blockOf (p : Parser) (feature : BlockFeature)
    (options : KeywordOptions) (word : String) (declaration : Declaration)
    (hword : Lexeme.word? p.skip.unread = some word.toList)
    (hlive : p.skip.namespaces.keyword? p.skip.currentPackage word = some (.expand feature options))
    (hdo : word ≠ "do") (hqualified : Name.isQualified word = false)
    (hexpands : Run.passes (fun _ q =>
      decide ((q.journal.head?.bind Event.site?).map (·.declaration) = some declaration))
      (dispatch (.expand feature options) p.skip.pos word p.skip) = true) (n : Nat) :
    ∃ site : Site, site.word = word ∧ site.feature = feature ∧ site.options = options ∧
      site.declaration = declaration ∧
      (p.blockOf feature options word declaration).journal =
        .opened :: .dispatched site :: p.journal ∧
      Leads (n + 6) .expression p n (.statements (some "\x7d"))
        (p.blockOf feature options word declaration) := by
  obtain ⟨_, hdispatch, hdeclaration⟩ := Run.eq_ok_final hexpands
  rw [decide_eq_true_iff] at hdeclaration
  rw [Parser.blockOf]
  generalize Run.final (dispatch (.expand feature options) p.skip.pos word p.skip) = q
    at hdispatch hdeclaration
  obtain ⟨hnothing, -⟩ | ⟨site, hkeyword, rfl, hexpand⟩ := dispatch_eq_ok hword hlive hdispatch
  · cases hnothing
  obtain ⟨rfl, rfl⟩ := Keyword.expand.inj hkeyword
  have hjournal : q.journal = .dispatched site :: p.journal := by
    obtain ⟨⟨buffer, rfl⟩, -⟩ := hexpand.frame
    rfl
  rw [hjournal] at hdeclaration
  obtain rfl := Option.some.inj hdeclaration
  obtain ⟨after, body, hrewritten, -⟩ := hexpand.rewritten
  obtain ⟨c⟩ := hrewritten.called
  have hinside : site.declaration.block - p.skip.pos = c.inside := by
    rw [c.starts, hrewritten.pos, Nat.add_sub_cancel_left]
    rfl
  refine ⟨site, rfl, rfl, rfl, rfl, congrArg (Event.opened :: ·) hjournal, ?_⟩
  rw [hinside]
  exact hexpand.leads hdo hqualified c n

namespace Followed

variable {k : Followed}

/-- Behind the block of a declaration by the keyword comes the closing parenthesis. -/
theorem Opens.parenthesis {node : Node} (hk : k.Sound) (c : Called site body p)
    (hopens : k.Opens site body (p.move c.inside).opened)
    (hnode : expressionWithin n ((p.move c.arguments).move
      ((Literal.quote site.declaration.name).length + 1)).skip = .ok node q) :
    (significant q.unread).head? = some ')' := by
  obtain ⟨n, rfl⟩ := expressionWithin_fuel hnode
  obtain ⟨statements, hblock, -⟩ := c.atArguments.reads_block hnode
  rw [c.move_block] at hblock
  obtain ⟨j, -, finish, rest, hstatements, hbrace, hclose⟩ :=
    blockWithin_open c.blank_insignificant c.unread_block hblock
  rw [Parser.move_move] at hstatements
  obtain ⟨⟨behind, hparen⟩, -⟩ :=
    hopens.closed hk (fun m _ => steady hk m) hstatements hbrace hclose
  rw [hparen, Lexeme.significant_cons behind (by decide) (by decide)]
  rfl

/-- **The head of a declaration leads to its block and nowhere else.** -/
theorem Header.calls (hk : k.Sound) {c : Called site body p}
    (hopens : k.Opens site body (p.move c.inside).opened) (hg : Header c g q)
    (hcall : Calls n g q h r) :
    Header c h r ∨ h = .statements (some "\x7d") ∧ r = (p.move c.inside).opened := by
  have ha := c.atArguments
  cases hg with
  | name =>
    cases hcall with
    | arguments hs =>
      rw [c.skip_name]
      exact .inl .arguments
  | arguments =>
    cases hcall with
    | item hs =>
      rw [ha.skip]
      exact .inl .target
    | items hs hitem hcomma =>
      obtain ⟨n, rfl⟩ := expressionWithin_fuel hitem
      rw [ha.skip, ha.reads_name n] at hitem
      obtain ⟨-, rfl⟩ := EStateM.Result.ok.inj hitem
      rw [ha.skip_comma]
      exact .inl .behind
  | target => exact absurd hcall (not_calls_quote ha.significant_name)
  | behind =>
    cases hcall with
    | item hs =>
      rw [ha.skip_behind]
      exact .inl .doBlock
    | items hs hitem hcomma =>
      -- behind the block stands a parenthesis, so it is the last argument
      have hparen := hopens.parenthesis hk c hitem
      rw [hcomma] at hparen
      exact absurd (Option.some.inj hparen) (by decide)
  | doBlock =>
    have hword := ha.word_do
    rw [← ha.skip_do] at hword
    cases hcall with
    | parentheses hopen | brackets hopen =>
      rw [ha.significant_do] at hopen
      cases hopen
    | doBlock hdo =>
      rw [ha.skip_do, c.move_do]
      exact .inl .block
    | name hname hne | keyword hname hne =>
      exact absurd (String.toList_inj.1 (Option.some.inj (hname.symm.trans hword))) hne
  | block =>
    cases hcall with
    | inner hs =>
      rw [c.skip_block]
      exact .inr ⟨rfl, rfl⟩

/-! ### Where reading stands -/

variable (k) in
/-- Where reading stands: either every declaration by the keyword has installed it again, or the
head of the last one is being read, or the first statements of its block. -/
inductive At : Nat → Form → Parser → Prop
  | settled {n : Nat} {f : Form} {p : Parser} (h : k.Settled p) : At n f p
  | header {n : Nat} {f : Form} {p q : Parser} {site : Site} {body : List Char}
      (c : Called site body p) (hopens : k.Opens site body (p.move c.inside).opened)
      (h : Header c f q) : At n f q
  | statements {n m : Nat} {b q : Parser} {site : Site} {body : List Char}
      (hopens : k.Opens site body b) (h : Proceeds n b m q) : At m (.statements (some "\x7d")) q
  | statement {n : Nat} {b q : Parser} {body : List Char} (h : k.Opening body b q) :
      At n .statement q.skip

/-- Among the statements of a block the keyword has been installed again, or is going to be. -/
theorem Opens.proceeds (hk : k.Sound) (hopens : k.Opens site body b) (h : Proceeds n b m q)
    (hallows : k.Allows q) :
    k.Opening body b q ∨ ∃ u, k.Renews site.declaration.name b u ∧ k.Kept 0 u q := by
  rcases hopens.renews hk h with hopening | ⟨j, -, u, hu, hproceeds⟩
  · exact .inl hopening
  · exact .inr ⟨u, hu,
      (Steady.proceeds (fun m _ => steady hk m) hproceeds).keeps hallows hu.settled⟩

/-- None of the first statements of a block calls anything. -/
theorem Opening.not_calls (h : k.Opening body b q) : ¬ Calls n .statement q.skip g r := by
  obtain ⟨w, s, hw, hs, hunread, word, hmem, hword⟩ := h.unread
  replace hword : Lexeme.word? q.skip.skip.unread = some word.toList := by
    rw [Parser.skip_skip, Parser.unread_skip, hunread, hw.significant_append,
      hs.significant_append, hword]
  intro hcall
  cases hcall with
  | body hsub =>
    obtain rfl := String.toList_inj.1 (Option.some.inj (hsub.symm.trans hword))
    simp at hmem
  | expression hother =>
    refine hother word ?_ hword
    simp only [List.mem_cons, List.not_mem_nil, or_false] at hmem ⊢
    tauto

theorem Settled.calls (hk : k.Sound) (hp : k.Settled p) (hcall : Calls n f p g q)
    (hallows : k.Allows q) : k.At n g q := by
  rcases hcall.tracked steady_tracks (steady hk n) with
    hq | ⟨s, hs, rfl⟩ | ⟨written, keyword, s, rfl, hword, hlive, hdispatch, hadvance⟩
  · exact .settled (hq.keeps hallows hp).owing
  · exact .settled (hs.keeps (hallows.of_suffix ⟨[.opened], rfl⟩) hp).owing.opened
  · -- a live keyword has been expanded, the followed one or another
    have hskip : k.Settled p.skip := (hp.move _).owing
    have hmove := IsMove.read (Reader.drops_advance _) hadvance
    rcases dispatch_eq_ok hword hlive hdispatch with ⟨-, rfl⟩ | ⟨site, -, rfl, hexpand⟩
    · exact .settled ((Steady.move hmove).keeps hallows hskip).owing
    have hallows' := hallows.of_suffix hmove.isRun.journal_suffix
    by_cases hsite : site.word = k.word
    · obtain ⟨after, body, hrewritten, statements, hgenerate⟩ := hexpand.rewritten
      obtain ⟨c⟩ := hrewritten.called
      rw [hrewritten.read_word hadvance]
      exact .header c (hskip.opens hexpand hsite hallows' hrewritten hgenerate c) .name
    · have hexpanded := hskip.expanded hexpand
      rw [if_neg hsite] at hexpanded
      exact .settled ((Steady.move hmove).keeps hallows hexpanded.owing).owing

/-- **Every call keeps to where reading may stand.** -/
theorem At.calls (hk : k.Sound) (hp : k.At (n + 1) f p) (hcall : Calls n f p g q)
    (hallows : k.Allows q) : k.At n g q := by
  cases hp with
  | settled h => exact h.calls hk hcall hallows
  | header c hopens h =>
    rcases Header.calls hk hopens h hcall with hheader | ⟨rfl, rfl⟩
    · exact .header c hopens hheader
    · exact .statements hopens (.here _ _)
  | statement h => exact absurd hcall h.not_calls
  | statements hopens h =>
    have hcalled {closing : Option String} (hg : g = .statements closing)
        (hclosing : closing = some "\x7d") : k.At n g q := by
      subst hg hclosing
      exact .statements hopens (h.call hcall)
    cases hcall with
    | statement =>
      -- either it is one of the first statements, or they have installed the keyword again
      rcases hopens.proceeds hk h (hallows.of_suffix (IsMove.skip p).isRun.journal_suffix) with
        hopening | ⟨u, hu, hkept⟩
      · exact .statement hopening
      · exact .settled (hkept.owing.move _).owing
    | skipped | more | last => exact hcalled rfl rfl

/-- Where reading stands at a call that another one leads to. -/
theorem At.leads (hk : k.Sound) (hp : k.At n f p) (h : Leads n f p m g q) (hallows : k.Allows q) :
    k.At m g q := by
  induction h with
  | here => exact hp
  | call _ hlast ih => exact (ih hp (hallows.of_suffix hlast.journal_suffix)).calls hk hlast hallows

/-- The block of the declaration that was expanded last is one that a declaration by the keyword
opens. -/
theorem At.opens {events : List Event} (hk : k.Sound)
    (hb : k.At m (.statements (some "\x7d")) b)
    (hjournal : b.journal = .opened :: .dispatched site :: (events ++ k.start.journal))
    (hword : site.word = k.word) (hallows : k.Allows b) : ∃ body, k.Opens site body b := by
  -- the declaration of the block counts, and nothing has been installed for it yet
  have hsettled : ¬ k.Settled b := by
    rintro ⟨-, -, -, events', hevents', hbalanced⟩
    obtain rfl : events' = .opened :: .dispatched site :: events :=
      List.append_cancel_right (hevents'.symm.trans hjournal)
    have hinstalls := (hallows _ hevents').installs events ⟨[.opened, .dispatched site], rfl⟩
    rw [List.countP_cons_of_neg (by simp [Event.installs]),
      List.countP_cons_of_neg (by simp [Event.installs]),
      List.countP_cons_of_neg (by simp [Event.declares]),
      List.countP_cons_of_pos (by simpa [Event.declares] using hword)] at hbalanced
    omega
  cases hb with
  | settled h => exact absurd h hsettled
  | header c hopens h => cases h
  | statements hopens h =>
    rcases hopens.proceeds hk h hallows with hopening | ⟨u, -, hkept⟩
    · rcases hopening.journal with rfl | ⟨hook, events', hregistered⟩
      · obtain ⟨earlier, hearlier⟩ := hopens.journal
        rw [hjournal] at hearlier
        obtain ⟨rfl, -⟩ : site = _ ∧ _ := by simpa using hearlier
        exact ⟨_, hopens⟩
      · rw [hjournal] at hregistered
        cases hregistered
    · exact absurd hkept.owing hsettled

/-! ### Behind the first statements of a block -/

/-- The first statements of a block are not yet read to their end. -/
theorem Opens.before (hb : k.Opens site body b) (h : k.Opening body b q) :
    q.pos < site.declaration.block + site.injected.length := by
  obtain ⟨w, s, -, ⟨c, tail, rfl, -⟩, hunread, -⟩ := h.unread
  have hb' := congrArg List.length hb.unread
  have hq := congrArg List.length hunread
  rw [Parser.unread, h.buffer] at hq
  rw [Parser.unread, hb.pos] at hb'
  simp only [List.length_drop, List.length_append, List.length_cons] at hb' hq
  omega

/-- Behind the first statements of a block its package is open. -/
theorem Opens.entered (hk : k.Sound) (hb : k.Opens site body b)
    (hpreamble : k.options.preamble = []) (hextra : k.feature.Plain)
    (h : Proceeds fuel b n r) (hread : site.declaration.block + site.injected.length ≤ r.pos) :
    ∃ m e, Proceeds fuel b m e ∧ Proceeds m e n r ∧
      e.pos = site.declaration.block + site.injected.length ∧
      e.currentPackage = site.declaration.name := by
  obtain ⟨statements, hgenerate⟩ := hb.generates
  have hpreamble' : site.options.preamble = [] :=
    (congrArg KeywordOptions.preamble hb.drives.options).trans hpreamble
  obtain ⟨rows, extra, hrows, hquiet, hnodes, -⟩ := Preamble.generate_rows
    (hb.drives.feature ▸ hextra.extra) hpreamble' (hb.drives.feature ▸ hk.name) hb.version hgenerate
  have hinjected := Site.injected_eq hgenerate hrows
  have hunread := hb.unread
  rw [hinjected, hb.drives.feature] at hunread
  have hbehind {q : Parser} (hopening : k.Opening body b q) : q.pos ≠ r.pos := by
    have := hb.before hopening
    omega
  rcases hb.owing.trigger (' ' :: ("package ".toList ++ site.declaration.name.toList ++
      ';' :: spaced (rows.map (·.1)))) body hk.name (by rw [hunread]; simp) h with
    hopening | ⟨m₁, -, q₁, hq₁, hunread₁, hreached₁, hproceeds₁⟩
  · exact absurd rfl (hbehind hopening)
  rcases hq₁.package (spaced (rows.map (·.1))) body hb.name (by rw [hunread₁]; simp)
    hproceeds₁ with hopening | ⟨m₂, -, q₂, hq₂, hpackage₂, hunread₂, hreached₂, hproceeds₂⟩
  · exact absurd rfl (hbehind hopening)
  -- what is left to read is as long as what stands behind the package
  have hlength₂ : q₂.pos + (spaced (rows.map (·.1))).length =
      site.declaration.block + site.injected.length := by
    have hb' := congrArg List.length hb.unread
    have hq := congrArg List.length hunread₂
    rw [Parser.unread, hq₂.buffer] at hq
    rw [Parser.unread, hb.pos] at hb'
    have hinjected' : 0 < site.injected.length := by rw [hinjected]; simp
    have hrest : 0 < (spaced (rows.map (·.1))).length := by
      cases rows with
      | nil => simp at hnodes
      | cons row rows => simp [spaced]
    simp only [List.length_drop, List.length_append] at hb' hq
    omega
  rcases hproceeds₂.spaced hquiet hunread₂ hpackage₂ with hbefore | ⟨m, e, he, hreached, hmore⟩
  · omega
  · exact ⟨m, e, (hreached₁.trans hreached₂).trans hreached, hmore, by rw [he.pos, hlength₂],
      he.package.trans hpackage₂⟩

variable (k) in
/-- Reading has come from where the keyword is followed to the block of one of its declarations,
from `b` on, and goes on to a parser `u` behind the statements that the declaration has injected.
On the way the keyword has not been disturbed. -/
structure InBlock (site : Site) (m : Nat) (b : Parser) (n : Nat) (u : Parser) : Prop where
  leads : ∃ fuel f, Leads fuel f k.start m (.statements (some "\x7d")) b
  expanded : ∃ events, b.journal = .opened :: .dispatched site :: (events ++ k.start.journal)
  word : site.word = k.word
  proceeds : Proceeds m b n u
  behind : site.declaration.block + site.injected.length ≤ u.pos
  undisturbed : k.Allows u

/-- **The keyword is live in every block that one of its declarations opens**, however deep, once
the statements at the top of the block have been read: it is the keyword for the same feature, with
the same options up to tuples made lists.  If these statements are the default ones and those of
the feature, reading goes through a parser right behind them, where the package of the block is
the current one. -/
theorem live_in_block (hk : k.Sound) (h : k.InBlock site m b n u) :
    u.namespaces.keyword? site.declaration.name k.word = some k.renewed ∧
      (k.options.preamble = [] → k.feature.Plain →
        ∃ j e, Proceeds m b j e ∧ Proceeds j e n u ∧
          e.pos = site.declaration.block + site.injected.length ∧
          e.currentPackage = site.declaration.name ∧
          e.namespaces.keyword? e.currentPackage k.word = some k.renewed) := by
  obtain ⟨⟨fuel, f, hleads⟩, ⟨events, hjournal⟩, hword, hproceeds, hbehind, hallows⟩ := h
  have hstart : k.Settled k.start := ⟨hk.registered, hk.package, .refl _, [], rfl, rfl⟩
  have hsuffix {i j : Nat} {q r : Parser} (h : Proceeds i q j r) : q.journal <:+ r.journal :=
    (Steady.proceeds (fun m _ => steady hk m) h).run.journal_suffix
  have hallowsBlock := hallows.of_suffix (hsuffix hproceeds)
  obtain ⟨body, hopens⟩ := (At.leads hk (.settled hstart) hleads hallowsBlock).opens hk hjournal
    hword hallowsBlock
  -- behind the first statements no other parser is left than one that has the keyword again
  have hlive {j : Nat} {e : Parser} (h : Proceeds m b j e)
      (he : site.declaration.block + site.injected.length ≤ e.pos) (hallows : k.Allows e) :
      e.namespaces.keyword? site.declaration.name k.word = some k.renewed := by
    rcases hopens.proceeds hk h hallows with hopening | ⟨s, hs, hkept⟩
    · exact absurd (hopens.before hopening) (Nat.not_lt.2 he)
    · have hmeaning := (hkept.meaning site.declaration.name).trans (hs.meaning _)
      rw [if_pos rfl] at hmeaning
      exact congrArg Prod.snd hmeaning
  refine ⟨hlive hproceeds hbehind hallows, fun hpreamble hplain => ?_⟩
  obtain ⟨j, e, hreached, hmore, hpos, hpackage⟩ :=
    hopens.entered hk hpreamble hplain hproceeds hbehind
  refine ⟨j, e, hreached, hmore, hpos, hpackage, ?_⟩
  rw [hpackage]
  exact hlive hreached hpos.ge (hallows.of_suffix (hsuffix hmore))

/-! ### Keywords with default options -/

/-- The keyword of a feature, installed with default options and followed from the start of a
text on. -/
def atStart (setting : Setting) (feature : BlockFeature) (text : String) : Followed where
  start := { Run.final (installPrelude setting.package [(feature.name, .null)]
    (setting.parser text)) with journal := [] }
  feature := feature
  options := ⟨feature.keyword, [], []⟩

/-- The beginning of the block of the first declaration by the keyword. -/
def firstBlock (k : Followed) (declaration : Declaration) : Parser :=
  k.start.blockOf k.feature k.options k.word declaration

variable {setting : Setting} {feature : BlockFeature} {text : String} {declaration : Declaration}

/-- Only declarations by the keyword have been expanded and only as many keywords of its spelling
installed, and no subroutine has been read. -/
def OnlyDeclares (feature : BlockFeature) (events : List Event) : Prop :=
  (∀ earlier ∈ events.tails,
    earlier.countP (·.installs feature.keyword) ≤ earlier.countP (·.declares feature.keyword)) ∧
  events.all (fun
    | .defined .. => false
    | _ => true) = true ∧
  ∀ site ∈ events.filterMap Event.site?, site.feature = feature ∧
    site.options.spelling = feature.keyword ∧ site.options.inner.isEmpty = true ∧
      site.options.preamble = []

instance (feature : BlockFeature) (events : List Event) :
    Decidable (OnlyDeclares feature events) := inferInstanceAs (Decidable (_ ∧ _ ∧ _))

theorem OnlyDeclares.allows (h : OnlyDeclares feature u.journal) :
    (atStart setting feature text).Allows u := by
  intro events hevents
  obtain rfl : u.journal = events := hevents.trans (List.append_nil events)
  obtain ⟨hinstalls, hdefined, hdrivers⟩ := h
  refine ⟨fun earlier hearlier => hinstalls earlier ((List.mem_tails _ _).2 hearlier),
    fun package hmem => ?_, fun site hsite _ _ => ?_⟩
  · cases List.all_eq_true.1 hdefined _ hmem
  · obtain ⟨hfeature, hspelling, hinner, hpreamble⟩ :=
      hdrivers site (mem_filterMap_site?.2 hsite)
    obtain ⟨offset, word, package, feature', ⟨spelling, inner, preamble⟩, declaration⟩ := site
    obtain rfl := List.isEmpty_iff.1 hinner
    obtain rfl : spelling = feature.keyword := hspelling
    obtain rfl : preamble = [] := hpreamble
    exact ⟨hfeature, rfl⟩

/-- The parser is behind the statements that a declaration has injected, and on the way the keyword
has only been declared with. -/
def ReadOn (k : Followed) (declaration : Declaration) (u : Parser) : Prop :=
  declaration.block + (Site.injected ⟨0, k.word, "", k.feature, k.options, declaration⟩).length ≤
      u.pos ∧ OnlyDeclares k.feature u.journal

instance (k : Followed) (declaration : Declaration) (u : Parser) :
    Decidable (ReadOn k declaration u) := inferInstanceAs (Decidable (_ ∧ _))

/-- The first declaration in a text leads to its block, and on to a parser behind the injected
statements. -/
theorem exists_inBlock {k : Followed}
    (hk : k = atStart setting feature text)
    (hword : Lexeme.word? k.start.skip.unread = some k.word.toList)
    (hlive : k.start.skip.namespaces.keyword? k.start.skip.currentPackage k.word =
      some (.expand k.feature k.options))
    (hspelling : k.word ≠ "do" ∧ Name.isQualified k.word = false)
    (hexpands : Run.passes (fun _ q =>
      decide ((q.journal.head?.bind Event.site?).map (·.declaration) = some declaration))
      (dispatch (.expand k.feature k.options) k.start.skip.pos k.word k.start.skip) = true)
    (hproceeds : Proceeds m (k.firstBlock declaration) n u)
    (hread : ReadOn k declaration u) :
    ∃ site : Site, site.declaration = declaration ∧
      k.InBlock site m (k.firstBlock declaration) n u := by
  obtain ⟨site, hword, hfeature, hoptions, rfl, hjournal, hleads⟩ :=
    k.start.exists_leads_blockOf k.feature k.options k.word declaration hword hlive hspelling.1
      hspelling.2 hexpands m
  subst hk
  refine ⟨site, rfl, ⟨_, _, hleads⟩, ⟨[], hjournal⟩, hword, hproceeds, ?_, hread.2.allows⟩
  rw [Site.injected, hfeature, hoptions]
  exact hread.1

/-- The keyword `module` in front of a declaration. -/
def fooModule : Followed := atStart {} .standard "module Foo \x7b 1 \x7d"

/-- The beginning of the block. -/
def fooBlock : Parser := fooModule.firstBlock ⟨"Foo", none, .name, 20⟩

/-- The keyword is live in the block of a module. -/
theorem live_in_block_module : fooModule.Sound ∧
    ∃ site u, site.declaration.name = "Foo" ∧ fooModule.InBlock site 20 fooBlock 16 u ∧
      u.namespaces.keyword? site.declaration.name "module" = some fooModule.renewed := by
  have hsound : fooModule.Sound :=
    ⟨by decide +kernel, by decide +kernel, by simp [fooModule, atStart], by decide +kernel⟩
  have hread : (fooBlock.behind? 16 4).any
      (fun u => decide (ReadOn fooModule ⟨"Foo", none, .name, 20⟩ u)) = true := by
    decide +kernel
  obtain ⟨u, hu, hread⟩ := (Option.any_eq_true _ _).1 hread
  obtain ⟨site, hdeclaration, hblock⟩ := exists_inBlock (k := fooModule) rfl (by decide +kernel)
    (by rfl) (by decide +kernel) (by decide +kernel) (.of_behind? hu) (of_decide_eq_true hread)
  exact ⟨hsound, site, u, by rw [hdeclaration], hblock, (live_in_block hsound hblock).1⟩

/-- The keyword `module` in a package whose name ends in a comment sign. -/
def commentedModule : Followed :=
  atStart { package := "x #" } .standard "module \x7b\n; 1 \x7d"

/-- The beginning of the block. -/
def commentedBlock : Parser := commentedModule.firstBlock ⟨"x #", none, .keyword, 19⟩

/-- Behind the name of the package all statements at the top of the block are a comment. -/
theorem commentedModule_lost :
    ∃ site u, commentedModule.InBlock site 20 commentedBlock 18 u ∧ u.currentPackage = "x" ∧
      u.namespaces.keyword? "x" "module" = none := by
  have hread : (commentedBlock.behind? 18 2).any (fun u =>
      decide (ReadOn commentedModule ⟨"x #", none, .keyword, 19⟩ u) &&
        (decide (u.currentPackage = "x") && (u.namespaces.keyword? "x" "module").isNone)) =
          true := by decide +kernel
  obtain ⟨u, hu, hread⟩ := (Option.any_eq_true _ _).1 hread
  simp only [Bool.and_eq_true, decide_eq_true_iff, Option.isNone_iff_eq_none] at hread
  obtain ⟨site, -, hblock⟩ := exists_inBlock (k := commentedModule) rfl (by decide +kernel) (by rfl)
    (by decide +kernel) (by decide +kernel) (.of_behind? hu) hread.1
  exact ⟨site, u, hblock, hread.2⟩

/-- The keyword of a feature whose name ends in a comment sign. -/
def hashedKeyword : Followed :=
  atStart { features := hashedSetting.features } hashedFeature
    "hashed Foo \x7b\n.scope_end; 5 \x7d"

/-- The beginning of the block. -/
def hashedBlock : Parser := hashedKeyword.firstBlock ⟨"Foo", none, .name, 20⟩

/-- Behind the name of the feature all statements at the top of the block are a comment. -/
theorem hashedKeyword_lost :
    ∃ site u, site.declaration.name = "Foo" ∧
      hashedKeyword.InBlock site 20 hashedBlock 19 u ∧
      u.namespaces.keyword? "Foo" "hashed" = none := by
  have hread : (hashedBlock.behind? 19 1).any (fun u =>
      decide (ReadOn hashedKeyword ⟨"Foo", none, .name, 20⟩ u) &&
        (u.namespaces.keyword? "Foo" "hashed").isNone) = true := by decide +kernel
  obtain ⟨u, hu, hread⟩ := (Option.any_eq_true _ _).1 hread
  simp only [Bool.and_eq_true, decide_eq_true_iff, Option.isNone_iff_eq_none] at hread
  obtain ⟨site, hdeclaration, hblock⟩ := exists_inBlock (k := hashedKeyword) rfl
    (by decide +kernel) (by rfl) (by decide +kernel) (by decide +kernel) (.of_behind? hu) hread.1
  exact ⟨site, u, by rw [hdeclaration], hblock, hread.2⟩

/-- A module in which a package is entered where `module` has other options. -/
def otherModule : String :=
  "package P; use module \x7b\"preamble\" => [\"version 2\"]\x7d; package main; use module; " ++
    "module A \x7b package P; module B \x7b 1 \x7d \x7d"

/-- **Not in every block is the keyword live**: a declaration in the block may stand in a package
where the word is another keyword, and the name of a package or of a feature may turn the
statements at the top of the block into a comment. -/
theorem not_live_in_every_block :
    (∃ program p site, script {} (({} : Setting).parser otherModule) = .ok program p ∧
      .dispatched site ∈ p.journal ∧ site.word = "module" ∧ site.declaration.name = "B" ∧
      site.options.preamble = ["version 2"]) ∧
    (∃ site u, commentedModule.InBlock site 20 commentedBlock 18 u ∧ u.currentPackage = "x" ∧
      u.namespaces.keyword? "x" "module" = none) ∧
    ∃ site u, site.declaration.name = "Foo" ∧ hashedKeyword.InBlock site 20 hashedBlock 19 u ∧
      u.namespaces.keyword? "Foo" "hashed" = none := by
  refine ⟨?_, commentedModule_lost, hashedKeyword_lost⟩
  have hread : Run.passes (fun _ p => (p.journal.filterMap Event.site?).any fun site =>
      decide (site.word = "module" ∧ site.declaration.name = "B" ∧
        site.options.preamble = ["version 2"]))
      (script {} (({} : Setting).parser otherModule)) = true := by decide +kernel
  obtain ⟨program, p, hscript, hread⟩ := Run.passes_iff.1 hread
  obtain ⟨site, hsite, hread⟩ := List.any_eq_true.1 hread
  exact ⟨program, p, site, hscript, mem_filterMap_site?.1 hsite, of_decide_eq_true hread⟩

end Followed

end BraceScript
