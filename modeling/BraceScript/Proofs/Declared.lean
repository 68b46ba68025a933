import BraceScript.Proofs.Opening

/-!
# Reading a declaration

A live keyword rewrites the text that follows it, and the rewritten text is what is read next: a
call of the keyword's function with the name of the package and a block.  `Expands.rewritten`
says what the text has become.  `Parse.nameWithin_declared` follows the grammar through it, from
the opening parenthesis to the one that closing the block inserts.
-/

namespace BraceScript

open Lexeme (significant Insignificant IsWord EndsLexeme EndsWord)
open Declaration (Head)
open Parse

/-! ### The rewritten text -/

/-- What the expansion of a declaration has made of the unread text: the head behind the keyword
has become the start of a call, and the injected statements stand behind the brace. -/
structure Rewritten (site : Site) (after body : List Char) (p p' : Parser) : Prop where
  unread : p.unread = site.word.toList ++ after
  rest : Head.rest after = '\x7b' :: body
  name : site.declaration.name = (Head.read after).target site.package
  version : site.declaration.version = (Head.read after).version.map String.ofList
  block : site.declaration.block =
    p.pos + (site.word.toList ++ (Head.read after).expanded site.package).length + 1
  pos : p'.pos = p.pos
  inside : p.pos ≤ p.buffer.text.length
  text : p'.buffer.text = p.buffer.text.take p.pos ++ (site.word.toList ++
    ((Head.read after).expanded site.package ++ '\x7b' :: (site.injected ++ body)))

variable {site : Site} {after body : List Char} {p p' : Parser}

/-- The rewritten text is unread. -/
theorem Rewritten.unread_expanded (h : Rewritten site after body p p') :
    p'.unread = site.word.toList ++
      ((Head.read after).expanded site.package ++ '\x7b' :: (site.injected ++ body)) := by
  have hlength : (p.buffer.text.take p.pos).length = p.pos := by
    rw [List.length_take, Nat.min_eq_left h.inside]
  rw [Parser.unread, h.text, h.pos, List.drop_left' hlength]

/-- The keyword is still what comes next, and is passed. -/
theorem Rewritten.advance_word (h : Rewritten site after body p p') :
    read (Reader.advance site.word.length) p' = .ok () (p'.move site.word.toList.length) := by
  rw [← String.length_toList]
  exact read_advance (by
    rw [h.unread_expanded, List.length_append]
    exact Nat.le_add_right _ _)

theorem Rewritten.read_word {r : Parser} (h : Rewritten site after body p p')
    (hadvance : read (Reader.advance site.word.length) p' = .ok () r) :
    r = p'.move site.word.toList.length :=
  (EStateM.Result.ok.inj (hadvance.symm.trans h.advance_word)).2

/-- The keyword of the site is what expands it. -/
theorem Expands.dispatch_eq (h : Expands site p p') :
    dispatch (.expand site.feature site.options) p.pos site.word p = .ok () p' := by
  obtain ⟨offset, q, hexpand, rfl⟩ := h.expand
  rw [dispatch, Run.get_bind, Run.bind_of_ok hexpand, ← h.offset, ← h.package]
  rfl

/-- What an expansion makes of the text. -/
theorem Expands.rewritten (h : Expands site p p') :
    ∃ after body, Rewritten site after body p p' ∧ ∃ statements,
      Preamble.generate site.feature site.declaration.name site.declaration.version
        site.options = .ok statements := by
  obtain ⟨after, hafter⟩ := Lexeme.word?_prefix h.word
  obtain ⟨c, tail, hcons, -⟩ := (IsWord.of_word? h.word).exists_cons
  have hinside : p.pos ≤ p.buffer.text.length := by
    by_contra hlt
    rw [Parser.unread, List.drop_eq_nil_of_le (by omega), hcons] at hafter
    cases hafter
  have htake : (p.buffer.text.take p.pos).length = p.pos := by
    rw [List.length_take, Nat.min_eq_left hinside]
  -- the text as it is split by the position, in the form in which expansions are described
  have hcursor : (⟨p.buffer, p.pos⟩ : Cursor) =
      ⟨⟨p.buffer.text.take p.pos ++ (site.word.toList ++ after), p.buffer.file⟩,
        (p.buffer.text.take p.pos).length⟩ := by
    rw [hafter, Parser.unread, List.take_append_drop, htake]
  obtain ⟨offset, q, hexpand, rfl⟩ := h.expand
  obtain ⟨c, hread, -, rfl⟩ := expandAt_eq_ok.1 hexpand
  rw [hcursor] at hread
  obtain ⟨body, statements, hrest, hgenerate, hdeclared, hbetween⟩ :=
    Declaration.expand_eq_ok.1 hread
  rw [← h.package] at hgenerate hdeclared hbetween
  have hname := congrArg Declaration.name hdeclared
  have hversion := congrArg Declaration.version hdeclared
  have hblock := congrArg Declaration.block hdeclared
  dsimp only at hname hversion hblock
  rw [← hname, ← hversion] at hgenerate
  refine ⟨after, body, ⟨hafter.symm, hrest, hname, hversion, ?_, rfl, hinside, ?_⟩,
    statements, hgenerate⟩
  · rw [hblock, List.append_assoc, List.length_append, htake]
  · have hinjected : site.injected =
        site.feature.trigger.toList ++ (Preamble.render statements).toList := by
      rw [Site.injected, hgenerate]
    have htext : c.buffer.text = _ := hbetween.text
    rw [hinjected]
    simpa [Parser.note] using htext

namespace Declaration.Head

/-- Where something follows the head, what stands between its parts is insignificant. -/
theorem insignificant_of_rest (h : Head.rest after ≠ []) :
    Insignificant (Head.read after).before ∧
      Insignificant ((Head.read after).between ++ (Head.read after).gap) := by
  have hgap : significant (afterVersion (afterName after)) ≠ [] := h
  have hbetween : significant (afterName after) ≠ [] := by
    intro hnil
    rw [afterVersion, hnil, List.drop_nil] at hgap
    exact hgap rfl
  have hbefore : significant after ≠ [] := by
    intro hnil
    rw [afterName, hnil, List.drop_nil] at hbetween
    exact hbetween rfl
  exact ⟨Lexeme.insignificant_take after hbefore,
    (Lexeme.insignificant_take _ hbetween).append (Lexeme.insignificant_take _ hgap)⟩

theorem isWord_target {package : String} (h : IsWord package.toList) :
    IsWord ((Head.read after).target package).toList := by
  rw [Head.target]
  cases hname : (Head.read after).name with
  | none => exact h
  | some w =>
    rw [Option.map_some, Option.getD_some, String.toList_ofList]
    exact IsWord.of_word? hname

end Declaration.Head

theorem Rewritten.isNumber (h : Rewritten site after body p p') :
    ∀ v ∈ site.declaration.version, Lexeme.IsNumber v.toList := by
  intro v hv
  rw [h.version] at hv
  obtain ⟨w, hw, rfl⟩ := Option.map_eq_some_iff.1 hv
  rw [String.toList_ofList]
  exact Lexeme.isNumber_of_literal? hw

theorem Rewritten.isWord (h : Rewritten site after body p p') (hsite : site.Plain) :
    IsWord site.declaration.name.toList := by
  rw [h.name]
  exact Declaration.Head.isWord_target hsite.package

/-- The call that a declaration has become, from its keyword on: `before` stands in front of the
parenthesis and `gap`, behind a blank, in front of the brace of the block. -/
structure Called (site : Site) (body : List Char) (p : Parser) where
  before : List Char
  gap : List Char
  before_insignificant : Insignificant before
  gap_insignificant : Insignificant gap
  unread : (p.move site.word.toList.length).unread =
    before ++ '(' :: (Literal.quote site.declaration.name ++ (", do ".toList ++
      (gap ++ '\x7b' :: (site.injected ++ body))))
  starts : site.declaration.block = p.pos + (site.word.toList.length + (before.length + 1) +
    ((Literal.quote site.declaration.name).length + 4) + ((' ' :: gap).length + 1))

namespace Called

variable {p : Parser} (c : Called site body p)

/-- How far behind the beginning of the keyword the arguments are. -/
def arguments : Nat := site.word.toList.length + (c.before.length + 1)

/-- How far behind the beginning of the keyword the block is. -/
def block : Nat := c.arguments + ((Literal.quote site.declaration.name).length + 4)

/-- How far behind the beginning of the keyword the block begins. -/
def inside : Nat := c.block + ((' ' :: c.gap).length + 1)

theorem unread_arguments : (p.move c.arguments).unread =
    Literal.quote site.declaration.name ++ (", do ".toList ++
      (c.gap ++ '\x7b' :: (site.injected ++ body))) := by
  rw [arguments, ← Parser.move_move]
  exact Parser.unread_move_append (s := c.before ++ ['(']) (by simpa using c.unread) (by simp)

theorem unread_block : (p.move c.block).unread =
    (' ' :: c.gap) ++ '\x7b' :: (site.injected ++ body) := by
  rw [block, ← Parser.move_move]
  exact Parser.unread_move_append (s := Literal.quote site.declaration.name ++ ", do".toList)
    (by simpa using c.unread_arguments) (by simp)

theorem blank_insignificant : Insignificant (' ' :: c.gap) :=
  Lexeme.Insignificant.append (.blank (by decide) : Insignificant [' ']) c.gap_insignificant

theorem unread_inside : (p.move c.inside).unread = site.injected ++ body := by
  rw [inside, ← Parser.move_move]
  exact Parser.unread_move_append (s := (' ' :: c.gap) ++ ['\x7b'])
    (by simpa using c.unread_block) (by simp)

/-- The brace has been read, so the block begins inside the text. -/
theorem inside_le : c.inside ≤ p.unread.length := by
  have hlength := congrArg List.length c.unread_block
  simp only [Parser.unread_move, List.length_drop, List.length_append, List.length_cons] at hlength
  rw [inside, List.length_cons]
  omega

end Called

/-- The rewritten text is a call. -/
theorem Rewritten.called (h : Rewritten site after body p p') : Nonempty (Called site body p') := by
  have hrest : Declaration.Head.rest after ≠ [] := by simp [h.rest]
  obtain ⟨hbefore, hgap⟩ := Head.insignificant_of_rest hrest
  refine ⟨⟨(Head.read after).before, (Head.read after).between ++ (Head.read after).gap, hbefore,
    hgap, ?_, ?_⟩⟩
  · rw [Parser.unread_move_append h.unread_expanded rfl, Head.expanded, ← h.name]
    simp
  · rw [h.block, Head.expanded, ← h.name, h.pos]
    simp only [List.length_append, List.length_cons, show ", do ".toList.length = 5 from rfl]
    omega

/-! ### Expressions of a call -/

namespace Parse

variable {fuel : Nat} {rest : List Char}

/-- A quoted text. -/
theorem expressionWithin_quote {s : String} (hp : significant p.unread = Literal.quote s ++ rest) :
    expressionWithin (fuel + 1) p =
      .ok (.literal (.text s)) (p.skip.move (Literal.quote s).length) := by
  have hquoted : read Reader.quoted p.skip = .ok s (p.skip.move (Literal.quote s).length) :=
    read_of_ok (p.unread_skip.trans hp)
      (by rw [p.unread_skip, hp, Literal.reader_quoted_quote])
  rw [expressionWithin.eq_def]
  dsimp only
  rw [Run.bind_of_ok (read_peek p), hp]
  exact Run.bind_of_ok hquoted

theorem word?_do (rest : List Char) :
    Lexeme.word? ("do".toList ++ ' ' :: rest) = some "do".toList :=
  Lexeme.word?_append (isWord_of_mem_statementWords "do" (by simp [statementWords]))
    (Lexeme.endsWord_blank rest)

/-- A block behind the word `do`. -/
theorem expressionWithin_do (hp : significant p.unread = "do".toList ++ ' ' :: rest)
    {node : Node} (h : expressionWithin (fuel + 1) p = .ok node p') :
    ∃ statements, blockWithin fuel (p.skip.move 2) = .ok statements p' ∧
      node = .doBlock statements := by
  have hunread : p.skip.unread = 'd' :: 'o' :: ' ' :: rest := p.unread_skip.trans hp
  have hword : Lexeme.word? p.skip.unread = some "do".toList := by
    rw [p.unread_skip, hp, word?_do]
  have hdo : ∀ {w : String}, Lexeme.word? p.skip.unread = some w.toList → w = "do" :=
    fun hw => String.toList_inj.1 (Option.some.inj (hw.symm.trans hword))
  cases expressionWithin_eq_ok h with
  | literal _ hvalue => rcases hvalue "do" hword with hconstant | hpackage <;> contradiction
  | parentheses hopen => simp [hunread] at hopen
  | brackets hopen => simp [hunread] at hopen
  | doBlock _ hblock => exact ⟨_, hblock, rfl⟩
  | name hw hne => exact absurd (hdo hw) hne
  | keyword hw hne => exact absurd (hdo hw) hne

end Parse

/-- The arguments of a call that a declaration becomes are left to be read: the quoted name of the
package, and `do` in front of the block. -/
def Parser.AtArguments (name : String) (rest : List Char) (p : Parser) : Prop :=
  p.unread = Literal.quote name ++ (", do ".toList ++ rest)

namespace Parser.AtArguments

variable {name : String} {rest : List Char} (h : p.AtArguments name rest)
include h

theorem significant_name :
    significant p.unread = Literal.quote name ++ (", do ".toList ++ rest) := by
  rw [show p.unread = _ from h, Literal.quote]
  exact Lexeme.significant_cons _ (by decide) (by decide)

theorem skip : p.skip = p :=
  Parser.skip_eq_self rfl (h.significant_name.trans (Eq.symm h))

/-- The name is a literal. -/
theorem reads_name (fuel : Nat) : Parse.expressionWithin (fuel + 1) p =
    .ok (.literal (.text name)) (p.move (Literal.quote name).length) := by
  rw [Parse.expressionWithin_quote h.significant_name, h.skip]

theorem unread_comma : (p.move (Literal.quote name).length).unread =
    ',' :: ' ' :: ("do".toList ++ ' ' :: rest) := Parser.unread_move_append h rfl

theorem significant_comma : significant (p.move (Literal.quote name).length).unread =
    ',' :: ' ' :: ("do".toList ++ ' ' :: rest) := by
  rw [h.unread_comma]
  exact Lexeme.significant_cons _ (by decide) (by decide)

theorem skip_comma : (p.move (Literal.quote name).length).skip.move 1 =
    p.move ((Literal.quote name).length + 1) := by
  have hcomma := h.significant_comma
  rw [h.unread_comma] at hcomma
  rw [Parser.skip_eq_self h.unread_comma hcomma, Parser.move_move]

theorem unread_behind : (p.move ((Literal.quote name).length + 1)).unread =
    [' '] ++ ("do".toList ++ ' ' :: rest) := by
  rw [← Parser.move_move, Parser.unread_move, h.unread_comma]
  rfl

omit h in
theorem significant_do_append : significant ("do".toList ++ ' ' :: rest) =
    "do".toList ++ ' ' :: rest :=
  (isWord_of_mem_statementWords "do" (by simp [statementWords])).significant_append _

theorem significant_behind : significant (p.move ((Literal.quote name).length + 1)).unread =
    "do".toList ++ ' ' :: rest := by
  rw [h.unread_behind, Insignificant.significant_append (.blank (by decide)),
    significant_do_append]

theorem skip_behind : (p.move ((Literal.quote name).length + 1)).skip =
    p.move ((Literal.quote name).length + 2) := by
  rw [Parser.skip_eq_move h.unread_behind (.blank (by decide)) significant_do_append,
    Parser.move_move]
  rfl

theorem unread_do : (p.move ((Literal.quote name).length + 2)).unread =
    "do".toList ++ ' ' :: rest := by
  rw [← h.skip_behind, Parser.unread_skip, h.significant_behind]

theorem skip_do : (p.move ((Literal.quote name).length + 2)).skip =
    p.move ((Literal.quote name).length + 2) := by
  rw [← h.skip_behind, Parser.skip_skip]

theorem significant_do : significant (p.move ((Literal.quote name).length + 2)).unread =
    "do".toList ++ ' ' :: rest := by
  rw [h.unread_do, significant_do_append]

theorem word_do : Lexeme.word? (p.move ((Literal.quote name).length + 2)).unread =
    some "do".toList := by
  rw [h.unread_do, word?_do]

/-- Behind the comma stands the block. -/
theorem reads_block {fuel : Nat} {node : Node} {q : Parser}
    (hread : Parse.expressionWithin (fuel + 1) (p.move ((Literal.quote name).length + 1)).skip =
      .ok node q) : ∃ statements,
    Parse.blockWithin fuel (p.move ((Literal.quote name).length + 4)) = .ok statements q ∧
      node = .doBlock statements := by
  rw [h.skip_behind] at hread
  obtain ⟨statements, hblock, hnode⟩ := Parse.expressionWithin_do h.significant_do hread
  rw [h.skip_do, Parser.move_move] at hblock
  exact ⟨statements, hblock, hnode⟩

end Parser.AtArguments

namespace Parse

variable {fuel : Nat} {rest : List Char}

/-- The arguments of the call: the name of the package and the block. -/
theorem expressionsWithin_call {name : String} {items : List Node} (hp : p.AtArguments name rest)
    (h : expressionsWithin ')' fuel p = .ok items p') :
    ∃ n < fuel, ∃ statements t,
      blockWithin n (p.move ((Literal.quote name).length + 4)) = .ok statements t ∧
        ((significant t.unread).head? = some ')' →
          items = [.literal (.text name), .doBlock statements] ∧ p' = t.skip.move 1) := by
  obtain ⟨n, rfl⟩ := expressionsWithin_fuel h
  rcases expressionsWithin_eq_ok h with ⟨_, hclosed, -⟩ | ⟨-, item, q, hitem, hmore⟩
  · rw [hp.significant_name, Literal.quote] at hclosed
    cases hclosed
  obtain ⟨n, rfl⟩ := expressionWithin_fuel hitem
  rw [hp.skip, hp.reads_name] at hitem
  obtain ⟨rfl, rfl⟩ := EStateM.Result.ok.inj hitem
  rw [hp.significant_comma, hp.skip_comma] at hmore
  -- behind the name comes the comma
  rcases hmore with ⟨_, items, -, rfl, hitems⟩ | ⟨hne, -⟩
  swap
  · exact absurd rfl hne
  rcases expressionsWithin_eq_ok hitems with ⟨_, hclosed, -⟩ | ⟨-, item, t, hitem, hmore⟩
  · rw [hp.significant_behind] at hclosed
    exact absurd (List.cons.inj hclosed).1 (by decide)
  obtain ⟨n, rfl⟩ := expressionWithin_fuel hitem
  obtain ⟨statements, hblock, rfl⟩ := hp.reads_block hitem
  refine ⟨n, by omega, statements, t, hblock, fun hparen => ?_⟩
  rcases hmore with ⟨_, _, hcomma, -⟩ | ⟨-, _, -, rfl, rfl⟩
  · rw [hcomma] at hparen
    exact absurd (Option.some.inj hparen) (by decide)
  · exact ⟨rfl, rfl⟩

/-- A name in front of an opening parenthesis is called. -/
theorem nameWithin_call {written : String} {w : List Char} {node : Node}
    (hw : Insignificant w) (hp : p.unread = w ++ '(' :: rest)
    (h : nameWithin written fuel p = .ok node p') :
    ∃ n < fuel, ∃ arguments,
      expressionsWithin ')' n (p.move (w.length + 1)) = .ok arguments p' ∧
      node = .call written p'.currentPackage arguments
        (p.namespaces.function? (Name.split written p.currentPackage).1
          (Name.split written p.currentPackage).2) := by
  obtain ⟨n, rfl⟩ := nameWithin_fuel h
  have hopen : significant ('(' :: rest) = '(' :: rest :=
    Lexeme.significant_cons rest (by decide) (by decide)
  have hs : significant p.unread = '(' :: rest := by rw [hp, hw.significant_append, hopen]
  rcases nameWithin_eq_ok h with ⟨_, arguments, -, harguments, rfl⟩ | ⟨hne, -⟩
  · rw [Parser.skip_eq_move hp hw hopen, Parser.move_move] at harguments
    exact ⟨n, Nat.lt_succ_self n, arguments, harguments, rfl⟩
  · rw [hs] at hne
    exact absurd rfl hne

/-- A block behind insignificant text. -/
theorem blockWithin_open {w : List Char} {nodes : List Node} (hw : Insignificant w)
    (hp : p.unread = w ++ '\x7b' :: rest) (h : blockWithin fuel p = .ok nodes p') :
    ∃ n < fuel, ∃ q rest',
      statementsWithin (some "\x7d") n (p.move (w.length + 1)).opened = .ok nodes q ∧
      significant q.unread = '\x7d' :: rest' ∧ closeScope (q.skip.move 1) = .ok () p' := by
  obtain ⟨n, rfl⟩ := blockWithin_fuel h
  have hopen : significant ('\x7b' :: rest) = '\x7b' :: rest :=
    Lexeme.significant_cons rest (by decide) (by decide)
  obtain ⟨_, q, rest', -, hstatements, hbrace, hclose⟩ := blockWithin_eq_ok h
  rw [Parser.skip_eq_move hp hw hopen, Parser.move_move] at hstatements
  exact ⟨n, Nat.lt_succ_self n, q, rest', hstatements, hbrace, hclose⟩

end Parse

/-! ### The end of the block -/

/-- A finalizer that waits is fired. -/
theorem runHook_finalize_armed {i : Nat} (hi : p.finalizers[i]? = some { armed := true })
    (h : runHook (.finalize i) p = .ok () p') :
    p.pos ≤ p.buffer.text.length ∧ p'.pos = p.pos ∧
      p'.finalizers = p.finalizers.modify i (fun f => { f with fired := true }) ∧
      p'.buffer.text.take p.pos = p.buffer.text.take p.pos ∧ p'.unread = ')' :: p.unread := by
  rcases fire_eq_ok (runHook_finalize_eq_ok.1 h) with ⟨-, hquiet⟩ | ⟨f, buffer, hf, rfl, htext⟩
  · rcases hquiet _ hi with h | h <;> cases h
  · obtain rfl : ({ armed := true } : Finalizer) = f := Option.some.inj (hi.symm.trans hf)
    obtain ⟨hle, htext⟩ := htext ⟨rfl, rfl⟩
    replace hle : p.pos ≤ p.buffer.text.length := hle
    replace htext : buffer.text = p.buffer.text.take p.pos ++ ')' :: p.unread := htext
    have htake : (p.buffer.text.take p.pos).length = p.pos := by
      rw [List.length_take, Nat.min_eq_left hle]
    refine ⟨hle, rfl, rfl, ?_, ?_⟩
    · rw [htext, List.take_left' htake]
    · rw [Parser.unread]
      change buffer.text.drop p.pos = _
      rw [htext, List.drop_left' htake]

/-- The scope of a declared block is closed: its finalizer, which is the first hook of the scope,
inserts the closing parenthesis, and the finalizers of further `begin` statements in the block
insert no other text. -/
theorem closing_fires {e₁ e₂ : List Event} {restores h₂ : List ScopeHook} {q r t : Parser}
    (hopen : Frame e₁ (.finalize p.finalizers.length :: restores) p.opened q)
    (hfinalizers : q.finalizers = p.finalizers ++ [{ armed := true }])
    (hbody : Frame e₂ h₂ q r) (hclose : closeScope r = .ok () t) :
    r.pos ≤ r.buffer.text.length ∧ t.pos = r.pos ∧
      t.buffer.text.take r.pos = r.buffer.text.take r.pos ∧
      ∃ n ≤ (restores ++ h₂).countP (·.finalizes),
        t.unread = ')' :: (List.replicate n ')' ++ r.unread) := by
  have hframe := hopen.trans hbody
  obtain ⟨scope, scopes, hscopes, hhooks⟩ := closeScope_eq_ok.1 hclose
  have hgrown := hframe.scopes
  rw [hscopes] at hgrown
  cases hgrown with
  | innermost _ heq _ =>
    have hheq : scope.hooks = .finalize p.finalizers.length :: (restores ++ h₂) := heq
    rw [hheq] at hhooks
    obtain ⟨s, hfire, hmore⟩ := Run.forM_cons_eq_ok.1 hhooks
    obtain ⟨new, hnew, hplain⟩ := hbody.finalizers
    rw [hfinalizers] at hnew
    have hget : ({ r with scopes := p.scopes }.note .closed).finalizers[p.finalizers.length]? =
        some { armed := true } := by
      change r.finalizers[_]? = _
      simp [hnew]
    obtain ⟨hle, hpos, hmodify, htake, hunread⟩ := runHook_finalize_armed hget hfire
    have hfired : s.finalizers = p.finalizers ++ ({ armed := true, fired := true } :: new) := by
      rw [hmodify]
      change r.finalizers.modify _ _ = _
      rw [hnew, List.append_assoc, modify_append_of_le (Nat.le_refl _), Nat.sub_self]
      rfl
    -- The remaining hooks insert in front of the parenthesis that has just been inserted.
    have hran := forM_runHook hmore hfired (List.forall_mem_cons.2 ⟨⟨rfl, rfl⟩, hplain⟩)
      fun i hi => hframe.indices i (List.mem_cons_of_mem _ hi)
    obtain ⟨n, hn, hinside, htext⟩ := hran.text
    obtain ⟨htake', hunread'⟩ := Ran.unread_eq hinside hran.pos htext
    rw [hpos] at htake'
    refine ⟨hle, hran.pos.trans hpos, htake'.trans htake, n, hn, ?_⟩
    rw [hunread', hunread, ← List.singleton_append, ← List.append_assoc, ← List.replicate_succ',
      List.replicate_succ]
    rfl

/-! ### The whole declaration -/

/-- A declaration was read in full, from the parser behind its expansion on: the injected
statements, then the statements of the body, then the end of the block. -/
structure DeclaredRead (site : Site) (body : List Char) (p : Parser) (nodes : List Node)
    (p' : Parser) where
  count : Nat
  start : Parser
  finish : Parser
  closed : Parser
  fuel : Nat
  opening : List Event
  openingHooks : List ScopeHook
  inner : List Event
  innerHooks : List ScopeHook
  rest : List Char
  inside : count ≤ p.unread.length
  opens : Runs opening openingHooks (p.move count).opened start
  injected : Injected site opening openingHooks p start
  unread : start.unread = body
  statements : statementsWithin (some "\x7d") fuel start = .ok nodes finish
  reads : Runs inner innerHooks start finish
  brace : significant finish.unread = '\x7d' :: rest
  closes : closeScope (finish.skip.move 1) = .ok () closed
  behind : p' = closed.move 1

/-- The block of a declaration has been read in full, and closed by its parenthesis. -/
theorem blockWithin_declared {q t : Parser} {fuel : Nat} {block : List Node}
    {statements : List String} (hsite : site.Plain) (hrewritten : Rewritten site after body p q)
    (hgenerate : Preamble.generate site.feature site.declaration.name site.declaration.version
      site.options = .ok statements)
    (c : Called site body q) (h : blockWithin fuel (q.move c.block) = .ok block t)
    (hruns : ∀ n < fuel, ∀ {p nodes p'}, statementsWithin (some "\x7d") n p = .ok nodes p' →
      ∃ e hooks, Runs e hooks p p') :
    ∃ behind, t.unread = ')' :: behind ∧ ∃ extra nodes,
      ∃ d : DeclaredRead site body q nodes (t.move 1), d.fuel < fuel ∧
        (site.feature.extra = [] → extra = []) ∧
        block = (site.declaration.version.map (Node.version site.declaration.name)).toList ++
          extra ++ [.literal .null] ++ nodes := by
  obtain ⟨n, hn, finish, rest, hstatements, hbrace, hclose⟩ :=
    blockWithin_open c.blank_insignificant c.unread_block h
  rw [Parser.move_move] at hstatements
  have hstarts : (q.move c.inside).opened.pos = site.declaration.block := c.starts.symm
  obtain ⟨n', hn', start, nodes, e₁, h₁, hopens, hinjected, hstart, hnodes, extra, hextra, rfl⟩ :=
    opening (p := (q.move c.inside).opened) hsite (hrewritten.isWord hsite) hrewritten.isNumber
      hgenerate c.unread_inside hstarts hstatements
  obtain ⟨e₂, h₂, hreads⟩ := hruns n' (by omega) hnodes
  -- the finalizer of the block inserts the parenthesis that ends the call
  obtain ⟨restores, rfl, hrestores⟩ := hinjected.hooks
  obtain ⟨-, -, -, m, -, hparen⟩ := closing_fires (p := q.move c.inside) hopens.frame
    hinjected.finalizers hreads.frame.pass hclose
  refine ⟨_, hparen, extra, nodes, ⟨c.inside, start, finish, t, n', e₁, _, e₂, h₂, rest,
    c.inside_le, hopens, ?_, hstart, hnodes, hreads, hbrace, hclose, rfl⟩, ?_, hextra, rfl⟩
  · exact ⟨hinjected.buffer, hinjected.pos, hinjected.events, ⟨restores, rfl, hrestores⟩,
      hinjected.finalizers, hinjected.package⟩
  · change n' < fuel
    omega

/-- **A declaration is read as a call** of the keyword's function with the name of the package
and the block, and as one step of a run. -/
theorem nameWithin_declared {q p' : Parser} {fuel : Nat} {node : Node} {statements : List String}
    (hsite : site.Plain) (hrewritten : Rewritten site after body p q)
    (hgenerate : Preamble.generate site.feature site.declaration.name site.declaration.version
      site.options = .ok statements)
    (h : nameWithin site.word fuel (q.move site.word.toList.length) = .ok node p')
    (hruns : ∀ n < fuel, ∀ {p nodes p'}, statementsWithin (some "\x7d") n p = .ok nodes p' →
      ∃ e hooks, Runs e hooks p p') :
    ∃ extra nodes, ∃ d : DeclaredRead site body q nodes p', d.fuel < fuel ∧
      (site.feature.extra = [] → extra = []) ∧ node = .call site.word p'.currentPackage
        [.literal (.text site.declaration.name), .doBlock
          ((site.declaration.version.map (Node.version site.declaration.name)).toList ++
            extra ++ [.literal .null] ++ nodes)]
        (q.namespaces.function? (Name.split site.word q.currentPackage).1
          (Name.split site.word q.currentPackage).2) := by
  obtain ⟨c⟩ := hrewritten.called
  obtain ⟨n₁, hn₁, arguments, harguments, rfl⟩ := nameWithin_call c.before_insignificant c.unread h
  rw [Parser.move_move] at harguments
  obtain ⟨n₂, hn₂, block, t, hblock, hclosed⟩ :=
    expressionsWithin_call c.unread_arguments harguments
  rw [Parser.move_move] at hblock
  obtain ⟨behind, hparen, extra, nodes, d, hfuel, hextra, rfl⟩ :=
    blockWithin_declared hsite hrewritten hgenerate c hblock fun n hn => hruns n (by omega)
  obtain ⟨hsignificant, hskip⟩ := Parser.at_mark hparen (by decide) (by decide)
  obtain ⟨rfl, rfl⟩ := hclosed (by rw [hsignificant]; rfl)
  rw [hskip]
  exact ⟨extra, nodes, d, by omega, hextra, rfl⟩

/-- After a declaration the package is the one that it stands in. -/
theorem DeclaredRead.currentPackage_eq {q p' : Parser} {nodes : List Node}
    (d : DeclaredRead site body q nodes p') : p'.currentPackage = q.currentPackage := by
  have hframe := (d.opens.frame.trans d.reads.frame).pass
  have hran := hframe.closes rfl d.closes
  have hscopes : d.closed.scopes = q.scopes := hran.scopes
  have hroot : d.closed.root = q.root := hran.root.trans hframe.root
  rw [d.behind]
  simp only [Parser.currentPackage, Parser.move_scopes, Parser.move_root, hscopes, hroot]

end BraceScript
