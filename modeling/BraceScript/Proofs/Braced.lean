import BraceScript.Proofs.Joined
import BraceScript.Proofs.Respacing

/-!
# Statements in braces and statements that stand alone

A text that is read to its end is read alike with a line break and a closing brace behind it
(`Lexeme.readAlike_braced`): the line break ends a comment in which the text may have ended, and
nothing else is open there.  So a list of statements that goes up to the end of a text is read
alike in a block, whatever is around the block (`Parse.statementsWithin_braced`), the declarations
in it included.
-/

namespace BraceScript

open Lexeme (significant Insignificant Past Level Ended ReadAlike EndsLexeme isLexer_word?
  isLexer_literal? insignificant insignificantFrom)
open Declaration (Head)
open BraceScript.Parser (ApartIn Dispatches)

/-! ### Texts that go on with a brace -/

namespace Lexeme

variable {rest s t t' : List Char}

/-- What is significant stays so in front of further text. -/
theorem significant_append (h : significant t ≠ []) (s : List Char) :
    insignificant (t ++ s) = insignificant t ∧ significant (t ++ s) = significant t ++ s := by
  have hgap := insignificant_take t h
  have hsplit : t ++ s = t.take (insignificant t) ++ (significant t ++ s) := by
    rw [← List.append_assoc, significant, List.take_append_drop]
  have hzero : insignificant (significant t ++ s) = 0 := by
    obtain ⟨c, u, hcons⟩ := List.exists_cons_of_ne_nil h
    have hnone := insignificant_significant t
    rw [hcons, insignificant, insignificantFrom] at hnone
    rw [hcons, List.cons_append, insignificant, insignificantFrom]
    split at hnone
    · omega
    · next hblank =>
      rw [if_neg hblank]
      split at hnone
      · omega
      · next hcomment => rw [if_neg hcomment]
  have hlength : insignificant (t ++ s) = insignificant t := by
    rw [hsplit, hgap, hzero, List.length_take, Nat.min_eq_left (insignificant_le_length t)]
    rfl
  exact ⟨hlength, by
    rw [significant, hlength, List.drop_append_of_le_length (insignificant_le_length t),
      significant]⟩

/-- A line break ends the comment in which a text may have ended. -/
theorem insignificant_lineBreak (h : significant t = []) : Insignificant (t ++ ['\n']) := by
  -- stated for a text that begins within a comment too, for the induction
  have hfrom : ∀ (inComment : Bool) (t rest : List Char),
      t.length ≤ insignificantFrom inComment t →
      insignificantFrom inComment (t ++ '\n' :: rest) =
        t.length + 1 + insignificantFrom false rest := by
    intro inComment t rest
    fun_induction insignificantFrom inComment t with
    | case1 inComment =>
      intro _
      cases inComment <;> simp [insignificantFrom, Text.isBlank, Nat.add_comm]
    | case2 c t ih =>
      intro h
      rw [List.cons_append, insignificantFrom, ih (by simpa using h), List.length_cons]
      omega
    | case3 c t hblank ih =>
      intro h
      rw [List.cons_append, insignificantFrom, if_pos hblank, ih (by simpa using h),
        List.length_cons]
      omega
    | case4 t hblank ih =>
      intro h
      rw [List.cons_append, insignificantFrom, if_neg hblank, if_pos rfl, ih (by simpa using h),
        List.length_cons]
      omega
    | case5 c t hblank hcomment => simp
  intro rest
  rw [significant, List.drop_eq_nil_iff] at h
  rw [List.append_assoc, List.length_append]
  exact hfrom false t rest h

/-- A quoted text that is closed is the same in front of further text. -/
theorem quoted_append_of_ok {chars : List Char} {read : Nat}
    (h : quoted t = .ok (chars, read)) (s : List Char) :
    quoted (t ++ s) = .ok (chars, read) ∧ read ≤ t.length := by
  fun_induction quoted t generalizing chars read with
  | case1 => cases h
  | case2 t =>
    obtain ⟨rfl, rfl⟩ := Prod.mk.inj (Except.ok.inj h)
    exact ⟨rfl, by simp⟩
  | case3 => cases h
  | case4 c t ih =>
    obtain ⟨⟨chars', read'⟩, hread, h⟩ := Run.except_bind_eq_ok.1 h
    obtain ⟨rfl, rfl⟩ := Prod.mk.inj (Except.ok.inj h)
    obtain ⟨hquoted, hle⟩ := ih hread
    refine ⟨?_, by simpa using hle⟩
    simp only [List.cons_append, quoted, hquoted]
    rfl
  | case5 c t hquote hend hescape ih =>
    obtain ⟨⟨chars', read'⟩, hread, h⟩ := Run.except_bind_eq_ok.1 h
    obtain ⟨rfl, rfl⟩ := Prod.mk.inj (Except.ok.inj h)
    obtain ⟨hquoted, hle⟩ := ih hread
    have hbackslash : c ≠ '\\' := by
      rintro rfl
      cases t with
      | nil => exact hend rfl rfl
      | cons d t => exact hescape d t rfl rfl
    refine ⟨?_, by simpa using hle⟩
    rw [List.cons_append, quoted, hquoted]
    · rfl
    · exact hquote
    · exact fun hc => absurd hc hbackslash
    · exact fun d s hc => absurd hc hbackslash

/-- The second text goes on with a line break and a brace behind the first one, or with the brace
alone where the first one has nothing but closing parentheses. -/
def Braced (rest t t' : List Char) : Prop :=
  ∃ gap, t' = t ++ (gap ++ '\x7d' :: rest) ∧ (gap = ['\n'] ∨ gap = [] ∧ ∀ c ∈ t, c = ')')

namespace Braced

theorem line (rest t : List Char) : Braced rest t (t ++ '\n' :: '\x7d' :: rest) :=
  ⟨['\n'], rfl, .inl rfl⟩

/-- The same behind some text. -/
theorem of_append {v gap : List Char} (h : gap = ['\n'] ∨ gap = [] ∧ ∀ c ∈ v ++ t, c = ')') :
    Braced rest t (t ++ (gap ++ '\x7d' :: rest)) :=
  ⟨gap, rfl, h.imp_right fun h => ⟨h.1, fun c hc => h.2 c (List.mem_append_right v hc)⟩⟩

/-- What the second text goes on with. -/
theorem tail (rest : List Char) {gap : List Char} {P : Prop} (h : gap = ['\n'] ∨ gap = [] ∧ P) :
    ∃ c s, gap ++ '\x7d' :: rest = c :: s ∧ (c = '\n' ∨ c = '\x7d') := by
  rcases h with rfl | ⟨rfl, -⟩
  · exact ⟨_, _, rfl, .inl rfl⟩
  · exact ⟨_, _, rfl, .inr rfl⟩

theorem endsLexeme (rest : List Char) {gap : List Char} {P : Prop}
    (h : gap = ['\n'] ∨ gap = [] ∧ P) : EndsLexeme (gap ++ '\x7d' :: rest) := by
  obtain ⟨c, s, heq, rfl | rfl⟩ := tail rest h <;>
  · rw [heq]
    exact .cons s (Lexeme.isDelimiter_of_mem (by simp))

theorem significant (h : Braced rest t t') :
    Lexeme.significant t ≠ [] ∧ Level (Braced rest) (Lexeme.significant t) (Lexeme.significant t') ∨
      Lexeme.significant t = [] ∧ Lexeme.significant t' = '\x7d' :: rest := by
  have hbrace : Lexeme.significant ('\x7d' :: rest) = '\x7d' :: rest :=
    significant_cons rest (by decide) (by decide)
  obtain ⟨gap, rfl, hgap⟩ := h
  by_cases hnil : Lexeme.significant t = []
  · refine .inr ⟨hnil, ?_⟩
    rcases hgap with rfl | ⟨rfl, hparentheses⟩
    · have happend := (insignificant_lineBreak hnil).significant_append ('\x7d' :: rest)
      rw [List.append_assoc, hbrace] at happend
      exact happend
    · cases t with
      | nil => exact hbrace
      | cons c t =>
        obtain rfl := hparentheses c List.mem_cons_self
        rw [significant_cons t (by decide) (by decide)] at hnil
        cases hnil
  · obtain ⟨-, happend⟩ := significant_append hnil (gap ++ '\x7d' :: rest)
    have hsplit : t.take (insignificant t) ++ Lexeme.significant t = t := List.take_append_drop _ _
    refine .inl ⟨hnil, ?_, ?_, significant_significant t, significant_significant _⟩
    · rw [happend]
      exact of_append (hsplit.symm ▸ hgap)
    · rw [happend]
      obtain ⟨c, u, hcons⟩ := List.exists_cons_of_ne_nil hnil
      rw [hcons]
      rfl

end Braced

/-- **A text is read alike on its own and with a line break and a brace behind it.** -/
theorem readAlike_braced (rest : List Char) : ReadAlike (Braced rest) where
  level {t t'} h := by
    rcases h.significant with ⟨-, hlevel⟩ | ⟨hnil, hbrace⟩
    · exact .inl hlevel
    · refine .inr ⟨?_, hnil, '\x7d', .inr rfl, by rw [hbrace]; rfl⟩
      rw [hnil, hbrace]
      exact ⟨[], rfl, .inr ⟨rfl, List.forall_mem_nil _⟩⟩
  cons := by
    rintro c t t' ⟨gap, heq, hgap⟩ - - -
    obtain ⟨-, rfl⟩ := List.cons.inj heq
    exact Braced.of_append (v := [c]) hgap
  lexeme := by
    rintro lexeme? hlexer t _ ⟨gap, rfl, hgap⟩
    refine ⟨hlexer.append (Braced.endsLexeme rest hgap), fun v hv => ?_⟩
    obtain ⟨u, rfl⟩ := hlexer.taken hv
    exact ⟨u, _, Braced.of_append hgap, rfl, List.append_assoc _ _ _⟩
  quoted := by
    rintro t t' chars read ⟨gap, heq, hgap⟩ hread
    have heq : t' = t ++ (gap ++ '\x7d' :: rest) := (List.cons.inj heq).2
    subst heq
    obtain ⟨hquoted, hle⟩ := quoted_append_of_ok hread (gap ++ '\x7d' :: rest)
    refine ⟨hquoted, ?_⟩
    rw [List.drop_append_of_le_length hle]
    refine Braced.of_append (v := '"' :: t.take read) ?_
    rwa [List.cons_append, List.take_append_drop]
  arrow := by
    rintro t _ ⟨⟨gap, rfl, hgap⟩, hhead, -, -⟩
    obtain ⟨d, s, heq, hd⟩ := Braced.tail rest hgap
    match t with
    | [] =>
      rw [heq] at hhead
      cases hhead
    | [c] =>
      rw [heq]
      rcases hd with rfl | rfl <;> exact ⟨by simp [List.isPrefixOf], by simp [List.isPrefixOf]⟩
    | c :: e :: t =>
      refine ⟨by simp [List.isPrefixOf], fun h => ?_⟩
      obtain ⟨rfl, rfl⟩ : '=' = c ∧ '>' = e := by simpa [List.isPrefixOf] using h
      exact ⟨t, _, Braced.of_append (v := ['=', '>']) hgap, rfl, rfl⟩
  digit := by
    rintro t _ ⟨⟨gap, rfl, hgap⟩, hhead, -, -⟩
    obtain ⟨d, s, heq, hd⟩ := Braced.tail rest hgap
    match t with
    | [] =>
      rw [heq] at hhead
      cases hhead
    | [c] =>
      rw [heq]
      rcases hd with rfl | rfl <;> simp [show Text.isAnyDigit '\n' = false by decide,
        show Text.isAnyDigit '\x7d' = false by decide]
    | c :: e :: t => rfl

end Lexeme

open Lexeme (Braced readAlike_braced)

/-! ### Declarations -/

namespace Declaration.Head

variable {t s : List Char}

/-- The head of a declaration is the same in front of further text. -/
theorem read_append (h : rest t ≠ []) (hs : EndsLexeme s) :
    read (t ++ s) = read t ∧ rest (t ++ s) = rest t ++ s := by
  have hnil : significant [] = [] := rfl
  have hafterName : significant (afterName t) ≠ [] := by
    intro heq
    rw [rest, afterVersion, heq, List.drop_nil] at h
    exact h hnil
  have ht : significant t ≠ [] := by
    intro heq
    rw [afterName, heq, List.drop_nil] at hafterName
    exact hafterName hnil
  have hblanks {u : List Char} (hu : significant u ≠ []) : blanks (u ++ s) = blanks u := by
    rw [blanks, blanks, (Lexeme.significant_append hu s).1,
      List.take_append_of_le_length (Lexeme.insignificant_le_length u)]
  have hlength {lexeme? : List Char → Option (List Char)} (hlexer : Lexeme.IsLexer lexeme?)
      (u : List Char) : ((lexeme? u).getD []).length ≤ u.length := by
    cases hfound : lexeme? u with
    | none => exact Nat.zero_le _
    | some v => exact (hlexer.taken hfound).length_le
  have hname : afterName (t ++ s) = afterName t ++ s := by
    rw [afterName, (Lexeme.significant_append ht s).2, isLexer_word?.append hs,
      List.drop_append_of_le_length (hlength isLexer_word? _), ← afterName]
  have hversion : afterVersion (afterName t ++ s) = afterVersion (afterName t) ++ s := by
    rw [afterVersion, (Lexeme.significant_append hafterName s).2, isLexer_literal?.append hs,
      List.drop_append_of_le_length (hlength isLexer_literal? _), ← afterVersion]
  constructor
  · simp only [read, hname, hversion, hblanks ht, hblanks hafterName, hblanks h,
      (Lexeme.significant_append ht s).2, (Lexeme.significant_append hafterName s).2,
      isLexer_word?.append hs, isLexer_literal?.append hs]
  · rw [rest, hname, hversion, (Lexeme.significant_append h s).2, ← rest]

theorem injected_append (head : Head) (package : String) (chars body s : List Char) :
    head.injected package chars (body ++ s) = head.injected package chars body ++ s := by
  simp [injected]

end Declaration.Head

namespace Parse

variable {A : Around} {d n : Nat} {W : String → Prop} {p p' q : Parser} {rest : List Char}
  {nodes : List Node} {node : Option Node}

/-- A head that is expanded stands before the end of the first text. -/
theorem follows_dispatch_braced (rest : List Char) (A : Around) (d : Nat) (keyword : Keyword)
    (written : String) (p p' : Parser) :
    Follows (fun _ => True)
      (fun s t => ApartIn A d (fun _ => True) (Past (Braced rest) written.toList) s t ∧
        s = p ∧ t = p')
      (dispatch keyword p.pos written) (dispatch keyword p'.pos written)
      fun _ => ApartIn A d (fun _ => True) (Past (Braced rest) written.toList) := by
  refine follows_dispatch_of (fun {_ _ after after' body _} hafter _ _ hrest _ => ?_) A d keyword
    written p p'
  obtain ⟨gap, hafter, hgap⟩ := hafter
  have hbrace : '\x7b' ∈ after := by
    rw [← Head.text_append_rest after, hrest]
    simp
  obtain rfl : gap = ['\n'] := hgap.resolve_right fun h => absurd (h.2 _ hbrace) (by decide)
  obtain ⟨hread, hrest'⟩ := Head.read_append (by rw [hrest]; exact List.cons_ne_nil _ _)
    (Braced.endsLexeme rest hgap)
  rw [← hafter] at hread hrest'
  rw [hread]
  refine ⟨rfl, rfl, body ++ '\n' :: '\x7d' :: rest, by rw [hrest', hrest]; rfl, ?_⟩
  intro chars
  rw [Head.injected_append]
  exact .line rest _

/-- What a closed scope inserts stays in front of the brace. -/
theorem tandem_braced (rest : List Char) :
    Tandem (fun _ => True) (fun _ => True) (Braced rest) where
  toReadAlike := readAlike_braced rest
  word _ _ := trivial
  close := by
    rintro t _ ⟨gap, rfl, hgap⟩
    exact ⟨gap, rfl, hgap.imp_right fun h => ⟨h.1, List.forall_mem_cons.2 ⟨rfl, h.2⟩⟩⟩
  dispatch := follows_dispatch_braced rest

/-! ### Statements in a block -/

theorem braced_skip (h : ApartIn A d (fun _ => True) (Braced rest) p p') :
    ApartIn A d (fun _ => True) (Braced rest) p.skip p'.skip :=
  h.skip (readAlike_braced rest).significant

/-- Where the first text has ended, the second one has the brace. -/
theorem braced_end (h : ApartIn A d (fun _ => True) (Braced rest) p p')
    (hs : significant p.unread = []) : significant p'.unread = '\x7d' :: rest ∧
      ApartIn A d (fun _ => True) (fun t t' => t = [] ∧ t' = '\x7d' :: rest) p.skip p'.skip := by
  have hs' := (h.text.significant.resolve_left fun h => h.1 hs).2
  exact ⟨hs', h.skip fun _ => ⟨hs, hs'⟩⟩

/-- Before its end, the second text has the same character. -/
theorem braced_head {c : Char} {s : List Char}
    (h : ApartIn A d (fun _ => True) (Braced rest) p p') (hs : significant p.unread = c :: s) :
    ∃ s', significant p'.unread = c :: s' := by
  obtain ⟨-, hsame⟩ := h.text.significant.resolve_right fun h => by rw [hs] at h; cases h.1
  have hhead := hsame.head
  rw [hs, List.head?_cons] at hhead
  exact List.head?_eq_some_iff.1 hhead

/-- Both go on behind a semicolon of the first text. -/
theorem braced_semicolon {s s' : List Char} (h : ApartIn A d (fun _ => True) (Braced rest) p p')
    (hs : significant p.unread = ';' :: s) (hs' : significant p'.unread = ';' :: s') :
    ApartIn A d (fun _ => True) (Braced rest) (p.skip.move 1) (p'.skip.move 1) := by
  have hunread : p.skip.unread = ';' :: s := p.unread_skip.trans hs
  have hunread' : p'.skip.unread = ';' :: s' := p'.unread_skip.trans hs'
  have htext := (braced_skip h).text
  rw [hunread, hunread'] at htext
  refine (braced_skip h).move (by simp [hunread]) (by simp [hunread']) ?_
  rw [hunread, hunread']
  exact (readAlike_braced rest).cons htext (by decide) (by decide) (by decide)

/-- **Statements that go up to the end of a text are read alike in a block**, in front of a line
break and the brace. -/
theorem statementsWithin_braced
    (happart : ApartIn A d (fun _ => True) (Braced rest) p p')
    (h : statementsWithin none n p = .ok nodes q) :
    ∃ q', statementsWithin (some "\x7d") n p' = .ok nodes q' ∧
      ApartIn A d (fun _ => True) (fun t t' => t = [] ∧ t' = '\x7d' :: rest) q q' := by
  induction n generalizing p p' nodes with
  | zero => exact absurd h Run.throw_eq_ok
  | succ n ih =>
    rcases statementsWithin_eq_ok h with ⟨rfl, rfl, hclosed⟩ | ⟨s, hs, h⟩ |
      ⟨node, r, nodes', hnode, rfl, hmore⟩
    · obtain ⟨hs', hapart⟩ := braced_end happart (ends_of_closes_none hclosed)
      exact ⟨p'.skip, statementsWithin_end (.brace hs') n, hapart⟩
    · obtain ⟨s', hs'⟩ := braced_head happart hs
      obtain ⟨q', hrun, hq⟩ := ih (braced_semicolon happart hs hs') h
      exact ⟨q', (statementsWithin_semicolon hs' (by decide)).trans hrun, hq⟩
    · -- both read the statement
      obtain ⟨r', hnode', hrr⟩ := (allFollow (tandem_braced rest) A n).statement.follows
        (braced_skip happart) hnode fun _ _ => trivial
      obtain ⟨c, s, hs, hsemicolon, hbrace⟩ := exists_of_statementWithin hnode
      rw [Parser.unread_skip, Lexeme.significant_significant] at hs
      obtain ⟨s', hs'⟩ := braced_head happart hs
      have hclosing : closes (some "\x7d") c = false :=
        Bool.eq_false_iff.2 (mt closes_brace.1 hbrace)
      rcases hmore with ⟨u, hsr, hmore⟩ | ⟨⟨-, hclosed⟩, hmore⟩
      · obtain ⟨u', hsr'⟩ := braced_head hrr hsr
        obtain ⟨q', hrun, hq⟩ := ih (braced_semicolon hrr hsr hsr') hmore
        refine ⟨q', ?_, hq⟩
        rw [statementsWithin_statement hs' hclosing hsemicolon hnode' hsr', Run.bind_of_ok hrun]
        rfl
      · have hsr : significant r.unread = [] := ends_of_closes_none hclosed
        obtain ⟨rfl, rfl⟩ := statementsWithin_ended_eq_ok hsr hmore
        obtain ⟨hsr', hapart⟩ := braced_end hrr hsr
        obtain ⟨n, rfl⟩ : ∃ m, n = m + 1 := by
          cases n with
          | zero => exact absurd hmore Run.throw_eq_ok
          | succ n => exact ⟨n, rfl⟩
        refine ⟨r'.skip, ?_, hapart⟩
        rw [statementsWithin_last hs' hclosing hsemicolon hnode' (.brace hsr') (by rw [hsr']; simp),
          List.append_nil]

end Parse

end BraceScript
