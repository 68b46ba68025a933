import BraceScript.Proofs.DeclaredMeaning
import BraceScript.Proofs.Record

/-!
# Names and the subroutines that they call

A word that the grammar keeps for nothing else is read as a name, and a name with parentheses
behind it as a call (`Parse.expressionWithin_called`).  The call looks the name up where
it is read: an unqualified name in the current package, a qualified one in the package that it
gives itself.

So a subroutine is called by its name as long as the name is unqualified and is not given to
anything else (`Parse.subroutine_called`).  A subroutine may be defined under a qualified name, but
it is then installed under the whole name, which no call looks up
(`Parse.qualified_subroutine_lost`).
-/

namespace BraceScript

open Lexeme (significant IsWord EndsWord)
open Parse

namespace Parse

open Reader (accept advance)

variable {fuel : Nat} {p q : Parser} {written : String} {rest : List Char}

/-! ### Names read in full -/

theorem endsWord_parenthesis (rest : List Char) : EndsWord ('(' :: rest) := by
  have hparenthesis : Text.isWordChar '(' = false := by simp [Lexeme.isWordChar_of_ascii]
  simpa [EndsWord] using hparenthesis

/-- The word is none that the grammar keeps for itself. -/
def IsFree (w : String) : Prop := w ∉ statementWords ∧ ¬ IsValueWord w

instance (w : String) : Decidable (IsFree w) := inferInstanceAs (Decidable (_ ∧ _))

/-- A word begins the expression that it is read as. -/
theorem expressionWithin_word (hword : Lexeme.word? p.unread = some written.toList) :
    expressionWithin (fuel + 1) p = wordExpression written fuel p := by
  have hskip := skip_of_word? hword
  obtain ⟨rest, hrest⟩ := Lexeme.word?_prefix hword
  obtain ⟨c, tail, hcons, hc, -⟩ := (IsWord.of_word? hword).exists_cons
  have hs : significant p.unread = p.unread := by rw [← p.unread_skip, hskip]
  have hunread : p.unread = c :: (tail ++ rest) := by rw [← hrest, hcons, List.cons_append]
  have hne : c ≠ '"' ∧ c ≠ '(' ∧ c ≠ '[' ∧ c ≠ '-' := by
    refine ⟨?_, ?_, ?_, ?_⟩ <;> rintro rfl <;> revert hc <;> decide
  have hnumeric : (Text.isAnyDigit c || c == '-' &&
      (p.unread.drop 1).head?.any Text.isAnyDigit) = false := by
    have hdigit : Text.isAnyDigit c = false := by
      by_contra h
      rw [Lexeme.isWordStart_of_isAnyDigit (by simpa using h)] at hc
      cases hc
    simp [hdigit, hne.2.2.2]
  rw [expressionWithin.eq_def]
  dsimp only
  rw [Run.bind_of_ok (read_peek p), hskip, hs, hunread, List.head?_cons]
  -- the next character is taken out of the match, so that the cases do not unfold it
  generalize hnext : some c = next
  split
  · cases hnext
  · exact absurd (Option.some.inj hnext) hne.1
  · exact absurd (Option.some.inj hnext) hne.2.1
  · exact absurd (Option.some.inj hnext) hne.2.2.1
  · obtain rfl := Option.some.inj hnext
    rw [Run.get_bind, hnumeric, if_neg (by decide), Run.bind_of_ok (read_peekWord p), hskip, hs,
      hword, Option.map_some, String.ofList_toList]
    rfl

/-- A free word that is no live keyword is a name. -/
theorem wordExpression_name (hword : Lexeme.word? p.unread = some written.toList)
    (hfree : IsFree written) (hdead : Name.isQualified written = false →
      p.namespaces.keyword? p.currentPackage written = none) :
    wordExpression written fuel p = nameWithin written fuel (p.move written.length) := by
  obtain ⟨hstatement, hvalue⟩ := hfree
  rw [IsValueWord, not_or, Option.isSome_iff_ne_none, not_not] at hvalue
  have hadvance := read_advance_word hword rfl
  rw [wordExpression]
  dsimp only
  rw [if_neg (by rintro rfl; exact hstatement (by simp [statementWords])),
    if_neg (by simpa using hstatement), hvalue.1]
  dsimp only
  rw [if_neg hvalue.2, Run.get_bind]
  cases hqualified : Name.isQualified written with
  | true =>
    rw [if_neg (by decide)]
    exact Run.bind_of_ok hadvance
  | false =>
    rw [if_pos (by decide), hdead hqualified]
    exact Run.bind_of_ok hadvance

/-- A name with an opening parenthesis behind it is a call of what the name means here. -/
theorem nameWithin_parenthesis (hp : significant p.unread = '(' :: rest) :
    nameWithin written (fuel + 1) p = (do
      let arguments ← expressionsWithin ')' fuel
      return .call written (← get).currentPackage arguments
        (p.namespaces.function? (Name.split written p.currentPackage).1
          (Name.split written p.currentPackage).2) : Parse Node) (p.skip.move 1) := by
  rw [nameWithin.eq_def]
  dsimp only
  rw [Run.get_bind, Run.bind_of_ok (read_accept hp)]
  rfl

/-- No expressions at all. -/
theorem expressionsWithin_closed {closing : Char} (hp : significant p.unread = closing :: rest) :
    expressionsWithin closing (fuel + 1) p = .ok [] (p.skip.move 1) := by
  rw [expressionsWithin.eq_def]
  dsimp only
  rw [Run.bind_of_ok (read_accept hp)]
  rfl

/-- **A name with parentheses behind it is a call** of what the name means where it is read. -/
theorem expressionWithin_called (hwritten : IsWord written.toList) (hfree : IsFree written)
    (hdead : Name.isQualified written = false →
      p.namespaces.keyword? p.currentPackage written = none)
    (hp : p.unread = written.toList ++ '(' :: ')' :: rest) (hfuel : 3 ≤ fuel) :
    expressionWithin fuel p = .ok (.call written p.currentPackage []
      (p.namespaces.function? (Name.split written p.currentPackage).1
        (Name.split written p.currentPackage).2)) (p.move (written.length + 2)) := by
  obtain ⟨n, rfl⟩ := Nat.exists_eq_add_of_le' hfuel
  have hword : Lexeme.word? p.unread = some written.toList := by
    rw [hp]
    exact Lexeme.word?_append hwritten (endsWord_parenthesis _)
  have hopen : (p.move written.length).unread = '(' :: ')' :: rest :=
    Parser.unread_move_append hp String.length_toList
  have hclosed : (p.move (written.length + 1)).unread = ')' :: rest := by
    rw [← Parser.move_move, Parser.unread_move, hopen]
    rfl
  obtain ⟨hopen', hskip⟩ := Parser.at_mark hopen (by decide) (by decide)
  obtain ⟨hclosed', hskip'⟩ := Parser.at_mark hclosed (by decide) (by decide)
  rw [expressionWithin_word hword, wordExpression_name hword hfree hdead,
    nameWithin_parenthesis hopen', hskip, Parser.move_move,
    Run.bind_of_ok (expressionsWithin_closed hclosed'), hskip', Parser.move_move]
  rfl

/-! ### Subroutines -/

/-- What a call of a subroutine without arguments does. -/
theorem evalNode_subroutine (apply : Application) (name package written caller : String)
    (body : List Node) :
    evalNode apply (.call written caller [] (some (.subroutine name package body))) =
      evalBlock apply .null body := by
  funext ns
  have harguments : evalNodes apply [] ns = .ok [] ns := by
    rw [evalNodes.eq_def]
    rfl
  rw [evalNode.eq_def]
  dsimp only
  rw [Run.bind_of_ok harguments, applyWith.eq_def]
  rfl

/-- **A subroutine is called by its name.**  A `sub` statement is read, and later a name that the
grammar keeps for nothing else, with parentheses behind it, in the package in which the statement
stands.  The name is no live keyword then, and since the statement it has been given to nothing else
and nothing has been put back for it.  Then an unqualified name is read as a call of the
subroutine, which does what the block of the statement does.  A qualified name is read as a call of
what it means in the package that it gives. -/
theorem subroutine_called {node : Option Node} {r : Parser} {after : List Event}
    (hsub : statementWithin fuel p = .ok node q)
    (hword : Lexeme.word? p.skip.unread = some "sub".toList) (hlater : Later after q r) :
    ∃ name start body finish n,
      read (Reader.word "a subroutine name") (p.skip.move 3) = .ok name start ∧
      blockWithin n start = .ok body finish ∧
      q.namespaces.function? p.currentPackage name =
        some (.subroutine name p.currentPackage body) ∧
      (IsFree name → (∀ event ∈ after, ¬ event.Binds p.currentPackage name ∧
          event.restored? p.currentPackage name = none) →
        r.currentPackage = p.currentPackage →
        r.namespaces.keyword? p.currentPackage name = none →
        ∀ rest, r.unread = name.toList ++ '(' :: ')' :: rest → ∀ m ≥ 3,
          expressionWithin m r = .ok (.call name p.currentPackage []
            (if Name.isQualified name then
              r.namespaces.function? (Name.split name p.currentPackage).1
                (Name.split name p.currentPackage).2
            else some (.subroutine name p.currentPackage body))) (r.move (name.length + 2))) ∧
      ∀ apply, evalNode apply (.call name p.currentPackage []
        (some (.subroutine name p.currentPackage body))) = evalBlock apply .null body := by
  obtain ⟨fuel, rfl⟩ := statementWithin_fuel hsub
  cases statementWithin_eq_ok hsub with
  | @sub name start finish body _ hname hbody =>
    obtain ⟨hnameWord, hstart⟩ := read_word_eq_ok hname
    have hpackage : start.currentPackage = p.currentPackage := by rw [hstart]; rfl
    rw [hpackage] at hlater ⊢
    have hfunction : (finish.namespaces.installFunction p.currentPackage name
        (.subroutine name p.currentPackage body)).function? p.currentPackage name =
        some (.subroutine name p.currentPackage body) := by
      simp
    refine ⟨name, start, body, finish, fuel, hname, hbody, hfunction,
      fun hfree hafter hcurrent hdead rest hr m hm => ?_, fun apply => evalNode_subroutine ..⟩
    have hkept : r.namespaces.function? p.currentPackage name =
        some (.subroutine name p.currentPackage body) := by
      rw [hlater.function?_eq fun event hevent => (hafter event hevent).1,
        List.filterMap_eq_nil_iff.2 fun event hevent => (hafter event hevent).2]
      exact hfunction
    rw [expressionWithin_called (.of_word? hnameWord) hfree (fun _ => hcurrent ▸ hdead) hr hm,
      hcurrent]
    split
    · rfl
    · next hqualified =>
      rw [Name.split_of_isQualified (by simpa using hqualified), hkept]
  | expression hother => exact absurd hword (hother "sub" (by simp))
  | package hother | version hother | use hother | begin hother => simp [hword] at hother

/-- A subroutine is called right behind its definition. -/
theorem subroutine_called_f :
    let p := ({} : Setting).parser "sub f \x7b 1 \x7d;f()"
    ∃ node q body, statement p = .ok node q ∧
      expressionWithin 3 (q.move 1) =
        .ok (.call "f" "main" [] (some (.subroutine "f" "main" body))) (q.move 4) ∧
      ∀ apply, evalNode apply (.call "f" "main" [] (some (.subroutine "f" "main" body))) =
        evalBlock apply .null body := by
  intro p
  have hread : Run.passes (fun _ q => decide ((q.move 1).unread = "f()".toList) &&
      (q.currentPackage == "main" && (q.namespaces.keyword? "main" "f").isNone)) (statement p) =
        true := by decide +kernel
  obtain ⟨node, q, hstatement, hread⟩ := Run.passes_iff.1 hread
  simp only [Bool.and_eq_true, decide_eq_true_iff, beq_iff_eq, Option.isNone_iff_eq_none] at hread
  obtain ⟨hunread, hcurrent, hdead⟩ := hread
  have hlater : Later [] q (q.move 1) :=
    Turn.later (.quiet (fun _ _ => rfl) (fun _ _ => rfl) rfl rfl)
  have hwithin := hstatement
  rw [statement, withFuel_apply] at hwithin
  obtain ⟨name, start, body, finish, n, hname, -, -, hcalled, heval⟩ :=
    subroutine_called hwithin (by decide +kernel) hlater
  obtain rfl : name = "f" := by
    have hfirst : Run.passes (fun name _ => name == "f")
        (read (Reader.word "a subroutine name") (p.skip.move 3)) = true := by decide +kernel
    rw [hname] at hfirst
    exact beq_iff_eq.1 hfirst
  exact ⟨node, q, body, hstatement,
    hcalled (by decide) (List.forall_mem_nil _) hcurrent hdead [] hunread 3 (Nat.le_refl 3), heval⟩

/-- **A subroutine with a qualified name cannot be called.**  The script compiles, and it fails when
it runs. -/
theorem qualified_subroutine_lost :
    ∃ compiled ns, compile "sub A::b \x7b 1 \x7d; A::b()" = .ok compiled ∧
      IsFree "A::b" ∧ (compiled.namespaces.function? "main" "A::b").isSome ∧
      compiled.namespaces.keyword? "main" "A::b" = none ∧
      compiled.run = .error (.undefined "A" "b") ns := by
  have hread : Run.passes (fun program p =>
      (p.namespaces.function? "main" "A::b").isSome &&
        ((p.namespaces.keyword? "main" "A::b").isNone &&
          Run.fails (fun fault _ => fault == .undefined "A" "b")
            (Compiled.run ⟨program, p.namespaces, String.ofList p.buffer.text⟩)))
      (script {} (({} : Setting).parser "sub A::b \x7b 1 \x7d; A::b()")) = true := by decide +kernel
  obtain ⟨program, p, hscript, hread⟩ := Run.passes_iff.1 hread
  simp only [Bool.and_eq_true, Option.isNone_iff_eq_none] at hread
  obtain ⟨hfunction, hdead, hrun⟩ := hread
  obtain ⟨fault, ns, hrun, hfault⟩ := Run.fails_iff.1 hrun
  obtain rfl := beq_iff_eq.1 hfault
  exact ⟨_, ns, by rw [compile, hscript], by decide, hfunction, hdead, hrun⟩

end Parse

end BraceScript
