import BraceScript.Parser.Grammar
import BraceScript.Proofs.Run
import Mathlib.Tactic.Simps.Basic

/-!
# Moves of a parser

A reader run by a parser only moves its position: every reader takes characters off the front of
the unread text and nothing else (`Reader.Drops`), so a successful `Parse.read` is a move over as
many characters (`Parse.read_eq_ok`).  The moves of the readers that look for one character or
one word are named: they end behind the blanks and comments at the position (`Parser.skip`).
-/

namespace BraceScript

open Lexeme (insignificant significant)

namespace Reader

variable {α β : Type} {x : Reader α} {f : α → Reader β}

/-- What a reader leaves is an end of the text that it was given, also when it fails. -/
def Drops (x : Reader α) : Prop := ∀ text, Run.final (x text) <:+ text

theorem Drops.of_ok (hx : Drops x) {text rest : List Char} {a : α} (h : x text = .ok a rest) :
    rest <:+ text := by
  have hfinal := hx text
  rwa [h] at hfinal

theorem Drops.bind (hx : Drops x) (hf : ∀ a, Drops (f a)) : Drops (x >>= f) := by
  intro text
  have hfinal := hx text
  simp only [Bind.bind, EStateM.bind]
  cases h : x text with
  | ok a rest => exact (hf a rest).trans (hx.of_ok h)
  | error e rest => rwa [h] at hfinal

theorem Drops.pure (a : α) : Drops (pure a : Reader α) := fun _ => List.suffix_rfl

theorem Drops.get : Drops (get : Reader (List Char)) := fun _ => List.suffix_rfl

theorem Drops.throw (e : ReadError) : Drops (throw e : Reader α) := fun _ => List.suffix_rfl

theorem Drops.fail (fault : Fault) : Drops (fail fault : Reader α) :=
  Drops.get.bind fun _ => Drops.throw _

theorem Drops.throw_bind (e : ReadError) : Drops ((MonadExcept.throw e : Reader α) >>= f) :=
  fun _ => List.suffix_rfl

theorem Drops.fail_bind (fault : Fault) : Drops ((Reader.fail fault : Reader α) >>= f) :=
  fun _ => List.suffix_rfl

theorem drops_advance (count : Nat) : Drops (advance count) := fun text =>
  List.drop_suffix count text

theorem drops_peek : Drops peek := fun text => List.drop_suffix (insignificant text) text

theorem drops_accept (c : Char) : Drops (accept c) := by
  refine drops_peek.bind fun next => ?_
  split
  · exact (drops_advance 1).bind fun _ => Drops.pure true
  · exact Drops.pure false

theorem drops_expect (c : Char) : Drops (expect c) := by
  refine drops_peek.bind fun next => ?_
  split
  · exact drops_advance 1
  · exact Drops.fail _

theorem drops_peekWord : Drops peekWord :=
  drops_peek.bind fun _ => Drops.get.bind fun _ => Drops.pure _

theorem drops_word (what : String) : Drops (word what) := by
  refine drops_peekWord.bind fun next => ?_
  cases next with
  | some word => exact (drops_advance _).bind fun _ => Drops.pure word
  | none => exact Drops.fail _

theorem drops_number (missing : Fault) : Drops (number missing) := by
  refine Drops.get.bind fun text => ?_
  split
  · exact (drops_advance _).bind fun _ => Drops.pure _
  · exact Drops.fail _

theorem drops_quoted : Drops quoted := by
  refine Drops.get.bind fun text => ?_
  split
  · exact (drops_advance _).bind fun _ => Drops.pure _
  · exact Drops.throw _
  · exact Drops.throw _

end Reader

namespace Literal

open Reader

theorem drops_negate (v : Value) : Drops (negate v) := by
  cases v with
  | text => exact Drops.fail _
  | _ => exact Drops.pure _

theorem drops_number : Drops number := by
  refine (drops_accept '-').bind fun negative => (Reader.drops_number _).bind fun lexeme => ?_
  cases Lexeme.numberValue lexeme with
  | none => exact Drops.fail _
  | some v =>
    cases negative
    · exact Drops.pure v
    · exact drops_negate v

theorem drops_within (fuel : Nat) :
    Drops (valueWithin fuel) ∧ Drops (itemsWithin fuel) ∧ Drops (rowsWithin fuel) := by
  induction fuel with
  | zero => exact ⟨Drops.fail _, Drops.fail _, Drops.fail _⟩
  | succ fuel ih =>
    obtain ⟨hvalue, hitems, hrows⟩ := ih
    refine ⟨?_, ?_, ?_⟩
    · refine drops_peek.bind fun next => ?_
      split
      · exact drops_quoted.bind fun _ => Drops.pure _
      · exact (drops_advance 1).bind fun _ => hitems.bind fun _ => Drops.pure _
      · exact (drops_advance 1).bind fun _ => hrows.bind fun _ => Drops.pure _
      · split
        · exact drops_number
        · refine drops_peekWord.bind fun word => ?_
          cases word with
          | none => exact Drops.fail _
          | some word => exact (drops_advance _).bind fun _ => Drops.pure _
    · refine (drops_accept ']').bind fun closed => ?_
      split
      · exact Drops.pure _
      · refine hvalue.bind fun item => (drops_accept ',').bind fun more => ?_
        split
        · exact hitems.bind fun _ => Drops.pure _
        · exact (drops_expect ']').bind fun _ => Drops.pure _
    · refine (drops_accept '}').bind fun closed => ?_
      split
      · exact Drops.pure _
      · refine Drops.get.bind fun start => hvalue.bind fun key => ?_
        split
        · exact Drops.throw_bind _
        · refine drops_peek.bind fun _ => Drops.get.bind fun text => ?_
          split
          · exact Drops.fail_bind _
          · refine (drops_advance 2).bind fun _ => hvalue.bind fun value => ?_
            refine (drops_accept ',').bind fun more => ?_
            split
            · exact hrows.bind fun _ => Drops.pure _
            · exact (drops_expect '}').bind fun _ => Drops.pure _

theorem drops_value : Drops value := Drops.get.bind fun _ => (drops_within _).1

end Literal

namespace Parse

open Reader

theorem drops_versionLiteral : Drops versionLiteral := by
  refine drops_peek.bind fun next => ?_
  split
  · exact drops_quoted
  · exact (Reader.drops_number _).bind fun _ => Drops.pure _

theorem drops_moreData (fuel : Nat) : Drops (moreData fuel) := by
  induction fuel with
  | zero => exact Drops.fail _
  | succ fuel ih =>
    refine (drops_accept ',').bind fun more => ?_
    split
    · exact Literal.drops_value.bind fun value => ih.bind fun _ => Drops.pure _
    · exact Drops.pure _

theorem drops_useArguments : Drops useArguments := by
  refine drops_peek.bind fun next => ?_
  split
  · exact Drops.pure _
  · refine Literal.drops_value.bind fun first => Drops.get.bind fun text => ?_
    refine (drops_moreData _).bind fun more => ?_
    cases more <;> exact Drops.pure _

end Parse

/-! ### Moves -/

namespace Parser

/-- The parser with its position so many characters further on. -/
@[simps] def move (p : Parser) (count : Nat) : Parser := { p with pos := p.pos + count }

/-- The parser with its position behind the blanks and comments that come next. -/
def skip (p : Parser) : Parser := p.move (insignificant p.unread)

theorem unread_move (p : Parser) (count : Nat) : (p.move count).unread = p.unread.drop count := by
  simp [unread]

@[simp] theorem move_zero (p : Parser) : p.move 0 = p := rfl

@[simp] theorem move_move (p : Parser) (m n : Nat) : (p.move m).move n = p.move (m + n) := by
  simp [move, Nat.add_assoc]

theorem unread_skip (p : Parser) : p.skip.unread = significant p.unread := unread_move p _

@[simp] theorem skip_skip (p : Parser) : p.skip.skip = p.skip := by
  rw [skip, unread_skip, Lexeme.insignificant_significant, move_zero]

/-- A move within the unread text. -/
theorem exists_move_of_suffix {p : Parser} {rest : List Char} (h : rest <:+ p.unread) :
    ∃ k ≤ p.unread.length, rest = p.unread.drop k ∧ p.unread.length - rest.length = k := by
  obtain ⟨before, heq⟩ := h
  refine ⟨before.length, ?_, ?_, ?_⟩
  · rw [← heq, List.length_append]
    omega
  · rw [← heq, List.drop_left]
  · rw [← heq, List.length_append]
    omega

end Parser

namespace Parse

open Reader

variable {α : Type} {x : Reader α} {a : α} {p p' : Parser}

/-- A reader moves the parser over what it takes. -/
theorem read_eq_ok (hx : Drops x) :
    read x p = .ok a p' ↔
      ∃ k ≤ p.unread.length, x p.unread = .ok a (p.unread.drop k) ∧ p' = p.move k := by
  constructor
  · intro h
    simp only [read] at h
    split at h
    · next a' rest hread =>
      obtain ⟨k, hk, hrest, hlen⟩ := Parser.exists_move_of_suffix (hx.of_ok hread)
      obtain ⟨rfl, rfl⟩ := EStateM.Result.ok.inj h
      exact ⟨k, hk, hrest ▸ hread, by rw [hlen]; rfl⟩
    · cases h
  · rintro ⟨k, hk, hread, rfl⟩
    simp only [read, hread, List.length_drop]
    rw [Nat.sub_sub_self hk]
    rfl

/-- What is read in front of `rest` is moved over. -/
theorem read_of_ok {before rest : List Char} (hp : p.unread = before ++ rest)
    (h : x p.unread = .ok a rest) : read x p = .ok a (p.move before.length) := by
  simp only [read, h]
  rw [hp, List.length_append, Nat.add_sub_cancel]
  rfl

theorem read_peek (p : Parser) : read peek p = .ok (significant p.unread).head? p.skip :=
  (read_eq_ok drops_peek).2 ⟨_, Lexeme.insignificant_le_length _, rfl, rfl⟩

theorem read_peekWord (p : Parser) :
    read peekWord p = .ok ((Lexeme.word? (significant p.unread)).map String.ofList) p.skip :=
  (read_eq_ok drops_peekWord).2 ⟨_, Lexeme.insignificant_le_length _, rfl, rfl⟩

theorem read_advance {count : Nat} (h : count ≤ p.unread.length) :
    read (advance count) p = .ok () (p.move count) :=
  (read_eq_ok (drops_advance count)).2 ⟨_, h, rfl, rfl⟩

/-- Moving past one significant character. -/
theorem insignificant_succ_le {c : Char} {text rest : List Char}
    (h : significant text = c :: rest) :
    insignificant text + 1 ≤ text.length ∧ text.drop (insignificant text + 1) = rest := by
  have hlen := congrArg List.length h
  rw [significant, List.length_drop, List.length_cons] at hlen
  have hrest := congrArg (List.drop 1) h
  rw [significant, List.drop_drop] at hrest
  exact ⟨by omega, by simpa using hrest⟩

theorem read_accept {c : Char} {rest : List Char} (h : significant p.unread = c :: rest) :
    read (accept c) p = .ok true (p.skip.move 1) := by
  obtain ⟨hle, hdrop⟩ := insignificant_succ_le h
  rw [Parser.skip, Parser.move_move]
  exact (read_eq_ok (drops_accept c)).2 ⟨_, hle, by rw [hdrop, Reader.accept_eq_true h], rfl⟩

theorem read_accept_ne {c : Char} (h : (significant p.unread).head? ≠ some c) :
    read (accept c) p = .ok false p.skip :=
  (read_eq_ok (drops_accept c)).2
    ⟨_, Lexeme.insignificant_le_length _, Reader.accept_eq_false h, rfl⟩

theorem read_expect {c : Char} {rest : List Char} (h : significant p.unread = c :: rest) :
    read (expect c) p = .ok () (p.skip.move 1) := by
  obtain ⟨hle, hdrop⟩ := insignificant_succ_le h
  rw [Parser.skip, Parser.move_move]
  exact (read_eq_ok (drops_expect c)).2 ⟨_, hle, by rw [hdrop, Reader.expect_eq_ok h], rfl⟩

/-- A character that was expected was there. -/
theorem read_expect_eq_ok {c : Char} (h : read (expect c) p = .ok () p') :
    ∃ rest, significant p.unread = c :: rest ∧ p' = p.skip.move 1 := by
  by_cases hc : (significant p.unread).head? = some c
  · obtain ⟨rest, hrest⟩ : ∃ rest, significant p.unread = c :: rest := by
      cases hs : significant p.unread with
      | nil => simp [hs] at hc
      | cons d rest => exact ⟨rest, by simp [hs] at hc; rw [hc]⟩
    rw [read_expect hrest] at h
    exact ⟨rest, hrest, (EStateM.Result.ok.inj h).2.symm⟩
  · obtain ⟨k, -, hread, -⟩ := (read_eq_ok (drops_expect c)).1 h
    rw [expect, Run.bind_of_ok (Reader.peek_eq _), if_neg hc, Reader.fail,
      Run.bind_eq_ok] at hread
    obtain ⟨_, _, -, hthrow⟩ := hread
    exact absurd hthrow Run.throw_eq_ok

theorem length_le_of_word? {text w : List Char} (h : Lexeme.word? text = some w) :
    w.length ≤ text.length := (Lexeme.word?_prefix h).length_le

theorem read_word {what : String} {w : String}
    (h : Lexeme.word? (significant p.unread) = some w.toList) :
    read (word what) p = .ok w (p.skip.move w.length) := by
  have hlen : insignificant p.unread + w.length ≤ p.unread.length := by
    have hw := length_le_of_word? h
    rw [significant, List.length_drop, String.length_toList] at hw
    have := Lexeme.insignificant_le_length p.unread
    omega
  rw [Parser.skip, Parser.move_move]
  refine (read_eq_ok (drops_word what)).2 ⟨_, hlen, ?_, rfl⟩
  simp only [word, Run.bind_of_ok (Reader.peekWord_eq _), h, Option.map_some,
    String.ofList_toList, Run.bind_of_ok (Reader.advance_eq _)]
  simp [significant, pure, EStateM.pure]

/-- A word that was read was there. -/
theorem read_word_eq_ok {what w : String} (h : read (word what) p = .ok w p') :
    Lexeme.word? (significant p.unread) = some w.toList ∧ p' = p.skip.move w.length := by
  cases hw : Lexeme.word? (significant p.unread) with
  | none =>
    obtain ⟨k, -, hread, -⟩ := (read_eq_ok (drops_word what)).1 h
    simp only [word, Run.bind_of_ok (Reader.peekWord_eq _), hw, Option.map_none, Reader.fail,
      Run.bind_eq_ok] at hread
    obtain ⟨_, _, -, hthrow⟩ := hread
    exact absurd hthrow Run.throw_eq_ok
  | some w' =>
    rw [read_word (w := String.ofList w') (by rw [hw, String.toList_ofList])] at h
    obtain ⟨rfl, rfl⟩ := EStateM.Result.ok.inj h
    rw [String.toList_ofList]
    exact ⟨rfl, rfl⟩

theorem failAt_eq_ok {offset : Nat} {fault : Fault} :
    ¬ (failAt offset fault : Parse α) p = .ok a p' := by
  intro h
  obtain ⟨_, _, -, h⟩ := Run.bind_eq_ok.1 h
  exact absurd h Run.throw_eq_ok

theorem fail_eq_ok {fault : Fault} : ¬ (fail fault : Parse α) p = .ok a p' := by
  intro h
  obtain ⟨_, _, -, h⟩ := Run.bind_eq_ok.1 h
  exact absurd h failAt_eq_ok

end Parse

end BraceScript
