import BraceScript.Literal.Reader
import BraceScript.Literal.Writer
import BraceScript.Proofs.Number
import BraceScript.Proofs.Run
import BraceScript.Script

/-!
# Literals read back

The literal that is written for a value is read again as that value, in the middle of any text
that does not go on with it, and exactly the literal is read (`Literal.value_append`).  A tuple
comes back as a list (`Value.listed`).  The value must be one that a program can hold
(`Value.Proper`): floating-point numbers are stored as the format stores them, and no key of a
mapping has two rows.
-/

namespace BraceScript

namespace Value

mutual

/-- The value with every tuple made a list, which is all that a literal cannot tell. -/
def listed : Value → Value
  | list items | tuple items => list (listedItems items)
  | mapping rows => mapping (listedRows rows)
  | v => v

/-- The items, each with its tuples made lists. -/
def listedItems : List Value → List Value
  | [] => []
  | item :: items => listed item :: listedItems items

/-- The rows, with the tuples in their values made lists. -/
def listedRows : List (Value × Value) → List (Value × Value)
  | [] => []
  | (key, value) :: rows => (key, listed value) :: listedRows rows

end

mutual

/-- A value that a program can hold. -/
def Proper : Value → Prop
  | float x => x.InFormat
  | list items | tuple items => ProperItems items
  | mapping rows => (rows.map Prod.fst).Nodup ∧ ProperRows rows
  | _ => True

/-- Every item is a value that a program can hold. -/
def ProperItems : List Value → Prop
  | [] => True
  | item :: items => Proper item ∧ ProperItems items

/-- Every row has a value that a program can hold. -/
def ProperRows : List (Value × Value) → Prop
  | [] => True
  | (_, value) :: rows => Proper value ∧ ProperRows rows

end

theorem keys_listedRows (rows : List (Value × Value)) :
    (listedRows rows).map Prod.fst = rows.map Prod.fst := by
  induction rows with
  | nil => rfl
  | cons row rows ih => simp [listedRows, ih]

end Value

namespace Literal

open Lexeme (Insignificant EndsLexeme significant)
open Reader (peek accept expect advance peekWord)

/-! ### Texts between quotes -/

theorem quoted_escape {c : Char} {text t : List Char} {n : Nat}
    (h : Lexeme.quoted text = .ok (t, n)) :
    Lexeme.quoted (escape c ++ text) = .ok (c :: t, n + (escape c).length) := by
  unfold escape
  split_ifs with h1 h2 h3 h4
  · subst h1
    simp [Lexeme.quoted, h, bind, Except.bind, pure, Except.pure, Lexeme.unescape]
  · subst h2
    simp [Lexeme.quoted, h, bind, Except.bind, pure, Except.pure, Lexeme.unescape]
  · subst h3
    simp [Lexeme.quoted, h, bind, Except.bind, pure, Except.pure, Lexeme.unescape]
  · subst h4
    simp [Lexeme.quoted, h, bind, Except.bind, pure, Except.pure, Lexeme.unescape]
  · rw [List.cons_append, List.nil_append, Lexeme.quoted]
    · simp [h, bind, Except.bind, pure, Except.pure]
    · exact h2
    · exact fun hc _ => h1 hc
    · exact fun _ _ hc _ => h1 hc

theorem quoted_flatMap_escape (s rest : List Char) :
    Lexeme.quoted (s.flatMap escape ++ '"' :: rest) =
      .ok (s, (s.flatMap escape).length + 1) := by
  induction s with
  | nil => simp [Lexeme.quoted]
  | cons c s ih =>
    rw [List.flatMap_cons, List.append_assoc, quoted_escape ih, List.length_append]
    congr 2
    omega

/-- A quoted text is read up to its closing quote, whatever follows. -/
theorem reader_quoted_quote (s : String) (rest : List Char) :
    Reader.quoted (quote s ++ rest) = .ok s rest := by
  have hlen : (quote s ++ rest).drop ((s.toList.flatMap escape).length + 1 + 1) = rest := by
    simp [quote, List.drop_append]
  have hquoted : Lexeme.quoted ((quote s ++ rest).drop 1) =
      .ok (s.toList, (s.toList.flatMap escape).length + 1) := by
    simpa [quote] using quoted_flatMap_escape s.toList rest
  simp only [Reader.quoted, Run.bind_of_ok (show (get : Reader _) (quote s ++ rest) = _ from rfl),
    hquoted, Run.bind_of_ok (Reader.advance_eq _), hlen, String.ofList_toList]
  rfl

/-! ### Numbers -/

theorem accept_minus_digit {c : Char} (rest : List Char) (hc : c.isDigit = true) :
    accept '-' (c :: rest) = .ok false (c :: rest) := by
  have hblank : Text.isBlank c = false ∧ c ≠ '#' ∧ c ≠ '-' := by
    refine ⟨?_, ?_, ?_⟩
    · simp only [Text.isBlank, Bool.or_eq_false_iff, beq_eq_false_iff_ne, ne_eq]
      refine ⟨⟨⟨?_, ?_⟩, ?_⟩, ?_⟩ <;> (rintro rfl; revert hc; decide)
    · rintro rfl; revert hc; decide
    · rintro rfl; revert hc; decide
  have hs := Lexeme.significant_cons rest hblank.1 hblank.2.1
  rw [Reader.accept_eq_false (by simp [hs, hblank.2.2]), hs]

theorem accept_minus_minus (rest : List Char) : accept '-' ('-' :: rest) = .ok true rest :=
  Reader.accept_eq_true (Lexeme.significant_cons rest (by decide) (by decide))

/-- A number in front of a text that does not go on with it. -/
theorem reader_number_append {w rest : List Char} (hw : Lexeme.IsNumber w) (h : EndsLexeme rest)
    (missing : Fault) : Reader.number missing (w ++ rest) = .ok w rest := by
  simp only [Reader.number, Run.bind_of_ok (show (get : Reader _) (w ++ rest) = _ from rfl),
    Lexeme.number?_append hw h.endsNumber, Run.bind_of_ok (Reader.advance_eq _), List.drop_left]
  rfl

/-- A number with or without a minus sign, of which the value is known. -/
theorem number_append {w rest : List Char} {v v' : Value} (negative : Bool)
    (hw : Lexeme.IsNumber w) (h : EndsLexeme rest) (hv : Lexeme.numberValue w = some v)
    (hneg : negative = true → ∀ text, negate v text = .ok v' text)
    (hpos : negative = false → v = v') :
    number (Binary64.signed negative w ++ rest) = .ok v' rest := by
  have hread := reader_number_append hw h .expectedNumber
  cases negative with
  | true =>
    simp only [Binary64.signed, ↓reduceIte, List.cons_append, number,
      Run.bind_of_ok (accept_minus_minus _), Run.bind_of_ok hread, hv, hneg rfl]
  | false =>
    obtain ⟨c, w', rfl, hc, -⟩ := hw.exists_cons
    rw [List.cons_append] at hread
    simp only [Binary64.signed, Bool.false_eq_true, ↓reduceIte, List.cons_append, number,
      Run.bind_of_ok (accept_minus_digit _ hc), Run.bind_of_ok hread, hv, hpos rfl]
    rfl

theorem isDigit_of_mem_toDigits {n : Nat} {c : Char} (hc : c ∈ Nat.toDigits 10 n) :
    c.isDigit = true := Nat.isDigit_of_mem_toDigits (by decide) (by decide) hc

theorem filter_underscore_digits {ds : List Char} (h : ∀ c ∈ ds, c.isDigit = true) :
    ds.filter (· != '_') = ds := by
  rw [List.filter_eq_self]
  intro c hc
  have := h c hc
  simp only [bne_iff_ne, ne_eq]
  rintro rfl
  revert this
  decide

theorem count_point_digits {ds : List Char} (h : ∀ c ∈ ds, c.isDigit = true) :
    ds.count '.' = 0 := by
  rw [List.count_eq_zero]
  exact fun hmem => absurd (h '.' hmem) (by decide)

theorem numberValue_toDigits {n : Nat} (h : (Nat.toDigits 10 n).length ≤ Lexeme.maxDigits) :
    Lexeme.numberValue (Nat.toDigits 10 n) = some (.int n) := by
  have hd : ∀ c ∈ Nat.toDigits 10 n, c.isDigit = true := fun c => isDigit_of_mem_toDigits
  simp [Lexeme.numberValue, filter_underscore_digits hd, count_point_digits hd, h]

theorem numberValue_point {whole fraction : List Char} (hw : ∀ c ∈ whole, c.isDigit = true)
    (hf : ∀ c ∈ fraction, c.isDigit = true) :
    Lexeme.numberValue (whole ++ '.' :: fraction) =
      some (.float ((Decimal.ofDigits whole fraction 0).toBinary64 false)) := by
  have hne : ∀ c ∈ whole, (c != '.') = true := by
    intro c hc
    have := hw c hc
    simp only [bne_iff_ne, ne_eq]
    rintro rfl
    revert this
    decide
  have hfilter : (whole ++ '.' :: fraction).filter (· != '_') = whole ++ '.' :: fraction := by
    rw [List.filter_append, filter_underscore_digits hw, List.filter_cons_of_pos (by decide),
      filter_underscore_digits hf]
  simp [Lexeme.numberValue, hfilter, count_point_digits hw, count_point_digits hf,
    List.takeWhile_append_of_pos hne, List.dropWhile_append_of_pos hne]

theorem integer_eq_signed (n : Int) :
    integer n = Binary64.signed (decide (n < 0)) (Nat.toDigits 10 n.natAbs) := by
  simp [integer, Binary64.signed]

/-- An integer reads back. -/
theorem number_integer {n : Int} {rest : List Char}
    (hn : (Nat.toDigits 10 n.natAbs).length ≤ Lexeme.maxDigits) (h : EndsLexeme rest) :
    number (integer n ++ rest) = .ok (.int n) rest := by
  have hw : Lexeme.IsNumber (Nat.toDigits 10 n.natAbs) :=
    Lexeme.isNumber_digits (fun c => isDigit_of_mem_toDigits) Nat.toDigits_ne_nil
  rw [integer_eq_signed]
  refine number_append _ hw h (numberValue_toDigits hn) (fun hneg text => ?_) (fun hpos => ?_)
  · have : -(n.natAbs : Int) = n := by have := of_decide_eq_true hneg; omega
    simp only [negate, this]
    rfl
  · have := of_decide_eq_false hpos
    congr
    omega

/-- A floating-point number with a positional text is read to the end of the text; a number of
the format reads back. -/
theorem number_float {x : Binary64} {rest : List Char} (hx : x.hasPositionalText = true)
    (h : EndsLexeme rest) :
    ∃ y, number (x.text ++ rest) = .ok (.float y) rest ∧ (x.InFormat → y = x) := by
  obtain ⟨negative, mantissa, exponent, whole, fraction, rfl, htext, hw, hf, hwne, hfne, hround⟩ :=
    Binary64.text_reads_back hx
  have hnum := Lexeme.isNumber_point hw hf hwne hfne
  rw [htext]
  cases negative with
  | true =>
    exact ⟨_, number_append true hnum h (numberValue_point hw hf) (fun _ text => rfl)
      (fun hfalse => nomatch hfalse), fun hin => by rw [hround hin]; rfl⟩
  | false =>
    exact ⟨_, number_append false hnum h (numberValue_point hw hf)
      (fun htrue => nomatch htrue) (fun _ => rfl), fun hin => hround hin⟩

theorem head_signed (negative : Bool) {w : List Char} (hne : w ≠ [])
    (hw : ∀ c ∈ w.head?, c.isDigit = true) :
    ∃ c tail, Binary64.signed negative w = c :: tail ∧ (c = '-' ∨ c.isDigit = true) := by
  obtain ⟨c, tail, rfl⟩ := List.exists_cons_of_ne_nil hne
  cases negative
  · exact ⟨c, tail, rfl, .inr (hw c rfl)⟩
  · exact ⟨'-', c :: tail, rfl, .inl rfl⟩

/-- An integer starts with a minus sign or a digit. -/
theorem head_integer (n : Int) :
    ∃ c tail, integer n = c :: tail ∧ (c = '-' ∨ c.isDigit = true) := by
  rw [integer_eq_signed]
  exact head_signed _ Nat.toDigits_ne_nil fun c hc =>
    isDigit_of_mem_toDigits (List.mem_of_mem_head? hc)

/-- A positional text of a floating-point number starts with a minus sign or a digit. -/
theorem head_float {x : Binary64} (hx : x.hasPositionalText = true) :
    ∃ c tail, x.text = c :: tail ∧ (c = '-' ∨ c.isDigit = true) := by
  obtain ⟨negative, _, _, whole, fraction, -, htext, hw, -, hwne, -⟩ := Binary64.text_reads_back hx
  rw [htext]
  refine head_signed negative (by simp) fun c hc => ?_
  obtain ⟨d, tail, rfl⟩ := List.exists_cons_of_ne_nil hwne
  obtain rfl : d = c := by simpa using hc
  exact hw d (by simp)

/-! ### Insignificant input before a value -/

theorem valueWithin_insignificant {w : List Char} (hw : Insignificant w) (fuel : Nat)
    (text : List Char) : valueWithin (fuel + 1) (w ++ text) = valueWithin (fuel + 1) text := by
  have hpeek : peek (w ++ text) = peek text := by
    rw [Reader.peek_eq, Reader.peek_eq, hw.significant_append]
  simp only [valueWithin, Run.bind_congr_left hpeek]

theorem itemsWithin_insignificant {w : List Char} (hw : Insignificant w) (fuel : Nat)
    (text : List Char) : itemsWithin (fuel + 1) (w ++ text) = itemsWithin (fuel + 1) text := by
  have haccept : accept ']' (w ++ text) = accept ']' text := by
    simp only [accept, Run.bind_congr_left (show peek (w ++ text) = peek text by
      rw [Reader.peek_eq, Reader.peek_eq, hw.significant_append])]
  simp only [itemsWithin, Run.bind_congr_left haccept]

theorem rowsWithin_insignificant {w : List Char} (hw : Insignificant w) (fuel : Nat)
    (text : List Char) : rowsWithin (fuel + 1) (w ++ text) = rowsWithin (fuel + 1) text := by
  have haccept : accept '}' (w ++ text) = accept '}' text := by
    simp only [accept, Run.bind_congr_left (show peek (w ++ text) = peek text by
      rw [Reader.peek_eq, Reader.peek_eq, hw.significant_append])]
  simp only [rowsWithin, Run.bind_congr_left haccept]

/-! ### Values -/

@[simp] theorem commaList_singleton (part : List Char) : commaList [part] = part := by
  simp [commaList]

@[simp] theorem commaList_cons_cons (part next : List Char) (parts : List (List Char)) :
    commaList (part :: next :: parts) = part ++ ',' :: ' ' :: commaList (next :: parts) := by
  simp [commaList]

theorem commaList_cons (part : List Char) (parts : List (List Char)) :
    commaList (part :: parts) = part ++ parts.flatMap fun next => ',' :: ' ' :: next := by
  induction parts generalizing part with
  | nil => simp
  | cons next parts ih => rw [commaList_cons_cons, ih, List.flatMap_cons]; rfl

/-- A character that a literal can start with. -/
def startsLiteral (c : Char) : Bool :=
  c ∈ ['"', '[', '\x7b', '-', 'n', 't', 'f'] || c.isDigit

theorem startsLiteral_significant {c : Char} (rest : List Char) (h : startsLiteral c = true) :
    significant (c :: rest) = c :: rest ∧ ∀ d ∈ [']', '\x7d', ';'], c ≠ d := by
  have hall : [' ', '\t', '\r', '\n', '#', ']', '\x7d', ';'].all (!startsLiteral ·) = true := by
    decide
  have hne : ∀ d ∈ [' ', '\t', '\r', '\n', '#', ']', '\x7d', ';'], c ≠ d := by
    rintro d hd rfl
    have hno := List.all_eq_true.1 hall c hd
    rw [h] at hno
    cases hno
  have hb : Text.isBlank c = false := by
    simp only [Text.isBlank, Bool.or_eq_false_iff, beq_eq_false_iff_ne, ne_eq]
    exact ⟨⟨⟨hne _ (by simp), hne _ (by simp)⟩, hne _ (by simp)⟩, hne _ (by simp)⟩
  refine ⟨Lexeme.significant_cons rest hb (hne _ (by simp)), fun d hd => hne d ?_⟩
  simp only [List.mem_cons, List.not_mem_nil, or_false] at hd
  rcases hd with rfl | rfl | rfl <;> simp

/-- A literal starts with a character of its own. -/
theorem write_head {v : Value} {literal : List Char} (h : write v = .ok literal) :
    ∃ c tail, literal = c :: tail ∧ startsLiteral c = true := by
  have hnumber : ∀ {c : Char}, (c = '-' ∨ c.isDigit = true) → startsLiteral c = true := by
    rintro c (rfl | hc)
    · decide
    · simp [startsLiteral, hc]
  cases v with
  | null => obtain rfl := Except.ok.inj h; exact ⟨_, _, rfl, by decide⟩
  | bool b => cases b <;> (obtain rfl := Except.ok.inj h; exact ⟨_, _, rfl, by decide⟩)
  | int n =>
    obtain ⟨c, tail, heq, hc⟩ := head_integer n
    simp only [write] at h
    split at h
    · obtain rfl := Except.ok.inj h
      exact ⟨c, tail, heq, hnumber hc⟩
    · cases h
  | float x =>
    simp only [write] at h
    split at h
    · next hx =>
      obtain rfl := Except.ok.inj h
      obtain ⟨c, tail, heq, hc⟩ := head_float hx
      exact ⟨c, tail, heq, hnumber hc⟩
    · cases h
  | text s => obtain rfl := Except.ok.inj h; exact ⟨_, _, rfl, by decide⟩
  | list items | tuple items =>
    simp only [write] at h
    obtain ⟨parts, -, h⟩ := Run.except_bind_eq_ok.1 h
    obtain rfl := Except.ok.inj h
    exact ⟨_, _, rfl, by decide⟩
  | mapping rows =>
    simp only [write] at h
    obtain ⟨parts, -, h⟩ := Run.except_bind_eq_ok.1 h
    obtain rfl := Except.ok.inj h
    exact ⟨_, _, rfl, by decide⟩
  | inner | record | foreign => cases h

/-- A literal is significant from its first character on, and closes nothing. -/
theorem significant_write {v : Value} {literal : List Char} (h : write v = .ok literal)
    (rest : List Char) : significant (literal ++ rest) = literal ++ rest ∧
      ∀ d ∈ [']', '\x7d', ';'], (literal ++ rest).head? ≠ some d := by
  obtain ⟨c, tail, rfl, hc⟩ := write_head h
  obtain ⟨hs, hne⟩ := startsLiteral_significant (tail ++ rest) hc
  exact ⟨hs, fun d hd => by simpa using hne d hd⟩

theorem startsLiteral_quote (s : String) (rest : List Char) :
    significant (quote s ++ rest) = quote s ++ rest :=
  (startsLiteral_significant _ (by decide)).1

/-- A text is read whatever follows it. -/
theorem valueWithin_quote (s : String) (fuel : Nat) (rest : List Char) :
    valueWithin (fuel + 1) (quote s ++ rest) = .ok (.text s) rest := by
  have hpeek : peek (quote s ++ rest) = .ok (some '"') (quote s ++ rest) := by
    rw [Reader.peek_eq, startsLiteral_quote]
    rfl
  simp only [valueWithin, Run.bind_of_ok hpeek, Run.bind_of_ok (reader_quoted_quote s rest)]
  rfl

/-- A list is read as its items are. -/
theorem valueWithin_list {fuel : Nat} {body rest : List Char} {vs : List Value}
    (h : itemsWithin fuel body = .ok vs rest) :
    valueWithin (fuel + 1) ('[' :: body) = .ok (.list vs) rest := by
  have hpeek : peek ('[' :: body) = .ok (some '[') ('[' :: body) := rfl
  simp only [valueWithin, Run.bind_of_ok hpeek, Run.bind_of_ok (Reader.advance_eq _),
    List.drop_succ_cons, List.drop_zero, Run.bind_of_ok h]
  rfl

/-- A mapping is read as its rows are. -/
theorem valueWithin_mapping {fuel : Nat} {body rest : List Char} {rows : List (Value × Value)}
    (h : rowsWithin fuel body = .ok rows rest) :
    valueWithin (fuel + 1) ('\x7b' :: body) = .ok (.mapping (Table.ofRows rows)) rest := by
  have hpeek : peek ('\x7b' :: body) = .ok (some '\x7b') ('\x7b' :: body) := rfl
  simp only [valueWithin, Run.bind_of_ok hpeek, Run.bind_of_ok (Reader.advance_eq _),
    List.drop_succ_cons, List.drop_zero, Run.bind_of_ok h]
  rfl

/-- A value that is no text, no list and no mapping. -/
theorem valueWithin_plain {text t : List Char} {next : Option Char} (hpeek : peek text = .ok next t)
    (h : next ≠ some '"' ∧ next ≠ some '[' ∧ next ≠ some '\x7b') (fuel : Nat) :
    valueWithin (fuel + 1) text =
      (if next.any (fun c => Text.isAnyDigit c || c == '-') then Literal.number
      else do
        match ← peekWord with
        | none => Reader.fail (.expectedData next)
        | some word =>
          advance word.length
          return (constant? word).getD (.text word)) t := by
  rw [valueWithin, Run.bind_of_ok hpeek]
  split
  · exact absurd rfl h.1
  · exact absurd rfl h.2.1
  · exact absurd rfl h.2.2
  · rfl

/-- A number is read as a value. -/
theorem valueWithin_number {text rest : List Char} {v : Value} {c : Char}
    (hhead : text.head? = some c) (hc : c = '-' ∨ c.isDigit = true)
    (h : number text = .ok v rest) (fuel : Nat) :
    valueWithin (fuel + 1) text = .ok v rest := by
  obtain ⟨tail, rfl⟩ : ∃ tail, text = c :: tail := by
    cases text with
    | nil => simp at hhead
    | cons d tail => exact ⟨tail, by simp at hhead; rw [hhead]⟩
  have hstart : startsLiteral c = true := by rcases hc with rfl | hc <;> simp [startsLiteral, *]
  have hpeek : peek (c :: tail) = .ok (some c) (c :: tail) := by
    rw [Reader.peek_eq, (startsLiteral_significant tail hstart).1]
    rfl
  have hany : (Text.isAnyDigit c || c == '-') = true := by
    rcases hc with rfl | hc
    · simp
    · simp [Text.isAnyDigit_of_isDigit hc]
  have hne : c ≠ '"' ∧ c ≠ '[' ∧ c ≠ '\x7b' := by
    refine ⟨?_, ?_, ?_⟩ <;> (rintro rfl; rcases hc with hc | hc <;> revert hc <;> decide)
  rw [valueWithin_plain hpeek (by simpa using hne)]
  simpa only [Option.any_some, hany, ↓reduceIte] using h

/-- A constant is read as a value. -/
theorem valueWithin_constant {word : String} {v : Value} (hv : constant? word = some v)
    {rest : List Char} (h : EndsLexeme rest) (fuel : Nat) :
    valueWithin (fuel + 1) (word.toList ++ rest) = .ok v rest := by
  have hword : Lexeme.IsWord word.toList ∧ ∃ c tail, word.toList = c :: tail ∧
      c ∈ ['n', 't', 'f'] := by
    simp only [constant?] at hv
    split_ifs at hv with h1 h2 h3
    · subst h1
      exact ⟨Lexeme.isWord_of_plain (by decide) (by decide), 'n', ['u', 'l', 'l'], rfl, by simp⟩
    · subst h2
      exact ⟨Lexeme.isWord_of_plain (by decide) (by decide), 't', ['r', 'u', 'e'], rfl, by simp⟩
    · subst h3
      exact ⟨Lexeme.isWord_of_plain (by decide) (by decide), 'f', ['a', 'l', 's', 'e'], rfl,
        by simp⟩
  obtain ⟨hword, c, tail, hcons, hc⟩ := hword
  simp only [List.mem_cons, List.not_mem_nil, or_false] at hc
  obtain ⟨hstart, hne1, hne2, hne3, hany⟩ : startsLiteral c = true ∧
      c ≠ '"' ∧ c ≠ '[' ∧ c ≠ '\x7b' ∧ (Text.isAnyDigit c || c == '-') = false := by
    rcases hc with rfl | rfl | rfl <;> decide
  have hs : significant (word.toList ++ rest) = word.toList ++ rest := by
    rw [hcons]
    exact (startsLiteral_significant _ hstart).1
  have hpeek : peek (word.toList ++ rest) = .ok (some c) (word.toList ++ rest) := by
    rw [Reader.peek_eq, hs, hcons]
    rfl
  have hpeekWord : peekWord (word.toList ++ rest) = .ok (some word) (word.toList ++ rest) := by
    rw [Reader.peekWord_eq, hs, Lexeme.word?_append hword h.endsWord, Option.map_some,
      String.ofList_toList]
  rw [valueWithin_plain hpeek (by simpa using ⟨hne1, hne2, hne3⟩)]
  simp only [Option.any_some, hany, Bool.false_eq_true, ↓reduceIte, Run.bind_of_ok hpeekWord,
    Run.bind_of_ok (Reader.advance_eq _), hv, Option.getD_some, ← String.length_toList,
    List.drop_left]
  rfl

/-! ### Lists and mappings -/

theorem itemsWithin_closed (fuel : Nat) (rest : List Char) :
    itemsWithin (fuel + 1) (']' :: rest) = .ok [] rest := by
  have hs : significant (']' :: rest) = ']' :: rest :=
    Lexeme.significant_cons rest (by decide) (by decide)
  simp only [itemsWithin, Run.bind_of_ok (Reader.accept_eq_true hs), ↓reduceIte]
  rfl

theorem itemsWithin_last {text rest : List Char} {v : Value} {fuel : Nat}
    (hs : significant text = text) (hne : text.head? ≠ some ']')
    (h : valueWithin fuel text = .ok v (']' :: rest)) :
    itemsWithin (fuel + 1) text = .ok [v] rest := by
  have hbracket : accept ']' text = .ok false text := by
    rw [Reader.accept_eq_false (by rwa [hs]), hs]
  have hclose : significant (']' :: rest) = ']' :: rest :=
    Lexeme.significant_cons rest (by decide) (by decide)
  have hcomma : accept ',' (']' :: rest) = .ok false (']' :: rest) := by
    rw [Reader.accept_eq_false (by rw [hclose]; simp), hclose]
  simp only [itemsWithin, Run.bind_of_ok hbracket, Bool.false_eq_true, ↓reduceIte,
    Run.bind_of_ok h, Run.bind_of_ok hcomma, Run.bind_of_ok (Reader.expect_eq_ok hclose)]
  rfl

theorem itemsWithin_next {text rest rest' : List Char} {v : Value} {vs : List Value} {fuel : Nat}
    (hs : significant text = text) (hne : text.head? ≠ some ']')
    (h : valueWithin fuel text = .ok v (',' :: rest))
    (h' : itemsWithin fuel rest = .ok vs rest') :
    itemsWithin (fuel + 1) text = .ok (v :: vs) rest' := by
  have hbracket : accept ']' text = .ok false text := by
    rw [Reader.accept_eq_false (by rwa [hs]), hs]
  have hcomma : accept ',' (',' :: rest) = .ok true rest :=
    Reader.accept_eq_true (Lexeme.significant_cons rest (by decide) (by decide))
  simp only [itemsWithin, Run.bind_of_ok hbracket, Bool.false_eq_true, ↓reduceIte,
    Run.bind_of_ok h, Run.bind_of_ok hcomma, Run.bind_of_ok h']
  rfl

theorem rowsWithin_closed (fuel : Nat) (rest : List Char) :
    rowsWithin (fuel + 1) ('\x7d' :: rest) = .ok [] rest := by
  have hs : significant ('\x7d' :: rest) = '\x7d' :: rest :=
    Lexeme.significant_cons rest (by decide) (by decide)
  simp only [rowsWithin, Run.bind_of_ok (Reader.accept_eq_true hs), ↓reduceIte]
  rfl

/-- What is read of a row up to the end of its value. -/
theorem rowsWithin_row (key : String) (text : List Char) (fuel : Nat) :
    rowsWithin (fuel + 2) (quote key ++ [' ', '=', '>', ' '] ++ text) =
      (do
        let value ← valueWithin (fuel + 1)
        if ← accept ',' then return (Value.text key, value) :: (← rowsWithin (fuel + 1))
        expect '\x7d'
        return [(Value.text key, value)] : Reader (List (Value × Value))) text := by
  have hs := startsLiteral_quote key ([' ', '=', '>', ' '] ++ text)
  have hbrace : accept '\x7d' (quote key ++ ([' ', '=', '>', ' '] ++ text)) =
      .ok false (quote key ++ ([' ', '=', '>', ' '] ++ text)) := by
    rw [Reader.accept_eq_false (by rw [hs]; simp [quote]), hs]
  have harrow : peek ([' ', '=', '>', ' '] ++ text) = .ok (some '=') ('=' :: '>' :: ' ' :: text) :=
    rfl
  have hblank : valueWithin (fuel + 1) (' ' :: text) = valueWithin (fuel + 1) text :=
    valueWithin_insignificant (Lexeme.Insignificant.blank (by decide)) fuel text
  rw [List.append_assoc]
  simp only [rowsWithin, Run.bind_of_ok hbrace, Bool.false_eq_true, ↓reduceIte,
    Run.bind_of_ok (show (get : Reader _) _ = .ok _ _ from rfl),
    Run.bind_of_ok (valueWithin_quote key fuel _), Value.text?, Option.isNone_some,
    Run.bind_of_ok harrow]
  simp only [List.isPrefixOf, beq_self_eq_true, Bool.and_self, Bool.not_true, Bool.false_eq_true,
    ↓reduceIte, Run.bind_of_ok (Reader.advance_eq _), List.drop_succ_cons, List.drop_zero]
  exact Run.bind_congr_left hblank

theorem rowsWithin_last {text rest : List Char} {key : String} {v : Value} {fuel : Nat}
    (h : valueWithin (fuel + 1) text = .ok v ('\x7d' :: rest)) :
    rowsWithin (fuel + 2) (quote key ++ [' ', '=', '>', ' '] ++ text) =
      .ok [(.text key, v)] rest := by
  have hclose : significant ('\x7d' :: rest) = '\x7d' :: rest :=
    Lexeme.significant_cons rest (by decide) (by decide)
  have hcomma : accept ',' ('\x7d' :: rest) = .ok false ('\x7d' :: rest) := by
    rw [Reader.accept_eq_false (by rw [hclose]; simp), hclose]
  simp only [rowsWithin_row, Run.bind_of_ok h, Run.bind_of_ok hcomma, Bool.false_eq_true,
    ↓reduceIte, Run.bind_of_ok (Reader.expect_eq_ok hclose)]
  rfl

theorem rowsWithin_next {text rest rest' : List Char} {key : String} {v : Value}
    {rows : List (Value × Value)} {fuel : Nat}
    (h : valueWithin (fuel + 1) text = .ok v (',' :: rest))
    (h' : rowsWithin (fuel + 1) rest = .ok rows rest') :
    rowsWithin (fuel + 2) (quote key ++ [' ', '=', '>', ' '] ++ text) =
      .ok ((.text key, v) :: rows) rest' := by
  have hcomma : accept ',' (',' :: rest) = .ok true rest :=
    Reader.accept_eq_true (Lexeme.significant_cons rest (by decide) (by decide))
  simp only [rowsWithin_row, Run.bind_of_ok h, Run.bind_of_ok hcomma, ↓reduceIte,
    Run.bind_of_ok h']
  rfl

theorem writeItems_cons_eq_ok {item : Value} {items : List Value} {parts : List (List Char)} :
    writeItems (item :: items) = .ok parts ↔ ∃ part more, write item = .ok part ∧
      writeItems items = .ok more ∧ parts = part :: more := by
  rw [writeItems]
  constructor
  · intro h
    obtain ⟨part, hpart, h⟩ := Run.except_bind_eq_ok.1 h
    obtain ⟨more, hmore, h⟩ := Run.except_bind_eq_ok.1 h
    exact ⟨part, more, hpart, hmore, (Except.ok.inj h).symm⟩
  · rintro ⟨part, more, hpart, hmore, rfl⟩
    rw [hpart, hmore]
    rfl

/-- Only rows with texts as keys are written. -/
theorem writeRows_cons_eq_ok {key value : Value} {rows : List (Value × Value)}
    {parts : List (List Char)} :
    writeRows ((key, value) :: rows) = .ok parts ↔ ∃ s part more, key = .text s ∧
      write value = .ok part ∧ writeRows rows = .ok more ∧
      parts = (quote s ++ [' ', '=', '>', ' '] ++ part) :: more := by
  constructor
  · intro h
    cases key with
    | text s =>
      rw [writeRows] at h
      obtain ⟨part, hpart, h⟩ := Run.except_bind_eq_ok.1 h
      obtain ⟨more, hmore, h⟩ := Run.except_bind_eq_ok.1 h
      exact ⟨s, part, more, rfl, hpart, hmore, (Except.ok.inj h).symm⟩
    | _ => simp [writeRows] at h
  · rintro ⟨s, part, more, rfl, hpart, hmore, rfl⟩
    rw [writeRows, hpart, hmore]
    rfl

/-- The rows of a written mapping have texts as keys. -/
theorem exists_text_of_writeRows {rows : List (Value × Value)} {parts : List (List Char)}
    (h : writeRows rows = .ok parts) : ∀ k ∈ rows.map Prod.fst, ∃ s, k = .text s := by
  induction rows generalizing parts with
  | nil => simp
  | cons row rows ih =>
    obtain ⟨s, part, more, hkey, -, hmore, -⟩ := writeRows_cons_eq_ok.1 h
    exact List.forall_mem_cons.2 ⟨⟨s, hkey⟩, ih hmore⟩

theorem put_eq_append {table : List (Value × Value)} {s : String} {v : Value}
    (htable : ∀ k ∈ table.map Prod.fst, ∃ s, k = .text s)
    (h : Value.text s ∉ table.map Prod.fst) :
    Table.put table (.text s) v = table ++ [(.text s, v)] := by
  induction table with
  | nil => rfl
  | cons row table ih =>
    obtain ⟨key, value⟩ := row
    rw [List.map_cons, List.forall_mem_cons] at htable
    rw [List.map_cons, List.mem_cons, not_or] at h
    obtain ⟨⟨t, rfl⟩, htable⟩ := htable
    have hne : (Value.text t == Value.text s) = false := by
      change (t == s) = false
      simpa using fun heq : t = s => h.1 (by rw [heq])
    simp [Table.put, hne, ih htable h.2]

/-- A table of rows with different texts as keys has these rows. -/
theorem ofRows_eq_self {rows : List (Value × Value)}
    (hrows : ∀ k ∈ rows.map Prod.fst, ∃ s, k = .text s) (h : (rows.map Prod.fst).Nodup) :
    Table.ofRows rows = rows := by
  have hupdate : ∀ table more : List (Value × Value),
      (∀ k ∈ (table ++ more).map Prod.fst, ∃ s, k = .text s) →
      ((table ++ more).map Prod.fst).Nodup → Table.update table more = table ++ more := by
    intro table more
    induction more generalizing table with
    | nil => simp [Table.update]
    | cons row more ih =>
      intro hkeys hnodup
      obtain ⟨key, value⟩ := row
      obtain ⟨s, rfl⟩ := hkeys key (by simp)
      have htable : ∀ k ∈ table.map Prod.fst, ∃ s, k = .text s := fun k hk =>
        hkeys k (by rw [List.map_append]; exact List.mem_append_left _ hk)
      have hnew : Value.text s ∉ table.map Prod.fst := by
        rw [List.map_append, List.nodup_append] at hnodup
        exact fun hmem => hnodup.2.2 _ hmem _ (by simp) rfl
      have happend : table ++ (Value.text s, value) :: more =
          (table ++ [(Value.text s, value)]) ++ more := by simp
      rw [happend] at hkeys hnodup ⊢
      rw [← ih _ hkeys hnodup, ← put_eq_append htable hnew]
      rfl
  exact hupdate [] rows hrows h

mutual

/-- The literal of any value is read to its end, in front of any text that does not go on with
it; a value that a program can hold reads back. -/
theorem valueWithin_append {v : Value} {literal : List Char} (h : write v = .ok literal)
    {fuel : Nat} (hfuel : 2 * literal.length ≤ fuel) {rest : List Char} (hrest : EndsLexeme rest) :
    ∃ v', valueWithin fuel (literal ++ rest) = .ok v' rest ∧ (v.Proper → v' = v.listed) := by
  obtain ⟨c, tail, hcons, -⟩ := write_head h
  obtain ⟨fuel, rfl⟩ : ∃ n, fuel = n + 1 := ⟨fuel - 1, by simp [hcons] at hfuel; omega⟩
  cases v with
  | null =>
    obtain rfl := Except.ok.inj h
    exact ⟨_, valueWithin_constant rfl hrest fuel, fun _ => rfl⟩
  | bool b =>
    cases b <;>
      (obtain rfl := Except.ok.inj h
       exact ⟨_, valueWithin_constant rfl hrest fuel, fun _ => rfl⟩)
  | int n =>
    simp only [write] at h
    split at h
    · next hn =>
      obtain rfl := Except.ok.inj h
      obtain ⟨c, tail, heq, hc⟩ := head_integer n
      exact ⟨_, valueWithin_number (by rw [heq]; rfl) hc (number_integer hn hrest) fuel,
        fun _ => rfl⟩
    · cases h
  | float x =>
    simp only [write] at h
    split at h
    · next hx =>
      obtain rfl := Except.ok.inj h
      obtain ⟨c, tail, heq, hc⟩ := head_float hx
      obtain ⟨y, hy, hxy⟩ := number_float hx hrest
      refine ⟨_, valueWithin_number (by rw [heq]; rfl) hc hy fuel, fun hproper => ?_⟩
      rw [hxy hproper]
      rfl
    · cases h
  | text s =>
    obtain rfl := Except.ok.inj h
    exact ⟨_, valueWithin_quote s fuel rest, fun _ => rfl⟩
  | list items | tuple items =>
    simp only [write] at h
    obtain ⟨parts, hparts, h⟩ := Run.except_bind_eq_ok.1 h
    obtain rfl := Except.ok.inj h
    have hparts' : 2 * (commaList parts).length < fuel := by simp at hfuel; omega
    obtain ⟨vs, hvs, hlisted⟩ := itemsWithin_append hparts hparts' rest
    refine ⟨.list vs, by simpa using valueWithin_list hvs, fun hproper => ?_⟩
    rw [hlisted hproper, Value.listed]
  | mapping rows =>
    simp only [write] at h
    obtain ⟨parts, hparts, h⟩ := Run.except_bind_eq_ok.1 h
    obtain rfl := Except.ok.inj h
    have hparts' : 2 * (commaList parts).length < fuel := by simp at hfuel; omega
    obtain ⟨rows', hrows', hlisted⟩ := rowsWithin_append hparts hparts' rest
    refine ⟨_, by simpa using valueWithin_mapping hrows', fun ⟨hnodup, hproper⟩ => ?_⟩
    -- the keys are texts and no two of them are the same, so the table has the rows as they are
    have hkeys := Value.keys_listedRows rows
    rw [hlisted hproper, Value.listed,
      ofRows_eq_self (by rw [hkeys]; exact exists_text_of_writeRows hparts) (by rwa [hkeys])]
  | inner | record | foreign => cases h
termination_by sizeOf v

theorem itemsWithin_append {items : List Value} {parts : List (List Char)}
    (h : writeItems items = .ok parts) {fuel : Nat} (hfuel : 2 * (commaList parts).length < fuel)
    (rest : List Char) :
    ∃ vs, itemsWithin fuel (commaList parts ++ ']' :: rest) = .ok vs rest ∧
      (Value.ProperItems items → vs = Value.listedItems items) := by
  obtain ⟨fuel, rfl⟩ : ∃ n, fuel = n + 1 := ⟨fuel - 1, by omega⟩
  match items with
  | [] =>
    obtain rfl := Except.ok.inj h
    exact ⟨[], itemsWithin_closed fuel rest, fun _ => rfl⟩
  | [item] =>
    obtain ⟨part, more, hpart, hmore, rfl⟩ := writeItems_cons_eq_ok.1 h
    obtain rfl := Except.ok.inj hmore
    have hends : EndsLexeme (']' :: rest) := .cons rest (Lexeme.isDelimiter_of_mem (by simp))
    have hpart' : 2 * part.length ≤ fuel := by simp at hfuel; omega
    obtain ⟨v, hv, hlisted⟩ := valueWithin_append hpart hpart' hends
    obtain ⟨hs, hne⟩ := significant_write hpart (']' :: rest)
    rw [commaList_singleton]
    refine ⟨[v], itemsWithin_last hs (hne ']' (by simp)) hv, fun hproper => ?_⟩
    rw [hlisted hproper.1]
    rfl
  | item :: next :: items =>
    obtain ⟨part, parts, hpart, hparts, rfl⟩ := writeItems_cons_eq_ok.1 h
    obtain ⟨part', parts', -, -, rfl⟩ := writeItems_cons_eq_ok.1 hparts
    rw [commaList_cons_cons] at hfuel ⊢
    rw [List.length_append, List.length_cons, List.length_cons] at hfuel
    have hends : EndsLexeme (',' :: ' ' :: (commaList (part' :: parts') ++ ']' :: rest)) :=
      .cons _ (Lexeme.isDelimiter_of_mem (by simp))
    obtain ⟨fuel, rfl⟩ : ∃ n, fuel = n + 1 := ⟨fuel - 1, by omega⟩
    have hpart' : 2 * part.length ≤ fuel + 1 := by omega
    have hparts' : 2 * (commaList (part' :: parts')).length < fuel + 1 := by omega
    obtain ⟨v, hv, hlisted⟩ := valueWithin_append hpart hpart' hends
    obtain ⟨vs, hvs, hlisted'⟩ := itemsWithin_append hparts hparts' rest
    -- the blank behind the comma is skipped before the next item
    rw [← itemsWithin_insignificant (.blank (by decide) : Insignificant [' '])] at hvs
    obtain ⟨hs, hne⟩ := significant_write hpart
      (',' :: ' ' :: (commaList (part' :: parts') ++ ']' :: rest))
    rw [List.append_assoc, List.cons_append, List.cons_append]
    refine ⟨v :: vs, itemsWithin_next hs (hne ']' (by simp)) hv hvs, fun hproper => ?_⟩
    rw [hlisted hproper.1, hlisted' hproper.2]
    rfl
termination_by sizeOf items

theorem rowsWithin_append {rows : List (Value × Value)} {parts : List (List Char)}
    (h : writeRows rows = .ok parts) {fuel : Nat} (hfuel : 2 * (commaList parts).length < fuel)
    (rest : List Char) :
    ∃ rows', rowsWithin fuel (commaList parts ++ '\x7d' :: rest) = .ok rows' rest ∧
      (Value.ProperRows rows → rows' = Value.listedRows rows) := by
  obtain ⟨fuel, rfl⟩ : ∃ n, fuel = n + 1 := ⟨fuel - 1, by omega⟩
  match rows with
  | [] =>
    obtain rfl := Except.ok.inj h
    exact ⟨[], rowsWithin_closed fuel rest, fun _ => rfl⟩
  | [(key, value)] =>
    obtain ⟨s, part, more, rfl, hpart, hmore, rfl⟩ := writeRows_cons_eq_ok.1 h
    obtain rfl := Except.ok.inj hmore
    rw [commaList_singleton] at hfuel ⊢
    simp only [List.length_append, List.length_cons] at hfuel
    obtain ⟨fuel, rfl⟩ : ∃ n, fuel = n + 1 := ⟨fuel - 1, by omega⟩
    have hends : EndsLexeme ('\x7d' :: rest) := .cons rest (Lexeme.isDelimiter_of_mem (by simp))
    have hpart' : 2 * part.length ≤ fuel + 1 := by omega
    obtain ⟨v, hv, hlisted⟩ := valueWithin_append hpart hpart' hends
    rw [List.append_assoc]
    refine ⟨[(.text s, v)], rowsWithin_last hv, fun hproper => ?_⟩
    rw [hlisted hproper.1]
    rfl
  | (key, value) :: (key', value') :: rows =>
    obtain ⟨s, part, parts, rfl, hpart, hparts, rfl⟩ := writeRows_cons_eq_ok.1 h
    obtain ⟨_, _, parts', -, -, -, hcons⟩ := writeRows_cons_eq_ok.1 hparts
    obtain ⟨part', rfl⟩ : ∃ part', parts = part' :: parts' := ⟨_, hcons⟩
    rw [commaList_cons_cons] at hfuel ⊢
    simp only [List.length_append, List.length_cons] at hfuel
    obtain ⟨fuel, rfl⟩ : ∃ n, fuel = n + 1 := ⟨fuel - 1, by omega⟩
    have hends : EndsLexeme (',' :: ' ' :: (commaList (part' :: parts') ++ '\x7d' :: rest)) :=
      .cons _ (Lexeme.isDelimiter_of_mem (by simp))
    have hpart' : 2 * part.length ≤ fuel + 1 := by omega
    have hparts' : 2 * (commaList (part' :: parts')).length < fuel + 1 := by omega
    obtain ⟨v, hv, hlisted⟩ := valueWithin_append hpart hpart' hends
    obtain ⟨rows', hrows', hlisted'⟩ := rowsWithin_append hparts hparts' rest
    -- the blank behind the comma is skipped before the next row
    rw [← rowsWithin_insignificant (.blank (by decide) : Insignificant [' '])] at hrows'
    rw [List.append_assoc, List.append_assoc, List.cons_append, List.cons_append]
    refine ⟨(.text s, v) :: rows', rowsWithin_next hv hrows', fun hproper => ?_⟩
    rw [hlisted hproper.1, hlisted' hproper.2]
    rfl
termination_by sizeOf rows

end

/-- The fuel that `Literal.value` takes from the length of the text suffices, also behind blanks
and comments. -/
theorem value_append {v : Value} {literal : List Char} (h : write v = .ok literal)
    {w rest : List Char} (hw : Insignificant w) (hrest : EndsLexeme rest) :
    ∃ v', value (w ++ (literal ++ rest)) = .ok v' rest ∧ (v.Proper → v' = v.listed) := by
  have hfuel : 2 * literal.length ≤ fuelFor (w ++ (literal ++ rest)) := by
    simp only [fuelFor, List.length_append]
    omega
  obtain ⟨v', hv', hlisted⟩ := valueWithin_append h hfuel hrest
  exact ⟨v', (valueWithin_insignificant hw _ _).trans hv', hlisted⟩

/-- **A literal reads back as its value.**  A parser that stands before the literal of a value,
anywhere in a text that does not go on with it, reads that value and stops just behind the
literal. -/
theorem read_value_write {v : Value} {literal : List Char} (h : write v = .ok literal)
    (hv : v.Proper) (before : List Char) {rest : List Char} (hrest : EndsLexeme rest)
    {p : Parser} (htext : p.buffer.text = before ++ literal ++ rest)
    (hpos : p.pos = before.length) :
    Parse.read value p = .ok v.listed { p with pos := before.length + literal.length } := by
  have hunread : p.unread = literal ++ rest := by
    rw [Parser.unread, htext, hpos, List.append_assoc, List.drop_left]
  obtain ⟨v', hread, hlisted⟩ := value_append h .nil hrest
  rw [List.nil_append] at hread
  simp only [Parse.read, hunread, hread, hlisted hv, hpos, List.length_append,
    Nat.add_sub_cancel]

/-- A mapping that holds a tuple and a text full of marks, as the last item of a list. -/
theorem read_value_write_mapping :
    ∃ v literal, v = .mapping [(.text "a#", .tuple [.int (-12), .text "\"=>\n"])] ∧
      write v = .ok literal ∧ v.Proper ∧ EndsLexeme [' ', ']'] ∧
      Parse.read value
          { Setting.parser {} (String.ofList (['[', '1', ','] ++ literal ++ [' ', ']'])) with
            pos := 3 } =
        .ok v.listed
          { Setting.parser {} (String.ofList (['[', '1', ','] ++ literal ++ [' ', ']'])) with
            pos := 3 + literal.length } := by
  have hwrite : write (.mapping [(.text "a#", .tuple [.int (-12), .text "\"=>\n"])]) =
      .ok "\x7b\"a#\" => [-12, \"\\\"=>\\n\"]\x7d".toList := rfl
  have hproper : (Value.mapping [(.text "a#", .tuple [.int (-12), .text "\"=>\n"])]).Proper := by
    simp [Value.Proper, Value.ProperRows, Value.ProperItems]
  have hrest : EndsLexeme [' ', ']'] := .cons [']'] (Lexeme.isDelimiter_of_mem (by simp))
  exact ⟨_, _, rfl, hwrite, hproper, hrest,
    read_value_write hwrite hproper ['[', '1', ','] hrest String.toList_ofList rfl⟩

end Literal

end BraceScript
