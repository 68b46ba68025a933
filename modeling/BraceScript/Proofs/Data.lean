import BraceScript.Proofs.Moves
import BraceScript.Proofs.Refusal
import BraceScript.Proofs.Rounding
import Mathlib.Data.Nat.Digits.Defs
import Mathlib.Data.Set.List

/-!
# What is read as data

The values that the readers of data give have literals for all their integers, their
floating-point numbers are numbers of the format, and the keys of mappings are texts, no two of them
the same (`Value.Readable`).  The readers fail for a place in the text, and for one other
reason only: an integer of more digits than any integer may have, right before the place where they
stop (`Reader.Finds`, `Literal.finds_value`).

Options of this kind are normalised, or refused with a cause that can be reported
(`Options.normalise_readable`).
-/

namespace BraceScript

open Lexeme (significant)

/-! ### Values that are read -/

/-- A value that can be read from a text. -/
inductive Value.Readable : Value → Prop
  | null : Readable .null
  | bool (b : Bool) : Readable (.bool b)
  | int {n : Int} (h : (Nat.toDigits 10 n.natAbs).length ≤ Lexeme.maxDigits) : Readable (.int n)
  | float {x : Binary64} (h : x.InFormat) : Readable (.float x)
  | text (s : String) : Readable (.text s)
  | list {items : List Value} (h : ∀ item ∈ items, Readable item) : Readable (.list items)
  | mapping {rows : List (Value × Value)} (hkeys : ∀ row ∈ rows, ∃ s, row.1 = .text s)
      (hnodup : (rows.map Prod.fst).Nodup) (h : ∀ row ∈ rows, Readable row.2) :
      Readable (.mapping rows)

namespace Lexeme

theorem mem_numberTail {text : List Char} :
    ∀ c ∈ numberTail text, c.isDigit = true ∨ c = '_' ∨ c = '.' := by
  fun_induction numberTail text with
  | case1 => simp
  | case2 c rest hc ih =>
    rw [Bool.or_eq_true, beq_iff_eq] at hc
    exact List.forall_mem_cons.2 ⟨hc.imp_right .inl, ih⟩
  | case3 d rest hd hc ih =>
    exact List.forall_mem_cons.2 ⟨.inr (.inr rfl), List.forall_mem_cons.2 ⟨.inl hd, ih⟩⟩
  | case4 => simp
  | case5 => simp

theorem ofDigitChars_lt {cs : List Char} (h : ∀ c ∈ cs, c.isDigit = true) (init : Nat) :
    Nat.ofDigitChars 10 cs init < (init + 1) * 10 ^ cs.length := by
  induction cs generalizing init with
  | nil => simp [Nat.ofDigitChars]
  | cons c cs ih =>
    rw [List.forall_mem_cons] at h
    have hc : c.toNat - '0'.toNat < 10 := by
      have hdigit := h.1
      simp only [Char.isDigit, Bool.and_eq_true, decide_eq_true_eq] at hdigit
      have hle : c.toNat ≤ 57 := hdigit.2
      have hzero : '0'.toNat = 48 := rfl
      omega
    rw [Nat.ofDigitChars_cons, List.length_cons]
    calc Nat.ofDigitChars 10 cs (10 * init + (c.toNat - '0'.toNat))
        < (10 * init + (c.toNat - '0'.toNat) + 1) * 10 ^ cs.length := ih h.2 _
      _ ≤ (10 * (init + 1)) * 10 ^ cs.length := Nat.mul_le_mul_right _ (by omega)
      _ = (init + 1) * 10 ^ (cs.length + 1) := by ring

theorem number?_prefix {text lexeme : List Char} (h : number? text = some lexeme) :
    lexeme <+: text := by
  cases text with
  | nil => cases h
  | cons c rest =>
    rw [number?] at h
    split at h
    · obtain rfl := Option.some.inj h
      simpa using numberTail_prefix rest
    · cases h

/-- Without its underscores a number that has no point consists of digits. -/
theorem digits_of_number {c : Char} {rest digits : List Char} (hc : c.isDigit = true)
    (hdigits : (c :: numberTail rest).filter (· != '_') = digits) (hpoint : digits.count '.' = 0) :
    0 < digits.length ∧ ∀ d ∈ digits, d.isDigit = true := by
  subst hdigits
  constructor
  · have hne : (c != '_') = true := by
      rw [bne_iff_ne]
      rintro rfl
      cases hc
    exact List.length_pos_of_mem (List.mem_filter.2 ⟨List.mem_cons_self, hne⟩)
  · intro d hd
    have hpoint' : d ≠ '.' := fun heq => List.count_eq_zero.1 hpoint (heq ▸ hd)
    rw [List.mem_filter, bne_iff_ne] at hd
    rcases List.mem_cons.1 hd.1 with rfl | hd'
    · exact hc
    · exact (mem_numberTail d hd').resolve_right (not_or.2 ⟨hd.2, hpoint'⟩)

/-- The value of a number that comes next can be read. -/
theorem readable_numberValue {text lexeme : List Char} {v : Value}
    (hlexeme : number? text = some lexeme) (hv : numberValue lexeme = some v) : v.Readable := by
  obtain ⟨c, rest, rfl, hc, rfl⟩ : ∃ c rest, text = c :: rest ∧ c.isDigit = true ∧
      lexeme = c :: numberTail rest := by
    cases text with
    | nil => cases hlexeme
    | cons c rest =>
      rw [number?] at hlexeme
      split at hlexeme
      · next hc => exact ⟨c, rest, rfl, hc, (Option.some.inj hlexeme).symm⟩
      · cases hlexeme
  simp only [numberValue] at hv
  split at hv
  · next hpoint =>
    split at hv
    · next hlength =>
      obtain rfl := Option.some.inj hv
      generalize hdigits : (c :: numberTail rest).filter (· != '_') = digits at hpoint hlength ⊢
      obtain ⟨hpos, hmem⟩ := digits_of_number hc hdigits hpoint
      -- the value has no more digits than were written
      refine .int (le_trans ?_ hlength)
      have hlt := ofDigitChars_lt hmem 0
      rw [Int.natAbs_natCast]
      exact Nat.toDigits_length 10 _ _ hpos (by simpa using hlt)
    · cases hv
  · obtain rfl := Option.some.inj hv
    exact .float (Decimal.inFormat_toBinary64 _ _)
  · obtain rfl := Option.some.inj hv
    exact .text _

end Lexeme

/-! ### Readers -/

/-- `rest` is what is left of `text` behind an integer of too many digits. -/
def Lexeme.EndsOverlong (text rest : List Char) : Prop :=
  ∃ before lexeme, text = before ++ (lexeme ++ rest) ∧ number? (lexeme ++ rest) = some lexeme ∧
    numberValue lexeme = none

theorem Lexeme.EndsOverlong.of_suffix {text text' rest : List Char} (h : EndsOverlong text rest)
    (hsuffix : text <:+ text') : EndsOverlong text' rest := by
  obtain ⟨before, lexeme, rfl, hnumber, hvalue⟩ := h
  obtain ⟨taken, rfl⟩ := hsuffix
  exact ⟨taken ++ before, lexeme, (List.append_assoc _ _ _).symm, hnumber, hvalue⟩

namespace Reader

open Lexeme (EndsOverlong)

variable {α β : Type} {x : Reader α} {f : α → Reader β} {P : α → Prop} {Q : β → Prop}

/-- What the reader gives has the property, and where an integer of too many digits is to blame
for an error, it stands before the place where the reader stops. -/
structure Finds (x : Reader α) (P : α → Prop) : Prop where
  drops : Drops x
  value {text : List Char} {a : α} {rest : List Char} : x text = .ok a rest → P a
  overlong {text : List Char} {e : ReadError} {rest : List Char} : x text = .error e rest →
    e.fault = .integerTooLong → EndsOverlong text rest

theorem Finds.bind (hx : Finds x P) (hf : ∀ a, P a → Finds (f a) Q) : Finds (x >>= f) Q where
  drops text := by
    cases h : x text with
    | ok a rest =>
      rw [Run.final_bind_of_ok h]
      exact ((hf a (hx.value h)).drops rest).trans (hx.drops.of_ok h)
    | error e rest =>
      rw [Run.final_bind_of_error h]
      have hfinal := hx.drops text
      rwa [h] at hfinal
  value h := by
    obtain ⟨a, rest, ha, h⟩ := Run.bind_eq_ok.1 h
    exact (hf a (hx.value ha)).value h
  overlong h hfault := by
    rcases Run.bind_eq_error.1 h with h | ⟨a, middle, ha, h⟩
    · exact hx.overlong h hfault
    · exact ((hf a (hx.value ha)).overlong h hfault).of_suffix (hx.drops.of_ok ha)

/-- The reader gives what it gives, and has other faults than an integer. -/
theorem Finds.of_drops (hdrops : Drops x)
    (h : ∀ {text : List Char} {e : ReadError} {rest : List Char}, x text = .error e rest →
      e.fault ≠ .integerTooLong) : Finds x fun _ => True :=
  ⟨hdrops, fun _ => trivial, fun herror hfault => absurd hfault (h herror)⟩

theorem finds_pure {a : α} (h : P a) : Finds (pure a : Reader α) P :=
  ⟨.pure a, fun hok => (Run.pure_eq_ok.1 hok).1 ▸ h, fun herror => nomatch herror⟩

theorem finds_fail {fault : Fault} (hfault : fault ≠ .integerTooLong) :
    Finds (fail fault : Reader α) P where
  drops := .fail fault
  value h := nomatch h
  overlong h heq := by
    obtain ⟨rfl, -⟩ := EStateM.Result.error.inj h
    exact absurd heq hfault

theorem finds_throw {e : ReadError} (he : e.fault ≠ .integerTooLong) :
    Finds (throw e : Reader α) P where
  drops := .throw e
  value h := nomatch h
  overlong h heq := by
    obtain ⟨rfl, -⟩ := EStateM.Result.error.inj h
    exact absurd heq he

theorem finds_get : Finds (get : Reader (List Char)) fun _ => True :=
  .of_drops .get fun h => nomatch h

theorem finds_advance (count : Nat) : Finds (advance count) fun _ => True :=
  .of_drops (drops_advance count) fun h => nomatch h

theorem finds_peek : Finds peek fun _ => True := .of_drops drops_peek fun h => nomatch h

theorem finds_peekWord : Finds peekWord fun _ => True :=
  .of_drops drops_peekWord fun h => nomatch h

theorem finds_accept (c : Char) : Finds (accept c) fun _ => True := by
  refine finds_peek.bind fun next _ => ?_
  split
  · exact (finds_advance 1).bind fun _ _ => finds_pure trivial
  · exact finds_pure trivial

theorem finds_expect (c : Char) : Finds (expect c) fun _ => True := by
  refine finds_peek.bind fun next _ => ?_
  split
  · exact finds_advance 1
  · exact finds_fail (by simp)

theorem finds_word (what : String) : Finds (word what) fun _ => True := by
  refine finds_peekWord.bind fun next _ => ?_
  cases next with
  | some word => exact (finds_advance _).bind fun _ _ => finds_pure trivial
  | none => exact finds_fail (by simp)

theorem finds_number {missing : Fault} (hmissing : missing ≠ .integerTooLong) :
    Finds (number missing) fun _ => True := by
  refine finds_get.bind fun text _ => ?_
  split
  · exact (finds_advance _).bind fun _ _ => finds_pure trivial
  · exact finds_fail hmissing

theorem finds_quoted : Finds quoted fun _ => True := by
  refine finds_get.bind fun text _ => ?_
  split
  · exact (finds_advance _).bind fun _ _ => finds_pure trivial
  · exact finds_throw (by simp)
  · exact finds_throw (by simp)

end Reader

namespace Literal

open Reader

theorem finds_negate {v : Value} (h : v.Readable) : Finds (negate v) Value.Readable := by
  cases h with
  | int h => exact finds_pure (.int (by rwa [Int.natAbs_neg]))
  | float h => exact finds_pure (.float h.neg)
  | text s => exact finds_fail (by simp)
  | null => exact finds_pure .null
  | bool b => exact finds_pure (.bool b)
  | list h => exact finds_pure (.list h)
  | mapping hkeys hnodup h => exact finds_pure (.mapping hkeys hnodup h)

theorem number_eq_ok {missing : Fault} {text lexeme rest : List Char}
    (h : Reader.number missing text = .ok lexeme rest) :
    Lexeme.number? text = some lexeme ∧ text = lexeme ++ rest := by
  rw [Reader.number, Run.get_bind] at h
  cases hlexeme : Lexeme.number? text with
  | none =>
    rw [hlexeme] at h
    cases h
  | some lexeme' =>
    rw [hlexeme] at h
    obtain ⟨rfl, rfl⟩ := EStateM.Result.ok.inj h
    obtain ⟨more, rfl⟩ := Lexeme.number?_prefix hlexeme
    exact ⟨rfl, by simp⟩

/-- A number has a value that can be read, or it is an integer of too many digits. -/
theorem finds_number : Finds number Value.Readable where
  drops := drops_number
  value h := by
    obtain ⟨negative, middle, -, h⟩ := Run.bind_eq_ok.1 h
    obtain ⟨lexeme, rest, hlexeme, h⟩ := Run.bind_eq_ok.1 h
    obtain ⟨hnumber, -⟩ := number_eq_ok hlexeme
    cases hv : Lexeme.numberValue lexeme with
    | none =>
      rw [hv] at h
      cases h
    | some v =>
      rw [hv] at h
      have hreadable := Lexeme.readable_numberValue hnumber hv
      cases negative with
      | true => exact (finds_negate hreadable).value h
      | false => exact (finds_pure hreadable).value h
  overlong h hfault := by
    rcases Run.bind_eq_error.1 h with h | ⟨negative, middle, haccept, h⟩
    · exact (finds_accept '-').overlong h hfault
    refine Lexeme.EndsOverlong.of_suffix ?_ ((drops_accept '-').of_ok haccept)
    rcases Run.bind_eq_error.1 h with h | ⟨lexeme, rest, hlexeme, h⟩
    · exact (Reader.finds_number (by simp)).overlong h hfault
    obtain ⟨hnumber, hmiddle⟩ := number_eq_ok hlexeme
    cases hv : Lexeme.numberValue lexeme with
    | none =>
      rw [hv] at h
      obtain ⟨-, rfl⟩ := EStateM.Result.error.inj h
      exact ⟨[], lexeme, hmiddle, hmiddle ▸ hnumber, hv⟩
    | some v =>
      rw [hv] at h
      have hreadable := Lexeme.readable_numberValue hnumber hv
      refine Lexeme.EndsOverlong.of_suffix ?_ ⟨lexeme, hmiddle.symm⟩
      cases negative with
      | true => exact (finds_negate hreadable).overlong h hfault
      | false => exact absurd h Run.pure_eq_error

theorem readable_constant? {word : String} {v : Value} (h : constant? word = some v) :
    v.Readable := by
  rw [constant?] at h
  split at h
  · exact Option.some.inj h ▸ .null
  · split at h
    · exact Option.some.inj h ▸ .bool true
    · split at h
      · exact Option.some.inj h ▸ .bool false
      · cases h

/-- A row that was read for a mapping. -/
def RowRead (row : Value × Value) : Prop := (∃ s, row.1 = .text s) ∧ row.2.Readable

theorem forall_mem_put {rows : List (Value × Value)} {key value : Value}
    (hrows : ∀ row ∈ rows, RowRead row) (hrow : RowRead (key, value)) :
    ∀ row ∈ Table.put rows key value, RowRead row := by
  induction rows with
  | nil => simpa [Table.put] using hrow
  | cons row rows ih =>
    rw [List.forall_mem_cons] at hrows
    rw [Table.put]
    split
    · exact List.forall_mem_cons.2 ⟨⟨hrows.1.1, hrow.2⟩, hrows.2⟩
    · exact List.forall_mem_cons.2 ⟨hrows.1, ih hrows.2⟩

/-- The rows of a mapping that was read. -/
structure RowsRead (rows : List (Value × Value)) : Prop where
  row : ∀ row ∈ rows, RowRead row
  nodup : (rows.map Prod.fst).Nodup

theorem RowsRead.update {table rows : List (Value × Value)} (htable : RowsRead table)
    (hrows : ∀ row ∈ rows, RowRead row) : RowsRead (Table.update table rows) := by
  induction rows generalizing table with
  | nil => exact htable
  | cons row rows ih =>
    rw [List.forall_mem_cons] at hrows
    obtain ⟨key, value⟩ := row
    obtain ⟨s, rfl⟩ := hrows.1.1
    exact ih ⟨forall_mem_put htable.row hrows.1, Options.nodup_keys_put htable.nodup⟩ hrows.2

theorem readable_ofRows {rows : List (Value × Value)} (h : ∀ row ∈ rows, RowRead row) :
    (Value.mapping (Table.ofRows rows)).Readable := by
  have hrows : RowsRead (Table.ofRows rows) := RowsRead.update ⟨by simp, .nil⟩ h
  exact .mapping (fun row hrow => (hrows.row row hrow).1) hrows.nodup
    fun row hrow => (hrows.row row hrow).2

theorem finds_within (fuel : Nat) :
    Finds (valueWithin fuel) Value.Readable ∧
    Finds (itemsWithin fuel) (fun items => ∀ item ∈ items, item.Readable) ∧
    Finds (rowsWithin fuel) (fun rows => ∀ row ∈ rows, RowRead row) := by
  induction fuel with
  | zero => exact ⟨finds_fail (by simp), finds_fail (by simp), finds_fail (by simp)⟩
  | succ fuel ih =>
    obtain ⟨hvalue, hitems, hrows⟩ := ih
    refine ⟨?_, ?_, ?_⟩
    · refine finds_peek.bind fun next _ => ?_
      split
      · exact finds_quoted.bind fun s _ => finds_pure (.text s)
      · exact (finds_advance 1).bind fun _ _ => hitems.bind fun items h => finds_pure (.list h)
      · exact (finds_advance 1).bind fun _ _ => hrows.bind fun rows h =>
          finds_pure (readable_ofRows h)
      · split
        · exact finds_number
        · refine finds_peekWord.bind fun word _ => ?_
          cases word with
          | none => exact finds_fail (by simp)
          | some word =>
            refine (finds_advance _).bind fun _ _ => finds_pure ?_
            cases hconstant : constant? word with
            | none => exact .text word
            | some v => exact readable_constant? hconstant
    · refine (finds_accept ']').bind fun closed _ => ?_
      split
      · exact finds_pure (by simp)
      · refine hvalue.bind fun item hitem => (finds_accept ',').bind fun more _ => ?_
        split
        · exact hitems.bind fun items h => finds_pure (List.forall_mem_cons.2 ⟨hitem, h⟩)
        · exact (finds_expect ']').bind fun _ _ => finds_pure (by simpa using hitem)
    · refine (finds_accept '}').bind fun closed _ => ?_
      split
      · exact finds_pure (by simp)
      · refine finds_get.bind fun start _ => hvalue.bind fun key hkey => ?_
        split
        · exact (finds_throw (P := fun _ => False) (by simp)).bind nofun
        · next htext =>
          refine finds_peek.bind fun _ _ => finds_get.bind fun text _ => ?_
          split
          · exact (finds_fail (P := fun _ => False) (by simp)).bind nofun
          · refine (finds_advance 2).bind fun _ _ => hvalue.bind fun value hvalue => ?_
            have hrow : RowRead (key, value) := by
              refine ⟨?_, hvalue⟩
              cases key <;> simp [Value.text?] at htext
              exact ⟨_, rfl⟩
            refine (finds_accept ',').bind fun more _ => ?_
            split
            · exact hrows.bind fun rows h => finds_pure (List.forall_mem_cons.2 ⟨hrow, h⟩)
            · exact (finds_expect '}').bind fun _ _ => finds_pure (by simpa using hrow)

/-- **What reading a value can find.** -/
theorem finds_value : Finds value Value.Readable :=
  finds_get.bind fun _ _ => (finds_within _).1

end Literal

namespace Parse

open Reader

theorem finds_versionLiteral : Finds versionLiteral fun _ => True := by
  refine finds_peek.bind fun next _ => ?_
  split
  · exact finds_quoted
  · exact (Reader.finds_number (by simp)).bind fun _ _ => finds_pure trivial

theorem finds_moreData (fuel : Nat) :
    Finds (moreData fuel) fun values => ∀ v ∈ values, v.Readable := by
  induction fuel with
  | zero => exact finds_fail (by simp)
  | succ fuel ih =>
    refine (finds_accept ',').bind fun more _ => ?_
    split
    · exact Literal.finds_value.bind fun value hvalue => ih.bind fun values h =>
        finds_pure (List.forall_mem_cons.2 ⟨hvalue, h⟩)
    · exact finds_pure (by simp)

/-- The options that a `use` statement hands on can be read. -/
theorem finds_useArguments : Finds useArguments Value.Readable := by
  refine finds_peek.bind fun next _ => ?_
  split
  · exact finds_pure .null
  · refine Literal.finds_value.bind fun first hfirst => finds_get.bind fun text _ =>
      (finds_moreData _).bind fun more hmore => ?_
    split
    · exact finds_pure hfirst
    · exact finds_pure (.list (List.forall_mem_cons.2 ⟨hfirst, hmore⟩))

end Parse

/-! ### Options that are read -/

namespace Value.Readable

theorem of_items? {v : Value} {items : List Value} (h : v.Readable)
    (hitems : v.items? = some items) :
    ∀ item ∈ items, item.Readable := by
  cases h with
  | list h =>
    obtain rfl := Option.some.inj hitems
    exact h
  | _ => cases hitems

/-- All integers of the value can be shown. -/
theorem isShowable {v : Value} (h : v.Readable) : v.isShowable = true := by
  induction h with
  | null | bool | float | text => rfl
  | int h => simpa [Value.isShowable] using h
  | list _ ih => exact Value.areShowable_iff.2 ih
  | mapping hkeys _ _ ih =>
    refine Value.areShowableRows_iff.2 fun row hrow => ⟨?_, ih row hrow⟩
    obtain ⟨s, hs⟩ := hkeys row hrow
    rw [hs]
    rfl

end Value.Readable

namespace Options

open Value (Readable)
open Literal (RowRead)

variable {feature : BlockFeature} {v : Value} {raw : Raw}

theorem rowRead_of_mapping {rows : List (Value × Value)} (h : (Value.mapping rows).Readable) :
    ∀ row ∈ rows, RowRead row := by
  cases h with
  | mapping hkeys _ h => exact fun row hrow => ⟨hkeys row hrow, h row hrow⟩

/-- **Options that were read are normalised, or refused with a cause that can be reported.** -/
theorem normalise_readable {refusal : Refusal} (hv : v.Readable)
    (h : normalise feature v = .error refusal) : ∃ cause, refusal = .invalid cause := by
  refine invalid_of_showable hv.isShowable ?_ (Nat.lt_succ_self _) h
  rintro rows rfl key hkey
  obtain ⟨row, hrow, rfl⟩ := List.mem_map.1 hkey
  exact (rowRead_of_mapping hv row hrow).1

end Options

/-- Of options of this kind `syntax` hands on only such options. -/
def HandsOn (Given : Value → Prop) : Prop :=
  ∀ options pairs, Given options → featurePairs options = .ok pairs → ∀ pair ∈ pairs, Given pair.2

theorem HandsOn.any : HandsOn fun _ => True := fun _ _ _ _ _ _ => trivial

theorem given_of_pairItems {Given : Value → Prop} {named pairs : List (String × Value)}
    {items : List Value} (hnull : Given .null) (h : pairItems named items = .ok pairs)
    (hnamed : ∀ pair ∈ named, Given pair.2) (hitems : ∀ item ∈ items, Given item) :
    ∀ pair ∈ pairs, Given pair.2 := by
  fun_induction pairItems named items with
  | case1 named =>
    obtain rfl := Except.ok.inj h
    exact fun pair hpair => hnamed pair (List.mem_reverse.1 hpair)
  | case2 named name items ih =>
    rw [List.forall_mem_cons] at hitems
    exact ih h (List.forall_mem_cons.2 ⟨hnull, hnamed⟩) hitems.2
  | case3 named name item items hitem ih =>
    rw [List.forall_mem_cons] at hnamed hitems
    exact ih h (List.forall_mem_cons.2 ⟨hitems.1, hnamed.2⟩) hitems.2
  | case4 => cases h

/-- What `syntax` hands on are the items of its own options, and no options. -/
theorem HandsOn.of_items? {Given : Value → Prop} (hnull : Given .null)
    (hitems : ∀ {v : Value} {items : List Value}, Given v → v.items? = some items →
      ∀ item ∈ items, Given item) : HandsOn Given := by
  intro options pairs hoptions h
  cases options with
  | null =>
    obtain rfl := Except.ok.inj h
    simp
  | text name =>
    obtain rfl := Except.ok.inj h
    simpa using hnull
  | list items | tuple items =>
    exact given_of_pairItems hnull h (by simp) (hitems hoptions rfl)
  | _ => cases h

/-- The options that `syntax` hands on can be read, if its own were. -/
theorem Value.Readable.handsOn : HandsOn Value.Readable := .of_items? .null .of_items?

/-- What `syntax` takes for no name can be shown, if its options can. -/
theorem showable_of_featurePairs {options : Value} {cause : Misconfiguration}
    (h : featurePairs options = .error cause) (hv : options.isShowable = true) :
    cause.isShowable = true := by
  have hitems (items : List Value) (hitems : ∀ item ∈ items, item.isShowable = true)
      (named : List (String × Value)) (h : pairItems named items = .error cause) :
      cause.isShowable = true := by
    fun_induction pairItems named items with
    | case1 => cases h
    | case2 named name items ih => exact ih (List.forall_mem_cons.1 hitems).2 h
    | case3 named name item items hitem ih => exact ih (List.forall_mem_cons.1 hitems).2 h
    | case4 =>
      obtain rfl := Except.error.inj h
      exact (List.forall_mem_cons.1 hitems).1
  unfold featurePairs at h
  split at h
  · cases h
  · cases h
  · exact hitems _ (Value.areShowable_iff.1 hv) [] h
  · exact hitems _ (Value.areShowable_iff.1 hv) [] h
  · obtain rfl := Except.error.inj h
    rfl

end BraceScript
