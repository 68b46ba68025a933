import BraceScript.Proofs.Data
import BraceScript.Proofs.Propagation

/-!
# Writing what was read

A value that was read as data has a literal unless one of its floating-point numbers needs an
exponent, and the literal reads back as the value itself (`Literal.written_back`).  The first
number with an exponent is the only thing that writing can fail for.

A text without any exponent can be the text of such a number (`Literal.not_written_back`).
-/

namespace BraceScript

namespace Value

mutual

/-- The floating-point numbers of a value, in the order in which they are written. -/
def floats : Value → List Binary64
  | float x => [x]
  | list items | tuple items => floatsOfItems items
  | mapping rows => floatsOfRows rows
  | inner _ options => floats options
  | _ => []

/-- The floating-point numbers of the items. -/
def floatsOfItems : List Value → List Binary64
  | [] => []
  | item :: items => floats item ++ floatsOfItems items

/-- The floating-point numbers of the rows, keys apart. -/
def floatsOfRows : List (Value × Value) → List Binary64
  | [] => []
  | (_, value) :: rows => floats value ++ floatsOfRows rows

end

/-! ### Values that are read can be held, and have no tuples -/

theorem properRows_iff {rows : List (Value × Value)} :
    ProperRows rows ↔ ∀ row ∈ rows, row.2.Proper := by
  induction rows with
  | nil => simp [ProperRows]
  | cons row rows ih => rw [ProperRows, ih, List.forall_mem_cons]

theorem listedRows_eq_self {rows : List (Value × Value)} (h : ∀ row ∈ rows, row.2.listed = row.2) :
    listedRows rows = rows := by
  induction rows with
  | nil => rfl
  | cons row rows ih =>
    rw [List.forall_mem_cons] at h
    rw [listedRows, h.1, ih h.2]

theorem mem_floatsOfItems {x : Binary64} {items : List Value} :
    x ∈ floatsOfItems items ↔ ∃ item ∈ items, x ∈ item.floats := by
  induction items with
  | nil => simp [floatsOfItems]
  | cons item items ih => simp [floatsOfItems, ih]

theorem mem_floatsOfRows {x : Binary64} {rows : List (Value × Value)} :
    x ∈ floatsOfRows rows ↔ ∃ row ∈ rows, x ∈ row.2.floats := by
  induction rows with
  | nil => simp [floatsOfRows]
  | cons row rows ih => simp [floatsOfRows, ih]

namespace Readable

variable {v : Value}

theorem proper (h : v.Readable) : v.Proper := by
  induction h with
  | null | bool | int | text => trivial
  | float h => exact h
  | list _ ih => exact properItems_iff.2 ih
  | mapping _ hnodup _ ih => exact ⟨hnodup, properRows_iff.2 ih⟩

theorem listed_eq_self (h : v.Readable) : v.listed = v := by
  induction h with
  | null | bool | int | float | text => rfl
  | list _ ih => rw [listed, listedItems_eq_map, List.map_congr_left ih, List.map_id']
  | mapping _ _ _ ih => rw [listed, listedRows_eq_self ih]

theorem inFormat (h : v.Readable) : ∀ x ∈ v.floats, x.InFormat := by
  induction h with
  | null | bool | int | text => simp [floats]
  | float h => simpa [floats] using h
  | list _ ih =>
    intro x hx
    obtain ⟨item, hitem, hx⟩ := mem_floatsOfItems.1 hx
    exact ih item hitem x hx
  | mapping _ _ _ ih =>
    intro x hx
    obtain ⟨row, hrow, hx⟩ := mem_floatsOfRows.1 hx
    exact ih row hrow x hx

end Readable

end Value

namespace Literal

open Lexeme (EndsLexeme)

/-! ### What writing fails for -/

variable {α β : Type} {result : Except Unwritable α} {f : α → Except Unwritable β}
  {x? y? : Option Binary64}

/-- Writing fails for the number, or not at all if there is none. -/
def FailsFor (result : Except Unwritable α) : Option Binary64 → Prop
  | none => ∃ a, result = .ok a
  | some x => result = .error (.float x)

theorem FailsFor.pure (a : α) : FailsFor (.ok a) none := ⟨a, rfl⟩

theorem FailsFor.bind (h : FailsFor result x?) (hf : ∀ a, FailsFor (f a) y?) :
    FailsFor (result >>= f) (x?.or y?) := by
  cases x? with
  | none =>
    obtain ⟨a, rfl⟩ := h
    exact hf a
  | some x =>
    obtain rfl := h
    rfl

theorem FailsFor.map (h : FailsFor result x?) (g : α → β) :
    FailsFor (do let a ← result; return g a) x? := by
  rw [← Option.or_none (o := x?)]
  exact h.bind fun a => .pure (g a)

/-- The first number without a positional text. -/
def firstScientific (xs : List Binary64) : Option Binary64 :=
  xs.find? fun x => !x.hasPositionalText

theorem firstScientific_append (xs ys : List Binary64) :
    firstScientific (xs ++ ys) = (firstScientific xs).or (firstScientific ys) :=
  List.find?_append

theorem failsFor_writeItems {items : List Value}
    (h : ∀ item ∈ items, FailsFor (write item) (firstScientific item.floats)) :
    FailsFor (writeItems items) (firstScientific (Value.floatsOfItems items)) := by
  induction items with
  | nil => exact .pure []
  | cons item items ih =>
    rw [List.forall_mem_cons] at h
    rw [writeItems, Value.floatsOfItems, firstScientific_append]
    exact h.1.bind fun part => (ih h.2).map _

theorem failsFor_writeRows {rows : List (Value × Value)}
    (hkeys : ∀ row ∈ rows, ∃ s, row.1 = .text s)
    (h : ∀ row ∈ rows, FailsFor (write row.2) (firstScientific row.2.floats)) :
    FailsFor (writeRows rows) (firstScientific (Value.floatsOfRows rows)) := by
  induction rows with
  | nil => exact .pure []
  | cons row rows ih =>
    rw [List.forall_mem_cons] at hkeys h
    obtain ⟨key, value⟩ := row
    obtain ⟨s, rfl⟩ := hkeys.1
    rw [writeRows, Value.floatsOfRows, firstScientific_append]
    exact h.1.bind fun part => (ih hkeys.2 h.2).map _

/-- A value that was read is written up to its first number without a positional text. -/
theorem failsFor_write {v : Value} (h : v.Readable) :
    FailsFor (write v) (firstScientific v.floats) := by
  induction h with
  | null => exact .pure _
  | bool b => cases b <;> exact .pure _
  | int h =>
    rw [write, if_pos h]
    exact .pure _
  | @float x h =>
    rw [write, Value.floats, firstScientific, List.find?_singleton]
    cases x.hasPositionalText with
    | true => exact .pure _
    | false => rfl
  | text s => exact .pure _
  | list _ ih =>
    rw [write, Value.floats]
    exact (failsFor_writeItems ih).map _
  | mapping hkeys _ _ ih =>
    rw [write, Value.floats]
    exact (failsFor_writeRows hkeys ih).map _

/-! ### What is read is written -/

variable {p q : Parser} {v : Value}

/-- What the parser reads as data, alone or as the options of a statement. -/
theorem readable_of_read
    (h : Parse.read value p = .ok v q ∨ Parse.read Parse.useArguments p = .ok v q) :
    v.Readable := by
  rcases h with h | h
  · obtain ⟨k, -, h, -⟩ := (Parse.read_eq_ok finds_value.drops).1 h
    exact finds_value.value h
  · obtain ⟨k, -, h, -⟩ := (Parse.read_eq_ok Parse.finds_useArguments.drops).1 h
    exact Parse.finds_useArguments.value h

theorem firstScientific_eq_none (hv : v.Readable) (h : ∀ x ∈ v.floats, x.IsModerate) :
    firstScientific v.floats = none := by
  rw [firstScientific, List.find?_eq_none]
  intro x hx
  simpa using (Binary64.hasPositionalText_iff (hv.inFormat x hx)).2 (h x hx)

theorem firstScientific_eq_some {before after : List Binary64} {x : Binary64} (hv : v.Readable)
    (hfloats : v.floats = before ++ x :: after) (hbefore : ∀ y ∈ before, y.IsModerate)
    (hx : ¬ x.IsModerate) : firstScientific v.floats = some x := by
  have hformat := hv.inFormat
  rw [hfloats] at hformat ⊢
  rw [firstScientific, List.find?_eq_some_iff_append]
  refine ⟨?_, before, after, rfl, fun y hy => ?_⟩
  · simpa using fun h => hx ((Binary64.hasPositionalText_iff (hformat x (by simp))).1 h)
  · simpa using (Binary64.hasPositionalText_iff (hformat y (by simp [hy]))).2 (hbefore y hy)

theorem writable_of_denotes {item : Value} {entry : InnerFeature}
    (h : Options.Denotes item entry) (hitem : Writable item) : Writable entry.toValue := by
  cases h with
  | record =>
    obtain ⟨literal, hliteral⟩ := hitem
    cases hliteral
  | name name => exact ⟨quote name, rfl⟩
  | @pair _ name options hitems =>
    by_cases hnull : options = .null
    · subst hnull
      exact ⟨quote name, rfl⟩
    · rw [Options.toValue_of_ne_null hnull]
      exact writable_list (hitem.of_items? hitems)

theorem writable_of_innerEntries {label : String} {raw : Options.Raw} {entries : List InnerFeature}
    (hv : Writable v) (hraw : Options.coerce label v = .ok raw)
    (hentries : Options.innerEntries raw = .ok entries) :
    ∀ entry ∈ entries, Writable entry.toValue := by
  intro entry hentry
  obtain ⟨key, list, items, item, hrow, hitems, hitem, hdenotes⟩ :=
    Options.mem_of_innerEntries hentries hentry
  have hlist : Writable list := Options.writable_of_coerce hraw hv hrow
  exact writable_of_denotes (Options.innerEntry_eq_ok.1 hdenotes)
    (hlist.of_items? hitems item hitem)

/-- **What is read can be written, and is read again.**  Of a value that was read as data, alone or
as the options of a statement, nothing stands in the way of a literal but a floating-point number
that is not zero and is below `10 ^ (-4)` or not below `10 ^ 16`.  If there is none, the value has a
literal, wherever the literal stands it is read as the same value, and every inner feature that the
value asks for has a literal.  If there is one, writing fails for the first. -/
theorem written_back
    (h : Parse.read value p = .ok v q ∨ Parse.read Parse.useArguments p = .ok v q) :
    ((∀ x ∈ v.floats, x.IsModerate) →
      (∃ literal, write v = .ok literal ∧
        ∀ {p' : Parser} {rest : List Char}, p'.unread = literal ++ rest → EndsLexeme rest →
          Parse.read value p' = .ok v (p'.move literal.length)) ∧
      ∀ {label : String} {raw : Options.Raw} {entries : List InnerFeature},
        Options.coerce label v = .ok raw → Options.innerEntries raw = .ok entries →
          ∀ entry ∈ entries, Writable entry.toValue) ∧
    ∀ {before after : List Binary64} {x : Binary64}, v.floats = before ++ x :: after →
      (∀ y ∈ before, y.IsModerate) → ¬ x.IsModerate → write v = .error (.float x) := by
  have hv := readable_of_read h
  have hwrite := failsFor_write hv
  refine ⟨fun hmoderate => ?_, fun hfloats hbefore hx => ?_⟩
  · rw [firstScientific_eq_none hv hmoderate] at hwrite
    obtain ⟨literal, hliteral⟩ := hwrite
    refine ⟨⟨literal, hliteral, fun hp' hrest => ?_⟩, writable_of_innerEntries ⟨literal, hliteral⟩⟩
    obtain ⟨v', hread, hlisted⟩ := value_append hliteral .nil hrest
    rw [List.nil_append, hlisted hv.proper, hv.listed_eq_self] at hread
    exact Parse.read_of_ok hp' (hp' ▸ hread)
  · rwa [firstScientific_eq_some hv hfloats hbefore hx] at hwrite

theorem read_of_valueWithin {before rest : List Char} (hp : p.unread = before ++ rest)
    (h : valueWithin (fuelFor (before ++ rest)) (before ++ rest) = .ok v rest) :
    Parse.read value p = .ok v (p.move before.length) :=
  Parse.read_of_ok hp (hp ▸ h)

/-- A number with a point and without a sign. -/
theorem valueWithin_point {whole fraction rest : List Char} {x : Binary64}
    (hwhole : ∀ c ∈ whole, c.isDigit = true) (hfraction : ∀ c ∈ fraction, c.isDigit = true)
    (hne : whole ≠ [] ∧ fraction ≠ []) (hrest : EndsLexeme rest)
    (hx : (Decimal.ofDigits whole fraction 0).toBinary64 false = x) (fuel : Nat) :
    valueWithin (fuel + 1) (whole ++ '.' :: fraction ++ rest) = .ok (.float x) rest := by
  subst hx
  have hlexeme := Lexeme.isNumber_point hwhole hfraction hne.1 hne.2
  have hvalue := numberValue_point hwhole hfraction
  obtain ⟨c, tail, heq, hc, -⟩ := hlexeme.exists_cons
  rw [heq] at hlexeme hvalue ⊢
  exact valueWithin_number rfl (.inr hc)
    (number_append false hlexeme hrest hvalue (fun h => nomatch h) fun _ => rfl) fuel

/-- A number in a list, written in another way than it was read. -/
theorem written_back_list :
    ∃ p q p' v, p = Setting.parser {} "[10.50];" ∧ p' = Setting.parser {} "[10.5]" ∧
      Parse.read value p = .ok v q ∧ (∀ x ∈ v.floats, x.IsModerate) ∧
      write v = .ok "[10.5]".toList ∧ p'.unread = "[10.5]".toList ++ [] ∧ EndsLexeme [] ∧
      Parse.read value p' = .ok v (p'.move 6) := by
  have hitem := valueWithin_point (x := .finite false 5910974510923776 (-49))
    (by simp : ∀ c ∈ ['1', '0'], c.isDigit = true)
    (by simp : ∀ c ∈ ['5', '0'], c.isDigit = true) (by simp)
    (.cons [';'] (Lexeme.isDelimiter_of_mem (by simp)) : EndsLexeme [']', ';']) (by decide) 15
  have hlist := valueWithin_list (itemsWithin_last rfl (by decide) hitem)
  have hread : Parse.read value (Setting.parser {} "[10.50];") =
      .ok (.list [.float (.finite false 5910974510923776 (-49))])
        ((Setting.parser {} "[10.50];").move "[10.50]".toList.length) :=
    read_of_valueWithin rfl hlist
  have hmoderate : ∀ x ∈ (Value.list [.float (.finite false 5910974510923776 (-49))]).floats,
      x.IsModerate := by
    intro x hx
    obtain rfl := List.mem_singleton.1 hx
    right
    norm_num [Decimal.leastPositional, Decimal.leastScientific]
  obtain ⟨⟨literal, hwrite, hback⟩, -⟩ := (written_back (.inl hread)).1 hmoderate
  have hliteral : write (.list [.float (.finite false 5910974510923776 (-49))]) =
      .ok "[10.5]".toList := rfl
  obtain rfl := Except.ok.inj (hwrite.symm.trans hliteral)
  have hunread : (Setting.parser {} "[10.5]").unread = "[10.5]".toList ++ [] := rfl
  exact ⟨_, _, _, _, rfl, rfl, hread, hmoderate, hliteral, hunread, .nil, hback hunread .nil⟩

/-- Not all that is read can be written: a number read without an exponent may be shown with
one. -/
theorem not_written_back :
    ¬ ∀ {p q : Parser} {v : Value}, Parse.read value p = .ok v q →
      ∃ literal, write v = .ok literal := by
  intro h
  have hnumber := valueWithin_point (x := .finite false 5902958103587057 (-69))
    (by simp : ∀ c ∈ ['0'], c.isDigit = true)
    (by simp : ∀ c ∈ ['0', '0', '0', '0', '1'], c.isDigit = true) (by simp) .nil (by decide) 15
  have hread : Parse.read value (Setting.parser {} "0.00001") =
      .ok (.float (.finite false 5902958103587057 (-69)))
        ((Setting.parser {} "0.00001").move "0.00001".toList.length) :=
    read_of_valueWithin rfl hnumber
  obtain ⟨literal, hliteral⟩ := h hread
  rw [write, if_neg (by decide)] at hliteral
  cases hliteral

end Literal

end BraceScript
