import BraceScript.Buffer
import Mathlib.Data.List.TakeWhile
import Mathlib.Data.Prod.Lex
import Mathlib.Order.Interval.Set.Defs

/-!
# Places denote offsets

The line and the column of an offset and the text of its line are found by different searches:
line breaks are counted before the offset, the start of the line is looked for backwards and its
end forwards.  All of them follow the division of the text into lines: an offset lies behind some
whole lines and inside one more, or at its end (`Buffer.OnLine`).  So a place gives back the offset
that it was made from, and places come in the order of the offsets (`Buffer.place_denotes`).
-/

namespace BraceScript.Buffer

/-- The lines of the text, without their line breaks. -/
def lines (b : Buffer) : List (List Char) := b.text.splitOn '\n'

/-- The number of characters of whole lines, with a line break behind each of them. -/
def extent : List (List Char) → Nat
  | [] => 0
  | line :: lines => line.length + 1 + extent lines

/-! ### The line that an offset is on -/

/-- What stands behind a line: nothing, or the line break. -/
def EndsLine (rest : List Char) : Prop := ∀ c ∈ rest.head?, c = '\n'

/-- In a text, an offset lies behind the lines `before` and `column` characters into the next
line. -/
inductive OnLine : List Char → Nat → List (List Char) → List Char → Nat → Prop
  | first {line rest : List Char} {column : Nat} (hline : '\n' ∉ line) (hrest : EndsLine rest)
      (hcolumn : column ≤ line.length) : OnLine (line ++ rest) column [] line column
  | later {first rest line : List Char} {before : List (List Char)} {offset column : Nat}
      (hfirst : '\n' ∉ first) (hrest : OnLine rest offset before line column) :
      OnLine (first ++ '\n' :: rest) (first.length + 1 + offset) (first :: before) line column

variable {text line rest : List Char} {before : List (List Char)} {offset column : Nat}

/-- Every offset in a text is on a line. -/
theorem exists_onLine (h : offset ≤ text.length) :
    ∃ before line column, OnLine text offset before line column := by
  induction hn : text.length using Nat.strong_induction_on generalizing text offset with
  | _ n ih =>
    by_cases hbreak : '\n' ∈ text
    · obtain ⟨first, rest, rfl, hfirst⟩ := List.eq_append_cons_of_mem hbreak
      simp only [List.length_append, List.length_cons] at h hn
      by_cases hoffset : offset ≤ first.length
      · exact ⟨[], first, offset, .first hfirst (by simp [EndsLine]) hoffset⟩
      · -- the offset is behind the first line break, so it is on a line of what follows
        obtain ⟨k, rfl⟩ := Nat.exists_eq_add_of_lt (Nat.lt_of_not_le hoffset)
        obtain ⟨before, line, column, hline⟩ :=
          ih rest.length (by omega) (show k ≤ rest.length by omega) rfl
        rw [Nat.add_right_comm]
        exact ⟨first :: before, line, column, .later hfirst hline⟩
    · have hlast : OnLine (text ++ []) offset [] text offset :=
        .first hbreak (by simp [EndsLine]) h
      rw [List.append_nil] at hlast
      exact ⟨[], text, offset, hlast⟩

theorem OnLine.offset_eq (h : OnLine text offset before line column) :
    offset = extent before + column := by
  induction h with
  | first => exact (Nat.zero_add _).symm
  | later hfirst hrest ih => rw [ih, extent, Nat.add_assoc (_ + 1)]

theorem OnLine.column_le (h : OnLine text offset before line column) : column ≤ line.length := by
  induction h with
  | first _ _ hcolumn => exact hcolumn
  | later _ _ ih => exact ih

theorem splitOn_of_endsLine (hline : '\n' ∉ line) (hrest : EndsLine rest) :
    ∃ after, (line ++ rest).splitOn '\n' = line :: after := by
  cases rest with
  | nil => exact ⟨[], by rw [List.append_nil, List.splitOn_eq_singleton hline]⟩
  | cons c rest =>
    obtain rfl := hrest c rfl
    exact ⟨_, List.splitOn_append_cons_self_of_not_mem hline rest⟩

theorem OnLine.splitOn (h : OnLine text offset before line column) :
    ∃ after, text.splitOn '\n' = before ++ line :: after := by
  induction h with
  | first hline hrest => exact splitOn_of_endsLine hline hrest
  | later hfirst hrest ih =>
    obtain ⟨after, hafter⟩ := ih
    rw [List.splitOn_append_cons_self_of_not_mem hfirst, hafter]
    exact ⟨after, rfl⟩

/-! ### The three searches -/

variable {file : String}

theorem takeWhile_of_not_mem (h : '\n' ∉ line) : line.takeWhile (· != '\n') = line := by
  rw [List.takeWhile_eq_self_iff]
  intro c hc
  rw [bne_iff_ne]
  exact ne_of_mem_of_not_mem hc h

theorem takeWhile_of_endsLine (h : EndsLine rest) : rest.takeWhile (· != '\n') = [] := by
  cases rest with
  | nil => rfl
  | cons c rest =>
    obtain rfl := h c rfl
    rfl

/-- Backwards, nothing before a line break is looked at. -/
theorem length_takeWhile_reverse (before after : List Char) :
    ((before ++ '\n' :: after).reverse.takeWhile (· != '\n')).length =
      (after.reverse.takeWhile (· != '\n')).length := by
  have hstop : (['\n'] ++ before.reverse).takeWhile (· != '\n') = [] := rfl
  rw [List.reverse_append, List.reverse_cons, List.append_assoc, List.takeWhile_append, hstop]
  split
  · next h => rw [List.append_nil, h]
  · rfl

theorem take_later (first rest : List Char) (offset : Nat) :
    (first ++ '\n' :: rest).take (first.length + 1 + offset) =
      first ++ '\n' :: rest.take offset := by
  rw [Nat.add_assoc, List.take_length_add_append, Nat.add_comm 1, List.take_succ_cons]

theorem drop_later (first rest : List Char) (offset : Nat) :
    (first ++ '\n' :: rest).drop (first.length + 1 + offset) = rest.drop offset := by
  rw [Nat.add_assoc, List.drop_length_add_append, Nat.add_comm 1, List.drop_succ_cons]

/-- Looking backwards finds the start of the line. -/
theorem OnLine.lineStart (h : OnLine text offset before line column) :
    lineStart ⟨text, file⟩ offset = extent before := by
  induction h with
  | @first line rest column hline _ hcolumn =>
    have hbefore : '\n' ∉ (line.take column).reverse := fun hmem =>
      hline (List.mem_of_mem_take (List.mem_reverse.1 hmem))
    simp only [Buffer.lineStart, List.take_append_of_le_length hcolumn,
      takeWhile_of_not_mem hbefore, List.length_reverse, Nat.sub_self, extent]
  | @later first rest line before offset column _ _ ih =>
    have hle := (List.takeWhile_prefix (l := (rest.take offset).reverse) (· != '\n')).length_le
    simp only [Buffer.lineStart, take_later, length_takeWhile_reverse, List.length_append,
      List.length_cons, List.length_reverse, extent] at hle ih ⊢
    omega

/-- The line breaks before an offset are those of the lines before it. -/
theorem OnLine.count (h : OnLine text offset before line column) :
    (text.take offset).count '\n' = before.length := by
  induction h with
  | first hline _ hcolumn =>
    rw [List.take_append_of_le_length hcolumn]
    exact List.count_eq_zero.2 fun hmem => hline (List.mem_of_mem_take hmem)
  | later hfirst _ ih =>
    rw [take_later, List.count_append, List.count_eq_zero.2 hfirst, List.count_cons_self, ih,
      Nat.zero_add, List.length_cons]

theorem OnLine.location (h : OnLine text offset before line column) :
    location ⟨text, file⟩ offset = (before.length + 1, column + 1) := by
  rw [Buffer.location, h.count, h.lineStart, h.offset_eq, Nat.add_sub_cancel_left]

/-- Looking backwards and forwards finds the whole line. -/
theorem OnLine.lineAt (h : OnLine text offset before line column) :
    lineAt ⟨text, file⟩ offset = line := by
  rw [Buffer.lineAt, h.lineStart]
  induction h with
  | @first line rest column hline hrest hcolumn =>
    have hafter : '\n' ∉ line.drop column := fun hmem => hline (List.mem_of_mem_drop hmem)
    rw [List.take_append_of_le_length hcolumn, List.drop_append_of_le_length hcolumn, extent,
      List.drop_zero, List.takeWhile_append_of_pos (List.takeWhile_eq_self_iff.1
        (takeWhile_of_not_mem hafter)), takeWhile_of_endsLine hrest, List.append_nil,
      List.take_append_drop]
  | later _ _ ih => rw [extent, take_later, drop_later, drop_later, ih]

/-! ### Places in order -/

/-- A later offset has a later place. -/
theorem location_lt (b : Buffer) {offset offset' : Nat} (hlt : offset < offset')
    (hle : offset' ≤ b.length) : toLex (b.location offset) < toLex (b.location offset') := by
  obtain ⟨before, line, column, h⟩ := exists_onLine (hlt.le.trans hle)
  obtain ⟨before', line', column', h'⟩ := exists_onLine hle
  have hcount : before.length ≤ before'.length := by
    rw [← h.count, ← h'.count]
    exact (List.take_sublist_take_left hlt.le).count_le '\n'
  have hlocation : b.location offset = (before.length + 1, column + 1) := h.location
  have hlocation' : b.location offset' = (before'.length + 1, column' + 1) := h'.location
  rw [hlocation, hlocation', Prod.Lex.toLex_lt_toLex]
  rcases hcount.lt_or_eq with hless | hsame
  · exact .inl (Nat.succ_lt_succ hless)
  · -- on one line, the columns differ as the offsets do
    obtain ⟨after, hlines⟩ := h.splitOn
    obtain ⟨after', hlines'⟩ := h'.splitOn
    obtain ⟨rfl, -⟩ := List.append_inj (hlines.symm.trans hlines') hsame
    have hoffset := h.offset_eq
    have hoffset' := h'.offset_eq
    exact .inr ⟨rfl, by dsimp only; omega⟩

/-- **A place denotes its offset.**  In every text, however it was edited, line and column of an
offset are those of the division into lines: the line has that number and is the one quoted, the
column is inside it or just behind it, and the lines before it and the column add up to the offset.
So no two offsets have the same place, and places come in the order of the offsets. -/
theorem place_denotes (b : Buffer) :
    (∀ offset ≤ b.length, ∃ number column line, b.location offset = (number, column) ∧
      1 ≤ number ∧ number ≤ b.lines.length ∧
      b.lines[number - 1]? = some line ∧ b.lineAt offset = line ∧
      1 ≤ column ∧ column ≤ line.length + 1 ∧
      offset = extent (b.lines.take (number - 1)) + column - 1 ∧
      b.place offset = ⟨b.file, number, column, some (String.ofList line)⟩) ∧
    Set.InjOn b.location (Set.Iic b.length) ∧
    StrictMonoOn (fun offset => toLex (b.location offset)) (Set.Iic b.length) := by
  have hmono : StrictMonoOn (fun offset => toLex (b.location offset)) (Set.Iic b.length) :=
    fun _ _ _ hle hlt => location_lt b hlt hle
  refine ⟨fun offset hle => ?_, fun i hi j hj heq => hmono.injOn hi hj (congrArg toLex heq), hmono⟩
  obtain ⟨before, line, column, h⟩ := exists_onLine hle
  obtain ⟨after, hsplit⟩ := h.splitOn
  have hlines : b.lines = before ++ line :: after := hsplit
  have hlocation : b.location offset = (before.length + 1, column + 1) := h.location
  have hlineAt : b.lineAt offset = line := h.lineAt
  refine ⟨before.length + 1, column + 1, line, hlocation, Nat.le_add_left _ _, ?_, ?_, hlineAt,
    Nat.le_add_left _ _, Nat.succ_le_succ h.column_le, ?_, ?_⟩
  · rw [hlines, List.length_append, List.length_cons]
    omega
  · rw [hlines, Nat.add_sub_cancel, List.getElem?_append_right (Nat.le_refl _), Nat.sub_self,
      List.getElem?_cons_zero]
  · rw [hlines, Nat.add_sub_cancel, List.take_left, h.offset_eq]
    rfl
  · rw [place, hlocation, hlineAt]

/-- An empty line, made by an edit: its only offset follows the one at the line break before it. -/
theorem place_denotes_edited :
    ∃ inserted b : Buffer,
      Buffer.insert ⟨['a', 'b', '\n', 'c', 'd'], "a.msc"⟩ 3 ['\n'] = .ok inserted ∧
      inserted.delete 4 1 = .ok b ∧ 2 ≤ b.length ∧ 3 ≤ b.length ∧
      b.location 2 = (1, 3) ∧ b.location 3 = (2, 1) ∧ b.lines[1]? = some [] ∧ b.lineAt 3 = [] ∧
      3 = extent (b.lines.take 1) + 1 - 1 ∧ b.place 3 = ⟨"a.msc", 2, 1, some ""⟩ ∧
      toLex (b.location 2) < toLex (b.location 3) := by
  let b : Buffer := ⟨['a', 'b', '\n', '\n', 'd'], "a.msc"⟩
  have hle : 2 ≤ b.length ∧ 3 ≤ b.length := by decide
  have hlocation : b.location 3 = (2, 1) := rfl
  have hempty : b.lineAt 3 = [] := rfl
  obtain ⟨hplaces, -, hmono⟩ := place_denotes b
  obtain ⟨number, column, line, hplace, -, -, hline, hlineAt, -, -, hoffset, hquoted⟩ :=
    hplaces 3 hle.2
  obtain ⟨rfl, rfl⟩ := Prod.mk.inj (hlocation.symm.trans hplace)
  obtain rfl := hempty.symm.trans hlineAt
  exact ⟨⟨['a', 'b', '\n', '\n', 'c', 'd'], "a.msc"⟩, b, rfl, rfl, hle.1, hle.2, rfl, hlocation,
    hline, hempty, hoffset, hquoted, hmono hle.1 hle.2 (by decide)⟩

end BraceScript.Buffer
