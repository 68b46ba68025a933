import BraceScript.Proofs.Expansion

/-!
# A cursor never reads what it has written

A cursor edits a text by a few operations (`Cursor.Operation`).  It moves over insignificant input
by the rules of its host, looks at what comes next, inserts text and steps over it, and takes text
out.  Every operation leaves before the cursor all that stood there, and leaves behind it an end of
what stood there (`Cursor.Onward`).  Both compose, so along every sequence of operations the cursor
stays inside the text, what it has still to read is an end of what it had to read at the start, and
no inserted text comes back (`Cursor.never_rereads`).
-/

namespace BraceScript

/-- The rules by which a host tells how far the insignificant input at an offset goes: never back,
and never out of the text. -/
structure Host where
  skip : List Char → Nat → Nat
  le_skip {text : List Char} {offset : Nat} : offset ≤ text.length → offset ≤ skip text offset
  skip_le {text : List Char} {offset : Nat} : offset ≤ text.length → skip text offset ≤ text.length

/-- The reader of scripts, which skips blanks and comments. -/
def Host.reader : Host where
  skip text offset := offset + Lexeme.insignificant (text.drop offset)
  le_skip _ := Nat.le_add_right _ _
  skip_le {text offset} h := by
    have hle := Lexeme.insignificant_le_length (text.drop offset)
    rw [List.length_drop] at hle
    omega

namespace Cursor

/-! ### Operations -/

/-- What a cursor can be asked to do, by the type of its answer. -/
inductive Operation : Type → Type
  /-- Moves over insignificant input. -/
  | skip : Operation Unit
  /-- Moves over insignificant input and tests the text at the offset. -/
  | lookingAt (pattern : List Char → Nat → Bool) : Operation Bool
  /-- Inserts text `past` characters behind the offset and steps over it. -/
  | inject (text : List Char) (past : Nat) : Operation Unit
  /-- Takes out characters at the offset. -/
  | strip (length : Nat) : Operation (List Char)
  /-- Takes out a qualified name, if one comes next. -/
  | stripName : Operation (Option (List Char))
  /-- Takes out a version, if one comes next. -/
  | stripVersion : Operation (Option (List Char))

/-- The operation stays within what comes next: no text is inserted behind its end. -/
def Operation.Within {α : Type} (c : Cursor) : Operation α → Prop
  | .inject _ past => past ≤ c.rest.length
  | _ => True

/-- Moves over what is insignificant to a host. -/
def skipFor (host : Host) (c : Cursor) : Cursor :=
  { c with offset := host.skip c.buffer.text c.offset }

/-- Takes out what `lexeme?` finds at the offset, if anything. -/
def takeLexeme (c : Cursor) (lexeme? : List Char → Option (List Char)) :
    Except OutsideBuffer (Option (List Char) × Cursor) :=
  match lexeme? c.rest with
  | none => .ok (none, c)
  | some lexeme => do
    let (removed, c) ← c.strip lexeme.length
    return (some removed, c)

/-- The answer to an operation, and the cursor behind it. -/
def perform (host : Host) (c : Cursor) :
    {α : Type} → Operation α → Except OutsideBuffer (α × Cursor)
  | _, .skip => .ok ((), c.skipFor host)
  | _, .lookingAt pattern =>
    let c := c.skipFor host
    .ok (pattern c.buffer.text c.offset, c)
  | _, .inject text past => do return ((), ← c.inject text past)
  | _, .strip length => c.strip length
  | _, .stripName => (c.skipFor host).takeLexeme Lexeme.word?
  | _, .stripVersion => (c.skipFor host).takeLexeme Version.literal?

/-- The cursors that operations on `start` lead to, one operation after the other. -/
inductive Reached (host : Host) (start : Cursor) : Cursor → Prop
  | start : Reached host start start
  | next {c d : Cursor} {α : Type} {op : Operation α} {answer : α} (hc : Reached host start c)
      (h : c.perform host op = .ok (answer, d)) (hwithin : op.Within c) : Reached host start d

variable {host : Host} {c d e start : Cursor}

/-- In a script the operations are those by which declarations are expanded. -/
theorem perform_reader (c : Cursor) :
    c.perform .reader .skip = .ok ((), c.skip) ∧
    (∀ literal, c.perform .reader (.lookingAt fun text offset =>
      literal.isPrefixOf (text.drop offset)) = .ok (c.skip.startsWith literal, c.skip)) ∧
    c.perform .reader .stripName = c.stripName ∧
    c.perform .reader .stripVersion = c.stripVersion :=
  ⟨rfl, fun _ => rfl, rfl, rfl⟩

/-! ### Onward -/

/-- The second cursor is further on, and inside the text: what stood before the first one stands
before it, and what is left to read is an end of what was left. -/
structure Onward (c d : Cursor) : Prop where
  before : c.buffer.text.take c.offset <+: d.buffer.text.take d.offset
  rest : d.rest <:+ c.rest
  inside : d.offset ≤ d.buffer.text.length

theorem Onward.refl (hc : c.offset ≤ c.buffer.text.length) : c.Onward c :=
  ⟨List.prefix_rfl, List.suffix_rfl, hc⟩

theorem Onward.trans (h : c.Onward d) (h' : d.Onward e) : c.Onward e :=
  ⟨h.before.trans h'.before, h'.rest.trans h.rest, h'.inside⟩

/-- What stood before the first cursor is unchanged. -/
theorem Onward.take (h : c.Onward d) (hc : c.offset ≤ c.buffer.text.length) :
    d.buffer.text.take c.offset = c.buffer.text.take c.offset := by
  have hprefix := h.before.trans (List.take_prefix d.offset d.buffer.text)
  rw [List.prefix_iff_eq_take, List.length_take, Nat.min_eq_left hc] at hprefix
  exact hprefix.symm

/-- Text that is passed over or gone, with other text written in its place. -/
theorem Between.onward {file : String} {before gone written after : List Char}
    (hc : c.Between file before (gone ++ after)) (hd : d.Between file (before ++ written) after) :
    c.Onward d where
  before := by
    rw [hc.text, hc.offset, hd.text, hd.offset, List.take_left, List.take_left]
    exact List.prefix_append _ _
  rest := by
    rw [hc.rest, hd.rest]
    exact List.suffix_append _ _
  inside := by
    rw [hd.text, hd.offset]
    exact (List.prefix_append _ _).length_le

/-! ### What an operation does -/

/-- Exactly the characters `removed`, which stood at the first cursor, were taken out. -/
def TakesOut (c : Cursor) (removed : List Char) (d : Cursor) : Prop :=
  ∃ before after, c.Between c.buffer.file before (removed ++ after) ∧
    d.Between c.buffer.file before after

theorem TakesOut.onward {removed : List Char} (h : c.TakesOut removed d) : c.Onward d := by
  obtain ⟨before, after, hc, hd⟩ := h
  rw [← List.append_nil before] at hd
  exact hc.onward hd

/-- What `lexeme?` finds at the first cursor was taken out; without a lexeme nothing has changed. -/
structure Strips (c : Cursor) (lexeme? : List Char → Option (List Char))
    (found : Option (List Char)) (d : Cursor) : Prop where
  found_eq : found = lexeme? c.rest
  kept : found = none → d = c
  takesOut {removed : List Char} : found = some removed → c.TakesOut removed d

theorem Strips.onward {lexeme? : List Char → Option (List Char)} {found : Option (List Char)}
    (h : c.Strips lexeme? found d) (hc : c.offset ≤ c.buffer.text.length) : c.Onward d := by
  cases found with
  | none =>
    obtain rfl := h.kept rfl
    exact .refl hc
  | some removed => exact (h.takesOut rfl).onward

theorem onward_skipFor (hc : c.offset ≤ c.buffer.text.length) : c.Onward (c.skipFor host) where
  before := List.take_prefix_take_left (host.le_skip hc)
  rest := List.drop_suffix_drop_left _ (host.le_skip hc)
  inside := host.skip_le hc

theorem exists_inject (hc : c.offset ≤ c.buffer.text.length) (text : List Char) {past : Nat}
    (hpast : past ≤ c.rest.length) : ∃ d, c.inject text past = .ok d ∧ c.Onward d := by
  have hbetween := between_of_inside hc
  have hlength : (c.rest.take past).length = past := by rw [List.length_take, Nat.min_eq_left hpast]
  rw [← List.take_append_drop past c.rest] at hbetween
  obtain ⟨d, hinject, hd⟩ := hbetween.inject text
  rw [hlength] at hinject
  rw [List.append_assoc] at hd
  exact ⟨d, hinject, hbetween.onward hd⟩

theorem exists_strip (hc : c.offset ≤ c.buffer.text.length) (length : Nat) :
    ∃ d, c.strip length = .ok (c.rest.take length, d) ∧ c.TakesOut (c.rest.take length) d := by
  have hbetween := between_of_inside hc
  obtain ⟨d, hstrip, hd⟩ := hbetween.strip_take length
  exact ⟨d, hstrip, _, _, by rwa [List.take_append_drop], hd⟩

theorem exists_takeLexeme {lexeme? : List Char → Option (List Char)}
    (htaken : ∀ {text w}, lexeme? text = some w → w <+: text)
    (hc : c.offset ≤ c.buffer.text.length) :
    ∃ found d, c.takeLexeme lexeme? = .ok (found, d) ∧ c.Strips lexeme? found d := by
  rw [takeLexeme]
  cases hlexeme : lexeme? c.rest with
  | none => exact ⟨none, c, rfl, hlexeme.symm, fun _ => rfl, nofun⟩
  | some lexeme =>
    obtain ⟨d, hstrip, htakes⟩ := exists_strip hc lexeme.length
    -- a lexeme starts the text, so as many characters as it has are the lexeme itself
    rw [← List.prefix_iff_eq_take.1 (htaken hlexeme)] at hstrip htakes
    refine ⟨some lexeme, d, by simp only [hstrip]; rfl, hlexeme.symm, nofun, ?_⟩
    rintro removed ⟨⟩
    exact htakes

/-- **One operation.**  Inside the text and within what comes next it returns, and leads onward. -/
theorem exists_perform (host : Host) (hc : c.offset ≤ c.buffer.text.length) {α : Type}
    (op : Operation α) (hwithin : op.Within c) :
    ∃ answer d, c.perform host op = .ok (answer, d) ∧ c.Onward d := by
  have hskip : c.Onward (c.skipFor host) := onward_skipFor hc
  cases op with
  | skip => exact ⟨(), _, rfl, hskip⟩
  | lookingAt pattern => exact ⟨_, _, rfl, hskip⟩
  | inject text past =>
    obtain ⟨d, hinject, hd⟩ := exists_inject hc text hwithin
    exact ⟨(), d, by rw [perform, hinject]; rfl, hd⟩
  | strip length =>
    obtain ⟨d, hstrip, hd⟩ := exists_strip hc length
    exact ⟨_, d, hstrip, hd.onward⟩
  | stripName =>
    obtain ⟨found, d, htake, hd⟩ := exists_takeLexeme Lexeme.word?_prefix hskip.inside
    exact ⟨found, d, htake, hskip.trans (hd.onward hskip.inside)⟩
  | stripVersion =>
    obtain ⟨found, d, htake, hd⟩ := exists_takeLexeme Version.literal?_prefix hskip.inside
    exact ⟨found, d, htake, hskip.trans (hd.onward hskip.inside)⟩

theorem Reached.onward (h : Reached host start c)
    (hstart : start.offset ≤ start.buffer.text.length) : start.Onward c := by
  induction h with
  | start => exact .refl hstart
  | next hc h hwithin ih =>
    obtain ⟨_, _, hperform, hd⟩ := exists_perform host ih.inside _ hwithin
    obtain ⟨-, rfl⟩ := Prod.mk.inj (Except.ok.inj (hperform.symm.trans h))
    exact ih.trans hd

/-- **A cursor never reads what it has written.**  Whatever host it works for, wherever inside the
text it starts and whatever operations it has performed, it stands inside the text, what is left to
read is an end of what was left at the start, and the text before the start is unchanged.  Every
further operation within what comes next returns.  What is taken out is what is returned: as many
characters as there are up to the length that is asked for, or the name or the version that comes
next; where none does, the cursor has only moved over insignificant input. -/
theorem never_rereads (host : Host) {start c : Cursor}
    (hstart : start.offset ≤ start.buffer.length) (h : Reached host start c) :
    (c.offset ≤ c.buffer.length ∧ c.rest <:+ start.rest ∧
      c.buffer.text.take start.offset = start.buffer.text.take start.offset) ∧
    (∀ {α : Type} (op : Operation α), op.Within c →
      ∃ answer d, c.perform host op = .ok (answer, d)) ∧
    (∀ length, ∃ removed d, c.perform host (.strip length) = .ok (removed, d) ∧
      removed.length = min length c.rest.length ∧ c.TakesOut removed d) ∧
    (∃ found d, c.perform host .stripName = .ok (found, d) ∧
      (c.skipFor host).Strips Lexeme.word? found d) ∧
    ∃ found d, c.perform host .stripVersion = .ok (found, d) ∧
      (c.skipFor host).Strips Version.literal? found d := by
  have honward := h.onward hstart
  have hskip : c.Onward (c.skipFor host) := onward_skipFor honward.inside
  refine ⟨⟨honward.inside, honward.rest, honward.take hstart⟩, fun op hwithin => ?_,
    fun length => ?_, exists_takeLexeme Lexeme.word?_prefix hskip.inside,
    exists_takeLexeme Version.literal?_prefix hskip.inside⟩
  · obtain ⟨answer, d, hperform, -⟩ := exists_perform host honward.inside op hwithin
    exact ⟨answer, d, hperform⟩
  · obtain ⟨d, hstrip, hd⟩ := exists_strip honward.inside length
    exact ⟨_, d, hstrip, List.length_take, hd⟩

/-- A declaration whose name was taken out behind an inserted parenthesis, in front of its
version. -/
theorem never_rereads_version :
    ∃ start c d : Cursor, start.offset ≤ start.buffer.length ∧ Reached .reader start c ∧
      start.rest = [' ', 'F', 'o', 'o', ' ', '1', '\x7b'] ∧
      c.buffer.text = ['m', ' ', '(', ' ', '1', '\x7b'] ∧ c.offset = 3 ∧
      c.offset ≤ c.buffer.length ∧ c.rest <:+ start.rest ∧ c.buffer.text.take 1 = ['m'] ∧
      c.stripVersion = .ok (some ['1'], d) ∧ c.skip.TakesOut ['1'] d := by
  let start : Cursor := ⟨⟨['m', ' ', 'F', 'o', 'o', ' ', '1', '\x7b'], "a.msc"⟩, 1⟩
  let opened : Cursor := ⟨⟨['m', ' ', '(', 'F', 'o', 'o', ' ', '1', '\x7b'], "a.msc"⟩, 3⟩
  let c : Cursor := ⟨⟨['m', ' ', '(', ' ', '1', '\x7b'], "a.msc"⟩, 3⟩
  let d : Cursor := ⟨⟨['m', ' ', '(', ' ', '\x7b'], "a.msc"⟩, 4⟩
  have hskip : start.perform .reader .skip = .ok ((), start.skip) := rfl
  have hinject : start.skip.perform .reader (.inject ['('] 0) = .ok ((), opened) := rfl
  have hname : opened.perform .reader .stripName = .ok (some ['F', 'o', 'o'], c) := by
    decide +kernel
  have hversion : c.stripVersion = .ok (some ['1'], d) := rfl
  have hreached : Reached .reader start c :=
    ((Reached.start.next hskip trivial).next hinject (Nat.zero_le _)).next hname trivial
  obtain ⟨⟨hinside, hrest, hbefore⟩, -, -, -, found, d', hfound, hstrips⟩ :=
    never_rereads .reader (by decide : start.offset ≤ start.buffer.length) hreached
  rw [(perform_reader c).2.2.2, hversion] at hfound
  obtain ⟨rfl, rfl⟩ := Prod.mk.inj (Except.ok.inj hfound)
  exact ⟨start, c, d, by decide, hreached, rfl, rfl, rfl, hinside, hrest, hbefore, hversion,
    hstrips.takesOut rfl⟩

end Cursor

end BraceScript
