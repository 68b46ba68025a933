import BraceScript.Proofs.Scopes
import Mathlib.Data.List.Chain

/-!
# The moments of a run

A run of a parser passes through moments: the states before and after each of its elementary
parts (`Run.Moments`).  An elementary part is a single step: it moves over unread text, edits the
text at or behind the position, or changes neither (`Parser.Step`).  Only the expansion of a
declaration works on the text with a cursor of its own; its moments are those of the cursor, which
starts at the position of the parser and never goes back (`Cursor.Step`).

Whatever a step keeps of the text before the position, every later moment keeps
(`Parse.Moments.pairwise`).
-/

namespace BraceScript

namespace Run

variable {ε σ : Type}

/-- The states that a run passes through, in order, up to the first error: those of its parts, for
which `Part` tells them, one part after the other. -/
inductive Moments (Part : (α : Type) → EStateM ε σ α → σ → List σ → Prop) :
    ∀ {α : Type}, EStateM ε σ α → σ → List σ → Prop
  | part {α : Type} {x : EStateM ε σ α} {s : σ} {ms : List σ} (h : Part α x s ms) :
      Moments Part x s ms
  | bind {α β : Type} {x : EStateM ε σ α} {f : α → EStateM ε σ β} {s t : σ} {a : α}
      {ms ns : List σ} (hx : Moments Part x s ms) (h : x s = .ok a t)
      (hf : Moments Part (f a) t ns) : Moments Part (x >>= f) s (ms ++ ns)
  | stop {α β : Type} {x : EStateM ε σ α} {f : α → EStateM ε σ β} {s t : σ} {e : ε}
      {ms : List σ} (hx : Moments Part x s ms) (h : x s = .error e t) :
      Moments Part (x >>= f) s ms

/-- States from `s` to `t`, each related to the next one. -/
structure Trace (R : σ → σ → Prop) (s : σ) (ms : List σ) (t : σ) : Prop where
  chain : ms.IsChain R
  first : ms.head? = some s
  last : ms.getLast? = some t

variable {R : σ → σ → Prop} {s t u : σ} {ms ns : List σ}

theorem Trace.pair (h : R s t) : Trace R s [s, t] t := ⟨by simpa using h, rfl, rfl⟩

theorem Trace.append (h : Trace R s ms t) (h' : Trace R t ns u) (hrefl : R t t) :
    Trace R s (ms ++ ns) u where
  chain := by
    refine h.chain.append h'.chain fun x hx y hy => ?_
    rw [h.last, Option.mem_some_iff] at hx
    rw [h'.first, Option.mem_some_iff] at hy
    rwa [← hx, ← hy]
  first := by rw [List.head?_append, h.first]; rfl
  last := by rw [List.getLast?_append, h'.last]; rfl

/-- The moments of a run lead from the state before it to the state after it. -/
theorem Moments.trace {Part : (α : Type) → EStateM ε σ α → σ → List σ → Prop}
    (hrefl : ∀ s, R s s)
    (hpart : ∀ {α : Type} {x : EStateM ε σ α} {s : σ} {ms : List σ}, Part α x s ms →
      Trace R s ms (final (x s)))
    {α : Type} {x : EStateM ε σ α} (h : Moments Part x s ms) : Trace R s ms (final (x s)) := by
  induction h with
  | part h => exact hpart h
  | bind hx h hf ihx ihf =>
    rw [h] at ihx
    rw [final_bind_of_ok h]
    exact ihx.append ihf (hrefl _)
  | stop hx h ih =>
    rw [h] at ih
    rwa [final_bind_of_error h]

/-- The run has moments. -/
def Visited (Part : (α : Type) → EStateM ε σ α → σ → List σ → Prop) {α : Type}
    (x : EStateM ε σ α) (s : σ) : Prop := ∃ ms, Moments Part x s ms

theorem Visited.bind {Part : (α : Type) → EStateM ε σ α → σ → List σ → Prop} {α β : Type}
    {x : EStateM ε σ α} {f : α → EStateM ε σ β} (hx : Visited Part x s)
    (hf : ∀ a t, x s = .ok a t → Visited Part (f a) t) : Visited Part (x >>= f) s := by
  obtain ⟨ms, hms⟩ := hx
  cases h : x s with
  | ok a t =>
    obtain ⟨ns, hns⟩ := hf a t h
    exact ⟨ms ++ ns, .bind hms h hns⟩
  | error e t => exact ⟨ms, .stop hms h⟩

/-- Every run of the computation has moments. -/
def Stepwise (Part : (α : Type) → EStateM ε σ α → σ → List σ → Prop) {α : Type}
    (x : EStateM ε σ α) : Prop := ∀ s, Visited Part x s

theorem Stepwise.bind {Part : (α : Type) → EStateM ε σ α → σ → List σ → Prop} {α β : Type}
    {x : EStateM ε σ α} {f : α → EStateM ε σ β} (hx : Stepwise Part x)
    (hf : ∀ a, Stepwise Part (f a)) : Stepwise Part (x >>= f) :=
  fun s => (hx s).bind fun a t _ => hf a t

/-- The run has moments that are each related to the next one. -/
def Traced (Part : (α : Type) → EStateM ε σ α → σ → List σ → Prop) (R : σ → σ → Prop) {α : Type}
    (x : EStateM ε σ α) (s : σ) : Prop := ∃ ms, Moments Part x s ms ∧ Trace R s ms (final (x s))

theorem Traced.bind {Part : (α : Type) → EStateM ε σ α → σ → List σ → Prop} {α β : Type}
    {x : EStateM ε σ α} {f : α → EStateM ε σ β} (hrefl : ∀ s, R s s) (hx : Traced Part R x s)
    (hf : ∀ a t, x s = .ok a t → Traced Part R (f a) t) : Traced Part R (x >>= f) s := by
  obtain ⟨ms, hms, htrace⟩ := hx
  cases h : x s with
  | ok a t =>
    obtain ⟨ns, hns, htrace'⟩ := hf a t h
    rw [h] at htrace
    refine ⟨ms ++ ns, .bind hms h hns, ?_⟩
    rw [final_bind_of_ok h]
    exact htrace.append htrace' (hrefl t)
  | error e t =>
    rw [h] at htrace
    refine ⟨ms, .stop hms h, ?_⟩
    rwa [final_bind_of_error h]

end Run

/-! ### Edits behind a position -/

namespace Buffer

variable {b b' : Buffer} {pos : Nat}

/-- The buffer was edited at or behind a position. -/
inductive EditedFrom (pos : Nat) (b b' : Buffer) : Prop
  | insert {offset : Int} {chars : List Char} (hoffset : pos ≤ offset)
      (h : b.insert offset chars = .ok b')
  | delete {offset length : Int} (hoffset : pos ≤ offset)
      (h : b.delete offset length = .ok b')

theorem position?_eq_ok {offset : Int} {k : Nat} (h : b.position? offset = .ok k) :
    offset = k ∧ k ≤ b.text.length := by
  rw [position?, length] at h
  split at h
  · obtain rfl := Except.ok.inj h
    omega
  · cases h

/-- An edit leaves what stands before its offset, and that offset is inside the text. -/
theorem EditedFrom.eq_take_append (h : EditedFrom pos b b') :
    ∃ k tail, pos ≤ k ∧ k ≤ b.text.length ∧ b'.text = b.text.take k ++ tail := by
  cases h with
  | insert hoffset h =>
    rw [Buffer.insert] at h
    obtain ⟨k, hk, h⟩ := Run.except_bind_eq_ok.1 h
    obtain rfl := Except.ok.inj h
    obtain ⟨rfl, hle⟩ := position?_eq_ok hk
    exact ⟨k, _, by omega, hle, List.append_assoc _ _ _⟩
  | delete hoffset h =>
    rw [Buffer.delete] at h
    obtain ⟨k, hk, h⟩ := Run.except_bind_eq_ok.1 h
    obtain rfl := Except.ok.inj h
    obtain ⟨rfl, hle⟩ := position?_eq_ok hk
    exact ⟨k, _, by omega, hle, rfl⟩

theorem EditedFrom.take (h : EditedFrom pos b b') : b'.text.take pos = b.text.take pos := by
  obtain ⟨k, tail, hpos, hk, htext⟩ := h.eq_take_append
  rw [htext, List.take_append_of_le_length (by rw [List.length_take]; omega), List.take_take,
    Nat.min_eq_left hpos]

theorem EditedFrom.le_length (h : EditedFrom pos b b') : pos ≤ b'.text.length := by
  obtain ⟨k, tail, hpos, hk, htext⟩ := h.eq_take_append
  rw [htext, List.length_append, List.length_take]
  omega

theorem EditedFrom.of_le {pos' : Nat} (h : EditedFrom pos b b') (hle : pos' ≤ pos) :
    EditedFrom pos' b b' := by
  cases h with
  | insert hoffset h => exact .insert (by omega) h
  | delete hoffset h => exact .delete (by omega) h

end Buffer

/-- One step of a cursor: it moves on, or edits the text at or behind its offset and moves on. -/
inductive Cursor.Step (c d : Cursor) : Prop
  | move (hbuffer : d.buffer = c.buffer) (hoffset : c.offset ≤ d.offset)
  | edit (hbuffer : c.buffer.EditedFrom c.offset d.buffer) (hoffset : c.offset ≤ d.offset)

/-- One step of a parser: it moves over unread text, edits the text at or behind its position, or
changes neither the text nor the position. -/
inductive Parser.Step (p q : Parser) : Prop
  | move (h : ∃ count ≤ p.unread.length, q = p.move count)
  | edit (hbuffer : p.buffer.EditedFrom p.pos q.buffer) (hpos : q.pos = p.pos)
  | other (hbuffer : q.buffer = p.buffer) (hpos : q.pos = p.pos)

namespace Cursor

variable {c d : Cursor} {cs : List Cursor}

theorem Step.refl (c : Cursor) : c.Step c := .move rfl (Nat.le_refl _)

theorem Step.le (h : c.Step d) : c.offset ≤ d.offset := by
  cases h <;> assumption

/-- The moments of an expansion: every part of it is one step. -/
def Part (α : Type) (x : Declaration.Expansion α) (c : Cursor) (cs : List Cursor) : Prop :=
  cs = [c, Run.final (x c)] ∧ c.Step (Run.final (x c))

theorem Part.trace {α : Type} {x : Declaration.Expansion α} (h : Part α x c cs) :
    Run.Trace Step c cs (Run.final (x c)) := by
  obtain ⟨rfl, h⟩ := h
  exact .pair h

/-- The parser with the buffer of a cursor. -/
def under (p : Parser) (c : Cursor) : Parser := { p with buffer := c.buffer }

/-- A cursor at or behind the position of a parser edits there what the parser may edit. -/
theorem isChain_under {p : Parser} (h : cs.IsChain Step)
    (hfirst : ∀ c ∈ cs.head?, p.pos ≤ c.offset) : (cs.map (under p)).IsChain Parser.Step := by
  induction h with
  | nil => exact .nil
  | singleton c => exact .singleton _
  | @cons_cons c d cs hstep _ ih =>
    have hpos : p.pos ≤ c.offset := hfirst c rfl
    refine .cons_cons ?_ (ih fun e he => ?_)
    · cases hstep with
      | move hbuffer _ => exact .other hbuffer rfl
      | edit hbuffer _ => exact .edit (hbuffer.of_le hpos) rfl
    · obtain rfl := Option.some.inj he
      exact hpos.trans hstep.le

end Cursor

/-! ### What every later moment keeps -/

namespace Parser

variable {p q r : Parser}

/-- The second state is a later one: it stands further on, inside the text, and the text before
the first position is the same. -/
structure Keeps (p q : Parser) : Prop where
  pos : p.pos ≤ q.pos
  text : q.buffer.text.take p.pos = p.buffer.text.take p.pos
  inside : p.pos ≤ p.buffer.text.length → q.pos ≤ q.buffer.text.length

theorem Keeps.trans (h : p.Keeps q) (h' : q.Keeps r) : p.Keeps r where
  pos := h.pos.trans h'.pos
  text := by
    have htake (text : List Char) : text.take p.pos = (text.take q.pos).take p.pos := by
      rw [List.take_take, Nat.min_eq_left h.pos]
    rw [htake, h'.text, ← htake, h.text]
  inside hp := h'.inside (h.inside hp)

instance : Trans Keeps Keeps Keeps := ⟨Keeps.trans⟩

theorem Step.refl (p : Parser) : p.Step p := .other rfl rfl

/-- A step keeps the text before the position. -/
theorem Step.keeps (h : p.Step q) : p.Keeps q := by
  cases h with
  | move h =>
    obtain ⟨count, hcount, rfl⟩ := h
    rw [unread, List.length_drop] at hcount
    exact ⟨Nat.le_add_right _ _, rfl, fun _ => show p.pos + count ≤ p.buffer.text.length by omega⟩
  | edit hbuffer hpos => exact ⟨hpos.ge, hbuffer.take, fun _ => hpos ▸ hbuffer.le_length⟩
  | other hbuffer hpos => exact ⟨hpos.ge, by rw [hbuffer], fun h => by rwa [hbuffer, hpos]⟩

end Parser

namespace Parse

theorem step_read {α : Type} {r : Reader α} (hr : Reader.Drops r) (p : Parser) :
    p.Step (Run.final (read r p)) := by
  have hsuffix := hr p.unread
  simp only [read]
  cases hread : r p.unread <;>
    (rw [hread] at hsuffix
     obtain ⟨k, hk, -, hlength⟩ := Parser.exists_move_of_suffix hsuffix
     refine .move ⟨k, hk, ?_⟩
     rw [← hlength]
     rfl)

theorem step_editHere {f : Cursor → Except OutsideBuffer Cursor}
    (hf : ∀ {c d : Cursor}, f c = .ok d → c.Step d) (p : Parser) :
    p.Step (Run.final (editHere f p)) := by
  rw [editHere, Run.get_bind]
  cases h : f ⟨p.buffer, p.pos⟩ with
  | error cause => exact .refl p
  | ok c =>
    cases hf h with
    | move hbuffer _ => exact .other hbuffer rfl
    | edit hbuffer _ => exact .edit hbuffer rfl

/-- The moments of the elementary parts of a parser: a reader of the unread text, an edit at the
position, a part that leaves text and position as they are, and an expansion at or behind the
position, with all that its cursor goes through. -/
inductive Part : (α : Type) → Parse α → Parser → List Parser → Prop
  | read {α : Type} {r : Reader α} {p : Parser} (hr : Reader.Drops r) :
      Part α (read r) p [p, Run.final (read r p)]
  | edit {f : Cursor → Except OutsideBuffer Cursor} {p : Parser}
      (hf : ∀ {c d : Cursor}, f c = .ok d → c.Step d) :
      Part Unit (editHere f) p [p, Run.final (editHere f p)]
  | still {α : Type} {x : Parse α} {p : Parser} (hbuffer : (Run.final (x p)).buffer = p.buffer)
      (hpos : (Run.final (x p)).pos = p.pos) : Part α x p [p, Run.final (x p)]
  | expansion {feature : BlockFeature} {options : KeywordOptions} {offset : Nat}
      {declarator : String} {p : Parser} {cs : List Cursor} (hoffset : p.pos ≤ offset)
      (h : Run.Moments Cursor.Part
        (Declaration.expand feature options p.currentPackage declarator) ⟨p.buffer, offset⟩ cs) :
      Part _ (expandAt feature options offset declarator) p (cs.map (Cursor.under p))

/-- The moments of a run of a parser. -/
abbrev Moments {α : Type} (x : Parse α) (p : Parser) (ms : List Parser) : Prop :=
  Run.Moments Part x p ms

variable {α : Type} {x : Parse α} {p : Parser} {ms : List Parser}

theorem Part.trace (h : Part α x p ms) : Run.Trace Parser.Step p ms (Run.final (x p)) := by
  cases h with
  | read hr => exact .pair (step_read hr p)
  | edit hf => exact .pair (step_editHere hf p)
  | still hbuffer hpos => exact .pair (.other hbuffer hpos)
  | @expansion feature options offset declarator _ cs hoffset h =>
    have htrace := h.trace Cursor.Step.refl Cursor.Part.trace
    refine ⟨Cursor.isChain_under htrace.chain fun c hc => ?_, ?_, ?_⟩
    · rw [htrace.first, Option.mem_some_iff] at hc
      rwa [← hc]
    · rw [List.head?_map, htrace.first]
      rfl
    · rw [List.getLast?_map, htrace.last, final_expandAt]
      rfl

/-- The moments lead from the start of a run to its end, and each is one step from the next. -/
theorem Moments.trace (h : Moments x p ms) : Run.Trace Parser.Step p ms (Run.final (x p)) :=
  Run.Moments.trace Parser.Step.refl Part.trace h

/-- Every moment keeps what the moments before it have read. -/
theorem Moments.pairwise (h : Moments x p ms) : ms.Pairwise Parser.Keeps :=
  List.isChain_iff_pairwise.1 (h.trace.chain.imp fun _ _ => Parser.Step.keeps)

/-- Every moment is inside the text, if the first one is. -/
theorem Moments.inside (h : Moments x p ms) (hp : p.pos ≤ p.buffer.text.length) :
    ∀ m ∈ ms, m.pos ≤ m.buffer.text.length := by
  obtain ⟨tail, rfl⟩ := List.head?_eq_some_iff.1 h.trace.first
  exact List.forall_mem_cons.2
    ⟨hp, fun m hm => ((List.pairwise_cons.1 h.pairwise).1 m hm).inside hp⟩

end Parse

end BraceScript
