import BraceScript.Declaration
import BraceScript.Proofs.Run

/-!
# Edits behind some more text

Two runs are related when, from related states, both succeed with related results or both fail
(`Run.Related`).  The first relation of this kind is between cursors: an expansion does the same
in a text as in the same text with more characters in front (`Declaration.related_expand`).
-/

namespace BraceScript

namespace Run

variable {σ α β γ δ : Type}

/-- Two runs end alike: both succeed, with related results and states, or both fail.  Where `cut`
allows it, the first one may have run out of fuel instead. -/
inductive Alike (Q : α → β → Prop) (S : σ → σ → Prop) (cut : Prop) :
    EStateM.Result Error σ α → EStateM.Result Error σ β → Prop
  | ok {a : α} {b : β} {s t : σ} (hresult : Q a b) (hstate : S s t) :
      Alike Q S cut (.ok a s) (.ok b t)
  | error (e e' : Error) (s t : σ) : Alike Q S cut (.error e s) (.error e' t)
  | cut (s : σ) (result : EStateM.Result Error σ β) (h : cut) :
      Alike Q S cut (.error .exhausted s) result

/-- From related states the two computations run alike. -/
def Related (Q : α → β → Prop) (S : σ → σ → Prop) (cut : Prop) (x : EStateM Error σ α)
    (y : EStateM Error σ β) : Prop := ∀ s t, S s t → Alike Q S cut (x s) (y t)

variable {Q : α → β → Prop} {R : γ → δ → Prop} {S S' : σ → σ → Prop} {cut : Prop}

theorem Alike.bind {x : EStateM Error σ α} {y : EStateM Error σ β} {f : α → EStateM Error σ γ}
    {g : β → EStateM Error σ δ} {s t : σ} (hx : Alike Q S cut (x s) (y t))
    (hf : ∀ a b s t, Q a b → S s t → Alike R S' cut (f a s) (g b t)) :
    Alike R S' cut ((x >>= f) s) ((y >>= g) t) := by
  simp only [Bind.bind, EStateM.bind]
  generalize x s = r, y t = r' at hx
  cases hx with
  | ok hresult hstate => exact hf _ _ _ _ hresult hstate
  | error e e' s t => exact .error e e' s t
  | cut s result h => exact .cut s _ h

theorem Related.bind {x : EStateM Error σ α} {y : EStateM Error σ β} {f : α → EStateM Error σ γ}
    {g : β → EStateM Error σ δ} (hx : Related Q S cut x y)
    (hf : ∀ a b, Q a b → Related R S cut (f a) (g b)) : Related R S cut (x >>= f) (y >>= g) :=
  fun s t hst => (hx s t hst).bind fun a b s t h => hf a b h s t

/-- The first parts have the same result. -/
theorem Related.next {x y : EStateM Error σ α} {f : α → EStateM Error σ γ}
    {g : α → EStateM Error σ δ} (hx : Related Eq S cut x y)
    (hf : ∀ a, Related R S cut (f a) (g a)) : Related R S cut (x >>= f) (y >>= g) :=
  hx.bind fun a _ h => h ▸ hf a

theorem related_pure {a : α} {b : β} (h : Q a b) :
    Related Q S cut (pure a : EStateM Error σ α) (pure b) := fun _ _ hst => .ok h hst

theorem related_throw (e e' : Error) :
    Related Q S cut (throw e : EStateM Error σ α) (throw e') := fun s t _ => .error e e' s t

theorem related_get : Related S S cut (get : EStateM Error σ σ) get := fun _ _ hst => .ok hst hst

theorem related_set {s t : σ} (h : S s t) :
    Related Eq S cut (set s : EStateM Error σ PUnit) (set t) := fun _ _ _ => .ok rfl h

theorem related_modify {f g : σ → σ} (h : ∀ s t, S s t → S (f s) (g t)) :
    Related Eq S cut (modify f : EStateM Error σ PUnit) (modify g) :=
  fun s t hst => .ok rfl (h s t hst)

theorem related_forM {f : α → EStateM Error σ Unit} (hf : ∀ a, Related Eq S cut (f a) (f a))
    (as : List α) : Related Eq S cut (as.forM f) (as.forM f) := by
  induction as with
  | nil => exact related_pure rfl
  | cons a as ih => exact (hf a).next fun _ => ih

/-- Two computations that may be refused are refused alike. -/
inductive Both {ε : Type} (Q : α → β → Prop) : Except ε α → Except ε β → Prop
  | ok {a : α} {b : β} (h : Q a b) : Both Q (.ok a) (.ok b)
  | error (e e' : ε) : Both Q (.error e) (.error e')

theorem Both.bind {ε : Type} {x : Except ε α} {y : Except ε β} {f : α → Except ε γ}
    {g : β → Except ε δ} (hx : Both Q x y) (hf : ∀ a b, Q a b → Both R (f a) (g b)) :
    Both R (x >>= f) (y >>= g) := by
  cases hx with
  | ok h => exact hf _ _ h
  | error e e' => exact .error e e'

end Run

open Run (Related Alike Both related_pure related_throw related_get related_set related_modify
  related_forM)

/-! ### Cursors in step -/

namespace Buffer

variable {before : List Char} {b b' : Buffer} {offset offset' length : Int}

theorem position?_shifted (htext : b'.text = before ++ b.text) (hoffset : 0 ≤ offset)
    (h : offset' = before.length + offset) :
    Both (fun k k' => k ≤ b.text.length ∧ k = offset ∧ k' = before.length + k)
      (b.position? offset) (b'.position? offset') := by
  rw [position?, position?, length, length, htext, List.length_append]
  by_cases hle : offset ≤ b.text.length
  · rw [if_pos ⟨hoffset, hle⟩, if_pos (by omega)]
    exact .ok (by omega)
  · rw [if_neg (by omega), if_neg (by omega)]
    exact .error _ _

private theorem take_behind (text : List Char) (k : Nat) :
    (before ++ text).take (before.length + k) = before ++ text.take k := by
  rw [List.take_append, List.take_of_length_le (Nat.le_add_right _ k), Nat.add_sub_cancel_left]

theorem insert_shifted (htext : b'.text = before ++ b.text) (hoffset : 0 ≤ offset)
    (h : offset' = before.length + offset) (chars : List Char) :
    Both (fun e e' : Buffer => e'.text = before ++ e.text) (b.insert offset chars)
      (b'.insert offset' chars) := by
  refine (position?_shifted htext hoffset h).bind fun k k' ⟨_, _, hk⟩ => .ok ?_
  simp [htext, hk, take_behind]

theorem delete_shifted (htext : b'.text = before ++ b.text) (hoffset : 0 ≤ offset)
    (hlength : 0 ≤ length) (h : offset' = before.length + offset) :
    Both (fun e e' : Buffer => e'.text = before ++ e.text) (b.delete offset length)
      (b'.delete offset' length) := by
  refine (position?_shifted htext hoffset h).bind fun k k' ⟨_, _, hk⟩ => .ok ?_
  have hdrop : b'.resolve (offset' + length) = before.length + b.resolve (offset + length) := by
    rw [resolve_of_nonneg (by omega), resolve_of_nonneg (by omega)]
    omega
  simp [htext, hk, hdrop, take_behind]

end Buffer

namespace Cursor

/-- The second cursor stands in the same text behind some more characters. -/
structure Shifted (before : List Char) (c c' : Cursor) : Prop where
  text : c'.buffer.text = before ++ c.buffer.text
  offset : c'.offset = before.length + c.offset

variable {before : List Char} {c c' : Cursor}

theorem Shifted.rest (h : Shifted before c c') : c'.rest = c.rest := by
  simp [Cursor.rest, h.text, h.offset]

theorem Shifted.advance (h : Shifted before c c') (count : Nat) :
    Shifted before (c.advance count) (c'.advance count) :=
  ⟨h.text, by simp only [Cursor.advance, h.offset]; omega⟩

theorem Shifted.skip (h : Shifted before c c') : Shifted before c.skip c'.skip := by
  rw [Cursor.skip, Cursor.skip, h.rest]
  exact h.advance _

theorem Shifted.inject (h : Shifted before c c') (text : List Char) {skip : Int}
    (hskip : 0 ≤ skip) : Both (Shifted before) (c.inject text skip) (c'.inject text skip) := by
  refine (Buffer.insert_shifted h.text (by omega) ?_ text).bind fun b b' hbuffer =>
    .ok ⟨hbuffer, ?_⟩
  · rw [h.offset]
    omega
  · change Int.toNat _ = before.length + Int.toNat _
    rw [h.offset]
    omega

theorem Shifted.strip (h : Shifted before c c') {length : Int} (hlength : 0 ≤ length) :
    Both (fun r r' => r.1 = r'.1 ∧ Shifted before r.2 r'.2) (c.strip length) (c'.strip length) := by
  obtain ⟨length, rfl⟩ := Int.eq_ofNat_of_zero_le hlength
  refine (Buffer.delete_shifted h.text (by omega) hlength ?_).bind fun b b' hbuffer =>
    .ok ⟨?_, hbuffer, h.offset⟩
  · rw [h.offset]
    omega
  · rw [ahead_natCast, ahead_natCast, h.rest]

theorem Shifted.stripLexeme (h : Shifted before c c')
    (lexeme? : List Char → Option (List Char)) :
    Both (fun r r' => r.1 = r'.1 ∧ Shifted before r.2 r'.2) (c.stripLexeme lexeme?)
      (c'.stripLexeme lexeme?) := by
  simp only [Cursor.stripLexeme, h.skip.rest]
  cases lexeme? c.skip.rest with
  | none => exact .ok ⟨rfl, h.skip⟩
  | some lexeme =>
    refine (h.skip.strip (Int.natCast_nonneg lexeme.length)).bind ?_
    rintro ⟨removed, d⟩ ⟨_, d'⟩ ⟨rfl, hd⟩
    exact .ok ⟨rfl, hd⟩

end Cursor

namespace Declaration

variable {before : List Char} {cut : Prop}

theorem related_edit {α : Type} {f : Cursor → Except OutsideBuffer (α × Cursor)}
    (h : ∀ {c c' : Cursor}, Cursor.Shifted before c c' →
      Both (fun r r' => r.1 = r'.1 ∧ Cursor.Shifted before r.2 r'.2) (f c) (f c')) :
    Related Eq (Cursor.Shifted before) cut (edit f) (edit f) := by
  intro c c' hc
  have hf := h hc
  simp only [edit]
  generalize f c = r, f c' = r' at hf
  cases hf with
  | ok h => exact .ok h.1 h.2
  | error e e' => exact .error _ _ _ _

theorem related_inject (text : List Char) {skip : Int} (hskip : 0 ≤ skip) :
    Related Eq (Cursor.Shifted before) cut (inject text skip) (inject text skip) :=
  related_edit fun h => (h.inject text hskip).bind fun _ _ hd => .ok ⟨rfl, hd⟩

/-- An expansion does the same at both cursors; only the offset of the block differs. -/
theorem related_expand (feature : BlockFeature) (options : KeywordOptions)
    (package declarator : String) :
    Related (fun _ _ => True) (Cursor.Shifted before) cut
      (expand feature options package declarator) (expand feature options package declarator) := by
  have hinject : ∀ text : List Char,
      Related Eq (Cursor.Shifted before) cut (inject text) (inject text) := fun text =>
    related_inject text (Int.le_refl 0)
  have hlexeme : ∀ lexeme?, Related Eq (Cursor.Shifted before) cut
      (edit fun c => c.stripLexeme lexeme?) (edit fun c => c.stripLexeme lexeme?) := fun lexeme? =>
    related_edit fun h => h.stripLexeme lexeme?
  refine (related_modify fun c c' h => (h.advance _).skip).next fun _ => (hinject _).next fun _ =>
    (hlexeme _).next fun name => (hinject _).next fun _ => (hinject _).next fun _ =>
    (hlexeme _).next fun version => ?_
  dsimp only
  generalize (if version.isSome = true then Stage.version
    else if name.isSome = true then .name else .keyword) = stage
  cases Preamble.generate feature _ _ options with
  | error cause => exact related_throw _ _
  | ok statements =>
    refine (related_modify fun c c' h => h.skip).next fun _ =>
      related_get.bind fun c c' h => ?_
    have hstarts : c'.startsWith ['\x7b'] = c.startsWith ['\x7b'] := by
      rw [Cursor.startsWith, Cursor.startsWith, h.rest]
    rw [hstarts]
    have hinjections (d d' : Declaration) : Related (fun _ _ => True) (Cursor.Shifted before) cut
        (inject feature.trigger.toList 1 >>= fun _ =>
          inject (Preamble.render statements).toList >>= fun _ => pure d)
        (inject feature.trigger.toList 1 >>= fun _ =>
          inject (Preamble.render statements).toList >>= fun _ => pure d') :=
      (related_inject _ Int.one_nonneg).next fun _ => (hinject _).next fun _ => related_pure trivial
    split
    · exact (related_throw _ _ : Related (fun _ _ => True) _ _ _ _).bind fun _ _ _ =>
        hinjections _ _
    · exact hinjections _ _

end Declaration

end BraceScript
