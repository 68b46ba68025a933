import BraceScript.Proofs.Sufficiency
import BraceScript.Proofs.Spacing

/-!
# Readers do not see where two texts differ

A computation follows another one if it succeeds with the same result whenever the first one does,
from states that are related, and ends in a state that is related again (`Run.Follows`).  The first
run may be known to end in a good state, where what is bad stays bad: this is how a run can be
followed although it depends on what it will meet.

Two texts that begin with the same lexemes, so long as the first one goes on, are read alike
(`Lexeme.ReadAlike`); where the first one ends, the second one may have a character that stops
statements, a semicolon or a closing brace.  From such texts every reader follows itself.  The
readers of literals do so with any fuel that suffices, since the texts may have different lengths
(`Literal.followsWithin`).
-/

namespace BraceScript

open Lexeme (significant IsWord)

namespace Run

variable {ε σ α β : Type}

/-- From states related by `P`, the second computation succeeds with the result of the first one,
and the states are then related by `Q`, if the first one succeeds and ends in a state with `Good`.
A computation never turns a bad state into a good one. -/
structure Follows (Good : σ → Prop) (P : σ → σ → Prop) (x y : EStateM ε σ α)
    (Q : α → σ → σ → Prop) : Prop where
  keeps {s s' : σ} {a : α} : x s = .ok a s' → Good s' → Good s
  follows {s t s' : σ} {a : α} : P s t → x s = .ok a s' → Good s' →
    ∃ t', y t = .ok a t' ∧ Q a s' t'

namespace Follows

variable {Good : σ → Prop} {P P' : σ → σ → Prop} {x y : EStateM ε σ α} {Q Q' : α → σ → σ → Prop}
  {R : β → σ → σ → Prop} {f g : α → EStateM ε σ β}

theorem bind (hx : Follows Good P x y Q) (hf : ∀ a, Follows Good (Q a) (f a) (g a) R) :
    Follows Good P (x >>= f) (y >>= g) R where
  keeps h hgood := by
    obtain ⟨a, s₁, ha, h⟩ := bind_eq_ok.1 h
    exact hx.keeps ha ((hf a).keeps h hgood)
  follows hst h hgood := by
    obtain ⟨a, s₁, ha, h⟩ := bind_eq_ok.1 h
    obtain ⟨t₁, ha', hst₁⟩ := hx.follows hst ha ((hf a).keeps h hgood)
    obtain ⟨t', hb, hst'⟩ := (hf a).follows hst₁ h hgood
    exact ⟨t', by rw [bind_of_ok ha', hb], hst'⟩

theorem weaken (h : Follows Good P x y Q) (hP : ∀ s t, P' s t → P s t)
    (hQ : ∀ a s t, Q a s t → Q' a s t) : Follows Good P' x y Q' where
  keeps := h.keeps
  follows hst hx hgood := by
    obtain ⟨t', ha, hst'⟩ := h.follows (hP _ _ hst) hx hgood
    exact ⟨t', ha, hQ _ _ _ hst'⟩

theorem before (h : Follows Good P x y Q) (hP : ∀ s t, P' s t → P s t) : Follows Good P' x y Q :=
  h.weaken hP fun _ _ _ h => h

theorem after (h : Follows Good P x y Q) (hQ : ∀ a s t, Q a s t → Q' a s t) :
    Follows Good P x y Q' :=
  h.weaken (fun _ _ h => h) hQ

protected theorem pure {a : α} (h : ∀ s t, P s t → Q a s t) :
    Follows Good P (Pure.pure a : EStateM ε σ α) (Pure.pure a) Q where
  keeps h hgood := by
    obtain ⟨-, rfl⟩ := pure_eq_ok.1 h
    exact hgood
  follows {s t _ _} hst hx _ := by
    obtain ⟨rfl, rfl⟩ := pure_eq_ok.1 hx
    exact ⟨t, rfl, h _ _ hst⟩

/-- What never succeeds is followed by anything. -/
theorem of_fails (h : ∀ s a s', x s ≠ .ok a s') : Follows Good P x y Q where
  keeps hx := absurd hx (h _ _ _)
  follows _ hx := absurd hx (h _ _ _)

protected theorem throw (e : ε) : Follows Good P (MonadExcept.throw e : EStateM ε σ α) y Q :=
  of_fails fun _ _ _ h => throw_eq_ok h

/-- What does not succeed from related states is followed by anything. -/
theorem of_fails_from (hkeeps : ∀ s s' a, x s = .ok a s' → Good s' → Good s)
    (h : ∀ s t a s', P s t → x s ≠ .ok a s') : Follows Good P x y Q where
  keeps := hkeeps _ _ _
  follows hst hx := absurd hx (h _ _ _ _ hst)

/-- What never succeeds is not gone on with. -/
theorem fails_bind {z : EStateM ε σ β} (h : ∀ s a s', x s ≠ .ok a s') :
    Follows Good P (x >>= f) z R :=
  of_fails fun _ _ _ hbind => by
    obtain ⟨a, s, ha, -⟩ := bind_eq_ok.1 hbind
    exact h _ _ _ ha

/-- A computation that always succeeds. -/
theorem of_ok {result : σ → α} {state : σ → σ} (hx : ∀ s, x s = .ok (result s) (state s))
    (hkeeps : ∀ s, Good (state s) → Good s)
    (h : ∀ s t, P s t → result t = result s ∧ Q (result s) (state s) (state t)) :
    Follows Good P x x Q where
  keeps hs hgood := by
    rw [hx] at hs
    obtain ⟨-, rfl⟩ := EStateM.Result.ok.inj hs
    exact hkeeps _ hgood
  follows {s t _ _} hst hs _ := by
    rw [hx] at hs
    obtain ⟨rfl, rfl⟩ := EStateM.Result.ok.inj hs
    obtain ⟨hresult, hstate⟩ := h s t hst
    exact ⟨state t, by rw [hx, hresult], hstate⟩

protected theorem modify {f g : σ → σ} {Q : PUnit → σ → σ → Prop}
    (hkeeps : ∀ s, Good (f s) → Good s) (h : ∀ s t, P s t → Q ⟨⟩ (f s) (g t)) :
    Follows Good P (modify f : EStateM ε σ PUnit) (modify g) Q where
  keeps hs hgood := by
    obtain rfl := modify_eq_ok.1 hs
    exact hkeeps _ hgood
  follows {s t _ _} hst hs _ := by
    obtain rfl := modify_eq_ok.1 hs
    exact ⟨g t, rfl, h s t hst⟩

/-- What is read off related states is related by `E`, and any two states related by `E` will do. -/
protected theorem get {f g : σ → EStateM ε σ β} (E : σ → σ → Prop) (hrefl : ∀ s, E s s)
    (hP : ∀ s t, P s t → E s t)
    (h : ∀ s t, E s t → Follows Good (fun s' t' => P s' t' ∧ s' = s ∧ t' = t) (f s) (g t) R) :
    Follows Good P (MonadState.get >>= f) (MonadState.get >>= g) R where
  keeps {s _ _} hx hgood := (h s s (hrefl s)).keeps hx hgood
  follows {s t _ _} hst hx hgood := (h s t (hP s t hst)).follows ⟨hst, rfl, rfl⟩ hx hgood

protected theorem forM {f : β → EStateM ε σ PUnit}
    (hf : ∀ b, Follows Good P (f b) (f b) fun _ => P) (bs : List β) :
    Follows Good P (bs.forM f) (bs.forM f) fun _ => P := by
  induction bs with
  | nil => exact .pure fun _ _ h => h
  | cons b bs ih => exact (hf b).bind fun _ => ih

end Follows

end Run

/-! ### Texts that are read alike -/

namespace Lexeme

variable {R : List Char → List Char → Prop} {t t' v : List Char} {c : Char}

/-- Behind the same text, the two texts are related. -/
def Past (R : List Char → List Char → Prop) (v t t' : List Char) : Prop :=
  ∃ rest rest', R rest rest' ∧ t = v ++ rest ∧ t' = v ++ rest'

/-- The two texts are related, and both begin with the same significant character or are empty. -/
structure Level (R : List Char → List Char → Prop) (t t' : List Char) : Prop where
  text : R t t'
  head : t'.head? = t.head?
  significant : significant t = t
  significant' : Lexeme.significant t' = t'

/-- The character stands behind a statement. -/
def IsStop (c : Char) : Prop := c = ';' ∨ c = '\x7d'

instance (c : Char) : Decidable (IsStop c) := inferInstanceAs (Decidable (_ ∨ _))

/-- The two texts are related; the first one is at its end, where the second one has a character
that stands behind statements. -/
structure Ended (R : List Char → List Char → Prop) (t t' : List Char) : Prop where
  text : R t t'
  ended : t = []
  head : ∃ c, IsStop c ∧ t'.head? = some c

/-- Texts that are related begin with the same lexemes, so long as the first one goes on, and behind
these they are related again. -/
structure ReadAlike (R : List Char → List Char → Prop) : Prop where
  level {t t' : List Char} (h : R t t') :
    Level R (significant t) (significant t') ∨ Ended R (significant t) (significant t')
  cons {c : Char} {t t' : List Char} (h : R (c :: t) (c :: t')) (hblank : Text.isBlank c = false)
    (hcomment : c ≠ '#') (hquote : c ≠ '"') : R t t'
  lexeme {lexeme? : List Char → Option (List Char)} (hlexer : IsLexer lexeme?) {t t' : List Char}
    (h : R t t') : lexeme? t' = lexeme? t ∧ ∀ v, lexeme? t = some v → Past R v t t'
  quoted {t t' chars : List Char} {read : Nat} (h : R ('"' :: t) ('"' :: t'))
    (hread : quoted t = .ok (chars, read)) :
    quoted t' = .ok (chars, read) ∧ R (t.drop read) (t'.drop read)
  arrow {t t' : List Char} (h : Level R t t') :
    ['=', '>'].isPrefixOf t' = ['=', '>'].isPrefixOf t ∧
      (['=', '>'].isPrefixOf t = true → Past R ['=', '>'] t t')
  digit {t t' : List Char} (h : Level R t t') :
    (t'.drop 1).head?.any Text.isAnyDigit = (t.drop 1).head?.any Text.isAnyDigit

theorem Past.drop (h : Past R v t t') : R (t.drop v.length) (t'.drop v.length) := by
  obtain ⟨rest, rest', h, rfl, rfl⟩ := h
  rwa [List.drop_left, List.drop_left]

theorem ReadAlike.significant (hR : ReadAlike R) (h : R t t') :
    R (significant t) (significant t') :=
  (hR.level h).elim Level.text Ended.text

/-- A character that is no quote is passed in both texts. -/
theorem ReadAlike.past_cons (hR : ReadAlike R) (h : Level R t t') (hc : t.head? = some c)
    (hquote : c ≠ '"') : Past R [c] t t' := by
  obtain ⟨rest, rfl⟩ := List.head?_eq_some_iff.1 hc
  obtain ⟨rest', rfl⟩ := List.head?_eq_some_iff.1 h.head
  have hzero := insignificant_significant (c :: rest)
  rw [h.significant] at hzero
  have hblank : Text.isBlank c = false ∧ c ≠ '#' := by
    rw [insignificant, insignificantFrom] at hzero
    split at hzero
    · omega
    · split at hzero
      · omega
      · next hblank hcomment => exact ⟨by simpa using hblank, hcomment⟩
  exact ⟨rest, rest', hR.cons h.text hblank.1 hblank.2 hquote, rfl, rfl⟩

/-- The first text has no arrow where it has ended. -/
theorem ReadAlike.arrow_significant (hR : ReadAlike R) (h : R t t') :
    ['=', '>'].isPrefixOf (Lexeme.significant t') = ['=', '>'].isPrefixOf (Lexeme.significant t) ∧
      (['=', '>'].isPrefixOf (Lexeme.significant t) = true →
        Past R ['=', '>'] (Lexeme.significant t) (Lexeme.significant t')) := by
  rcases hR.level h with h | h
  · exact hR.arrow h
  · obtain ⟨c, hc, hhead⟩ := h.head
    obtain ⟨rest, hrest⟩ := List.head?_eq_some_iff.1 hhead
    rw [h.ended, hrest]
    rcases hc with rfl | rfl <;> exact ⟨rfl, nofun⟩

end Lexeme

open Lexeme (Past Level IsStop Ended ReadAlike)

/-! ### Readers -/

namespace Reader

variable {α : Type} {x y : Reader α} {P : List Char → List Char → Prop}
  {Q : α → List Char → List Char → Prop} {c : Char} {v : List Char} {k : Nat}
  {R : List Char → List Char → Prop}

/-- From texts that are related, the second reader succeeds as the first one does. -/
abbrev Follows (P : List Char → List Char → Prop) (x y : Reader α)
    (Q : α → List Char → List Char → Prop) : Prop := Run.Follows (fun _ => True) P x y Q

theorem follows_fail (fault : Fault) : Follows P (fail fault : Reader α) y Q :=
  .of_fails fun _ _ _ h => by
    obtain ⟨_, _, -, h⟩ := Run.bind_eq_ok.1 h
    exact Run.throw_eq_ok h

theorem follows_fail_bind {β : Type} {f : α → Reader β} {z : Reader β}
    {R : β → List Char → List Char → Prop} (fault : Fault) :
    Follows P ((fail fault : Reader α) >>= f) z R :=
  .fails_bind fun _ _ _ h => by
    obtain ⟨_, _, -, h⟩ := Run.bind_eq_ok.1 h
    exact Run.throw_eq_ok h

/-- The next character is the same in both texts, or the first one has ended. -/
theorem follows_peek_bind {f g : Option Char → Reader α}
    {P' : Option Char → List Char → List Char → Prop} {E : List Char → List Char → Prop}
    (hP : ∀ t t', P t t' →
      (significant t').head? = (significant t).head? ∧
          P' (significant t).head? (significant t) (significant t') ∨
        significant t = [] ∧ (∃ c, IsStop c ∧ (significant t').head? = some c) ∧
          E (significant t) (significant t'))
    (hseen : ∀ next, Follows (P' next) (f next) (g next) Q)
    (hend : ∀ c, IsStop c → Follows E (f none) (g (some c)) Q) :
    Follows P (peek >>= f) (peek >>= g) Q where
  keeps _ _ := trivial
  follows {t t' _ _} ht hx _ := by
    rw [Run.bind_of_ok (peek_eq t)] at hx
    rw [Run.bind_of_ok (peek_eq t')]
    rcases hP t t' ht with ⟨hhead, h⟩ | ⟨hnil, ⟨c, hc, hhead⟩, h⟩
    · rw [hhead]
      exact (hseen _).follows h hx trivial
    · rw [hhead]
      rw [hnil] at hx h
      exact (hend c hc).follows h hx trivial

theorem follows_peek (hR : ReadAlike R) {f g : Option Char → Reader α}
    (hseen : ∀ next, Follows (fun t t' => Level R t t' ∧ t.head? = next) (f next) (g next) Q)
    (hend : ∀ c, IsStop c → Follows (Ended R) (f none) (g (some c)) Q) :
    Follows R (peek >>= f) (peek >>= g) Q :=
  follows_peek_bind (fun _ _ h => (hR.level h).imp (fun h => ⟨h.head, h, rfl⟩)
    fun h => ⟨h.ended, h.head, h⟩) hseen hend

/-- Whatever comes next. -/
theorem follows_skip {E : List Char → List Char → Prop}
    (hP : ∀ t t', P t t' → E (significant t) (significant t')) (h : Follows E x y Q) :
    Follows P (peek >>= fun _ => x) (peek >>= fun _ => y) Q where
  keeps _ _ := trivial
  follows {t t' _ _} ht hx _ := h.follows (hP t t' ht) hx trivial

/-- The text that both texts begin with is passed. -/
theorem follows_advance {count : Nat} (hcount : v.length = count) :
    Follows (Past R v) (advance count) (advance count) fun _ => R :=
  .modify (fun _ _ => trivial) fun _ _ h => hcount ▸ h.drop

/-- A character that was seen is passed. -/
theorem follows_pass (hR : ReadAlike R) (hquote : c ≠ '"') :
    Follows (fun t t' => Level R t t' ∧ t.head? = some c) (advance 1) (advance 1) fun _ => R :=
  (follows_advance (v := [c]) rfl).before fun _ _ h => hR.past_cons h.1 h.2 hquote

/-- A character that is seen in both texts or in neither, wherever the first one ends. -/
def IsMark (c : Char) : Prop := c ≠ '"' ∧ ¬ IsStop c

instance (c : Char) : Decidable (IsMark c) := inferInstanceAs (Decidable (_ ∧ _))

theorem follows_accept (hR : ReadAlike R) (hc : IsMark c) :
    Follows R (accept c) (accept c) fun _ => R := by
  refine follows_peek hR (fun next => ?_) fun d hd => ?_
  · split
    · next heq =>
      subst heq
      exact (follows_pass hR hc.1).bind fun _ => .pure fun _ _ h => h
    · exact .pure fun _ _ h => h.1.text
  · have hne : (some d : Option Char) ≠ some c := by
      rintro ⟨⟩
      exact hc.2 hd
    rw [if_neg (Option.some_ne_none c).symm, if_neg hne]
    exact .pure fun _ _ h => h.text

theorem follows_expect (hR : ReadAlike R) (hquote : c ≠ '"') :
    Follows R (expect c) (expect c) fun _ => R := by
  refine follows_peek hR (fun next => ?_) fun _ _ => ?_
  · split
    · next heq =>
      subst heq
      exact follows_pass hR hquote
    · exact follows_fail _
  · rw [if_neg nofun]
    exact follows_fail _

theorem follows_peekWord (hR : ReadAlike R) :
    Follows R peekWord peekWord fun found t t' => R t t' ∧
      ∀ w ∈ found, IsWord w.toList ∧ Past R w.toList t t' := by
  refine .of_ok peekWord_eq (fun _ _ => trivial) fun t t' h => ?_
  have h := hR.significant h
  obtain ⟨hword, hpast⟩ := hR.lexeme Lexeme.isLexer_word? h
  refine ⟨by rw [hword], h, fun w hw => ?_⟩
  obtain ⟨chars, hchars, rfl⟩ := Option.map_eq_some_iff.1 hw
  rw [String.toList_ofList]
  exact ⟨.of_word? hchars, hpast chars hchars⟩

theorem follows_word (hR : ReadAlike R) (what : String) :
    Follows R (word what) (word what) fun w t t' => IsWord w.toList ∧ R t t' := by
  refine (follows_peekWord hR).bind fun found => ?_
  cases found with
  | none => exact follows_fail _
  | some w =>
    refine Run.Follows.bind (Q := fun _ t t' => IsWord w.toList ∧ R t t') ?_ fun _ =>
      .pure fun _ _ h => h
    refine .modify (fun _ _ => trivial) fun t t' h => ?_
    obtain ⟨-, h⟩ := h
    obtain ⟨hword, hpast⟩ := h w rfl
    exact ⟨hword, String.length_toList ▸ hpast.drop⟩

theorem follows_number (hR : ReadAlike R) (missing : Fault) :
    Follows R (number missing) (number missing) fun _ => R := by
  refine .get (fun t t' => Lexeme.number? t' = Lexeme.number? t) (fun _ => rfl)
    (fun _ _ h => (hR.lexeme Lexeme.isLexer_number? h).1) fun t t' heq => ?_
  rw [heq]
  cases hfound : Lexeme.number? t with
  | none => exact follows_fail _
  | some lexeme =>
    refine ((follows_advance (v := lexeme) rfl).before ?_).bind fun _ => .pure fun _ _ h => h
    rintro _ _ ⟨h, rfl, rfl⟩
    exact (hR.lexeme Lexeme.isLexer_number? h).2 lexeme hfound

/-- A quoted text is passed, of which the opening quote was seen. -/
theorem follows_quoted (hR : ReadAlike R) :
    Follows (fun t t' => Level R t t' ∧ t.head? = some '"') quoted quoted fun _ => R := by
  have hclosed {t t' : List Char} (h : Level R t t' ∧ t.head? = some '"') (chars : List Char)
      (read : Nat) (hread : Lexeme.quoted (t.drop 1) = .ok (chars, read)) :
      Lexeme.quoted (t'.drop 1) = .ok (chars, read) ∧
        R (t.drop (read + 1)) (t'.drop (read + 1)) := by
    obtain ⟨h, hhead⟩ := h
    have hhead' := h.head.trans hhead
    obtain ⟨rest, rfl⟩ := List.head?_eq_some_iff.1 hhead
    obtain ⟨rest', rfl⟩ := List.head?_eq_some_iff.1 hhead'
    exact hR.quoted h.text hread
  refine .get (fun t t' => ∀ chars read, Lexeme.quoted (t.drop 1) = .ok (chars, read) →
      Lexeme.quoted (t'.drop 1) = .ok (chars, read)) (fun _ _ _ h => h)
    (fun _ _ h chars read hread => (hclosed h chars read hread).1) fun t t' heq => ?_
  cases hfound : Lexeme.quoted (t.drop 1) with
  | error fault => cases fault <;> exact .throw _
  | ok found =>
    obtain ⟨chars, read⟩ := found
    rw [heq chars read hfound]
    refine Run.Follows.bind (.modify (fun _ _ => trivial) ?_) fun _ => .pure fun _ _ h => h
    rintro _ _ ⟨h, rfl, rfl⟩
    exact (hclosed h chars read hfound).2

/-! ### Fuel for the second text -/

/-- The texts are related, and so much fuel suffices to read a value from the second one. -/
def Within (k : Nat) (P : List Char → List Char → Prop) (t t' : List Char) : Prop :=
  P t t' ∧ 2 * t'.length + 1 ≤ k

theorem Within.mono {t t' : List Char} {k' : Nat} (h : Within k P t t') (hk : k ≤ k') :
    Within k' P t t' := ⟨h.1, h.2.trans hk⟩

/-- No text can be read without fuel. -/
theorem follows_without : Follows (Within 0 P) x y Q where
  keeps _ _ := trivial
  follows h := absurd h.2 (by omega)

/-- The second text gets no longer. -/
theorem Follows.within (h : Follows P x y Q) (hy : Drops y) (k : Nat) :
    Follows (Within k P) x y fun a => Within k (Q a) where
  keeps _ _ := trivial
  follows {t t' rest a} ht hx _ := by
    obtain ⟨rest', hy', hrest⟩ := h.follows ht.1 hx trivial
    have := (hy.of_ok hy').length_le
    have := ht.2
    exact ⟨rest', hy', hrest, by omega⟩

theorem Within.significant {t t' : List Char} (h : Within k R t t') :
    2 * (significant t').length + 1 ≤ k := by
  have := (drops_peek.of_ok (peek_eq t')).length_le
  have := h.2
  omega

theorem follows_peek_within (hR : ReadAlike R) (k : Nat) {f g : Option Char → Reader α}
    (hseen : ∀ next,
      Follows (Within k fun t t' => Level R t t' ∧ t.head? = next) (f next) (g next) Q)
    (hend : ∀ c, IsStop c → Follows (Within k (Ended R)) (f none) (g (some c)) Q) :
    Follows (Within k R) (peek >>= f) (peek >>= g) Q := by
  refine follows_peek_bind (fun t t' h => ?_) hseen hend
  have hshorter := h.significant
  exact (hR.level h.1).imp (fun h => ⟨h.head, ⟨h, rfl⟩, hshorter⟩)
    fun h => ⟨h.ended, h.head, h, hshorter⟩

/-- A character that is passed leaves fuel for two more calls. -/
theorem follows_pass_within (hR : ReadAlike R) (hquote : c ≠ '"') (k : Nat) :
    Follows (Within k fun t t' => Level R t t' ∧ t.head? = some c) (advance 1) (advance 1)
      fun _ => Within (k - 2) R := by
  refine .modify (fun _ _ => trivial) fun t t' h => ?_
  have hpast := hR.past_cons h.1.1 h.1.2 hquote
  refine ⟨hpast.drop, ?_⟩
  obtain ⟨rest, rest', -, -, rfl⟩ := hpast
  have := h.2
  simp only [List.length_append, List.length_cons, List.length_nil, List.length_drop] at this ⊢
  omega

theorem follows_accept_within (hR : ReadAlike R) (hc : IsMark c) (k : Nat) :
    Follows (Within k R) (accept c) (accept c)
      fun found => Within (if found then k - 2 else k) R := by
  refine follows_peek_within hR k (fun next => ?_) fun d hd => ?_
  · split
    · next heq =>
      subst heq
      exact (follows_pass_within hR hc.1 k).bind fun _ => .pure fun _ _ h => h
    · exact .pure fun _ _ h => ⟨h.1.1.text, h.2⟩
  · have hne : (some d : Option Char) ≠ some c := by
      rintro ⟨⟩
      exact hc.2 hd
    rw [if_neg (Option.some_ne_none c).symm, if_neg hne]
    exact .pure fun _ _ h => ⟨h.1.text, h.2⟩

/-- A character that the second text may have where the first one has ended, if nothing can be read
there. -/
theorem follows_accept_bind_within (hR : ReadAlike R) (hquote : c ≠ '"') (k : Nat)
    {f g : Bool → Reader α}
    (hf : ∀ found, Follows (Within (if found then k - 2 else k) R) (f found) (g found) Q)
    (hnil : ∀ a rest, f false [] ≠ .ok a rest) :
    Follows (Within k R) (accept c >>= f) (accept c >>= g) Q := by
  rw [accept, bind_assoc, bind_assoc]
  refine follows_peek_within hR k (fun next => ?_) fun _ _ => ?_
  · split
    · next heq =>
      subst heq
      rw [bind_assoc, bind_assoc]
      exact (follows_pass_within hR hquote k).bind fun _ => hf true
    · exact (hf false).before fun _ _ h => ⟨h.1.1.text, h.2⟩
  · rw [if_neg (Option.some_ne_none c).symm]
    exact .of_fails_from (fun _ _ _ _ _ => trivial) fun t _ a rest h => by
      rw [h.1.ended]
      exact hnil a rest

end Reader

/-! ### Literals -/

namespace Literal

open Reader

variable {R : List Char → List Char → Prop}

theorem follows_negate (v : Value) : Reader.Follows R (negate v) (negate v) fun _ => R := by
  cases v with
  | text => exact follows_fail _
  | _ => exact .pure fun _ _ h => h

theorem follows_number (hR : ReadAlike R) : Reader.Follows R number number fun _ => R := by
  refine (follows_accept hR (by decide)).bind fun negative =>
    (Reader.follows_number hR _).bind fun lexeme => ?_
  cases Lexeme.numberValue lexeme with
  | none => exact follows_fail _
  | some v =>
    cases negative
    · exact .pure fun _ _ h => h
    · exact follows_negate v

theorem follows_word_value (hR : ReadAlike R) (next next' : Option Char) (k : Nat) :
    Reader.Follows (Within k R)
      (peekWord >>= fun found => match found with
        | none => fail (.expectedData next)
        | some word => do
          advance word.length
          return (constant? word).getD (.text word))
      (peekWord >>= fun found => match found with
        | none => fail (.expectedData next')
        | some word => do
          advance word.length
          return (constant? word).getD (.text word))
      (fun _ => Within k R) := by
  refine ((follows_peekWord hR).within drops_peekWord k).bind fun found => ?_
  cases found with
  | none => exact follows_fail _
  | some word =>
    have hadvance := (follows_advance (R := R) (v := word.toList) String.length_toList).within
      (drops_advance _) k
    exact (hadvance.before fun _ _ h => ⟨(h.1.2 word rfl).2, h.2⟩).bind fun _ =>
      .pure fun _ _ h => h

/-- Whether an arrow follows is the same in both texts. -/
theorem within_arrow (hR : ReadAlike R) {k : Nat} {t t' : List Char} (h : Within k R t t') :
    Within k (fun t t' => ['=', '>'].isPrefixOf t' = ['=', '>'].isPrefixOf t ∧
      (['=', '>'].isPrefixOf t = true → Past R ['=', '>'] t t')) (significant t) (significant t') :=
  ⟨hR.arrow_significant h.1, h.significant⟩

/-- No value is read where a text has ended. -/
theorem valueWithin_nil {n : Nat} {v : Value} {rest : List Char} :
    valueWithin n [] ≠ .ok v rest := by
  intro h
  cases n with
  | zero => cases h
  | succ n =>
    rw [valueWithin, Run.bind_of_ok (Reader.peek_eq [])] at h
    cases h

/-- The readers of literals with the first fuel are followed by those with the second one, in front
of texts for which the second one suffices. -/
structure FollowsWithin (R : List Char → List Char → Prop) (n m : Nat) : Prop where
  value : Reader.Follows (Within m R) (valueWithin n) (valueWithin m) fun _ => Within m R
  items : Reader.Follows (Within (m - 1) R) (itemsWithin n) (itemsWithin m)
    fun _ => Within (m - 1) R
  rows : Reader.Follows (Within (m - 1) R) (rowsWithin n) (rowsWithin m)
    fun _ => Within (m - 1) R

variable {n m : Nat}

theorem FollowsWithin.value_succ (hR : ReadAlike R) (h : FollowsWithin R n m) :
    Reader.Follows (Within (m + 1) R) (valueWithin (n + 1)) (valueWithin (m + 1))
      fun _ => Within (m + 1) R := by
  rw [valueWithin, valueWithin]
  refine follows_peek_within hR _ (fun next => ?_) ?_
  · split
    · exact ((follows_quoted hR).within drops_quoted _).bind fun _ => .pure fun _ _ h => h
    · exact (follows_pass_within hR (by decide) _).bind fun _ => h.items.bind fun _ =>
        .pure fun _ _ h => h.mono (by omega)
    · exact (follows_pass_within hR (by decide) _).bind fun _ => h.rows.bind fun _ =>
        .pure fun _ _ h => h.mono (by omega)
    · have hhere {t t' : List Char}
          (h : Within (m + 1) (fun t t' => Level R t t' ∧ t.head? = next) t t') :
          Within (m + 1) R t t' := ⟨h.1.1.text, h.2⟩
      split
      · exact ((follows_number hR).within drops_number _).before fun _ _ => hhere
      · exact (follows_word_value hR next next _).before fun _ _ => hhere
  · rintro d (rfl | rfl) <;>
      exact (follows_word_value hR none (some _) _).before fun _ _ h => ⟨h.1.text, h.2⟩

theorem FollowsWithin.items_succ (hR : ReadAlike R) (h : FollowsWithin R n m) :
    Reader.Follows (Within m R) (itemsWithin (n + 1)) (itemsWithin (m + 1))
      fun _ => Within m R := by
  rw [itemsWithin, itemsWithin]
  refine (follows_accept_within hR (by decide) _).bind fun closed => ?_
  split
  · exact .pure fun _ _ h => h.mono (by omega)
  · refine h.value.bind fun item => (follows_accept_within hR (by decide) _).bind fun more => ?_
    split
    · exact (h.items.before fun _ _ h => h.mono (by omega)).bind fun _ =>
        .pure fun _ _ h => h.mono (by omega)
    · exact ((follows_expect hR (by decide)).within (drops_expect _) _).bind fun _ =>
        .pure fun _ _ h => h

theorem FollowsWithin.rows_succ (hR : ReadAlike R) (h : FollowsWithin R n m) :
    Reader.Follows (Within m R) (rowsWithin (n + 1)) (rowsWithin (m + 1))
      fun _ => Within m R := by
  rw [rowsWithin, rowsWithin]
  refine follows_accept_bind_within hR (by decide) m (fun closed => ?_) fun _ _ h => ?_
  rotate_left
  · rw [if_neg (by decide), Run.get_bind] at h
    obtain ⟨_, _, hkey, -⟩ := Run.bind_eq_ok.1 h
    exact valueWithin_nil hkey
  split
  · exact .pure fun _ _ h => h.mono (Nat.sub_le m 2)
  · refine .get (fun _ _ => True) (fun _ => trivial) (fun _ _ _ => trivial)
      fun start start' _ => (h.value.before fun _ _ h => h.1).bind fun key => ?_
    split
    · exact .fails_bind fun _ _ _ h => Run.throw_eq_ok h
    · refine Reader.follows_skip (fun _ _ => within_arrow hR) <| .get
        (fun t t' => ['=', '>'].isPrefixOf t' = ['=', '>'].isPrefixOf t) (fun _ => rfl)
        (fun _ _ h => h.1.1) fun t t' heq => ?_
      rw [heq]
      split
      · exact follows_fail_bind _
      · next harrow =>
        refine Run.Follows.bind (Q := fun _ => Within m R) ?_ fun _ => h.value.bind fun value =>
          (follows_accept_within hR (by decide) _).bind fun more => ?_
        · refine ((follows_advance (v := ['=', '>']) rfl).within (drops_advance 2) m).before ?_
          rintro _ _ ⟨h, rfl, rfl⟩
          exact ⟨h.1.2 (by simpa using harrow), h.2⟩
        · split
          · exact (h.rows.before fun _ _ h => h.mono (by omega)).bind fun _ =>
              .pure fun _ _ h => h.mono (by omega)
          · exact ((follows_expect hR (by decide)).within (drops_expect _) _).bind fun _ =>
              .pure fun _ _ h => h

/-- Readers of literals follow themselves, whatever the fuel of the first run and with any fuel for
the second one that suffices. -/
theorem followsWithin (hR : ReadAlike R) (n : Nat) : ∀ m, FollowsWithin R n m := by
  induction n with
  | zero => exact fun m => ⟨follows_fail _, follows_fail _, follows_fail _⟩
  | succ n ih =>
    intro m
    cases m with
    | zero => exact ⟨follows_without, follows_without, follows_without⟩
    | succ m => exact ⟨(ih m).value_succ hR, (ih m).items_succ hR, (ih m).rows_succ hR⟩

theorem follows_value (hR : ReadAlike R) : Reader.Follows R value value fun _ => R := by
  refine .get (fun _ _ => True) (fun _ => trivial) (fun _ _ _ => trivial) fun text text' _ => ?_
  have hvalue := (followsWithin hR (fuelFor text) (fuelFor text')).value
  refine (hvalue.before ?_).after fun _ _ _ h => h.1
  rintro _ _ ⟨h, -, rfl⟩
  exact ⟨h, Nat.le_succ _⟩

end Literal

namespace Parse

open Reader

variable {R : List Char → List Char → Prop}

theorem follows_versionLiteral (hR : ReadAlike R) :
    Reader.Follows R versionLiteral versionLiteral fun _ => R := by
  have hnumber : Reader.Follows R (do return String.ofList (← number .expectedVersion))
      (do return String.ofList (← number .expectedVersion)) fun _ => R :=
    (Reader.follows_number hR _).bind fun _ => .pure fun _ _ h => h
  refine Reader.follows_peek hR (fun next => ?_) fun c hc => ?_
  rotate_left
  · rcases hc with rfl | rfl <;> exact hnumber.before fun _ _ h => h.text
  split
  · exact Reader.follows_quoted hR
  · exact hnumber.before fun _ _ h => h.1.text

theorem follows_moreData (hR : ReadAlike R) (n m : Nat) :
    Reader.Follows (Within (2 * m) R) (moreData n) (moreData m) fun _ => R := by
  induction n generalizing m with
  | zero => exact follows_fail _
  | succ n ih =>
    cases m with
    | zero => exact follows_without
    | succ m =>
      refine (follows_accept_within hR (by decide) _).bind fun more => ?_
      split
      · refine ((Literal.follows_value hR).within Literal.drops_value _).bind fun value => ?_
        exact ((ih m).before fun _ _ h => h.mono (by omega)).bind fun _ => .pure fun _ _ h => h
      · exact .pure fun _ _ h => h.1

theorem follows_useArguments (hR : ReadAlike R) :
    Reader.Follows R useArguments useArguments fun _ => R := by
  refine Reader.follows_peek hR (fun next => ?_) fun c hc => ?_
  rotate_left
  · rcases hc with rfl | rfl <;> exact .pure fun _ _ h => h.text
  split
  · exact .pure fun _ _ h => h.1.text
  · refine ((Literal.follows_value hR).before fun _ _ h => h.1.text).bind fun first => ?_
    refine .get (fun _ _ => True) (fun _ => trivial) (fun _ _ _ => trivial) fun text text' _ => ?_
    refine ((follows_moreData hR _ _).before ?_).bind fun more => ?_
    · rintro _ _ ⟨h, -, rfl⟩
      exact ⟨h, by omega⟩
    · cases more <;> exact .pure fun _ _ h => h

end Parse

end BraceScript
