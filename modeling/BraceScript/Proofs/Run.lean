import BraceScript.Parser.State
import BraceScript.Proofs.Lexeme
import Mathlib.Data.List.Forall2

/-!
# Running readers and parsers step by step

Readers and parsers are computations with a state and an error.  `Run.bind_eq_ok` takes a
successful run of a sequence apart into the runs of its parts, and `Run.bind_of_ok` puts it
together; the other statements describe the single steps.
-/

namespace BraceScript

namespace Run

variable {ε σ α β : Type} {x : EStateM ε σ α} {f : α → EStateM ε σ β} {s s' : σ} {a : α} {b : β}

theorem bind_eq_ok :
    (x >>= f) s = .ok b s' ↔ ∃ a t, x s = .ok a t ∧ f a t = .ok b s' := by
  simp only [bind, EStateM.bind]
  cases x s <;> simp

theorem bind_eq_error {e : ε} :
    (x >>= f) s = .error e s' ↔ x s = .error e s' ∨ ∃ a t, x s = .ok a t ∧ f a t = .error e s' := by
  simp only [bind, EStateM.bind]
  cases x s <;> simp

theorem bind_of_ok {t : σ} (h : x s = .ok a t) : (x >>= f) s = f a t := by
  simp only [bind, EStateM.bind, h]

theorem get_bind {f : σ → EStateM ε σ β} : ((get : EStateM ε σ σ) >>= f) s = f s s := rfl

theorem except_bind_eq_ok {x : Except ε α} {f : α → Except ε β} :
    (x >>= f) = .ok b ↔ ∃ a, x = .ok a ∧ f a = .ok b := by
  cases x <;> simp [bind, Except.bind]

theorem except_bind_eq_error {x : Except ε α} {f : α → Except ε β} {e : ε} :
    (x >>= f) = .error e ↔ x = .error e ∨ ∃ a, x = .ok a ∧ f a = .error e := by
  cases x <;> simp [bind, Except.bind]

theorem except_toOption_eq_some {x : Except ε α} {a : α} : x.toOption = some a ↔ x = .ok a := by
  cases x <;> simp [Except.toOption]

theorem except_mapM_eq_ok {f : α → Except ε β} {as : List α} {bs : List β} :
    as.mapM f = .ok bs ↔ List.Forall₂ (fun a b => f a = .ok b) as bs := by
  induction as generalizing bs with
  | nil => simp [pure, Except.pure, eq_comm]
  | cons a as ih =>
    simp only [List.mapM_cons, except_bind_eq_ok, ih, List.forall₂_cons_left_iff]
    constructor
    · rintro ⟨b, hb, bs, hbs, h⟩
      exact ⟨b, bs, hb, hbs, (Except.ok.inj h).symm⟩
    · rintro ⟨b, bs, hb, hbs, rfl⟩
      exact ⟨b, hb, bs, hbs, rfl⟩

/-- What a computation for every item of a list has found, it has found for one of them. -/
theorem exists_of_mem_except_mapM {f : α → Except ε β} {as : List α} {bs : List β}
    (h : as.mapM f = .ok bs) (hb : b ∈ bs) : ∃ a ∈ as, f a = .ok b := by
  induction except_mapM_eq_ok.1 h with
  | nil => cases hb
  | cons hfirst hrest ih =>
    rcases List.mem_cons.1 hb with rfl | hb
    · exact ⟨_, List.mem_cons_self, hfirst⟩
    · obtain ⟨a, ha, hab⟩ := ih (except_mapM_eq_ok.2 hrest) hb
      exact ⟨a, List.mem_cons_of_mem _ ha, hab⟩

theorem except_forM_eq_ok {f : α → Except ε Unit} {as : List α} {u : Unit} :
    as.forM f = .ok u ↔ ∀ a ∈ as, f a = .ok () := by
  induction as with
  | nil => simp [pure, Except.pure]
  | cons a as ih =>
    rw [List.forM_eq_forM, List.forM_cons, ← List.forM_eq_forM, except_bind_eq_ok,
      List.forall_mem_cons, ih]
    exact ⟨fun ⟨_, h⟩ => h, fun h => ⟨(), h⟩⟩

theorem exists_of_except_forM_eq_error {f : α → Except ε Unit} {as : List α} {e : ε}
    (h : as.forM f = .error e) : ∃ a ∈ as, f a = .error e := by
  induction as with
  | nil => cases h
  | cons a as ih =>
    rw [List.forM_eq_forM, List.forM_cons, ← List.forM_eq_forM] at h
    rcases except_bind_eq_error.1 h with h | ⟨_, -, h⟩
    · exact ⟨a, List.mem_cons_self, h⟩
    · obtain ⟨found, hfound, h⟩ := ih h
      exact ⟨found, List.mem_cons_of_mem _ hfound, h⟩

theorem bind_congr_left {y : EStateM ε σ α} {s₁ s₂ : σ} (h : x s₁ = y s₂) :
    (x >>= f) s₁ = (y >>= f) s₂ := by
  simp only [bind, EStateM.bind, h]

theorem bind_congr_right {g : α → EStateM ε σ β} (h : ∀ a t, x s = .ok a t → f a t = g a t) :
    (x >>= f) s = (x >>= g) s := by
  simp only [bind, EStateM.bind]
  cases hx : x s with
  | ok a t => exact h a t hx
  | error e t => rfl

@[simp] theorem pure_eq_ok {c : α} :
    (pure a : EStateM ε σ α) s = .ok c s' ↔ a = c ∧ s = s' := by
  simp [pure, EStateM.pure]

@[simp] theorem get_eq_ok {t : σ} : (get : EStateM ε σ σ) s = .ok t s' ↔ s = t ∧ s = s' := by
  change EStateM.Result.ok s s = .ok t s' ↔ _
  rw [EStateM.Result.ok.injEq]

@[simp] theorem set_eq_ok {t : σ} {u : PUnit} :
    (set t : EStateM ε σ PUnit) s = .ok u s' ↔ t = s' := by
  change EStateM.Result.ok ⟨⟩ t = .ok u s' ↔ _
  simp

@[simp] theorem modify_eq_ok {g : σ → σ} {u : PUnit} :
    (modify g : EStateM ε σ PUnit) s = .ok u s' ↔ g s = s' := by
  change EStateM.Result.ok ⟨⟩ (g s) = .ok u s' ↔ _
  simp

@[simp] theorem throw_eq_ok {e : ε} : ¬ (throw e : EStateM ε σ α) s = .ok a s' := by
  change ¬ EStateM.Result.error e s = .ok a s'
  exact nofun

@[simp] theorem throw_eq_error {e e' : ε} :
    (throw e : EStateM ε σ α) s = .error e' s' ↔ e = e' ∧ s = s' := by
  change EStateM.Result.error e s = .error e' s' ↔ _
  rw [EStateM.Result.error.injEq]

/-- A computation that cannot fail. -/
theorem pure_eq_error {c : α} {e : ε} : ¬ (pure c : EStateM ε σ α) s = .error e s' := nofun

/-- The state that a run ends in, be it in success or in an error. -/
def final : EStateM.Result ε σ α → σ
  | .ok _ s | .error _ s => s

/-- The run has succeeded, with a result and a state that pass a check. -/
def passes (check : α → σ → Bool) : EStateM.Result ε σ α → Bool
  | .ok a s => check a s
  | .error .. => false

theorem passes_iff {check : α → σ → Bool} {result : EStateM.Result ε σ α} :
    passes check result = true ↔ ∃ a s, result = .ok a s ∧ check a s = true := by
  cases result <;> simp [passes]

/-- The run has failed, with an error and a state that pass a check. -/
def fails (check : ε → σ → Bool) : EStateM.Result ε σ α → Bool
  | .ok .. => false
  | .error e s => check e s

theorem fails_iff {check : ε → σ → Bool} {result : EStateM.Result ε σ α} :
    fails check result = true ↔ ∃ e s, result = .error e s ∧ check e s = true := by
  cases result <;> simp [fails]

theorem eq_ok_final {check : α → σ → Bool} (h : passes check (x s) = true) :
    ∃ a, x s = .ok a (final (x s)) ∧ check a (final (x s)) = true := by
  obtain ⟨a, t, hx, hcheck⟩ := passes_iff.1 h
  refine ⟨a, ?_⟩
  rw [hx]
  exact ⟨rfl, hcheck⟩

theorem final_bind_of_ok {α β : Type} {x : EStateM ε σ α} {f : α → EStateM ε σ β} {a : α}
    (h : x s = .ok a t) : final ((x >>= f) s) = final (f a t) := by
  rw [bind_of_ok h]

theorem final_bind_of_error {α β : Type} {x : EStateM ε σ α} {f : α → EStateM ε σ β} {e : ε}
    (h : x s = .error e t) : final ((x >>= f) s) = t := by
  simp only [bind, EStateM.bind, h]
  rfl

theorem forM_nil_eq_ok {g : β → EStateM ε σ PUnit} {u : PUnit} :
    forM [] g s = .ok u s' ↔ s = s' := by
  simp

theorem forM_cons_eq_ok {g : β → EStateM ε σ PUnit} {bs : List β} {u : PUnit} :
    forM (b :: bs) g s = .ok u s' ↔ ∃ t, g b s = .ok ⟨⟩ t ∧ forM bs g t = .ok u s' := by
  rw [List.forM_cons, bind_eq_ok]
  exact ⟨fun ⟨⟨⟩, t, h⟩ => ⟨t, h⟩, fun ⟨t, h⟩ => ⟨⟨⟩, t, h⟩⟩

/-- What a run over a list fails at, after all items before it. -/
theorem forM_eq_error {f : β → EStateM ε σ PUnit} {bs : List β} {e : ε}
    (h : bs.forM f s = .error e s') : ∃ before b after t, bs = before ++ b :: after ∧
      before.forM f s = .ok ⟨⟩ t ∧ f b t = .error e s' := by
  induction bs generalizing s with
  | nil => exact absurd h pure_eq_error
  | cons b bs ih =>
    rw [List.forM_eq_forM, List.forM_cons] at h
    rcases bind_eq_error.1 h with h | ⟨⟨⟩, t, hb, h⟩
    · exact ⟨[], b, bs, s, rfl, rfl, h⟩
    · obtain ⟨before, c, after, u, rfl, hbefore, hc⟩ := ih h
      exact ⟨b :: before, c, after, u, rfl, forM_cons_eq_ok.2 ⟨t, hb, hbefore⟩, hc⟩

theorem forM_append_eq_ok {f : β → EStateM ε σ PUnit} {bs cs : List β} {t : σ} {u : PUnit}
    (h : bs.forM f s = .ok ⟨⟩ t) (h' : cs.forM f t = .ok u s') :
    (bs ++ cs).forM f s = .ok u s' := by
  rw [List.forM_eq_forM, List.forM_append]
  exact (bind_of_ok h).trans h'

end Run

namespace Reader

open Lexeme (significant)

variable {text : List Char}

@[simp] theorem peek_eq (text : List Char) :
    peek text = .ok (significant text).head? (significant text) := rfl

@[simp] theorem advance_eq (count : Nat) : advance count text = .ok () (text.drop count) := rfl

theorem accept_eq_true {c : Char} {rest : List Char} (h : significant text = c :: rest) :
    accept c text = .ok true rest := by
  simp [accept, Run.bind_of_ok (peek_eq text), h, Run.bind_of_ok (advance_eq 1), pure, EStateM.pure]

theorem accept_eq_false {c : Char} (h : (significant text).head? ≠ some c) :
    accept c text = .ok false (significant text) := by
  simp [accept, Run.bind_of_ok (peek_eq text), h, pure, EStateM.pure]

theorem expect_eq_ok {c : Char} {rest : List Char} (h : significant text = c :: rest) :
    expect c text = .ok () rest := by
  simp [expect, Run.bind_of_ok (peek_eq text), h]

theorem peekWord_eq (text : List Char) :
    peekWord text =
      .ok ((Lexeme.word? (significant text)).map String.ofList) (significant text) := rfl

end Reader

end BraceScript
