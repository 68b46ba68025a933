import BraceScript.Proofs.Grammar

/-!
# More fuel changes nothing

A run that does not run out of fuel is the same with more fuel, in its result and in the parser that
it leaves (`Parse.allMore`).
-/

namespace BraceScript

namespace Run

variable {σ α β : Type} {x y : EStateM Error σ α} {f g : α → EStateM Error σ β}

/-- The second run is the same as the first one, unless that one runs out of fuel. -/
def Below (x y : EStateM Error σ α) : Prop :=
  ∀ s, y s = x s ∨ ∃ t, x s = .error .exhausted t

theorem Below.refl (x : EStateM Error σ α) : Below x x := fun _ => .inl rfl

theorem below_exhausted : Below (throw .exhausted : EStateM Error σ α) y :=
  fun s => .inr ⟨s, rfl⟩

theorem Below.bind (hx : Below x y) (hf : ∀ a, Below (f a) (g a)) : Below (x >>= f) (y >>= g) := by
  intro s
  simp only [Bind.bind, EStateM.bind]
  rcases hx s with heq | ⟨t, hcut⟩
  · rw [heq]
    cases x s with
    | ok a t => exact hf a t
    | error e t => exact .inl rfl
  · rw [hcut]
    exact .inr ⟨t, rfl⟩

/-- The first steps are the same. -/
theorem Below.after (x : EStateM Error σ α) (hf : ∀ a, Below (f a) (g a)) :
    Below (x >>= f) (x >>= g) := (Below.refl x).bind hf

/-- The last steps are the same. -/
theorem Below.before (hx : Below x y) (f : α → EStateM Error σ β) : Below (x >>= f) (y >>= f) :=
  hx.bind fun a => .refl (f a)

theorem Below.eq_ok {s t : σ} {a : α} (h : Below x y) (hx : x s = .ok a t) : y s = .ok a t := by
  rcases h s with heq | ⟨t', hcut⟩
  · exact heq.trans hx
  · cases hx.symm.trans hcut

end Run

namespace Parse

open Reader
open Run (Below below_exhausted)

/-- What would follow a failure does not matter. -/
theorem below_fail_bind {α β : Type} {f g : α → Parse β} (fault : Fault) :
    Below (fail fault >>= f) (fail fault >>= g) := fun _ => .inl rfl

/-- All readers of the grammar do with `m` units of fuel what they do with `n` units. -/
structure AllMore (n m : Nat) : Prop where
  statements : ∀ closing, Below (statementsWithin closing n) (statementsWithin closing m)
  statement : Below (statementWithin n) (statementWithin m)
  expression : Below (expressionWithin n) (expressionWithin m)
  name : ∀ written, Below (nameWithin written n) (nameWithin written m)
  parenthesized : Below (parenthesizedWithin n) (parenthesizedWithin m)
  expressions : ∀ closing, Below (expressionsWithin closing n) (expressionsWithin closing m)
  block : Below (blockWithin n) (blockWithin m)

namespace AllMore

variable {n m : Nat}

theorem zero (m : Nat) : AllMore 0 m where
  statements _ := by rw [statementsWithin]; exact below_exhausted
  statement := by rw [statementWithin]; exact below_exhausted
  expression := by rw [expressionWithin]; exact below_exhausted
  name _ := by rw [nameWithin]; exact below_exhausted
  parenthesized := by rw [parenthesizedWithin]; exact below_exhausted
  expressions _ := by rw [expressionsWithin]; exact below_exhausted
  block := by rw [blockWithin]; exact below_exhausted

theorem statements_succ (ih : AllMore n m) (closing : Option String) :
    Below (statementsWithin closing (n + 1)) (statementsWithin closing (m + 1)) := by
  have hmore (node : Option Node) : Below
      (do return node.toList ++ (← statementsWithin closing n))
      (do return node.toList ++ (← statementsWithin closing m)) :=
    (ih.statements closing).before _
  rw [statementsWithin.eq_def, statementsWithin.eq_def closing (m + 1)]
  dsimp only
  refine .after _ fun next => ?_
  cases next with
  | none => exact .refl _
  | some c =>
    dsimp only
    split
    · exact .refl _
    · split
      · exact .after _ fun _ => ih.statements closing
      · refine ih.statement.bind fun node => .after _ fun next => ?_
        cases next with
        | none => exact hmore node
        | some d =>
          dsimp only
          split
          · exact .after _ fun _ => hmore node
          · split
            · exact .after _ fun _ => hmore node
            · exact hmore node

theorem statement_succ (ih : AllMore n m) :
    Below (statementWithin (n + 1)) (statementWithin (m + 1)) := by
  rw [statementWithin.eq_def, statementWithin.eq_def (m + 1)]
  dsimp only
  refine .after _ fun word => ?_
  split
  · exact .refl _
  · exact .refl _
  · exact .refl _
  · exact .refl _
  · exact .after _ fun _ => .after _ fun name => .after _ fun p => ih.block.before _
  · exact ih.expression.before _

theorem word (ih : AllMore n m) (written : String) :
    Below (wordExpression written n) (wordExpression written m) := by
  have hname : Below (read (advance written.length) >>= fun _ => nameWithin written n)
      (read (advance written.length) >>= fun _ => nameWithin written m) :=
    .after _ fun _ => ih.name written
  rw [wordExpression, wordExpression]
  dsimp only
  split
  · exact .after _ fun _ => ih.block.before _
  split
  · exact below_fail_bind _
  cases Literal.constant? written with
  | some value => exact .refl _
  | none =>
    dsimp only
    split
    · exact .refl _
    refine .after _ fun p => ?_
    split
    · cases p.namespaces.keyword? p.currentPackage written with
      | none => exact hname
      | some keyword => exact .after _ fun _ => hname
    · exact hname

theorem expression_succ (ih : AllMore n m) :
    Below (expressionWithin (n + 1)) (expressionWithin (m + 1)) := by
  rw [expressionWithin.eq_def, expressionWithin.eq_def (m + 1)]
  dsimp only
  refine .after _ fun next => ?_
  split
  · exact .refl _
  · exact .refl _
  · exact .after _ fun _ => ih.parenthesized
  · exact .after _ fun _ => (ih.expressions _).before _
  · refine .after _ fun p => ?_
    split
    · exact .refl _
    · refine .after _ fun found => ?_
      cases found with
      | none => exact .refl _
      | some written => exact ih.word written

theorem name_succ (ih : AllMore n m) (written : String) :
    Below (nameWithin written (n + 1)) (nameWithin written (m + 1)) := by
  rw [nameWithin.eq_def, nameWithin.eq_def written (m + 1)]
  dsimp only
  refine .after _ fun p => .after _ fun opened => ?_
  split
  · exact (ih.expressions _).before _
  · exact .refl _

theorem parenthesized_succ (ih : AllMore n m) :
    Below (parenthesizedWithin (n + 1)) (parenthesizedWithin (m + 1)) := by
  rw [parenthesizedWithin.eq_def, parenthesizedWithin.eq_def (m + 1)]
  dsimp only
  refine .after _ fun closed => ?_
  split
  · exact .refl _
  · refine ih.expression.bind fun first => .after _ fun closed => ?_
    split
    · exact .refl _
    · exact .after _ fun _ => (ih.expressions _).before _

theorem expressions_succ (ih : AllMore n m) (closing : Char) :
    Below (expressionsWithin closing (n + 1)) (expressionsWithin closing (m + 1)) := by
  rw [expressionsWithin.eq_def, expressionsWithin.eq_def closing (m + 1)]
  dsimp only
  refine .after _ fun closed => ?_
  split
  · exact .refl _
  · refine ih.expression.bind fun item => .after _ fun more => ?_
    split
    · exact (ih.expressions _).before _
    · exact .refl _

theorem block_succ (ih : AllMore n m) : Below (blockWithin (n + 1)) (blockWithin (m + 1)) := by
  rw [blockWithin.eq_def, blockWithin.eq_def (m + 1)]
  dsimp only
  exact .after _ fun _ => .after _ fun _ => (ih.statements _).before _

end AllMore

/-- **More fuel changes nothing** for any reader of the grammar that does not run out of it. -/
theorem allMore {n m : Nat} (h : n ≤ m) : AllMore n m := by
  induction n generalizing m with
  | zero => exact .zero m
  | succ n ih =>
    obtain ⟨m, rfl⟩ := Nat.exists_eq_succ_of_ne_zero (Nat.ne_of_gt (Nat.zero_lt_of_lt h))
    have ih := ih (Nat.le_of_succ_le_succ h)
    exact ⟨ih.statements_succ, ih.statement_succ, ih.expression_succ, ih.name_succ,
      ih.parenthesized_succ, ih.expressions_succ, ih.block_succ⟩

end Parse

end BraceScript
