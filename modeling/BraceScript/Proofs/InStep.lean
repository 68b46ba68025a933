import BraceScript.Proofs.Grammar
import BraceScript.Proofs.Shift

/-!
# Reading depends on the unread text alone

Two parsers stand in step when they differ only in what was read before: the text of one is the
text of the other behind some more characters, and its position is as much further on
(`Parser.Shifted`).  From such parsers every reader of the grammar ends alike
(`Parse.allInStep`): with the same result and again in step, or both times in an error.

The same statement says what fuel does: a reader with less fuel ends as with more, or it runs out
of it, which `cut` allows.
-/

namespace BraceScript

open Run (Related Alike Both related_pure related_throw related_get related_set related_modify
  related_forM)

/-! ### Parsers in step -/

/-- The second parser has the text `before` in front, and its position is `distance` further on;
all else that decides how it reads is the same.  A finalizer that takes out a negative number of
characters, and so repeats text, is not among those that wait: it may reach back into what stands
in front. -/
structure Parser.Shifted (before : List Char) (distance : Nat) (p p' : Parser) : Prop where
  text : p'.buffer.text = before ++ p.buffer.text
  pos : p'.pos = distance + p.pos
  namespaces : p'.namespaces = p.namespaces
  features : p'.features = p.features
  scopes : p'.scopes = p.scopes
  root : p'.root = p.root
  finalizers : p'.finalizers = p.finalizers
  drops : ∀ finalizer ∈ p.finalizers, 0 ≤ finalizer.drop

namespace Parser.Shifted

variable {before : List Char} {distance : Nat} {p p' : Parser}

theorem currentPackage (h : Shifted before distance p p') :
    p'.currentPackage = p.currentPackage := by
  rw [Parser.currentPackage, Parser.currentPackage, h.scopes, h.root]

theorem unread (h : Shifted before before.length p p') : p'.unread = p.unread := by
  rw [Parser.unread, Parser.unread, h.text, h.pos, List.drop_append, List.drop_of_length_le
    (Nat.le_add_right _ _), Nat.add_sub_cancel_left, List.nil_append]

theorem cursor (h : Shifted before before.length p p') :
    Cursor.Shifted before ⟨p.buffer, p.pos⟩ ⟨p'.buffer, p'.pos⟩ := ⟨h.text, h.pos⟩

end Parser.Shifted

namespace Parse

variable {α : Type} {before : List Char} {distance : Nat} {cut : Prop}

/-- From such parsers, both computations end alike, as far apart as before.  Computations that read
need the distance to be the length of the text in front, others do not. -/
abbrev InStep (before : List Char) (distance : Nat) (cut : Prop) (x y : Parse α) : Prop :=
  Related Eq (Parser.Shifted before distance) cut x y

theorem inStep_pure (a : α) : InStep before distance cut (pure a) (pure a) := related_pure rfl

theorem inStep_throw (e : Error) :
    InStep before distance cut (throw e : Parse α) (throw e) := related_throw e e

/-- Failures have no results, so these may be related in any way. -/
theorem related_failAt {Q : α → α → Prop} (offset offset' : Nat) (fault : Fault) :
    Related Q (Parser.Shifted before distance) cut (failAt offset fault) (failAt offset' fault) :=
  related_get.bind fun _ _ _ => related_throw _ _

theorem related_fail {Q : α → α → Prop} (fault : Fault) :
    Related Q (Parser.Shifted before distance) cut (fail fault) (fail fault) :=
  related_get.bind fun _ _ _ => related_failAt _ _ _

/-- What would follow a failure does not matter. -/
theorem inStep_fail_bind {β : Type} (fault : Fault) {f g : α → Parse β} :
    InStep before distance cut (fail fault >>= f) (fail fault >>= g) := by
  have hfail : Related (fun _ _ : α => False) (Parser.Shifted before distance) cut
      (fail fault) (fail fault) := related_fail fault
  exact hfail.bind fun _ _ h => h.elim

theorem inStep_orMisconfigured (x : Except Misconfiguration α) :
    InStep before distance cut (orMisconfigured x) (orMisconfigured x) := by
  cases x with
  | ok a => exact inStep_pure a
  | error cause => exact inStep_throw _

theorem inStep_note (event event' : Event) :
    InStep before distance cut (modify fun p => p.note event) (modify fun p => p.note event') :=
  related_modify fun _ _ h => { h with }

theorem inStep_modifyNamespaces (f : Namespaces → Namespaces) :
    InStep before distance cut (modifyNamespaces f) (modifyNamespaces f) :=
  related_modify fun _ _ h => { h with namespaces := congrArg f h.namespaces }

/-! #### Scopes and keywords -/

theorem inStep_openScope : InStep before distance cut openScope openScope :=
  related_modify fun p p' h => { h with
    scopes := by
      change _ :: p'.scopes = _ :: p.scopes
      rw [h.scopes, h.currentPackage] }

theorem inStep_onScopeEnd (hook : ScopeHook) :
    InStep before distance cut (onScopeEnd hook) (onScopeEnd hook) := by
  refine related_get.bind fun p p' h => ?_
  rw [h.scopes]
  cases p.scopes with
  | nil => exact inStep_throw _
  | cons scope scopes => exact related_set { h with scopes := rfl }

theorem inStep_enterPackage (package : String) :
    InStep before distance cut (enterPackage package) (enterPackage package) := by
  refine related_get.bind fun p p' h => ?_
  rw [h.scopes]
  cases p.scopes with
  | nil => exact inStep_throw _
  | cons scope scopes => exact related_set { h with scopes := rfl }

theorem inStep_addFinalizer {finalizer : Finalizer} (hdrop : 0 ≤ finalizer.drop) :
    InStep before distance cut (addFinalizer finalizer) (addFinalizer finalizer) := by
  intro p p' h
  refine .ok (congrArg List.length h.finalizers).symm
    { h with finalizers := congrArg (· ++ [finalizer]) h.finalizers, drops := fun f hf => ?_ }
  rcases List.mem_append.1 hf with hf | hf
  · exact h.drops f hf
  · rw [List.mem_singleton.1 hf]
    exact hdrop

theorem inStep_modifyFinalizer (index : Nat) {f : Finalizer → Finalizer}
    (hdrop : ∀ finalizer, (f finalizer).drop = finalizer.drop) :
    InStep before distance cut (modifyFinalizer index f) (modifyFinalizer index f) := by
  refine related_modify fun p p' h =>
    { h with finalizers := congrArg (List.modify · index f) h.finalizers, drops := ?_ }
  intro finalizer hfinalizer
  obtain ⟨i, hi⟩ := List.mem_iff_getElem?.1 hfinalizer
  rw [List.getElem?_modify] at hi
  obtain ⟨earlier, hearlier, rfl⟩ := Option.map_eq_some_iff.1 hi
  have hmem := h.drops earlier (List.mem_of_getElem? hearlier)
  split
  · rwa [hdrop]
  · exact hmem

theorem inStep_arm (index : Nat) : InStep before distance cut (arm index) (arm index) := by
  refine related_get.bind fun p p' h => ?_
  rw [h.finalizers]
  split
  · exact inStep_pure _
  · split
    · exact inStep_pure _
    · exact Related.next (inStep_modifyFinalizer index (by intro _; rfl)) fun _ =>
        inStep_onScopeEnd _

theorem inStep_closeAtScopeEnd :
    InStep before distance cut closeAtScopeEnd closeAtScopeEnd :=
  (inStep_addFinalizer (Int.le_refl 0)).next fun index => inStep_arm index

theorem inStep_provide (feature : Feature) :
    InStep before distance cut (provide feature) (provide feature) := by
  refine related_get.bind fun p p' h => ?_
  rw [h.features]
  exact (inStep_orMisconfigured _).next fun features => related_set { h with features := rfl }

theorem inStep_installKeyword (feature : BlockFeature) (target : String)
    (options : KeywordOptions) :
    InStep before distance cut (installKeyword feature target options)
      (installKeyword feature target options) := by
  refine (inStep_provide _).next fun _ => related_get.bind fun p p' h => ?_
  rw [h.namespaces]
  exact (inStep_modifyNamespaces _).next fun _ => inStep_onScopeEnd _

theorem inStep_prepare (feature : BlockFeature) (options : Value) :
    InStep before distance cut (prepare feature options) (prepare feature options) := by
  rw [prepare]
  split
  · exact inStep_pure _
  · exact inStep_throw _

theorem inStep_installWithin (fuel : Nat) (feature : Feature) (target : String)
    (options : Value) :
    InStep before distance cut (installWithin fuel feature target options)
      (installWithin fuel feature target options) := by
  induction fuel generalizing feature options with
  | zero => exact inStep_throw _
  | succ fuel ih =>
    cases feature with
    | block feature =>
      exact (inStep_prepare _ _).next fun _ => inStep_installKeyword _ _ _
    | bare => exact inStep_throw _
    | dispatcher =>
      refine (inStep_orMisconfigured _).next fun pairs => related_forM (fun pair => ?_) pairs
      refine related_get.bind fun p p' h => ?_
      rw [h.features]
      exact (inStep_orMisconfigured _).next fun feature => ih feature _

/-! #### Reading and editing -/

theorem inStep_read (r : Reader α) : InStep before before.length cut (read r) (read r) := by
  intro p p' h
  simp only [read, h.unread]
  cases r p.unread with
  | ok a rest => exact .ok rfl { h with pos := by rw [h.pos, Nat.add_assoc] }
  | error e rest => exact .error _ _ _ _

theorem inStep_editHere {f : Cursor → Except OutsideBuffer Cursor}
    (hf : ∀ {c c' : Cursor}, Cursor.Shifted before c c' →
      Both (Cursor.Shifted before) (f c) (f c')) :
    InStep before before.length cut (editHere f) (editHere f) := by
  refine related_get.bind fun p p' h => ?_
  have hedit := hf h.cursor
  generalize f ⟨p.buffer, p.pos⟩ = r, f ⟨p'.buffer, p'.pos⟩ = r' at hedit
  cases hedit with
  | ok hd => exact related_set { h with text := hd.text }
  | error cause cause' => exact related_throw _ _

theorem inStep_fire (index : Nat) : InStep before before.length cut (fire index) (fire index) := by
  refine related_get.bind fun p p' h => ?_
  rw [h.finalizers]
  split
  · exact inStep_pure _
  · next finalizer hfinalizer =>
    have hdrop := h.drops finalizer (List.mem_of_getElem? hfinalizer)
    have hclosing : InStep before before.length cut (editHere fun c => c.inject finalizer.closing)
        (editHere fun c => c.inject finalizer.closing) :=
      inStep_editHere fun hc => hc.inject _ (Int.le_refl 0)
    split
    · exact inStep_pure _
    · refine Related.next (inStep_modifyFinalizer index (by intro _; rfl)) fun _ => ?_
      split
      · exact (inStep_editHere fun hc => (hc.strip hdrop).bind fun _ _ hd => .ok hd.2).next
          fun _ => hclosing
      · exact hclosing

theorem inStep_runHook (hook : ScopeHook) :
    InStep before before.length cut (runHook hook) (runHook hook) := by
  refine (related_modify fun _ _ h => { h with }).next fun _ => ?_
  split
  · exact inStep_fire _
  · exact inStep_modifyNamespaces _
  · exact inStep_modifyNamespaces _

theorem inStep_closeScope : InStep before before.length cut closeScope closeScope := by
  refine related_get.bind fun p p' h => ?_
  rw [h.scopes]
  cases p.scopes with
  | nil => exact inStep_throw _
  | cons scope scopes =>
    exact (related_set { h with scopes := rfl }).next fun _ => related_forM inStep_runHook _

/-- A keyword is dispatched at offsets that are as far apart as the parsers. -/
theorem inStep_dispatch (keyword : Keyword) {offset offset' : Nat}
    (h : offset' = before.length + offset) (declarator : String) :
    InStep before before.length cut (dispatch keyword offset declarator)
      (dispatch keyword offset' declarator) := by
  cases keyword with
  | idle => exact inStep_pure _
  | expand feature options =>
    have hexpand : Related (fun _ _ => True) (Parser.Shifted before before.length) cut
        (expandAt feature options offset declarator)
        (expandAt feature options offset' declarator) := by
      intro p p' hp
      have hrelated : Related _ (Cursor.Shifted before) cut _ _ :=
        Declaration.related_expand feature options p.currentPackage declarator
      have hexpansion := hrelated ⟨p.buffer, offset⟩ ⟨p'.buffer, offset'⟩ ⟨hp.text, h⟩
      unfold expandAt
      rw [hp.currentPackage]
      generalize Declaration.expand feature options p.currentPackage declarator
        ⟨p.buffer, offset⟩ = r, Declaration.expand feature options p.currentPackage declarator
        ⟨p'.buffer, offset'⟩ = r' at hexpansion
      cases hexpansion with
      | ok _ hc => exact .ok trivial { hp with text := hc.text }
      | error e e' c c' => exact .error _ _ _ _
      | cut c result hcut => exact .cut _ _ hcut
    refine related_get.bind fun p p' hp => hexpand.bind fun _ _ _ => inStep_note _ _

/-! #### Statements -/

theorem inStep_packageStatement :
    InStep before before.length cut packageStatement packageStatement :=
  (inStep_read _).next fun _ => (inStep_modifyNamespaces _).next fun _ => inStep_enterPackage _

theorem inStep_versionStatement :
    InStep before before.length cut versionStatement versionStatement := by
  refine (inStep_read _).next fun literal => related_get.bind fun p p' h => ?_
  rw [h.currentPackage]
  exact inStep_pure _

theorem inStep_featureName : InStep before before.length cut featureName featureName := by
  refine (inStep_read _).next fun _ => related_get.bind fun _ _ _ => (inStep_read _).next
    fun name => related_get.bind fun p p' h => ?_
  rw [h.features]
  split
  · exact related_failAt _ _ _
  · exact inStep_pure _

theorem inStep_useStatement : InStep before before.length cut useStatement useStatement := by
  refine inStep_featureName.next fun found => (inStep_read _).next fun options =>
    related_get.bind fun p p' h => ?_
  rw [h.currentPackage]
  exact inStep_installWithin _ _ _ _

theorem inStep_beginStatement (offset offset' : Nat) :
    InStep before before.length cut (beginStatement offset) (beginStatement offset') := by
  refine (inStep_read _).next fun _ => related_get.bind fun _ _ _ => (inStep_read _).next
    fun _ => (inStep_read _).next fun _ => (inStep_read _).next fun _ =>
    related_get.bind fun p p' h => ?_
  rw [h.features]
  split
  · exact related_failAt _ _ _
  · exact inStep_throw _
  · exact related_failAt _ _ _
  · split
    · exact (inStep_note _ _).next fun _ => inStep_closeAtScopeEnd
    · exact related_failAt _ _ _

/-! #### The grammar -/

/-- From parsers in step, all readers of the grammar with these fuels end alike and in step. -/
structure AllInStep (before : List Char) (cut : Prop) (n m : Nat) : Prop where
  statements : ∀ closing, InStep before before.length cut (statementsWithin closing n)
    (statementsWithin closing m)
  statement : InStep before before.length cut (statementWithin n) (statementWithin m)
  expression : InStep before before.length cut (expressionWithin n) (expressionWithin m)
  name : ∀ written, InStep before before.length cut (nameWithin written n) (nameWithin written m)
  parenthesized : InStep before before.length cut (parenthesizedWithin n) (parenthesizedWithin m)
  expressions : ∀ closing, InStep before before.length cut (expressionsWithin closing n)
    (expressionsWithin closing m)
  block : InStep before before.length cut (blockWithin n) (blockWithin m)

namespace AllInStep

variable {n m : Nat}

/-- Without fuel, both runs end in an error, or the first one is cut short. -/
theorem zero (h : 0 = m ∨ cut) : AllInStep before cut 0 m := by
  have hexhausted {α : Type} {x y : Parse α} (hx : x = throw .exhausted)
      (hy : m = 0 → y = throw .exhausted) : InStep before before.length cut x y := by
    rcases h with hm | hcut
    · rw [hx, hy hm.symm]
      exact inStep_throw _
    · rw [hx]
      exact fun p p' _ => .cut p _ hcut
  exact {
    statements := fun _ => hexhausted (by rw [statementsWithin])
      (by rintro rfl; rw [statementsWithin])
    statement := hexhausted (by rw [statementWithin]) (by rintro rfl; rw [statementWithin])
    expression := hexhausted (by rw [expressionWithin]) (by rintro rfl; rw [expressionWithin])
    name := fun _ => hexhausted (by rw [nameWithin]) (by rintro rfl; rw [nameWithin])
    parenthesized := hexhausted (by rw [parenthesizedWithin])
      (by rintro rfl; rw [parenthesizedWithin])
    expressions := fun _ => hexhausted (by rw [expressionsWithin])
      (by rintro rfl; rw [expressionsWithin])
    block := hexhausted (by rw [blockWithin]) (by rintro rfl; rw [blockWithin]) }

theorem statements_succ (ih : AllInStep before cut n m) (closing : Option String) :
    InStep before before.length cut (statementsWithin closing (n + 1))
      (statementsWithin closing (m + 1)) := by
  rw [statementsWithin.eq_def, statementsWithin.eq_def closing (m + 1)]
  dsimp only
  refine (inStep_read _).next fun next => ?_
  cases next with
  | none =>
    cases closing with
    | none => exact inStep_pure _
    | some closing => exact related_fail _
  | some c =>
    dsimp only
    split
    · exact inStep_pure _
    · split
      · exact (inStep_read _).next fun _ => ih.statements closing
      · refine ih.statement.next fun node => (inStep_read _).next fun next => ?_
        have hmore : InStep before before.length cut
            (do return node.toList ++ (← statementsWithin closing n))
            (do return node.toList ++ (← statementsWithin closing m)) :=
          (ih.statements closing).next fun _ => inStep_pure _
        cases next with
        | none => exact hmore
        | some d =>
          dsimp only
          split
          · exact (inStep_read _).next fun _ => hmore
          · split
            · exact inStep_fail_bind _
            · exact hmore

theorem statement_succ (ih : AllInStep before cut n m) :
    InStep before before.length cut (statementWithin (n + 1)) (statementWithin (m + 1)) := by
  rw [statementWithin.eq_def, statementWithin.eq_def (m + 1)]
  dsimp only
  refine (inStep_read _).next fun word => ?_
  split
  · exact (inStep_read _).next fun _ => inStep_packageStatement.next fun _ => inStep_pure _
  · exact (inStep_read _).next fun _ => inStep_versionStatement.next fun _ => inStep_pure _
  · exact (inStep_read _).next fun _ => inStep_useStatement.next fun _ => inStep_pure _
  · exact related_get.bind fun _ _ _ => (inStep_read _).next fun _ =>
      (inStep_beginStatement _ _).next fun _ => inStep_pure _
  · refine (inStep_read _).next fun _ => (inStep_read _).next fun name =>
      related_get.bind fun p p' h => ?_
    rw [h.currentPackage]
    exact ih.block.next fun _ => (inStep_modifyNamespaces _).next fun _ =>
      (inStep_note _ _).next fun _ => inStep_pure _
  · exact ih.expression.next fun _ => inStep_pure _

theorem word (ih : AllInStep before cut n m) (written : String) :
    InStep before before.length cut (wordExpression written n) (wordExpression written m) := by
  have hname : InStep before before.length cut
      (read (Reader.advance written.length) >>= fun _ => nameWithin written n)
      (read (Reader.advance written.length) >>= fun _ => nameWithin written m) :=
    (inStep_read _).next fun _ => ih.name written
  rw [wordExpression, wordExpression]
  dsimp only
  split
  · exact (inStep_read _).next fun _ => ih.block.next fun _ => inStep_pure _
  split
  · exact inStep_fail_bind _
  cases Literal.constant? written with
  | some value => exact (inStep_read _).next fun _ => inStep_pure _
  | none =>
    dsimp only
    split
    · refine (inStep_read _).next fun _ => related_get.bind fun p p' h => ?_
      rw [h.currentPackage]
      exact inStep_pure _
    refine related_get.bind fun p p' h => ?_
    rw [h.namespaces, h.currentPackage]
    split
    · cases p.namespaces.keyword? p.currentPackage written with
      | none => exact hname
      | some keyword => exact (inStep_dispatch keyword h.pos written).next fun _ => hname
    · exact hname

theorem expression_succ (ih : AllInStep before cut n m) :
    InStep before before.length cut (expressionWithin (n + 1)) (expressionWithin (m + 1)) := by
  rw [expressionWithin.eq_def, expressionWithin.eq_def (m + 1)]
  dsimp only
  refine (inStep_read _).next fun next => ?_
  split
  · exact related_fail _
  · exact (inStep_read _).next fun _ => inStep_pure _
  · exact (inStep_read _).next fun _ => ih.parenthesized
  · exact (inStep_read _).next fun _ => (ih.expressions _).next fun _ => inStep_pure _
  · refine related_get.bind fun p p' h => ?_
    rw [h.unread]
    split
    · exact (inStep_read _).next fun _ => inStep_pure _
    · refine (inStep_read _).next fun found => ?_
      cases found with
      | none => exact related_fail _
      | some written => exact ih.word written

theorem name_succ (ih : AllInStep before cut n m) (written : String) :
    InStep before before.length cut (nameWithin written (n + 1)) (nameWithin written (m + 1)) := by
  rw [nameWithin.eq_def, nameWithin.eq_def written (m + 1)]
  dsimp only
  refine related_get.bind fun p p' h => ?_
  rw [h.namespaces, h.currentPackage]
  have hcall (arguments : List Node) (target : Option Function) :
      InStep before before.length cut
        (do return Node.call written (← get).currentPackage arguments target)
        (do return Node.call written (← get).currentPackage arguments target) := by
    refine related_get.bind fun p p' h => ?_
    rw [h.currentPackage]
    exact inStep_pure _
  refine (inStep_read _).next fun opened => ?_
  split
  · exact (ih.expressions _).next fun _ => hcall _ _
  · split
    · exact hcall _ _
    · exact inStep_pure _

theorem parenthesized_succ (ih : AllInStep before cut n m) :
    InStep before before.length cut (parenthesizedWithin (n + 1))
      (parenthesizedWithin (m + 1)) := by
  rw [parenthesizedWithin.eq_def, parenthesizedWithin.eq_def (m + 1)]
  dsimp only
  refine (inStep_read _).next fun closed => ?_
  split
  · exact inStep_pure _
  · refine ih.expression.next fun first => (inStep_read _).next fun closed => ?_
    split
    · exact inStep_pure _
    · exact (inStep_read _).next fun _ => (ih.expressions _).next fun _ => inStep_pure _

theorem expressions_succ (ih : AllInStep before cut n m) (closing : Char) :
    InStep before before.length cut (expressionsWithin closing (n + 1))
      (expressionsWithin closing (m + 1)) := by
  rw [expressionsWithin.eq_def, expressionsWithin.eq_def closing (m + 1)]
  dsimp only
  refine (inStep_read _).next fun closed => ?_
  split
  · exact inStep_pure _
  · refine ih.expression.next fun item => (inStep_read _).next fun more => ?_
    split
    · exact (ih.expressions _).next fun _ => inStep_pure _
    · exact (inStep_read _).next fun _ => inStep_pure _

theorem block_succ (ih : AllInStep before cut n m) :
    InStep before before.length cut (blockWithin (n + 1)) (blockWithin (m + 1)) := by
  rw [blockWithin.eq_def, blockWithin.eq_def (m + 1)]
  dsimp only
  exact (inStep_read _).next fun _ => inStep_openScope.next fun _ => (ih.statements _).next
    fun _ => (inStep_read _).next fun _ => inStep_closeScope.next fun _ => inStep_pure _

end AllInStep

/-- With the same fuel all readers end alike.  With less fuel they end alike or are cut short. -/
theorem allInStep {n m : Nat} (h : n = m ∨ cut ∧ n ≤ m) : AllInStep before cut n m := by
  induction n generalizing m with
  | zero => exact .zero (h.imp_right And.left)
  | succ n ih =>
    cases m with
    | zero => rcases h with h | ⟨-, h⟩ <;> omega
    | succ m =>
      have ih : AllInStep before cut n m :=
        ih (h.imp Nat.succ.inj (And.imp_right Nat.le_of_succ_le_succ))
      exact ⟨ih.statements_succ, ih.statement_succ, ih.expression_succ, ih.name_succ,
        ih.parenthesized_succ, ih.expressions_succ, ih.block_succ⟩

end Parse

end BraceScript
