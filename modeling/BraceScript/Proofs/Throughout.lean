import BraceScript.Proofs.Grammar
import BraceScript.Proofs.Moments

/-!
# Properties of all reading

A property of computations on parsers is *compositional* if it holds of the elementary parts of the
grammar, and of one computation after another when it holds of the first one and, where that
succeeds, of the second one (`Parse.Compositional`).  A compositional property holds of every reader
of the grammar on every parser, whether the reader succeeds or fails (`Parse.Compositional.all`).
The induction on the fuel, with one case for each form of the grammar, is made here once.

Most of the elementary parts neither move nor edit the text; what they leave as it is, in success
and in error, is shown first (`Parse.Still`).  A property that follows from it has few parts left
to be shown (`Parse.Compositional.of_still`).
-/

namespace BraceScript

open Lexeme (IsWord)
open Reader (accept expect word peek peekWord advance quoted)

/-! ### Parts that neither move nor edit -/

namespace Parser

variable {p q r : Parser}

/-- The finalizers insert closing parentheses only, and the packages of the scopes are names. -/
structure Tidy (p : Parser) : Prop where
  finalizers : ∀ f ∈ p.finalizers, f.Plain
  scopes : ∀ scope ∈ p.scopes, IsWord scope.package.toList
  root : IsWord p.root.toList

theorem Tidy.currentPackage (h : p.Tidy) : IsWord p.currentPackage.toList := by
  rw [Parser.currentPackage]
  split
  · next scope scopes heq => exact h.scopes scope (by rw [heq]; exact List.mem_cons_self)
  · exact h.root

/-- Something was done, but the text and the position are the same. -/
structure Rests (p q : Parser) : Prop where
  buffer : q.buffer = p.buffer
  pos : q.pos = p.pos
  journal : p.journal <:+ q.journal
  tidy : p.Tidy → q.Tidy

theorem Rests.refl (p : Parser) : p.Rests p := ⟨rfl, rfl, List.suffix_rfl, id⟩

theorem Rests.trans (h : p.Rests q) (h' : q.Rests r) : p.Rests r :=
  ⟨h'.buffer.trans h.buffer, h'.pos.trans h.pos, h.journal.trans h'.journal,
    fun hp => h'.tidy (h.tidy hp)⟩

end Parser

/-- A refusal names no place. -/
theorem Error.place?_ofRefusal (refusal : Options.Refusal) :
    (Error.ofRefusal refusal).place? = none := by
  cases refusal <;> rfl

namespace Parse

variable {α β : Type} {x : Parse α} {f : α → Parse β} {p : Parser}

/-- The computation neither moves nor edits the text, in success and in error, and its errors name
no place. -/
structure Still (x : Parse α) (p : Parser) : Prop where
  rests : p.Rests (Run.final (x p))
  error : ∀ {e : Error} {q : Parser}, x p = .error e q → e.place? = none

theorem Still.bind_of_ok (hx : Still x p) (hf : ∀ a q, x p = .ok a q → Still (f a) q) :
    Still (x >>= f) p where
  rests := by
    have hrests := hx.rests
    cases h : x p with
    | ok a q =>
      rw [h] at hrests
      rw [Run.final_bind_of_ok h]
      exact hrests.trans (hf a q h).rests
    | error e q =>
      rw [h] at hrests
      rwa [Run.final_bind_of_error h]
  error h := by
    rcases Run.bind_eq_error.1 h with h | ⟨a, q, ha, h⟩
    · exact hx.error h
    · exact (hf a q ha).error h

theorem Still.bind (hx : Still x p) (hf : ∀ a q, Still (f a) q) : Still (x >>= f) p :=
  hx.bind_of_ok fun a q _ => hf a q

theorem still_pure (a : α) (p : Parser) : Still (pure a : Parse α) p :=
  ⟨.refl p, fun h => absurd h Run.pure_eq_error⟩

theorem still_throw {e : Error} (he : e.place? = none) (p : Parser) :
    Still (throw e : Parse α) p :=
  ⟨.refl p, fun h => (Run.throw_eq_error.1 h).1 ▸ he⟩

theorem still_get (p : Parser) : Still (get : Parse Parser) p := ⟨.refl p, fun h => nomatch h⟩

/-- A change of the parser that cannot fail. -/
theorem still_modify {g : Parser → Parser} (h : p.Rests (g p)) : Still (modify g : Parse PUnit) p :=
  ⟨h, fun h => nomatch h⟩

theorem still_set {q : Parser} (h : p.Rests q) : Still (set q : Parse PUnit) p :=
  ⟨h, fun h => nomatch h⟩

theorem still_note (event : Parser → Event) (p : Parser) :
    Still (modify fun p => p.note (event p)) p :=
  still_modify ⟨rfl, rfl, List.suffix_cons _ _, fun h => { h with }⟩

theorem still_modifyNamespaces (f : Namespaces → Namespaces) (p : Parser) :
    Still (modifyNamespaces f) p :=
  still_modify ⟨rfl, rfl, List.suffix_rfl, fun h => { h with }⟩

theorem still_openScope (p : Parser) : Still openScope p :=
  still_modify ⟨rfl, rfl, List.suffix_cons _ _, fun h =>
    { h with scopes := List.forall_mem_cons.2 ⟨h.currentPackage, h.scopes⟩ }⟩

theorem still_onScopeEnd (hook : ScopeHook) (p : Parser) : Still (onScopeEnd hook) p := by
  refine (still_get p).bind_of_ok fun q r h => ?_
  obtain ⟨rfl, rfl⟩ := Run.get_eq_ok.1 h
  cases hscopes : p.scopes with
  | nil => exact still_throw rfl p
  | cons scope scopes =>
    refine still_set ⟨rfl, rfl, List.suffix_cons _ _, fun h => { h with scopes := ?_ }⟩
    have hp := h.scopes
    rw [hscopes, List.forall_mem_cons] at hp
    exact List.forall_mem_cons.2 hp

theorem still_enterPackage {name : String} (hname : IsWord name.toList) (p : Parser) :
    Still (enterPackage name) p := by
  refine (still_get p).bind_of_ok fun q r h => ?_
  obtain ⟨rfl, rfl⟩ := Run.get_eq_ok.1 h
  cases hscopes : p.scopes with
  | nil => exact still_throw rfl p
  | cons scope scopes =>
    refine still_set ⟨rfl, rfl, List.suffix_rfl, fun h => { h with scopes := ?_ }⟩
    have hp := h.scopes
    rw [hscopes, List.forall_mem_cons] at hp
    exact List.forall_mem_cons.2 ⟨hname, hp.2⟩

/-- The innermost scope is taken off, before its hooks are run. -/
theorem still_closed {scope : Scope} {scopes : List Scope} (hscopes : p.scopes = scope :: scopes) :
    Still (set ({ p with scopes }.note .closed) : Parse PUnit) p := by
  refine still_set ⟨rfl, rfl, List.suffix_cons _ _, fun h => { h with scopes := ?_ }⟩
  have hp := h.scopes
  rw [hscopes, List.forall_mem_cons] at hp
  exact hp.2

theorem still_modifyFinalizer (index : Nat) {f : Finalizer → Finalizer}
    (hf : ∀ g : Finalizer, g.Plain → (f g).Plain) (p : Parser) :
    Still (modifyFinalizer index f) p :=
  still_modify ⟨rfl, rfl, List.suffix_rfl, fun h =>
    { h with finalizers := forall_mem_modify h.finalizers hf }⟩

theorem still_arm (index : Nat) (p : Parser) : Still (arm index) p := by
  refine (still_get p).bind fun q r => ?_
  split
  · exact still_pure _ r
  · split
    · exact still_pure _ r
    · have harmed (g : Finalizer) (h : g.Plain) : { g with armed := true }.Plain := h
      exact (still_modifyFinalizer index harmed r).bind fun _ => still_onScopeEnd _

theorem still_closeAtScopeEnd (p : Parser) : Still closeAtScopeEnd p := by
  refine Still.bind ⟨⟨rfl, rfl, List.suffix_rfl, fun h => { h with finalizers := ?_ }⟩,
    fun h => nomatch h⟩ fun _ => still_arm _
  exact List.forall_mem_append.2 ⟨h.finalizers, List.forall_mem_singleton.2 ⟨rfl, rfl⟩⟩

/-! #### Installations -/

theorem still_provide (feature : Feature) (p : Parser) : Still (provide feature) p := by
  refine (still_get p).bind_of_ok fun q r h => ?_
  obtain ⟨rfl, rfl⟩ := Run.get_eq_ok.1 h
  cases p.features.provide feature with
  | ok features => exact still_set ⟨rfl, rfl, List.suffix_rfl, fun h => { h with }⟩
  | error cause => exact still_throw (Error.place?_ofRefusal _) p

theorem still_installKeyword (feature : BlockFeature) (target : String) (options : KeywordOptions)
    (p : Parser) : Still (installKeyword feature target options) p :=
  (still_provide _ p).bind fun _ q => (still_get q).bind fun _ r =>
    (still_modifyNamespaces _ r).bind fun _ => still_onScopeEnd _

/-! ### Compositional properties -/

/-- The property holds of the parts that reading is made of, and of one computation after another:
of the second one wherever the first one succeeds. -/
structure Compositional (V : (α : Type) → Parse α → Parser → Prop) : Prop where
  bind_of_ok {α β : Type} {x : Parse α} {f : α → Parse β} {p : Parser} (hx : V α x p)
    (hf : ∀ a q, x p = .ok a q → V β (f a) q) : V β (x >>= f) p
  pure {α : Type} (a : α) (p : Parser) : V α (pure a) p
  get (p : Parser) : V Parser get p
  throw {α : Type} {e : Error} (he : e.place? = none) (p : Parser) : V α (throw e) p
  failAt {α : Type} (offset : Nat) (fault : Fault) (p : Parser) : V α (failAt offset fault) p
  read {α : Type} {r : Reader α} (hr : Reader.Drops r) (p : Parser) : V α (read r) p
  declare (package : String) (p : Parser) : V Unit (modifyNamespaces fun ns => ns.declare package) p
  enterPackage {name : String} (hname : IsWord name.toList) (p : Parser) :
    V Unit (enterPackage name) p
  /-- A subroutine is installed and noted. -/
  define (package name : String) (body : List Node) (p : Parser) :
    V PUnit (do
      modifyNamespaces fun ns => ns.installFunction package name (.subroutine name package body)
      modify fun p => p.note (.defined package name)) p
  began (offset : Nat) (p : Parser) : V PUnit (modify fun p => p.note (.began offset)) p
  installKeyword (feature : BlockFeature) (target : String) (options : KeywordOptions)
    (p : Parser) : V Unit (installKeyword feature target options) p
  openScope (p : Parser) : V Unit openScope p
  closeAtScopeEnd (p : Parser) : V Unit closeAtScopeEnd p
  closeScope (p : Parser) : V Unit closeScope p
  /-- A live keyword is dispatched at the position. -/
  dispatch {keyword : Keyword} {declarator : String} {p : Parser}
    (hlive : p.namespaces.keyword? p.currentPackage declarator = some keyword) :
    V Unit (dispatch keyword p.pos declarator) p

namespace Compositional

variable {V : (α : Type) → Parse α → Parser → Prop} {closing : Option String} {fuel : Nat}

theorem bind (hV : Compositional V) (hx : V α x p) (hf : ∀ a q, V β (f a) q) : V β (x >>= f) p :=
  hV.bind_of_ok hx fun a q _ => hf a q

theorem forM (hV : Compositional V) {f : α → Parse PUnit} (hf : ∀ a p, V PUnit (f a) p)
    (as : List α) (p : Parser) : V PUnit (as.forM f) p := by
  induction as generalizing p with
  | nil => exact hV.pure _ p
  | cons a as ih => exact hV.bind (hf a p) fun _ => ih

theorem fail (hV : Compositional V) (fault : Fault) (p : Parser) : V α (fail fault) p :=
  hV.bind (hV.get p) fun _ => hV.failAt _ _

/-- What would follow a failure does not matter. -/
theorem fail_bind (hV : Compositional V) (fault : Fault) {f : α → Parse β} (p : Parser) :
    V β (Parse.fail fault >>= f) p :=
  hV.bind_of_ok (hV.fail fault p) fun _ _ h => absurd h fail_eq_ok

theorem orMisconfigured (hV : Compositional V) (x : Except Misconfiguration α) (p : Parser) :
    V α (orMisconfigured x) p := by
  cases x with
  | ok a => exact hV.pure a p
  | error cause => exact hV.throw (Error.place?_ofRefusal _) p

/-- What holds of everything that neither moves nor edits is compositional, if it holds of what
fails at an offset, reads, fires a finalizer or dispatches a keyword. -/
theorem of_still
    (hbind : ∀ {α β : Type} {x : Parse α} {f : α → Parse β} {p : Parser}, V α x p →
      (∀ a q, x p = .ok a q → V β (f a) q) → V β (x >>= f) p)
    (hstill : ∀ {α : Type} {x : Parse α} {p : Parser}, Still x p → V α x p)
    (hfailAt : ∀ {α : Type} (offset : Nat) (fault : Fault) (p : Parser),
      V α (Parse.failAt offset fault) p)
    (hread : ∀ {α : Type} {r : Reader α}, Reader.Drops r → ∀ p, V α (Parse.read r) p)
    (hfire : ∀ index p, V Unit (fire index) p)
    (hdispatch : ∀ keyword declarator p, V Unit (Parse.dispatch keyword p.pos declarator) p) :
    Compositional V where
  bind_of_ok := hbind
  pure a p := hstill (still_pure a p)
  get p := hstill (still_get p)
  throw he p := hstill (still_throw he p)
  failAt := hfailAt
  read := hread
  declare _ p := hstill (still_modifyNamespaces _ p)
  enterPackage hname p := hstill (still_enterPackage hname p)
  define _ _ _ p := hbind (hstill (still_modifyNamespaces _ p)) fun _ q _ => hstill (still_note _ q)
  began _ p := hstill (still_note _ p)
  installKeyword _ _ _ p := hstill (still_installKeyword _ _ _ p)
  openScope p := hstill (still_openScope p)
  closeAtScopeEnd p := hstill (still_closeAtScopeEnd p)
  closeScope p := by
    have hhook (hook : ScopeHook) (q : Parser) : V Unit (runHook hook) q := by
      refine hbind (hstill (still_note _ q)) fun _ r _ => ?_
      split
      · exact hfire _ r
      · exact hstill (still_modifyNamespaces _ r)
      · exact hstill (still_modifyNamespaces _ r)
    have hhooks (hooks : List ScopeHook) : ∀ q, V PUnit (hooks.forM runHook) q := by
      induction hooks with
      | nil => exact fun q => hstill (still_pure _ q)
      | cons hook hooks ih => exact fun q => hbind (hhook hook q) fun _ r _ => ih r
    refine hbind (hstill (still_get p)) fun q r h => ?_
    obtain ⟨rfl, rfl⟩ := Run.get_eq_ok.1 h
    cases hscopes : p.scopes with
    | nil => exact hstill (still_throw rfl p)
    | cons scope scopes =>
      exact hbind (hstill (still_closed hscopes)) fun _ q _ => hhooks scope.hooks q
  dispatch _ := hdispatch _ _ _

/-! #### Installations -/

theorem prepare (hV : Compositional V) (feature : BlockFeature) (options : Value) (p : Parser) :
    V _ (prepare feature options) p := by
  rw [Parse.prepare]
  split
  · exact hV.pure _ p
  · next refusal _ => exact hV.throw (Error.place?_ofRefusal refusal) p

theorem install (hV : Compositional V) (feature : Feature) (target : String) (options : Value)
    (p : Parser) : V Unit (install feature target options) p := by
  have hwithin (fuel : Nat) : ∀ (feature : Feature) (options : Value) (p : Parser),
      V Unit (installWithin fuel feature target options) p := by
    induction fuel with
    | zero => exact fun _ _ => hV.throw rfl
    | succ fuel ih =>
      intro feature options p
      cases feature with
      | block feature => exact hV.bind (hV.prepare _ _ p) fun _ => hV.installKeyword _ _ _
      | bare => exact hV.throw rfl p
      | dispatcher =>
        refine hV.bind (hV.orMisconfigured _ p) fun pairs => hV.forM (fun pair p => ?_) pairs
        exact hV.bind (hV.get p) fun _ q => hV.bind (hV.orMisconfigured _ q) fun feature =>
          ih feature _
  exact hwithin _ feature options p

/-! #### Statements without blocks -/

theorem packageStatement (hV : Compositional V) (p : Parser) : V Unit packageStatement p := by
  refine hV.bind_of_ok (hV.read (Reader.drops_word _) p) fun name q hname => ?_
  have hword : IsWord name.toList := IsWord.of_word? (read_word_eq_ok hname).1
  exact hV.bind (hV.declare _ q) fun _ => hV.enterPackage hword

theorem versionStatement (hV : Compositional V) (p : Parser) : V Node versionStatement p :=
  hV.bind (hV.read drops_versionLiteral p) fun _ q => hV.bind (hV.get q) fun _ => hV.pure _

theorem featureName (hV : Compositional V) (p : Parser) : V (String × Feature) featureName p := by
  refine hV.bind (hV.read Reader.drops_peek p) fun _ q => hV.bind (hV.get q) fun _ r =>
    hV.bind (hV.read (Reader.drops_word _) r) fun name s => hV.bind (hV.get s) fun _ t => ?_
  split
  · exact hV.failAt _ _ t
  · exact hV.pure _ t

theorem useStatement (hV : Compositional V) (p : Parser) : V Unit useStatement p :=
  hV.bind (hV.featureName p) fun _ q => hV.bind (hV.read drops_useArguments q) fun _ r =>
    hV.bind (hV.get r) fun _ => hV.install _ _ _

theorem beginStatement (hV : Compositional V) (offset : Nat) (p : Parser) :
    V Unit (beginStatement offset) p := by
  refine hV.bind (hV.read Reader.drops_peek p) fun _ q => hV.bind (hV.get q) fun _ r =>
    hV.bind (hV.read (Reader.drops_word _) r) fun _ s =>
    hV.bind (hV.read (Reader.drops_expect _) s) fun _ t =>
    hV.bind (hV.read (Reader.drops_word _) t) fun _ u => hV.bind (hV.get u) fun _ v => ?_
  split
  · exact hV.failAt _ _ v
  · exact hV.throw rfl v
  · exact hV.failAt _ _ v
  · split
    · exact hV.bind (hV.began _ v) fun _ => hV.closeAtScopeEnd
    · exact hV.failAt _ _ v

end Compositional

/-! ### The grammar -/

/-- The property holds of all readers of the grammar with so much fuel. -/
structure Throughout (V : (α : Type) → Parse α → Parser → Prop) (fuel : Nat) : Prop where
  statements : ∀ closing p, V _ (statementsWithin closing fuel) p
  statement : ∀ p, V _ (statementWithin fuel) p
  expression : ∀ p, V _ (expressionWithin fuel) p
  name : ∀ written p, V _ (nameWithin written fuel) p
  parenthesized : ∀ p, V _ (parenthesizedWithin fuel) p
  expressions : ∀ closing p, V _ (expressionsWithin closing fuel) p
  block : ∀ p, V _ (blockWithin fuel) p

namespace Compositional

variable {V : (α : Type) → Parse α → Parser → Prop} {closing : Option String} {fuel : Nat}

/-- Without fuel nothing is read. -/
theorem zero (hV : Compositional V) : Throughout V 0 where
  statements _ := by rw [statementsWithin]; exact hV.throw rfl
  statement := by rw [statementWithin]; exact hV.throw rfl
  expression := by rw [expressionWithin]; exact hV.throw rfl
  name _ := by rw [nameWithin]; exact hV.throw rfl
  parenthesized := by rw [parenthesizedWithin]; exact hV.throw rfl
  expressions _ := by rw [expressionsWithin]; exact hV.throw rfl
  block := by rw [blockWithin]; exact hV.throw rfl

theorem statements_succ (hV : Compositional V) (ih : Throughout V fuel) (closing : Option String)
    (p : Parser) : V _ (statementsWithin closing (fuel + 1)) p := by
  rw [statementsWithin.eq_def]
  dsimp only
  refine hV.bind (hV.read Reader.drops_peek p) fun next q => ?_
  cases next with
  | none =>
    cases closing with
    | none => exact hV.pure _ q
    | some closing => exact hV.fail _ q
  | some c =>
    dsimp only
    split
    · exact hV.pure _ q
    · split
      · exact hV.bind (hV.read (Reader.drops_advance _) q) fun _ => ih.statements closing
      · refine hV.bind (ih.statement q) fun node r =>
          hV.bind (hV.read Reader.drops_peek r) fun next s => ?_
        have hmore (s : Parser) :
            V _ (do return node.toList ++ (← statementsWithin closing fuel)) s :=
          hV.bind (ih.statements closing s) fun _ => hV.pure _
        cases next with
        | none => exact hmore s
        | some d =>
          dsimp only
          split
          · exact hV.bind (hV.read (Reader.drops_advance _) s) fun _ => hmore
          · split
            · exact hV.fail_bind _ s
            · exact hmore s

theorem statement_succ (hV : Compositional V) (ih : Throughout V fuel) (p : Parser) :
    V _ (statementWithin (fuel + 1)) p := by
  have hadvance (count : Nat) : ∀ q, V _ (Parse.read (advance count)) q :=
    hV.read (Reader.drops_advance count)
  rw [statementWithin.eq_def]
  dsimp only
  refine hV.bind (hV.read Reader.drops_peekWord p) fun found q => ?_
  split
  · exact hV.bind (hadvance 7 q) fun _ r => hV.bind (hV.packageStatement r) fun _ => hV.pure _
  · exact hV.bind (hadvance 7 q) fun _ r => hV.bind (hV.versionStatement r) fun _ => hV.pure _
  · exact hV.bind (hadvance 3 q) fun _ r => hV.bind (hV.useStatement r) fun _ => hV.pure _
  · exact hV.bind (hV.get q) fun _ r => hV.bind (hadvance 5 r) fun _ s =>
      hV.bind (hV.beginStatement _ s) fun _ => hV.pure _
  · refine hV.bind (hadvance 3 q) fun _ r => hV.bind (hV.read (Reader.drops_word _) r) fun _ s =>
      hV.bind (hV.get s) fun _ t => hV.bind (ih.block t) fun body u => ?_
    rw [← bind_assoc]
    exact hV.bind (hV.define _ _ body u) fun _ => hV.pure _
  · exact hV.bind (ih.expression q) fun _ => hV.pure _

/-- What an expression reads from a word on. -/
theorem word (hV : Compositional V) (ih : Throughout V fuel) (written : String) (p : Parser) :
    V _ (wordExpression written fuel) p := by
  have hadvance : ∀ q, V _ (Parse.read (advance written.length)) q :=
    hV.read (Reader.drops_advance _)
  have hname (q : Parser) :
      V _ (Parse.read (advance written.length) >>= fun _ => nameWithin written fuel) q :=
    hV.bind (hadvance q) fun _ => ih.name written
  rw [wordExpression]
  dsimp only
  split
  · exact hV.bind (hadvance p) fun _ q => hV.bind (ih.block q) fun _ => hV.pure _
  split
  · exact hV.fail_bind _ p
  cases Literal.constant? written with
  | some value => exact hV.bind (hadvance p) fun _ => hV.pure _
  | none =>
    dsimp only
    split
    · exact hV.bind (hadvance p) fun _ q => hV.bind (hV.get q) fun _ => hV.pure _
    -- the keyword is dispatched where the parser stands
    refine hV.bind_of_ok (hV.get p) fun q r h => ?_
    obtain ⟨rfl, rfl⟩ := Run.get_eq_ok.1 h
    split
    · split
      · next keyword hlive => exact hV.bind (hV.dispatch hlive) fun _ => hname
      · exact hname p
    · exact hname p

theorem expression_succ (hV : Compositional V) (ih : Throughout V fuel) (p : Parser) :
    V _ (expressionWithin (fuel + 1)) p := by
  have hadvance : ∀ q, V _ (Parse.read (advance 1)) q := hV.read (Reader.drops_advance 1)
  rw [expressionWithin.eq_def]
  dsimp only
  refine hV.bind (hV.read Reader.drops_peek p) fun next q => ?_
  split
  · exact hV.fail _ q
  · exact hV.bind (hV.read Reader.drops_quoted q) fun _ => hV.pure _
  · exact hV.bind (hadvance q) fun _ => ih.parenthesized
  · exact hV.bind (hadvance q) fun _ r => hV.bind (ih.expressions _ r) fun _ => hV.pure _
  · refine hV.bind (hV.get q) fun _ r => ?_
    split
    · exact hV.bind (hV.read Literal.drops_number r) fun _ => hV.pure _
    · refine hV.bind (hV.read Reader.drops_peekWord r) fun found s => ?_
      cases found with
      | none => exact hV.fail _ s
      | some written => exact hV.word ih written s

theorem name_succ (hV : Compositional V) (ih : Throughout V fuel) (written : String) (p : Parser) :
    V _ (nameWithin written (fuel + 1)) p := by
  rw [nameWithin.eq_def]
  dsimp only
  refine hV.bind (hV.get p) fun _ q =>
    hV.bind (hV.read (Reader.drops_accept _) q) fun opened r => ?_
  split
  · exact hV.bind (ih.expressions _ r) fun _ s => hV.bind (hV.get s) fun _ => hV.pure _
  · split
    · exact hV.bind (hV.get r) fun _ => hV.pure _
    · exact hV.pure _ r

theorem parenthesized_succ (hV : Compositional V) (ih : Throughout V fuel) (p : Parser) :
    V _ (parenthesizedWithin (fuel + 1)) p := by
  rw [parenthesizedWithin.eq_def]
  dsimp only
  refine hV.bind (hV.read (Reader.drops_accept _) p) fun closed q => ?_
  split
  · exact hV.pure _ q
  · refine hV.bind (ih.expression q) fun first r =>
      hV.bind (hV.read (Reader.drops_accept _) r) fun closed s => ?_
    split
    · exact hV.pure _ s
    · exact hV.bind (hV.read (Reader.drops_expect _) s) fun _ t =>
        hV.bind (ih.expressions _ t) fun _ => hV.pure _

theorem expressions_succ (hV : Compositional V) (ih : Throughout V fuel) (closing : Char)
    (p : Parser) : V _ (expressionsWithin closing (fuel + 1)) p := by
  rw [expressionsWithin.eq_def]
  dsimp only
  refine hV.bind (hV.read (Reader.drops_accept _) p) fun closed q => ?_
  split
  · exact hV.pure _ q
  · refine hV.bind (ih.expression q) fun item r =>
      hV.bind (hV.read (Reader.drops_accept _) r) fun more s => ?_
    split
    · exact hV.bind (ih.expressions _ s) fun _ => hV.pure _
    · exact hV.bind (hV.read (Reader.drops_expect _) s) fun _ => hV.pure _

theorem block_succ (hV : Compositional V) (ih : Throughout V fuel) (p : Parser) :
    V _ (blockWithin (fuel + 1)) p := by
  rw [blockWithin.eq_def]
  dsimp only
  exact hV.bind (hV.read (Reader.drops_expect _) p) fun _ q => hV.bind (hV.openScope q) fun _ r =>
    hV.bind (ih.statements _ r) fun _ s => hV.bind (hV.read (Reader.drops_expect _) s) fun _ t =>
    hV.bind (hV.closeScope t) fun _ => hV.pure _

/-- **A compositional property holds of all that is read**, with any fuel, in success and in
failure. -/
theorem all (hV : Compositional V) (fuel : Nat) : Throughout V fuel := by
  induction fuel with
  | zero => exact hV.zero
  | succ fuel ih =>
    exact ⟨hV.statements_succ ih, hV.statement_succ ih, hV.expression_succ ih, hV.name_succ ih,
      hV.parenthesized_succ ih, hV.expressions_succ ih, hV.block_succ ih⟩

end Compositional

end Parse

end BraceScript
