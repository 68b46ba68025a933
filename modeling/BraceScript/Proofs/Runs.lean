import BraceScript.Proofs.Scopes

/-!
# Runs of a parser

`Runs events hooks p p'` says that the parser `p` can become `p'` by the steps that reading a
script is made of.  `events` is what the run adds to the journal, latest first, and `hooks` is
what it adds to the innermost scope; a scope that the run opens is closed again in it.  A
declaration is one step of a run when it is written in full (`Runs.declared`): its keyword is
expanded, the injected statements and the body of the block are read, and the block is closed.

Every successful call of the grammar is a run, so an induction over runs proves what holds of
every parse.  `Runs.frame` is the first of them: what a run leaves alone.
-/

namespace BraceScript

open Lexeme (IsWord significant)
open Parse

/-! ### Events and sites -/

namespace Event

/-- The declaration that was expanded. -/
def site? : Event → Option Site
  | dispatched site => some site
  | _ => none

/-- The offset of the `begin` statement that was read. -/
def began? : Event → Option Nat
  | began offset => some offset
  | _ => none

/-- The position at which a finalizer was fired. -/
def finalized? : Event → Option Nat
  | ran (.finalize _) pos => some pos
  | _ => none

/-- The event is no declaration, no `begin` statement, and no end of one. -/
def Quiet (e : Event) : Prop := e.site? = none ∧ e.began? = none ∧ e.finalized? = none

end Event

theorem mem_filterMap_site? {events : List Event} {site : Site} :
    site ∈ events.filterMap Event.site? ↔ .dispatched site ∈ events := by
  rw [List.mem_filterMap]
  constructor
  · rintro ⟨event, hevent, hsite⟩
    cases event <;> cases hsite
    exact hevent
  · exact fun hsite => ⟨_, hsite, rfl⟩

theorem mem_filterMap_began? {events : List Event} {offset : Nat} :
    offset ∈ events.filterMap Event.began? ↔ .began offset ∈ events := by
  rw [List.mem_filterMap]
  constructor
  · rintro ⟨event, hevent, hbegan⟩
    cases event <;> cases hbegan
    exact hevent
  · exact fun hbegan => ⟨_, hbegan, rfl⟩

namespace Site

/-- The text that the expansion of a declaration writes behind the opening brace. -/
def injected (site : Site) : List Char :=
  site.feature.trigger.toList ++
    match Preamble.generate site.feature site.declaration.name site.declaration.version
      site.options with
    | .ok statements => (Preamble.render statements).toList
    | .error _ => []

end Site

namespace Parse

/-- A text that a statement starts with: no blank, no comment, and nothing that ends statements. -/
def StartsStatement (s : List Char) : Prop :=
  ∃ c tail, s = c :: tail ∧ Text.isBlank c = false ∧ c ≠ '#' ∧ c ≠ ';' ∧ c ≠ '\x7d'

/-- The text is a statement that does nothing while the script is read, whatever stands behind
it, but leave a node, which depends on the package alone. -/
structure MovesOver (s : List Char) (node : String → Option Node) : Prop where
  starts : StartsStatement s
  reads : ∀ {fuel : Nat} {p q : Parser} {rest : List Char} {found : Option Node},
    p.unread = s ++ ';' :: rest → statementWithin fuel p = .ok found q →
      found = node p.currentPackage ∧ q = p.move s.length

end Parse

/-- The feature has a word for a name, which statements can mention, and the statements that it
adds to the default ones do nothing while the script is read. -/
structure BlockFeature.Plain (feature : BlockFeature) : Prop where
  name : IsWord feature.name.toList
  extra : ∀ s ∈ feature.extra, ∃ node, MovesOver s.toList node

/-- Only the default statements are injected, and those of the feature. -/
structure Site.Plain (site : Site) : Prop where
  preamble : site.options.preamble = []
  feature : site.feature.Plain
  package : IsWord site.package.toList

/-! ### The steps -/

/-- The declaration at the position of a parser is expanded. -/
structure Expands (site : Site) (p p' : Parser) : Prop where
  offset : site.offset = p.pos
  word : Lexeme.word? p.unread = some site.word.toList
  package : site.package = p.currentPackage
  live : p.namespaces.keyword? p.currentPackage site.word =
    some (.expand site.feature site.options)
  expand : ∃ offset q, expandAt site.feature site.options p.pos site.word p =
    .ok (site.declaration, offset) q ∧ p' = q.note (.dispatched site)

/-- The injected statements of a declaration have been read, and nothing else: the block has
registered its finalizer and hooks that put keywords back. -/
structure Injected (site : Site) (events : List Event) (hooks : List ScopeHook) (p q : Parser) :
    Prop where
  buffer : q.buffer = p.buffer
  pos : q.pos = site.declaration.block + site.injected.length
  events : ∃ later, events = later ++
    [.registered (.finalize p.finalizers.length), .began site.declaration.block] ∧
    ∀ e ∈ later, e.Quiet
  hooks : ∃ restores, hooks = .finalize p.finalizers.length :: restores ∧
    ∀ hook ∈ restores, hook.finalizes = false
  finalizers : q.finalizers = p.finalizers ++ [{ armed := true }]
  package : q.currentPackage = site.declaration.name

/-- A run of a parser. -/
inductive Runs : List Event → List ScopeHook → Parser → Parser → Prop
  | stay (p : Parser) : Runs [] [] p p
  | seq {e₁ e₂ : List Event} {h₁ h₂ : List ScopeHook} {p q r : Parser} :
      Runs e₁ h₁ p q → Runs e₂ h₂ q r → Runs (e₂ ++ e₁) (h₁ ++ h₂) p r
  | move (p : Parser) {count : Nat} (h : count ≤ p.unread.length) : Runs [] [] p (p.move count)
  /-- A `package` statement. -/
  | entered {p p' : Parser} {name : String} (hname : IsWord name.toList)
      (h : enterPackage name { p with namespaces := p.namespaces.declare name } = .ok () p') :
      Runs [] [] p p'
  /-- The keyword of a registered feature is installed. -/
  | installed {p p' : Parser} {feature : BlockFeature} {target : String}
      {options : KeywordOptions} {name : String}
      (hfeature : Table.get? p.features name = some (.block feature))
      (h : installKeyword feature target options p = .ok () p') :
      Runs [.registered (p.restoring target options.spelling)]
        [p.restoring target options.spelling] p p'
  /-- A `begin` statement. -/
  | began {p p' : Parser} {count : Nat} (hword : Lexeme.word? p.unread = some "begin".toList)
      (hpos : 0 < count) (hle : count ≤ p.unread.length)
      (h : closeAtScopeEnd ((p.move count).note (.began p.pos)) = .ok () p') :
      Runs [.registered (.finalize p.finalizers.length), .began p.pos]
        [.finalize p.finalizers.length] p p'
  /-- A subroutine is installed. -/
  | defined (p : Parser) (package name : String) (function : Function) :
      Runs [.defined package name] [] p
        ({ p with namespaces := p.namespaces.installFunction package name function }.note
          (.defined package name))
  /-- A declaration is expanded that injects other statements than the default ones.  What is
  read of it are steps of their own. -/
  | expanded {site : Site} {p p' : Parser} (hsite : ¬ site.Plain) (h : Expands site p p') :
      Runs [.dispatched site] [] p p'
  | block {e : List Event} {h : List ScopeHook} {p q p' : Parser} (hbody : Runs e h p.opened q)
      (hclose : closeScope q = .ok () p') :
      Runs ((h.map (.ran · q.pos)).reverse ++ .closed :: (e ++ [.opened])) [] p p'
  /-- A declaration is read in full. -/
  | declared {site : Site} {p p₁ q q' t : Parser} {count : Nat} {e₁ e₂ : List Event}
      {h₁ h₂ : List ScopeHook} {rest : List Char} (hsite : site.Plain)
      (hexpand : Expands site p p₁) (hcount : count ≤ p₁.unread.length)
      (hopen : Runs e₁ h₁ (p₁.move count).opened q)
      (hinjected : Injected site e₁ h₁ p₁ q) (hbody : Runs e₂ h₂ q q')
      (hbrace : significant q'.unread = '}' :: rest)
      (hclose : closeScope (q'.skip.move 1) = .ok () t) :
      Runs (((h₁ ++ h₂).map (.ran · (q'.skip.move 1).pos)).reverse ++
        .closed :: (e₂ ++ e₁ ++ [.opened, .dispatched site])) [] p (t.move 1)

/-! ### What a run leaves alone -/

/-- Scopes of which only the innermost one has changed: it has more hooks, and another word may
be its package. -/
inductive Grown (hooks : List ScopeHook) : List Scope → List Scope → Prop
  | none (h : hooks = []) : Grown hooks [] []
  | innermost {scope scope' : Scope} (scopes : List Scope)
      (hooks_eq : scope'.hooks = scope.hooks ++ hooks)
      (package : scope'.package = scope.package ∨ IsWord scope'.package.toList) :
      Grown hooks (scope :: scopes) (scope' :: scopes)

/-- What every run leaves alone: the journal, the scopes but for the innermost one, the root and
the finalizers that there were.  The finalizers of a run are plain ones. -/
structure Frame (events : List Event) (hooks : List ScopeHook) (p p' : Parser) : Prop where
  journal : p'.journal = events ++ p.journal
  scopes : Grown hooks p.scopes p'.scopes
  root : p'.root = p.root
  finalizers : ∃ new, p'.finalizers = p.finalizers ++ new ∧ ∀ f ∈ new, f.Plain
  indices : ∀ i, .finalize i ∈ hooks → p.finalizers.length ≤ i

variable {e e₁ e₂ : List Event} {h h₁ h₂ : List ScopeHook} {p q r p' : Parser}

theorem Grown.refl (scopes : List Scope) : Grown [] scopes scopes := by
  cases scopes with
  | nil => exact .none rfl
  | cons scope scopes => exact .innermost scopes (by simp) (.inl rfl)

theorem Grown.trans {ss₁ ss₂ ss₃ : List Scope} (h₁₂ : Grown h₁ ss₁ ss₂) (h₂₃ : Grown h₂ ss₂ ss₃) :
    Grown (h₁ ++ h₂) ss₁ ss₃ := by
  cases h₁₂ with
  | none hnil =>
    cases h₂₃ with
    | none hnil' => exact .none (by rw [hnil, hnil']; rfl)
  | innermost scopes hhooks hpackage =>
    cases h₂₃ with
    | innermost _ hhooks' hpackage' =>
      refine .innermost scopes (by rw [hhooks', hhooks, List.append_assoc]) ?_
      rcases hpackage' with heq | hword
      · rw [heq]
        exact hpackage
      · exact .inr hword

theorem Frame.refl (p : Parser) : Frame [] [] p p :=
  ⟨rfl, .refl _, rfl, ⟨[], by simp⟩, by simp⟩

theorem Frame.trans (hpq : Frame e₁ h₁ p q) (hqr : Frame e₂ h₂ q r) :
    Frame (e₂ ++ e₁) (h₁ ++ h₂) p r := by
  obtain ⟨new₁, heq₁, hnew₁⟩ := hpq.finalizers
  obtain ⟨new₂, heq₂, hnew₂⟩ := hqr.finalizers
  refine ⟨by rw [hqr.journal, hpq.journal, List.append_assoc], hpq.scopes.trans hqr.scopes,
    hqr.root.trans hpq.root, ⟨new₁ ++ new₂, by rw [heq₂, heq₁, List.append_assoc], ?_⟩, ?_⟩
  · exact fun f hf => (List.mem_append.1 hf).elim (hnew₁ f) (hnew₂ f)
  · intro i hi
    rcases List.mem_append.1 hi with hi | hi
    · exact hpq.indices i hi
    · have := hqr.indices i hi
      rw [heq₁, List.length_append] at this
      omega

theorem Frame.move (hpq : Frame e h p q) (count : Nat) : Frame e h p (q.move count) :=
  ⟨hpq.journal, hpq.scopes, hpq.root, hpq.finalizers, hpq.indices⟩

/-- The next significant character is passed. -/
theorem Frame.pass (hpq : Frame e h p q) : Frame e h p (q.skip.move 1) := (hpq.move _).move 1

/-- The scope in which a run was made is closed. -/
theorem Frame.closes {package : String} {scopes : List Scope} (hpq : Frame e h p q)
    (hp : p.scopes = { package } :: scopes) (hclose : closeScope q = .ok () p') :
    Ran h p.finalizers ({ q with scopes }.note .closed) p' := by
  obtain ⟨scope, scopes', hscopes, hhooks⟩ := closeScope_eq_ok.1 hclose
  have hgrown := hpq.scopes
  rw [hp, hscopes] at hgrown
  cases hgrown with
  | innermost _ heq _ =>
    obtain ⟨new, hfinalizers, hnew⟩ := hpq.finalizers
    rw [heq] at hhooks
    exact forM_runHook hhooks hfinalizers hnew hpq.indices

theorem Frame.block (hpq : Frame e h p.opened q) (hclose : closeScope q = .ok () p') :
    Frame ((h.map (.ran · q.pos)).reverse ++ .closed :: (e ++ [.opened])) [] p p' := by
  have hran := hpq.closes rfl hclose
  refine ⟨?_, ?_, hran.root.trans hpq.root, hran.finalizers, by simp⟩
  · have hjournal : ({ q with scopes := p.scopes }.note .closed).journal =
        .closed :: (e ++ .opened :: p.journal) := congrArg (Event.closed :: ·) hpq.journal
    rw [hran.journal, hjournal]
    simp [Parser.note]
  · rw [hran.scopes]
    exact .refl _

theorem Frame.installed {feature : BlockFeature} {target : String} {options : KeywordOptions}
    (h : installKeyword feature target options p = .ok () p') :
    Frame [.registered (p.restoring target options.spelling)]
      [p.restoring target options.spelling] p p' := by
  obtain ⟨features, scope, scopes, -, hscopes, rfl⟩ := installKeyword_eq_ok h
  refine ⟨rfl, ?_, rfl, ⟨[], by simp [Parser.hooked, Parser.note]⟩, ?_⟩
  · rw [hscopes]
    exact .innermost scopes rfl (.inl rfl)
  · simp [Parser.restoring]

theorem Frame.entered {name : String} (hname : IsWord name.toList)
    (h : enterPackage name { p with namespaces := p.namespaces.declare name } = .ok () p') :
    Frame [] [] p p' := by
  obtain ⟨scope, scopes, hscopes, rfl⟩ := enterPackage_eq_ok.1 h
  refine ⟨rfl, ?_, rfl, ⟨[], by simp⟩, by simp⟩
  rw [show p.scopes = scope :: scopes from hscopes]
  exact .innermost scopes (by simp) (.inr hname)

theorem Frame.began {count : Nat}
    (h : closeAtScopeEnd ((p.move count).note (.began p.pos)) = .ok () p') :
    Frame [.registered (.finalize p.finalizers.length), .began p.pos]
      [.finalize p.finalizers.length] p p' := by
  obtain ⟨scope, scopes, hscopes, rfl⟩ := closeAtScopeEnd_eq_ok.1 h
  refine ⟨rfl, ?_, rfl, ⟨[{ armed := true }], rfl, by simp [Finalizer.Plain]⟩, ?_⟩
  · rw [show p.scopes = scope :: scopes from hscopes]
    exact .innermost scopes rfl (.inl rfl)
  · intro i hi
    obtain rfl : i = p.finalizers.length := by simpa using hi
    exact Nat.le_refl _

theorem Expands.frame {site : Site} (h : Expands site p p') :
    (∃ buffer, p' = { p with buffer }.note (.dispatched site)) ∧
      Frame [.dispatched site] [] p p' := by
  obtain ⟨offset, q, hexpand, rfl⟩ := h.expand
  obtain ⟨c, -, -, rfl⟩ := expandAt_eq_ok.1 hexpand
  exact ⟨⟨c.buffer, rfl⟩, rfl, .refl _, rfl, ⟨[], by simp [Parser.note]⟩, by simp⟩

/-- **What every run leaves alone.** -/
theorem Runs.frame (hrun : Runs e h p p') : Frame e h p p' := by
  induction hrun with
  | stay p => exact .refl p
  | seq _ _ ih₁ ih₂ => exact ih₁.trans ih₂
  | move p _ => exact (Frame.refl p).move _
  | entered hname h => exact .entered hname h
  | installed _ h => exact .installed h
  | began _ _ _ h => exact .began h
  | defined p package name function =>
    exact ⟨rfl, .refl _, rfl, ⟨[], by simp [Parser.note]⟩, by simp⟩
  | expanded _ h => exact h.frame.2
  | block _ hclose ih => exact ih.block hclose
  | declared _ hexpand _ _ _ _ _ hclose ih₁ ih₂ =>
    have hblock := (ih₁.trans ih₂).pass.block hclose
    simpa [Parser.skip] using ((hexpand.frame.2.move _).trans hblock).move 1

end BraceScript
