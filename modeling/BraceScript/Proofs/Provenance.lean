import BraceScript.Proofs.Meaning
import BraceScript.Proofs.Runs

/-!
# Where keywords come from

A keyword is installed for a registered feature, a hook puts back a keyword that there was, and a
declaration is expanded for a live keyword.  So where all registered features are plain, and all
keywords to start with, the features of all declarations are (`Runs.plain`).  In the same way, the
packages that declarations stand in are named by words if those that a run starts in are.
-/

namespace BraceScript

open Lexeme (IsWord)
open Parse

/-! ### Plain keywords -/

/-- A live keyword expands declarations for a plain feature. -/
def Keyword.Plain : Keyword → Prop
  | expand feature _ => feature.Plain
  | idle => True

/-- All declared keywords are plain. -/
def Namespaces.Plain (ns : Namespaces) : Prop :=
  ∀ package name, ∀ keyword ∈ ns.declaredKeyword? package name, keyword.Plain

/-- What the hook puts back is plain. -/
def ScopeHook.Plain : ScopeHook → Prop
  | restore _ _ _ keyword? => ∀ keyword ∈ keyword?, keyword.Plain
  | finalize _ => True

/-- All registered features that declare blocks are plain. -/
def Registry.Plain (features : Registry) : Prop :=
  ∀ name feature, Table.get? features name = some (.block feature) → feature.Plain

/-- The features and keywords that a parser knows are plain, and so are those that its scopes
will put back.  Its packages are named by words. -/
structure Parser.Plain (p : Parser) : Prop where
  features : p.features.Plain
  keywords : p.namespaces.Plain
  hooks : ∀ scope ∈ p.scopes, ∀ hook ∈ scope.hooks, hook.Plain
  packages : ∀ scope ∈ p.scopes, IsWord scope.package.toList
  root : IsWord p.root.toList

variable {e : List Event} {h : List ScopeHook} {p p' q : Parser} {site : Site}

/-! ### What holds of every keyword -/

/-- The property holds of every keyword that is declared. -/
def Namespaces.Each (P : Keyword → Prop) (ns : Namespaces) : Prop :=
  ∀ package name, ∀ keyword ∈ ns.declaredKeyword? package name, P keyword

/-- The property holds of a keyword that the hook puts back. -/
def ScopeHook.Each (P : Keyword → Prop) : ScopeHook → Prop
  | restore _ _ _ keyword? => ∀ keyword ∈ keyword?, P keyword
  | finalize _ => True

/-- In the start package no keyword is declared. -/
theorem Namespaces.initial_each (P : Keyword → Prop) : initial.Each P := by
  intro package name keyword hkeyword
  rw [declaredKeyword?, initial] at hkeyword
  simp only [Table.get?] at hkeyword
  split at hkeyword <;> cases hkeyword

namespace Namespaces.Each

variable {P : Keyword → Prop} {ns : Namespaces} (package name : String)

theorem declare (h : ns.Each P) : (ns.declare package).Each P := by
  intro package' name' keyword hkeyword
  refine h package' name' keyword ?_
  rw [Namespaces.declare, declaredKeyword?_modify] at hkeyword
  split at hkeyword
  · next heq => rwa [id_eq, get?_keywords_getD, heq] at hkeyword
  · exact hkeyword

theorem installFunction (h : ns.Each P) (function : Function) :
    (ns.installFunction package name function).Each P := by
  intro package' name' keyword hkeyword
  rw [declaredKeyword?_installFunction] at hkeyword
  exact h package' name' keyword hkeyword

theorem declareKeyword {keyword? : Option Keyword} (h : ns.Each P)
    (hkeyword : ∀ keyword ∈ keyword?, P keyword) :
    (ns.declareKeyword package name keyword?).Each P := by
  intro package' name' keyword hdeclared
  rw [declaredKeyword?_declareKeyword] at hdeclared
  split at hdeclared
  · exact hkeyword keyword hdeclared
  · exact h package' name' keyword hdeclared

theorem apply {hook : ScopeHook} (h : ns.Each P) (hhook : hook.Each P) :
    (hook.apply ns).Each P := by
  cases hook with
  | finalize i => exact h
  | restore package name function keyword =>
    cases function with
    | some function => exact (h.installFunction package name function).declareKeyword _ _ hhook
    | none =>
      intro package' name' keyword' hkeyword
      rw [ScopeHook.apply, putBack, declaredKeyword?_removeFunction] at hkeyword
      exact h package' name' keyword' hkeyword

theorem foldl_apply {hooks : List ScopeHook} (h : ns.Each P)
    (hhooks : ∀ hook ∈ hooks, hook.Each P) :
    (hooks.foldl (fun ns hook => hook.apply ns) ns).Each P := by
  induction hooks generalizing ns with
  | nil => exact h
  | cons hook hooks ih =>
    rw [List.forall_mem_cons] at hhooks
    exact ih (h.apply hhooks.1) hhooks.2

end Namespaces.Each

theorem ScopeHook.plain_iff {hook : ScopeHook} : hook.Plain ↔ hook.Each Keyword.Plain := by
  cases hook <;> exact .rfl

theorem Registry.Plain.provide {features features' : Registry} {feature : BlockFeature}
    (h : features.Plain) (hfeature : feature.Plain)
    (hprovide : features.provide (.block feature) = .ok features') : features'.Plain := by
  rw [Registry.provide] at hprovide
  split at hprovide
  · obtain rfl := Except.ok.inj hprovide
    intro name feature' hget
    rw [register, Table.get?_put] at hget
    split at hget
    · obtain rfl := Feature.block.inj (Option.some.inj hget)
      exact hfeature
    · exact h name feature' hget
  · split at hprovide
    · exact Except.ok.inj hprovide ▸ h
    · cases hprovide

/-! ### Steps -/

namespace Parser.Plain

theorem currentPackage (hp : p.Plain) : IsWord p.currentPackage.toList := by
  rw [Parser.currentPackage]
  split
  · next scope scopes hscopes => exact hp.packages scope (hscopes ▸ List.mem_cons_self)
  · exact hp.root

theorem move (hp : p.Plain) (count : Nat) : (p.move count).Plain :=
  ⟨hp.features, hp.keywords, hp.hooks, hp.packages, hp.root⟩

theorem opened (hp : p.Plain) : p.opened.Plain := by
  refine ⟨hp.features, hp.keywords, List.forall_mem_cons.2 ⟨by simp, hp.hooks⟩,
    List.forall_mem_cons.2 ⟨hp.currentPackage, hp.packages⟩, hp.root⟩

/-- A hook that is registered is plain. -/
theorem hooked {scope : Scope} {scopes : List Scope} {hook : ScopeHook} (hp : p.Plain)
    (hscopes : p.scopes = scope :: scopes) (hhook : hook.Plain) :
    (p.hooked scope scopes hook).Plain := by
  have hhooks := hp.hooks
  have hpackages := hp.packages
  rw [hscopes, List.forall_mem_cons] at hhooks hpackages
  refine ⟨hp.features, hp.keywords, List.forall_mem_cons.2 ⟨?_, hhooks.2⟩,
    List.forall_mem_cons.2 hpackages, hp.root⟩
  exact List.forall_mem_append.2 ⟨hhooks.1, by simpa using hhook⟩

theorem entered {name : String} (hp : p.Plain) (hname : IsWord name.toList)
    (h : enterPackage name { p with namespaces := p.namespaces.declare name } = .ok () p') :
    p'.Plain := by
  obtain ⟨scope, scopes, hscopes, rfl⟩ := enterPackage_eq_ok.1 h
  have hhooks := hp.hooks
  have hpackages := hp.packages
  rw [show p.scopes = scope :: scopes from hscopes, List.forall_mem_cons] at hhooks hpackages
  exact ⟨hp.features, Namespaces.Each.declare name hp.keywords, List.forall_mem_cons.2 hhooks,
    List.forall_mem_cons.2 ⟨hname, hpackages.2⟩, hp.root⟩

/-- The keyword of a registered feature is plain, and so is what its hook puts back. -/
theorem installed {feature : BlockFeature} {target name : String} {options : KeywordOptions}
    (hp : p.Plain) (hfeature : Table.get? p.features name = some (.block feature))
    (h : installKeyword feature target options p = .ok () p') : p'.Plain := by
  obtain ⟨features, scope, scopes, hprovide, hscopes, rfl⟩ := installKeyword_eq_ok h
  have hplain := hp.features name feature hfeature
  have hinstalled : Parser.Plain { p with
      features
      namespaces := (p.namespaces.declareKeyword target options.spelling
        (some (.expand feature options))).installFunction target options.spelling
        (.trampoline feature.outcome) } := by
    refine ⟨hp.features.provide hplain hprovide, ?_, hp.hooks, hp.packages, hp.root⟩
    exact Namespaces.Each.installFunction _ _
      (Namespaces.Each.declareKeyword _ _ hp.keywords (by rintro _ ⟨⟩; exact hplain)) _
  exact hinstalled.hooked hscopes (hp.keywords target options.spelling)

theorem waiting (hp : p.Plain) (h : closeAtScopeEnd p = .ok () p') : p'.Plain := by
  obtain ⟨scope, scopes, hscopes, rfl⟩ := closeAtScopeEnd_eq_ok.1 h
  refine hooked (p := { p with finalizers := p.finalizers ++ [{ armed := true }] })
    ⟨hp.features, hp.keywords, hp.hooks, hp.packages, hp.root⟩ hscopes ?_
  exact trivial

/-- The end of a scope puts plain keywords back. -/
theorem closes {package : String} {scopes : List Scope} (hframe : Frame e h p q)
    (hscopes : p.scopes = { package } :: scopes) (hclose : closeScope q = .ok () p')
    (hq : q.Plain) : p'.Plain := by
  have hran := hframe.closes hscopes hclose
  have hgrown := hframe.scopes
  rw [hscopes] at hgrown
  generalize hinner : q.scopes = inner at hgrown
  cases hgrown with
  | @innermost _ scope _ heq _ =>
    have hhooks := hq.hooks
    have hpackages := hq.packages
    rw [hinner, List.forall_mem_cons] at hhooks hpackages
    have hplain : ∀ hook ∈ h, hook.Plain := fun hook hhook =>
      hhooks.1 hook (by rw [heq]; exact List.mem_append_right _ hhook)
    refine ⟨?_, ?_, ?_, ?_, ?_⟩
    · rw [hran.features]
      exact hq.features
    · rw [hran.namespaces]
      exact Namespaces.Each.foldl_apply hq.keywords fun hook hhook =>
        ScopeHook.plain_iff.1 (hplain hook hhook)
    · rw [hran.scopes]
      exact hhooks.2
    · rw [hran.scopes]
      exact hpackages.2
    · rw [hran.root]
      exact hq.root

end Parser.Plain

/-- The feature of a live keyword is plain. -/
theorem Expands.plain (h : Expands site p p') (hp : p.Plain) :
    p'.Plain ∧ site.feature.Plain ∧ IsWord site.package.toList := by
  obtain ⟨⟨buffer, rfl⟩, -⟩ := h.frame
  refine ⟨⟨hp.features, hp.keywords, hp.hooks, hp.packages, hp.root⟩, ?_, ?_⟩
  · have hlive := h.live
    rw [Namespaces.keyword?] at hlive
    split at hlive
    · exact hp.keywords _ _ _ hlive
    · cases hlive
  · rw [h.package]
    exact hp.currentPackage

/-- **The declarations of a run** are those of plain features, in packages that words name. -/
theorem Runs.plain (hrun : Runs e h p p') (hp : p.Plain) :
    p'.Plain ∧ ∀ site, .dispatched site ∈ e →
      site.feature.Plain ∧ IsWord site.package.toList := by
  induction hrun with
  | stay p => exact ⟨hp, by simp⟩
  | seq _ _ ih₁ ih₂ =>
    obtain ⟨hq, hsites₁⟩ := ih₁ hp
    obtain ⟨hr, hsites₂⟩ := ih₂ hq
    exact ⟨hr, fun site hsite => (List.mem_append.1 hsite).elim (hsites₂ site) (hsites₁ site)⟩
  | move p _ => exact ⟨hp.move _, by simp⟩
  | entered hname h => exact ⟨hp.entered hname h, by simp⟩
  | installed hfeature h => exact ⟨hp.installed hfeature h, by simp⟩
  | began _ _ _ h =>
    refine ⟨Parser.Plain.waiting ?_ h, by simp⟩
    exact ⟨hp.features, hp.keywords, hp.hooks, hp.packages, hp.root⟩
  | defined p package name function =>
    exact ⟨⟨hp.features, Namespaces.Each.installFunction _ _ hp.keywords _, hp.hooks, hp.packages,
      hp.root⟩,
      by simp⟩
  | expanded _ h =>
    obtain ⟨hp', hsite⟩ := h.plain hp
    exact ⟨hp', by simpa using hsite⟩
  | block hbody hclose ih =>
    obtain ⟨hq, hsites⟩ := ih hp.opened
    exact ⟨hq.closes hbody.frame rfl hclose, by simpa using hsites⟩
  | declared _ hexpand _ hopen _ hbody _ hclose ih₁ ih₂ =>
    obtain ⟨hp₁, hsite⟩ := hexpand.plain hp
    obtain ⟨hq, hsites₁⟩ := ih₁ (hp₁.move _).opened
    obtain ⟨hq', hsites₂⟩ := ih₂ hq
    refine ⟨Parser.Plain.move (.closes (hopen.frame.trans hbody.frame).pass rfl hclose
      ((hq'.move _).move 1)) 1, ?_⟩
    intro site' hmem
    simp only [List.mem_append, List.mem_reverse, List.mem_map, List.mem_cons, reduceCtorEq,
      and_false, exists_false, false_or, List.not_mem_nil, or_false, Event.dispatched.injEq] at hmem
    rcases hmem with (hmem | hmem) | rfl
    · exact hsites₂ site' hmem
    · exact hsites₁ site' hmem
    · exact hsite

/-! ### Packages -/

/-- The packages of a parser are named by words. -/
structure Parser.Named (p : Parser) : Prop where
  packages : ∀ scope ∈ p.scopes, IsWord scope.package.toList
  root : IsWord p.root.toList

theorem Parser.Named.currentPackage (h : p.Named) : IsWord p.currentPackage.toList := by
  rw [Parser.currentPackage]
  split
  · next scope scopes heq => exact h.packages scope (by rw [heq]; exact List.mem_cons_self)
  · exact h.root

theorem Parser.Named.opened (h : p.Named) : p.opened.Named :=
  ⟨List.forall_mem_cons.2 ⟨h.currentPackage, h.packages⟩, h.root⟩

theorem Frame.named (hframe : Frame e h p q) (hp : p.Named) : q.Named := by
  refine ⟨?_, hframe.root ▸ hp.root⟩
  have hpackages := hp.packages
  have hgrown := hframe.scopes
  generalize p.scopes = before, q.scopes = after at hpackages hgrown ⊢
  cases hgrown with
  | none => exact hpackages
  | innermost scopes _ hpackage =>
    rw [List.forall_mem_cons] at hpackages
    refine List.forall_mem_cons.2 ⟨?_, hpackages.2⟩
    rcases hpackage with heq | hword
    · rw [heq]
      exact hpackages.1
    · exact hword

/-- **Declarations stand in packages that words name**, if the run starts in such packages. -/
theorem Runs.named (hrun : Runs e h p p') (hp : p.Named) :
    ∀ site, .dispatched site ∈ e → IsWord site.package.toList := by
  induction hrun with
  | stay | move | entered | installed | began | defined => simp
  | seq hpq _ ih₁ ih₂ =>
    intro site hsite
    exact (List.mem_append.1 hsite).elim (ih₂ (hpq.frame.named hp) site) (ih₁ hp site)
  | expanded _ hexpand =>
    intro site hsite
    obtain rfl := Event.dispatched.inj (List.mem_singleton.1 hsite)
    exact hexpand.package ▸ hp.currentPackage
  | block _ _ ih => simpa using ih hp.opened
  | @declared _ _ p₁ _ _ _ count _ _ _ _ _ _ hexpand _ hopen _ _ _ _ ih₁ ih₂ =>
    have hopened : (p₁.move count).opened.Named := ((hexpand.frame.2.move count).named hp).opened
    intro site hmem
    simp only [List.mem_append, List.mem_reverse, List.mem_map, List.mem_cons, reduceCtorEq,
      and_false, exists_false, false_or, List.not_mem_nil, or_false, Event.dispatched.injEq] at hmem
    rcases hmem with (hmem | hmem) | rfl
    · exact ih₂ (hopen.frame.named hopened) site hmem
    · exact ih₁ hopened site hmem
    · exact hexpand.package ▸ hp.currentPackage

end BraceScript
