import BraceScript.Proofs.Failures
import BraceScript.Proofs.Propagation
import BraceScript.Proofs.Restoration

/-!
# Keywords that blocks install again

A keyword is followed from one parser on (`Followed`).  Its declarations install it again at the
top of their blocks, in the package of the block, and put back what its word meant there when the
block ends.  Nothing else is to install it or to define a subroutine of its name, and no other
driver that its word had before is to expand a declaration (`Followed.Undisturbed`).

Then whatever is read to its end leaves the word what it was in every package, also if it is a
declaration by the keyword (`Followed.steady`).
-/

namespace BraceScript

open Lexeme (significant Insignificant IsWord)
open Parse

namespace ScopeHook

/-- The hook puts back what the word meant in some package. -/
def restores (word : String) : ScopeHook → Bool
  | restore _ name _ _ => name == word
  | finalize _ => false

theorem restored?_eq_none {word : String} {hook : ScopeHook} (h : hook.restores word = false)
    (package : String) : hook.restored? package word = none := by
  cases hook with
  | finalize i => rfl
  | restore package' name function keyword =>
    rw [restored?, if_neg]
    rintro ⟨-, rfl⟩
    simp [restores] at h

end ScopeHook

namespace Event

/-- A keyword of this spelling was installed. -/
def installs (word : String) : Event → Bool
  | registered hook => hook.restores word
  | _ => false

/-- A declaration by this word was expanded. -/
def declares (word : String) : Event → Bool
  | dispatched site => site.word == word
  | _ => false

end Event

/-- The hooks of the innermost scope that put back what the word meant. -/
def Parser.restorations (p : Parser) (word : String) : List ScopeHook :=
  match p.scopes with
  | scope :: _ => scope.hooks.filter (·.restores word)
  | [] => []

theorem Grown.restorations {p q : Parser} {hooks : List ScopeHook}
    (h : Grown hooks p.scopes q.scopes) (word : String) :
    q.restorations word = p.restorations word ++ hooks.filter (·.restores word) := by
  rw [Parser.restorations, Parser.restorations]
  generalize p.scopes = scopes at h
  generalize q.scopes = scopes' at h
  cases h with
  | none hnil => simp [hnil]
  | innermost _ heq _ => simp [heq]

theorem Registry.get?_provide {features features' : Registry} {feature found : Feature}
    {name : String} (h : features.provide feature = .ok features')
    (hget : Table.get? features name = some found) : Table.get? features' name = some found := by
  rw [Registry.provide] at h
  split at h
  · next hnone =>
    obtain rfl := Except.ok.inj h
    rw [Registry.register, Table.get?_put, if_neg, hget]
    rintro heq
    rw [eq_of_beq heq, hget] at hnone
    cases hnone
  · split at h
    · rw [← Except.ok.inj h, hget]
    · cases h

/-! ### The keyword that is followed -/

/-- A keyword that is followed from a parser on. -/
structure Followed where
  start : Parser
  feature : BlockFeature
  options : KeywordOptions

/-- Closing a scope adds to the journal. -/
theorem Parse.Ran.journal_suffix {hooks : List ScopeHook} {old : List Finalizer} {p q : Parser}
    {scopes : List Scope} (h : Ran hooks old ({ p with scopes }.note .closed) q) :
    p.journal <:+ q.journal :=
  ⟨(hooks.map (.ran · p.pos)).reverse ++ [.closed], by
    rw [h.journal, List.append_assoc]
    rfl⟩

namespace Followed

/-- The spelling of the keyword. -/
def word (k : Followed) : String := k.options.spelling

/-- The keyword as blocks install it again. -/
def renewed (k : Followed) : Keyword := .expand k.feature k.options.listed

variable (k : Followed)

/-- The feature has a word for a name and is registered under it, the options are ones that a
program can hold, and the package has a word for a name. -/
structure Sound : Prop where
  name : IsWord k.feature.name.toList
  registered : Table.get? k.start.features k.feature.name = some (.block k.feature)
  proper : ∀ entry ∈ k.options.inner, entry.options.Proper
  package : IsWord k.start.currentPackage.toList

/-- The declaration is expanded for the feature with the options, up to tuples made lists. -/
structure Drives (site : Site) : Prop where
  feature : site.feature = k.feature
  options : site.options.listed = k.options.listed

/-- Nothing but its own declarations has to do with the keyword: of these each installs it once,
no subroutine has its name, and what else its word expanded before expands nothing. -/
structure Undisturbed (events : List Event) : Prop where
  installs : ∀ earlier, earlier <:+ events →
    earlier.countP (·.installs k.word) ≤ earlier.countP (·.declares k.word)
  defined : ∀ package, .defined package k.word ∉ events
  drivers : ∀ site, .dispatched site ∈ events → site.word = k.word →
    k.start.namespaces.keyword? site.package k.word = some (.expand site.feature site.options) →
    k.Drives site

/-- The keyword has not been disturbed on the way to the parser. -/
def Allows (q : Parser) : Prop :=
  ∀ events, q.journal = events ++ k.start.journal → k.Undisturbed events

/-- In every package the word is what it was, or the keyword as blocks install it again. -/
def Serves (ns ns' : Namespaces) : Prop :=
  ∀ package, ns'.meaning package k.word = ns.meaning package k.word ∨
    ns'.keyword? package k.word = some k.renewed

/-- So many declarations by the keyword have not yet installed it again. -/
structure Owing (debt : Nat) (p : Parser) : Prop where
  feature : Table.get? p.features k.feature.name = some (.block k.feature)
  package : IsWord p.currentPackage.toList
  serves : k.Serves k.start.namespaces p.namespaces
  balanced : ∃ events, p.journal = events ++ k.start.journal ∧
    events.countP (·.installs k.word) + debt = events.countP (·.declares k.word)

/-- All declarations by the keyword have installed it again. -/
abbrev Settled (p : Parser) : Prop := k.Owing 0 p

/-- Nothing that concerns the keyword is different. -/
structure Kept (debt : Nat) (p q : Parser) : Prop where
  owing : k.Owing debt q
  meaning : ∀ package, q.namespaces.meaning package k.word = p.namespaces.meaning package k.word
  restorations : q.restorations k.word = p.restorations k.word

/-- Reading has left the keyword as it was, unless it has been disturbed. -/
structure Steady (p q : Parser) : Prop where
  run : IsRun p q
  keeps : k.Allows q → k.Settled p → k.Kept 0 p q

variable {k} {p q r : Parser} {ns ns' ns'' : Namespaces} {debt : Nat}

theorem Undisturbed.of_suffix {events earlier : List Event} (h : k.Undisturbed events)
    (hsuffix : earlier <:+ events) : k.Undisturbed earlier where
  installs e he := h.installs e (he.trans hsuffix)
  defined package hmem := h.defined package (hsuffix.subset hmem)
  drivers site hsite := h.drivers site (hsuffix.subset hsite)

theorem Allows.of_suffix (h : k.Allows q) (hsuffix : p.journal <:+ q.journal) : k.Allows p := by
  obtain ⟨later, hlater⟩ := hsuffix
  intro events hevents
  exact (h (later ++ events) (by rw [← hlater, hevents, List.append_assoc])).of_suffix
    ⟨later, rfl⟩

theorem Serves.of_meaning
    (h : ∀ package, ns'.meaning package k.word = ns.meaning package k.word) : k.Serves ns ns' :=
  fun package => .inl (h package)

theorem Serves.refl (ns : Namespaces) : k.Serves ns ns := .of_meaning fun _ => rfl

theorem Serves.renewed {package : String} (h : k.Serves ns ns')
    (hns : ns.keyword? package k.word = some k.renewed) :
    ns'.keyword? package k.word = some k.renewed := by
  rcases h package with heq | hkeyword
  · exact (congrArg Prod.snd heq).trans hns
  · exact hkeyword

theorem Serves.trans (h : k.Serves ns ns') (h' : k.Serves ns' ns'') : k.Serves ns ns'' := by
  intro package
  rcases h package with heq | hkeyword
  · rcases h' package with heq' | hkeyword'
    · exact .inl (heq'.trans heq)
    · exact .inr hkeyword'
  · exact .inr (h'.renewed hkeyword)

/-- A step by which nothing is installed for a declaration, and none is expanded. -/
theorem Owing.of_meaning (hp : k.Owing debt p)
    (hfeature : ∀ found, Table.get? p.features k.feature.name = some found →
      Table.get? q.features k.feature.name = some found)
    (hpackage : q.currentPackage = p.currentPackage ∨ IsWord q.currentPackage.toList)
    (hmeaning : ∀ package,
      q.namespaces.meaning package k.word = p.namespaces.meaning package k.word)
    (hjournal : ∃ events, q.journal = events ++ p.journal ∧
      events.countP (·.installs k.word) = 0 ∧ events.countP (·.declares k.word) = 0) :
    k.Owing debt q := by
  obtain ⟨earlier, hearlier, hbalanced⟩ := hp.balanced
  obtain ⟨events, hevents, hinstalls, hdeclares⟩ := hjournal
  refine ⟨hfeature _ hp.feature, ?_, hp.serves.trans (.of_meaning hmeaning), events ++ earlier,
    by rw [hevents, hearlier, List.append_assoc], ?_⟩
  · rcases hpackage with heq | hword
    · rw [heq]
      exact hp.package
    · exact hword
  · rw [List.countP_append, List.countP_append, hinstalls, hdeclares]
    omega

theorem Kept.trans (h : k.Kept debt p q) (h' : k.Kept debt q r) : k.Kept debt p r :=
  ⟨h'.owing, fun package => (h'.meaning package).trans (h.meaning package),
    h'.restorations.trans h.restorations⟩

theorem Owing.move (hp : k.Owing debt p) (count : Nat) : k.Kept debt p (p.move count) :=
  ⟨hp.of_meaning (fun _ h => h) (.inl rfl) (fun _ => rfl) ⟨[], rfl, rfl, rfl⟩, fun _ => rfl, rfl⟩

theorem Owing.opened (hp : k.Owing debt p) : k.Owing debt p.opened :=
  hp.of_meaning (fun _ h => h) (.inl rfl) (fun _ => rfl) ⟨[.opened], rfl, rfl, rfl⟩

theorem Owing.entered {name : String} (hp : k.Owing debt p) (hname : IsWord name.toList)
    (h : enterPackage name { p with namespaces := p.namespaces.declare name } = .ok () q) :
    k.Kept debt p q := by
  obtain ⟨scope, scopes, hscopes, rfl⟩ := enterPackage_eq_ok.1 h
  have hmeaning (package : String) :=
    Namespaces.meaning_declare p.namespaces name package k.word
  replace hscopes : p.scopes = scope :: scopes := hscopes
  refine ⟨hp.of_meaning (fun _ h => h) (.inr hname) hmeaning ⟨[], rfl, rfl, rfl⟩, hmeaning, ?_⟩
  simp [Parser.restorations, hscopes]

theorem Owing.began {count offset : Nat} (hp : k.Owing debt p)
    (h : closeAtScopeEnd ((p.move count).note (.began offset)) = .ok () q) :
    k.Kept debt p q := by
  obtain ⟨scope, scopes, hscopes, rfl⟩ := closeAtScopeEnd_eq_ok.1 h
  replace hscopes : p.scopes = scope :: scopes := hscopes
  refine ⟨hp.of_meaning (fun _ h => h) (.inl ?_) (fun _ => rfl)
    ⟨[.registered (.finalize p.finalizers.length), .began offset], rfl, rfl, rfl⟩,
    fun _ => rfl, ?_⟩
  · simp [Parser.currentPackage, Parser.hooked, Parser.note, hscopes]
  · simp [Parser.restorations, Parser.hooked, Parser.note, hscopes, ScopeHook.restores]

/-! ### Steps that have nothing to do with the keyword -/

theorem Steady.trans (h : k.Steady p q) (h' : k.Steady q r) : k.Steady p r where
  run := h.run.trans h'.run
  keeps hallows hp :=
    have hkept := h.keeps (hallows.of_suffix h'.run.journal_suffix) hp
    hkept.trans (h'.keeps hallows hkept.owing)

theorem Steady.move (h : IsMove p q) : k.Steady p q where
  run := h.isRun
  keeps _ hp := by
    obtain ⟨count, -, rfl⟩ := h
    exact hp.move count

theorem Steady.defined (p : Parser) (package name : String) (function : Function) :
    k.Steady p ({ p with
      namespaces := p.namespaces.installFunction package name function }.note
        (.defined package name)) where
  run := ⟨_, _, .defined p package name function⟩
  keeps hallows hp := by
    obtain ⟨events, hevents, -⟩ := hp.balanced
    have hne : name ≠ k.word := by
      rintro rfl
      exact (hallows (.defined package k.word :: events) (congrArg _ hevents)).defined package
        List.mem_cons_self
    have hmeaning (package' : String) :=
      Namespaces.meaning_installFunction_of_ne p.namespaces package package' name k.word function
        fun h => hne h.2
    exact ⟨hp.of_meaning (fun _ h => h) (.inl rfl) hmeaning ⟨[_], rfl, rfl, rfl⟩, hmeaning, rfl⟩

/-- While the keyword is undisturbed, a settled parser installs no keyword of its spelling. -/
theorem Settled.not_installs {hook : ScopeHook} (hp : k.Settled p) (hallows : k.Allows q)
    (hjournal : q.journal = .registered hook :: p.journal) : hook.restores k.word = false := by
  obtain ⟨events, hevents, hbalanced⟩ := hp.balanced
  by_contra h
  -- the keyword would be installed more often than it has been declared with
  have hinstalls := (hallows (.registered hook :: events) (by rw [hjournal, hevents]; rfl)).installs
    _ List.suffix_rfl
  rw [Bool.not_eq_false] at h
  rw [List.countP_cons_of_pos (by simpa [Event.installs] using h),
    List.countP_cons_of_neg (by simp [Event.declares])] at hinstalls
  omega

theorem Steady.installed {Given : Value → Prop} (h : Installs Given p q) : k.Steady p q := by
  induction h with
  | refl p => exact .move (.refl p)
  | @keyword p q r feature target name value options hfeature _ _ h _ ih =>
    refine Steady.trans ⟨⟨_, _, .installed hfeature h⟩, fun hallows hp => ?_⟩ ih
    obtain ⟨features, scope, scopes, hprovide, hscopes, rfl⟩ := installKeyword_eq_ok h
    have hother : (p.restoring target options.spelling).restores k.word = false :=
      hp.not_installs hallows rfl
    have hne : options.spelling ≠ k.word := by
      simpa [Parser.restoring, ScopeHook.restores] using hother
    have hmeaning (package : String) :
        ((p.namespaces.declareKeyword target options.spelling
          (some (.expand feature options))).installFunction target options.spelling
            (.trampoline feature.outcome)).meaning package k.word =
          p.namespaces.meaning package k.word := by
      rw [Namespaces.meaning_install, if_neg fun h => hne h.2]
    refine ⟨hp.of_meaning (fun found hget => Registry.get?_provide hprovide hget) (.inl ?_)
      hmeaning ⟨[_], rfl, ?_, rfl⟩, hmeaning, ?_⟩
    · simp [Parser.currentPackage, Parser.hooked, Parser.note, hscopes]
    · simpa [Event.installs] using hother
    · simp [Parser.restorations, Parser.hooked, Parser.note, hscopes, hother]

/-- The innermost scope has no further hook for the word. -/
theorem Kept.filterMap_restored {events : List Event} {hooks : List ScopeHook} {package : String}
    (h : k.Kept debt p q) (hframe : Frame events hooks p q) :
    hooks.filterMap (·.restored? package k.word) = [] := by
  have heq := hframe.scopes.restorations k.word
  rw [h.restorations] at heq
  have hnone : hooks.filter (·.restores k.word) = [] := List.self_eq_append_right.1 heq
  exact List.filterMap_eq_nil_iff.2 fun hook hmem => ScopeHook.restored?_eq_none
    (Bool.eq_false_iff.2 (List.filter_eq_nil_iff.1 hnone hook hmem)) package

/-- A scope is closed that was opened behind a settled parser, and leaves the word what it was. -/
theorem Owing.closed {hooks : List ScopeHook} {old : List Finalizer} (hp : k.Owing 0 q)
    (hpackage : IsWord p.currentPackage.toList) (hroot : q.root = p.root)
    (hserves : k.Serves k.start.namespaces p.namespaces)
    (hran : Ran hooks old ({ q with scopes := p.scopes }.note .closed) r)
    (hmeaning : ∀ package,
      r.namespaces.meaning package k.word = p.namespaces.meaning package k.word) :
    k.Kept 0 p r := by
  obtain ⟨events, hevents, hbalanced⟩ := hp.balanced
  have hscopes : r.scopes = p.scopes := hran.scopes
  have hroot' : r.root = p.root := hran.root.trans hroot
  have hquiet (pos : Nat) {f : Event → Bool} (hf : ∀ hook, f (.ran hook pos) = false) :
      ((hooks.map (Event.ran · pos)).reverse).countP f = 0 := by
    rw [List.countP_reverse, List.countP_map]
    exact List.countP_eq_zero.2 fun hook _ => by simp [hf]
  refine ⟨⟨?_, ?_, hserves.trans (.of_meaning hmeaning),
    (hooks.map (.ran · q.pos)).reverse ++ .closed :: events, ?_, ?_⟩, hmeaning, ?_⟩
  · rw [hran.features]
    exact hp.feature
  · rwa [show r.currentPackage = p.currentPackage by
      simp only [Parser.currentPackage, hscopes, hroot']]
  · rw [hran.journal, List.append_assoc, List.cons_append, ← hevents]
    rfl
  · rw [List.countP_append, List.countP_append, hquiet _ fun _ => rfl, hquiet _ fun _ => rfl,
      List.countP_cons_of_neg (by simp [Event.installs]),
      List.countP_cons_of_neg (by simp [Event.declares])]
    omega
  · rw [Parser.restorations, hscopes]
    rfl

theorem Steady.block {rest : List Char} (hbody : k.Steady p.opened q)
    (hbrace : q.unread = '\x7d' :: rest) (hclose : closeScope (q.move 1) = .ok () r) :
    k.Steady p r where
  run := tracks_isRun.block hbody.run hbrace hclose
  keeps hallows hp := by
    obtain ⟨events, hooks, hruns⟩ := hbody.run
    have hframe := hruns.frame.move 1
    have hran := hframe.closes rfl hclose
    have hkept := hbody.keeps (hallows.of_suffix hran.journal_suffix) hp.opened
    -- no hook of the scope puts the keyword back, so closing it changes no meaning of the word
    refine (hkept.owing.move 1).owing.closed hp.package hframe.root hp.serves hran
      fun package => ?_
    rw [meaning_closed package k.word hframe rfl hclose, hkept.filterMap_restored hruns.frame,
      List.getLast?_nil, Option.getD_none]
    exact hkept.meaning package

theorem steady_tracks : Tracks k.Steady where
  trans := Steady.trans
  move := Steady.move
  entered hname h := ⟨⟨_, _, .entered hname h⟩, fun _ hp => hp.entered hname h⟩
  installed := Steady.installed
  began hword hpos hle h := ⟨⟨_, _, .began hword hpos hle h⟩, fun _ hp => hp.began h⟩
  defined := Steady.defined
  block := Steady.block

end Followed

/-! ### From statement to statement -/

/-- Reading goes on from one statement to the next in one list. -/
inductive Proceeds : Nat → Parser → Nat → Parser → Prop
  | here (fuel : Nat) (p : Parser) : Proceeds fuel p fuel p
  | skipped {fuel n : Nat} {p r : Parser} {rest : List Char}
      (hs : significant p.unread = ';' :: rest) (more : Proceeds fuel (p.skip.move 1) n r) :
      Proceeds (fuel + 1) p n r
  /-- A statement with a semicolon behind it. -/
  | statement {fuel n : Nat} {p q r : Parser} {node : Option Node} {rest : List Char}
      (hnode : statementWithin fuel p.skip = .ok node q)
      (hs : significant q.unread = ';' :: rest) (more : Proceeds fuel (q.skip.move 1) n r) :
      Proceeds (fuel + 1) p n r
  | last {fuel n : Nat} {p q r : Parser} {node : Option Node}
      (hnode : statementWithin fuel p.skip = .ok node q)
      (hs : (significant q.unread).head? ≠ some ';') (more : Proceeds fuel q.skip n r) :
      Proceeds (fuel + 1) p n r

variable {fuel n : Nat} {p q r : Parser} {s w rest body : List Char} {site : Site}

theorem Parse.exists_proceeds {closing : Option String} {nodes : List Node}
    (h : statementsWithin closing fuel p = .ok nodes r) :
    ∃ n q, Proceeds fuel p n q ∧ (significant q.unread).head?.all (closes closing) ∧
      r = q.skip := by
  induction fuel generalizing p nodes with
  | zero => exact nomatch statementsWithin_fuel h
  | succ fuel ih =>
    rcases statementsWithin_eq_ok h with
      ⟨-, rfl, hend⟩ | ⟨rest, hs, h⟩ | ⟨node, q, nodes', hnode, -, h⟩
    · exact ⟨_, p, .here _ p, hend, rfl⟩
    · obtain ⟨n, q, hproceeds, hq⟩ := ih h
      exact ⟨n, q, .skipped hs hproceeds, hq⟩
    · rcases h with ⟨rest, hs, h⟩ | ⟨hs, h⟩
      · obtain ⟨n, q', hproceeds, hq⟩ := ih h
        exact ⟨n, q', .statement hnode hs hproceeds, hq⟩
      · obtain ⟨n, q', hproceeds, hq⟩ := ih h
        exact ⟨n, q', .last hnode hs.1 hproceeds, hq⟩

/-- A statement whose text is known is what is read, if reading goes on at all. -/
theorem Proceeds.cons (hs : StartsStatement s) (hw : Insignificant w)
    (hp : p.unread = w ++ (s ++ ';' :: rest)) (h : Proceeds fuel p n r)
    (hread : ∀ {fuel node q}, statementWithin fuel (p.move w.length) = .ok node q →
      q.unread = ';' :: rest) :
    r = p ∨ ∃ m < fuel, ∃ node q, statementWithin m (p.move w.length) = .ok node q ∧
      Proceeds fuel p m (q.move 1) ∧ Proceeds m (q.move 1) n r := by
  obtain ⟨hskip, hfirst⟩ := hs.skip_eq hw hp
  have hs' := Lexeme.significant_semicolon rest
  cases h with
  | here => exact .inl rfl
  | skipped hempty =>
    rw [hfirst] at hempty
    obtain ⟨c, tail, rfl, -, -, hsemicolon, -⟩ := hs
    exact absurd (List.cons.inj hempty).1 hsemicolon
  | statement hnode hsemicolon more =>
    have hstep := Proceeds.statement hnode hsemicolon (.here _ _)
    rw [hskip] at hnode
    have hq := hread hnode
    rw [Parser.skip_eq_self hq hs'] at more hstep
    exact .inr ⟨_, Nat.lt_succ_self _, _, _, hnode, hstep, more⟩
  | last hnode hne _ =>
    rw [hskip] at hnode
    rw [hread hnode, hs'] at hne
    exact absurd rfl hne

/-! ### The text that a declaration injects -/

theorem Literal.write_toValue_congr {options options' : KeywordOptions}
    (h : options.listed = options'.listed) : write options.toValue = write options'.toValue := by
  rw [← write_listed, KeywordOptions.toValue_listed, h, ← KeywordOptions.toValue_listed,
    write_listed]

/-- The `version` statements that a declaration injects. -/
def versionRows (version : Option String) : List (List Char) :=
  version.toList.map fun literal => "version ".toList ++ literal.toList

/-- Behind the version comes the statement that installs the keyword again. -/
theorem Site.injected_use {statements : List String}
    (hgenerate : Preamble.generate site.feature site.declaration.name site.declaration.version
      site.options = .ok statements) :
    ∃ use more, Preamble.useFeature site.feature.name site.options = .ok use ∧
      site.injected = "begin ".toList ++ (site.feature.name.toList ++ ".scope_end".toList) ++
        ';' :: (' ' :: ("package ".toList ++ site.declaration.name.toList ++ ';' ::
          (spaced (versionRows site.declaration.version) ++
            (' ' :: (use.toList ++ ';' :: more))))) := by
  obtain ⟨use, uses, huse, -, rfl⟩ := Preamble.generate_eq_ok.1 hgenerate
  let others := (uses ++ site.feature.extra ++ site.options.preamble).map String.toList ++
    [Preamble.placeholder.toList]
  refine ⟨use, spaced others, huse, ?_⟩
  rw [Site.injected_eq hgenerate
    (show _ = _ :: (versionRows site.declaration.version ++ use.toList :: others) by
      cases site.declaration.version <;>
        simp [versionRows, others, Preamble.package, Preamble.version])]
  simp [spaced]

namespace Followed

variable {k : Followed}

theorem Steady.proceeds (ih : ∀ m < fuel, Tracked k.Steady m) (h : Proceeds fuel p n r) :
    k.Steady p r := by
  induction h with
  | here _ p => exact .move (.refl p)
  | skipped hs _ hmore =>
    exact (Steady.move (.pass hs)).trans (hmore fun m hm => ih m (Nat.lt_succ_of_lt hm))
  | statement hnode hs _ hmore =>
    have hstatement := (Steady.move (.skip _)).trans ((ih _ (Nat.lt_succ_self _)).statement hnode)
    exact (hstatement.trans (.move (.pass hs))).trans
      (hmore fun m hm => ih m (Nat.lt_succ_of_lt hm))
  | last hnode _ _ hmore =>
    have hstatement := (Steady.move (.skip _)).trans ((ih _ (Nat.lt_succ_self _)).statement hnode)
    exact (hstatement.trans (.move (.skip _))).trans
      (hmore fun m hm => ih m (Nat.lt_succ_of_lt hm))

/-! ### The block of a declaration -/

variable (k) in
/-- The block of a declaration by the keyword is about to be read, from behind its brace on. -/
structure Opens (site : Site) (body : List Char) (b : Parser) : Prop where
  drives : k.Drives site
  word : site.word = k.word
  name : IsWord site.declaration.name.toList
  version : ∀ v ∈ site.declaration.version, Lexeme.IsNumber v.toList
  generates : ∃ statements, Preamble.generate site.feature site.declaration.name
    site.declaration.version site.options = .ok statements
  unread : b.unread = site.injected ++ body
  pos : b.pos = site.declaration.block
  journal : ∃ earlier, b.journal = .opened :: .dispatched site :: earlier
  owing : k.Owing 1 b

variable (k) in
/-- A parser at one of the injected statements up to the one that installs the keyword again. -/
structure Opening (body : List Char) (b q : Parser) : Prop where
  buffer : q.buffer = b.buffer
  unread : ∃ w s, Insignificant w ∧ StartsStatement s ∧ q.unread = w ++ (s ++ body) ∧
    ∃ v ∈ ["package", "version", "use", "begin"], Lexeme.word? (s ++ body) = some v.toList
  namespaces : k.Serves b.namespaces q.namespaces
  journal : q = b ∨ ∃ hook events, q.journal = .registered hook :: events

variable (k) in
/-- The injected statements of a block have been read up to the one that installs the keyword
again.  Its hook will put back what the word meant in the package. -/
structure Renews (name : String) (b u : Parser) : Prop where
  settled : k.Settled u
  hooks : ∃ events hook, Runs events [.finalize b.finalizers.length, hook] b u ∧
    ∀ package, hook.restored? package k.word =
      if name = package then some (b.namespaces.meaning package k.word) else none
  finalizers : u.finalizers = b.finalizers ++ [{ armed := true }]
  meaning : ∀ package, u.namespaces.meaning package k.word =
    if name = package then (some (.trampoline k.feature.outcome), some k.renewed)
    else b.namespaces.meaning package k.word

variable (k) in
/-- The trigger of a block has been read, and statements that do not concern the keyword. -/
structure Begun (b q : Parser) : Prop where
  kept : k.Kept 1 b q
  runs : ∃ events, Runs events [.finalize b.finalizers.length] b q
  buffer : q.buffer = b.buffer
  finalizers : q.finalizers = b.finalizers ++ [{ armed := true }]
  journal : ∃ hook events, q.journal = .registered hook :: events

variable {b : Parser} {name : String}

/-- A parser in front of a statement that begins with one of the words. -/
theorem Opening.of_row (word : String) (tail : List Char)
    (hword : word ∈ ["package", "version", "use", "begin"])
    (hbuffer : q.buffer = b.buffer) (hw : Insignificant w)
    (hq : q.unread = w ++ (word.toList ++ ' ' :: (tail ++ body)))
    (hserves : k.Serves b.namespaces q.namespaces)
    (hjournal : q = b ∨ ∃ hook events, q.journal = .registered hook :: events) :
    k.Opening body b q := by
  have hmem : word ∈ statementWords := by
    simp only [List.mem_cons, List.not_mem_nil, or_false] at hword
    rcases hword with rfl | rfl | rfl | rfl <;> simp [statementWords]
  have hisWord := isWord_of_mem_statementWords word hmem
  refine ⟨hbuffer, ⟨w, word.toList ++ ' ' :: tail, hw, ?_, by simpa using hq, word, hword, ?_⟩,
    hserves, hjournal⟩
  · simp only [List.mem_cons, List.not_mem_nil, or_false] at hword
    rcases hword with rfl | rfl | rfl | rfl
    · exact ⟨'p', _, rfl, by decide⟩
    · exact ⟨'v', _, rfl, by decide⟩
    · exact ⟨'u', _, rfl, by decide⟩
    · exact ⟨'b', _, rfl, by decide⟩
  · rw [List.append_assoc, List.cons_append]
    exact Lexeme.word?_append hisWord (Lexeme.endsWord_blank _)

theorem Begun.move {count : Nat} (h : k.Begun b q) (hcount : count ≤ q.unread.length) :
    k.Begun b (q.move count) := by
  obtain ⟨events, hruns⟩ := h.runs
  exact ⟨h.kept.trans (h.kept.owing.move count), ⟨_, hruns.seq (.move q hcount)⟩, h.buffer,
    h.finalizers, h.journal⟩

theorem Begun.opening (h : k.Begun b q) (word : String) (tail : List Char)
    (hword : word ∈ ["package", "version", "use", "begin"])
    (hq : q.unread = [' '] ++ (word.toList ++ ' ' :: (tail ++ body))) : k.Opening body b q :=
  .of_row word tail hword h.buffer (.blank (by decide)) hq (.of_meaning h.kept.meaning)
    (.inr h.journal)

/-- The trigger of a block. -/
theorem Owing.trigger {feature : String} (more body : List Char) (hb : k.Owing 1 b)
    (hfeature : IsWord feature.toList)
    (hp : b.unread = "begin ".toList ++ (feature.toList ++ ".scope_end".toList) ++
      ';' :: (more ++ body)) (h : Proceeds fuel b n r) :
    k.Opening body b r ∨ ∃ m < fuel, ∃ q, k.Begun b q ∧ q.unread = more ++ body ∧
      Proceeds fuel b m q ∧ Proceeds m q n r := by
  rcases h.cons (w := []) (startsStatement_trigger feature) .nil hp fun hread =>
      (trigger_read hfeature hp hread).2.2.2.2.2 with rfl | ⟨m, hm, node, q, hread, hfirst, hmore⟩
  · exact .inl (.of_row "begin" (feature.toList ++ ".scope_end".toList ++ ';' :: more) (w := [])
      (by simp) rfl .nil (by rw [hp]; simp) (.refl _) (.inl rfl))
  · obtain ⟨-, hruns, hbuffer, -, hfinalizers, hunread⟩ := trigger_read hfeature hp hread
    obtain ⟨-, hclose⟩ := trigger_eq_ok hfeature hp hread
    have hbegun : k.Begun b q := by
      refine ⟨hb.began hclose, ⟨_, hruns⟩, hbuffer, hfinalizers, ?_⟩
      obtain ⟨scope, scopes, -, rfl⟩ := closeAtScopeEnd_eq_ok.1 hclose
      exact ⟨_, _, rfl⟩
    refine .inr ⟨m, hm, q.move 1, hbegun.move (by simp [hunread]), ?_, hfirst, hmore⟩
    rw [Parser.unread_move, hunread]
    rfl

/-- The statement that opens the package. -/
theorem Begun.package (more body : List Char) (h : k.Begun b q) (hname : IsWord name.toList)
    (hq : q.unread = [' '] ++ ("package ".toList ++ name.toList ++ ';' :: (more ++ body)))
    (hproceeds : Proceeds fuel q n r) :
    k.Opening body b r ∨ ∃ m < fuel, ∃ q', k.Begun b q' ∧ q'.currentPackage = name ∧
      q'.unread = more ++ body ∧ Proceeds fuel q m q' ∧ Proceeds m q' n r := by
  have hmove : (q.move 1).unread = "package ".toList ++ name.toList ++ ';' :: (more ++ body) :=
    Parser.unread_move_append hq rfl
  have hblank : k.Begun b (q.move 1) := h.move (by simp [hq])
  rcases hproceeds.cons (startsStatement_package name) (.blank (by decide)) hq fun hread =>
      (package_read hname hmove hread).2.2.2.2.2.2 with
    rfl | ⟨m, hm, node, q', hread, hfirst, hmore⟩
  · exact .inl (h.opening "package" (name.toList ++ ';' :: more) (by simp) (by rw [hq]; simp))
  · obtain ⟨-, hruns, hbuffer, -, hfinalizers, hpackage, hunread⟩ :=
      package_read hname hmove hread
    obtain ⟨-, henter⟩ := package_eq_ok hname hmove hread
    have hlength : ("package ".toList ++ name.toList).length ≤ (q.move 1).unread.length := by
      simp [hmove]
    have hentered := (hblank.move hlength).kept.owing.entered hname henter
    obtain ⟨events, hruns'⟩ := hblank.runs
    have hbegun : k.Begun b q' := by
      refine ⟨(hblank.move hlength).kept.trans hentered, ⟨_, hruns'.seq hruns⟩,
        hbuffer.trans hblank.buffer, hfinalizers.trans hblank.finalizers, ?_⟩
      obtain ⟨scope, scopes, -, rfl⟩ := enterPackage_eq_ok.1 henter
      exact h.journal
    refine .inr ⟨m, hm, q'.move 1, hbegun.move (by simp [hunread]), hpackage, ?_, hfirst, hmore⟩
    rw [Parser.unread_move, hunread]
    rfl

/-- The statement that sets the version, if there is one. -/
theorem Begun.version {version : Option String} (more body : List Char) (h : k.Begun b q)
    (hversion : ∀ v ∈ version, Lexeme.IsNumber v.toList)
    (hq : q.unread = spaced (versionRows version) ++ (more ++ body))
    (hproceeds : Proceeds fuel q n r) :
    k.Opening body b r ∨ ∃ m ≤ fuel, ∃ q', k.Begun b q' ∧ q'.currentPackage = q.currentPackage ∧
      q'.unread = more ++ body ∧ Proceeds m q' n r := by
  cases version with
  | none => exact .inr ⟨fuel, Nat.le_refl _, q, h, rfl, hq, hproceeds⟩
  | some v =>
    have hmoves := movesOver_version (hversion v rfl)
    replace hq :
        q.unread = [' '] ++ (("version ".toList ++ v.toList) ++ ';' :: (more ++ body)) := by
      rw [hq]
      simp [versionRows, spaced]
    have hmove : (q.move 1).unread = ("version ".toList ++ v.toList) ++ ';' :: (more ++ body) :=
      Parser.unread_move_append hq rfl
    have hlength : ("version ".toList ++ v.toList).length ≤ (q.move 1).unread.length := by
      rw [hmove]
      simp
    have hbehind : ((q.move 1).move ("version ".toList ++ v.toList).length).unread =
        ';' :: (more ++ body) := Parser.unread_move_append hmove rfl
    rcases hproceeds.cons hmoves.starts (.blank (by decide)) hq fun hread => by
        rw [(hmoves.reads hmove hread).2]
        exact hbehind with rfl | ⟨m, hm, node, q', hread, -, hmore⟩
    · exact .inl (h.opening "version" (v.toList ++ ';' :: more) (by simp) (by rw [hq]; simp))
    · obtain ⟨-, rfl⟩ := hmoves.reads hmove hread
      have hblank : k.Begun b (q.move 1) := h.move (by simp [hq])
      refine .inr ⟨m, Nat.le_of_lt hm, _, (hblank.move hlength).move ?_, rfl, ?_, hmore⟩
      · rw [hbehind]
        simp
      · rw [Parser.unread_move, hbehind]
        rfl

/-- The statement that installs the keyword again does so with its options, tuples made lists. -/
theorem Sound.use_read (hk : k.Sound) {use : String} {node : Option Node}
    (huse : Preamble.useFeature k.feature.name k.options = .ok use)
    (hfeature : Table.get? p.features k.feature.name = some (.block k.feature))
    (hp : p.unread = use.toList ++ ';' :: rest) (h : statementWithin fuel p = .ok node q) :
    installKeyword k.feature p.currentPackage k.options.listed (p.move use.length) = .ok () q := by
  obtain ⟨m, rfl⟩ := statementWithin_fuel h
  rw [KeywordOptions.statementWithin_useFeature hk.name hk.proper huse hp hfeature m] at h
  obtain ⟨_, r, hinstall, h⟩ := Run.bind_eq_ok.1 h
  obtain ⟨-, rfl⟩ := Run.pure_eq_ok.1 h
  rw [install, installWithin, installBlock] at hinstall
  obtain ⟨prepared, s, hprepare, hinstall⟩ := Run.bind_eq_ok.1 hinstall
  obtain ⟨hprepared, rfl⟩ := prepare_eq_ok hprepare
  obtain rfl := Options.eq_of_normalise_toValue hprepared
  exact hinstall

/-- Installing the keyword again pays for a declaration. -/
theorem Owing.installed {target : String} (hp : k.Owing (debt + 1) p)
    (h : installKeyword k.feature target k.options.listed p = .ok () q) :
    k.Owing debt q ∧ ∀ package, q.namespaces.meaning package k.word =
      if target = package then (some (.trampoline k.feature.outcome), some k.renewed)
      else p.namespaces.meaning package k.word := by
  obtain ⟨features, scope, scopes, hprovide, hscopes, rfl⟩ := installKeyword_eq_ok h
  have hmeaning (package : String) := p.namespaces.meaning_install target package
    k.options.listed.spelling k.word (.expand k.feature k.options.listed)
    (.trampoline k.feature.outcome)
  simp only [show k.options.listed.spelling = k.word from rfl, and_true] at hmeaning
  obtain ⟨events, hevents, hbalanced⟩ := hp.balanced
  refine ⟨⟨Registry.get?_provide hprovide hp.feature, ?_, hp.serves.trans fun package => ?_,
    .registered (p.restoring target k.word) :: events, congrArg _ hevents, ?_⟩, hmeaning⟩
  · have hpackage := hp.package
    rw [Parser.currentPackage, hscopes] at hpackage
    exact hpackage
  · by_cases htarget : target = package
    · right
      have hkeyword := congrArg Prod.snd (hmeaning package)
      rwa [if_pos htarget] at hkeyword
    · left
      have hother := hmeaning package
      rwa [if_neg htarget] at hother
  · rw [List.countP_cons_of_pos (by simp [Event.installs, Parser.restoring, ScopeHook.restores]),
      List.countP_cons_of_neg (by simp [Event.declares])]
    omega

/-- The statement that installs the keyword again. -/
theorem Begun.use (more body : List Char) (hk : k.Sound) (h : k.Begun b q) {use : String}
    (huse : Preamble.useFeature k.feature.name k.options = .ok use)
    (hq : q.unread = [' '] ++ (use.toList ++ ';' :: (more ++ body)))
    (hproceeds : Proceeds fuel q n r) :
    k.Opening body b r ∨ ∃ m < fuel, ∃ u, k.Renews q.currentPackage b u ∧ Proceeds m u n r := by
  have hmove : (q.move 1).unread = use.toList ++ ';' :: (more ++ body) :=
    Parser.unread_move_append hq rfl
  have hblank : k.Begun b (q.move 1) := h.move (by simp [hq])
  obtain ⟨tail, htail⟩ : ∃ tail, use.toList = "use".toList ++ ' ' :: tail := by
    obtain ⟨literal, -, h⟩ := Run.except_bind_eq_ok.1 huse
    obtain rfl := Except.ok.inj h
    exact ⟨k.feature.name.toList ++ ' ' :: literal, by simp⟩
  have hinstall {fuel : Nat} {node : Option Node} {q' : Parser}
      (hread : statementWithin fuel (q.move 1) = .ok node q') :=
    hk.use_read huse hblank.kept.owing.feature hmove hread
  have hunread : ((q.move 1).move use.length).unread = ';' :: (more ++ body) :=
    Parser.unread_move_append hmove String.length_toList
  have hbehind {fuel : Nat} {node : Option Node} {q' : Parser}
      (hread : statementWithin fuel (q.move 1) = .ok node q') :
      q'.unread = ';' :: (more ++ body) := by
    obtain ⟨features, scope, scopes, -, -, rfl⟩ := installKeyword_eq_ok (hinstall hread)
    exact hunread
  have hstarts : StartsStatement use.toList := ⟨'u', _, htail, by decide⟩
  rcases hproceeds.cons hstarts (.blank (by decide)) hq hbehind with
    rfl | ⟨m, hm, node, q', hread, -, hmore⟩
  · exact .inl (h.opening "use" (tail ++ ';' :: more) (by simp) (by rw [hq, htail]; simp))
  · have hlength : use.length ≤ (q.move 1).unread.length := by
      rw [hmove, ← String.length_toList]
      simp
    have hready := hblank.move hlength
    have hruns := Runs.installed hready.kept.owing.feature (hinstall hread)
    obtain ⟨howing, hmeaning⟩ := hready.kept.owing.installed (hinstall hread)
    obtain ⟨events, hruns'⟩ := hready.runs
    have hpass : 1 ≤ q'.unread.length := by simp [hbehind hread]
    refine .inr ⟨m, hm, q'.move 1, ⟨(howing.move 1).owing, ⟨_, _,
      (hruns'.seq hruns).seq (.move q' hpass), fun package => ?_⟩, ?_, fun package => ?_⟩, hmore⟩
    · by_cases htarget : q.currentPackage = package
      · rw [if_pos htarget, ← hready.kept.meaning package]
        exact (if_pos ⟨htarget, rfl⟩).trans (by rw [← htarget]; rfl)
      · rw [if_neg htarget]
        exact if_neg fun heq => htarget heq.1
    · obtain ⟨features, scope, scopes, -, -, rfl⟩ := installKeyword_eq_ok (hinstall hread)
      exact hready.finalizers
    · refine (hmeaning package).trans ?_
      rw [hready.kept.meaning]
      rfl

/-- **A declared block installs the keyword again** before its own statements are read. -/
theorem Opens.renews (hk : k.Sound) (h : k.Opens site body b) (hproceeds : Proceeds fuel b n r) :
    k.Opening body b r ∨
      ∃ m ≤ fuel, ∃ u, k.Renews site.declaration.name b u ∧ Proceeds m u n r := by
  obtain ⟨statements, hgenerate⟩ := h.generates
  obtain ⟨use, more, huse, hinjected⟩ := Site.injected_use hgenerate
  have hunread := h.unread
  rw [hinjected, h.drives.feature] at hunread
  rw [h.drives.feature, Preamble.useFeature, Literal.write_toValue_congr h.drives.options] at huse
  -- what stands behind each of the four statements
  let behindVersion := ' ' :: (use.toList ++ ';' :: more)
  let behindPackage := spaced (versionRows site.declaration.version) ++ behindVersion
  let behindTrigger := ' ' :: ("package ".toList ++ site.declaration.name.toList ++
    ';' :: behindPackage)
  rcases h.owing.trigger behindTrigger body hk.name (by rw [hunread]; simp [behindTrigger,
    behindPackage, behindVersion]) hproceeds with
    hopening | ⟨m₁, hm₁, q₁, hq₁, hunread₁, -, hproceeds₁⟩
  · exact .inl hopening
  rcases hq₁.package behindPackage body h.name (by rw [hunread₁]; simp [behindTrigger])
    hproceeds₁ with hopening | ⟨m₂, hm₂, q₂, hq₂, hpackage₂, hunread₂, -, hproceeds₂⟩
  · exact .inl hopening
  rcases hq₂.version behindVersion body h.version (by rw [hunread₂]; simp [behindPackage])
    hproceeds₂ with hopening | ⟨m₃, hm₃, q₃, hq₃, hpackage₃, hunread₃, hproceeds₃⟩
  · exact .inl hopening
  rcases hq₃.use more body hk huse (by rw [hunread₃]; simp [behindVersion]) hproceeds₃ with
    hopening | ⟨m₄, hm₄, u, hu, hproceeds₄⟩
  · exact .inl hopening
  rw [hpackage₃, hpackage₂] at hu
  exact .inr ⟨m₄, by omega, u, hu, hproceeds₄⟩

/-- At none of the injected statements the list ends. -/
theorem Opening.not_closes (h : k.Opening body b q) :
    ¬ (significant q.unread).head?.all (closes (some "\x7d")) := by
  obtain ⟨w, s, hw, ⟨c, tail, rfl, hblank, hcomment, -, hbrace⟩, hunread, -⟩ := h.unread
  rw [hunread, hw.significant_append, List.cons_append, Lexeme.significant_cons _ hblank hcomment,
    List.head?_cons, Option.all_some, closes_brace]
  exact hbrace

/-- **A declared block leaves the word what it was**, once it has been read to its end, and a
closing parenthesis stands behind it. -/
theorem Opens.closed {finish t : Parser} {nodes : List Node} (hk : k.Sound)
    (h : k.Opens site body p.opened) (ih : ∀ m < fuel, Tracked k.Steady m)
    (hstatements : statementsWithin (some "\x7d") fuel p.opened = .ok nodes finish)
    (hbrace : significant finish.unread = '\x7d' :: rest)
    (hclose : closeScope (finish.skip.move 1) = .ok () t) :
    (∃ behind, t.unread = ')' :: behind) ∧ (k.Allows t → k.Kept 0 p t) := by
  obtain ⟨n, r, hproceeds, hend, rfl⟩ := exists_proceeds hstatements
  rcases h.renews hk hproceeds with hopening | ⟨m, hm, u, hu, hproceeds⟩
  · exact absurd hend hopening.not_closes
  have hsteady : k.Steady u (r.skip.skip.move 1) :=
    ((Steady.proceeds (fun j hj => ih j (by omega)) hproceeds).trans (.move (.skip r))).trans
      (.move (.pass hbrace))
  obtain ⟨events, hook, hruns, hrestored⟩ := hu.hooks
  obtain ⟨events', hooks, hruns'⟩ := hsteady.run
  have hframe := hruns.frame.trans hruns'.frame
  have hran := hframe.closes rfl hclose
  obtain ⟨-, -, -, count, -, hparen⟩ :=
    closing_fires (p := p) hruns.frame hu.finalizers hruns'.frame hclose
  refine ⟨⟨_, hparen⟩, fun hallows => ?_⟩
  have hkept := hsteady.keeps (hallows.of_suffix hran.journal_suffix) hu.settled
  -- one hook of the block restores the word: that of the statement that has installed it again
  refine hkept.owing.closed h.owing.package hframe.root h.owing.serves hran fun package => ?_
  rw [meaning_closed package k.word hframe rfl hclose, List.filterMap_append,
    hkept.filterMap_restored hruns'.frame, List.append_nil,
    List.filterMap_cons_none (by rfl), hkept.meaning, hu.meaning]
  by_cases hname : site.declaration.name = package
  · rw [List.filterMap_cons_some (by rw [hrestored, if_pos hname])]
    rfl
  · rw [List.filterMap_cons_none (by rw [hrestored, if_neg hname]), if_neg hname]
    rfl

/-! ### Every successful call -/

/-- What the expansion of a declaration leaves alone. -/
theorem Owing.expanded (hp : k.Owing debt p) (h : Expands site p q) :
    k.Kept (if site.word = k.word then debt + 1 else debt) p q := by
  obtain ⟨⟨buffer, rfl⟩, -⟩ := h.frame
  obtain ⟨events, hevents, hbalanced⟩ := hp.balanced
  refine ⟨⟨hp.feature, hp.package, hp.serves, .dispatched site :: events, congrArg _ hevents, ?_⟩,
    fun _ => rfl, rfl⟩
  rw [List.countP_cons_of_neg (by simp [Event.installs])]
  split
  · next hword => rw [List.countP_cons_of_pos (by simpa [Event.declares] using hword)]; omega
  · next hword => rw [List.countP_cons_of_neg (by simpa [Event.declares] using hword)]; omega

/-- A declaration by the word of the keyword is one by the keyword. -/
theorem Settled.drives (hp : k.Settled p) (h : Expands site p q) (hword : site.word = k.word)
    (hallows : k.Allows q) : k.Drives site := by
  obtain ⟨⟨buffer, rfl⟩, -⟩ := h.frame
  obtain ⟨events, hevents, -⟩ := hp.balanced
  have hlive := h.live
  rw [hword, ← h.package] at hlive
  rcases hp.serves site.package with heq | hrenewed
  · exact (hallows (.dispatched site :: events) (congrArg _ hevents)).drivers site
      List.mem_cons_self hword ((congrArg Prod.snd heq).symm.trans hlive)
  · rw [renewed, hlive] at hrenewed
    obtain ⟨hfeature, hoptions⟩ := Keyword.expand.inj (Option.some.inj hrenewed)
    exact ⟨hfeature, by rw [hoptions, KeywordOptions.listed_listed]⟩

/-- The block of a declaration that has been expanded. -/
theorem Settled.opens {statements : List String} (hp : k.Settled p) (h : Expands site p q)
    (hword : site.word = k.word) (hallows : k.Allows q)
    (hrewritten : Rewritten site after body p q)
    (hgenerate : Preamble.generate site.feature site.declaration.name site.declaration.version
      site.options = .ok statements) (c : Called site body q) :
    k.Opens site body (q.move c.inside).opened where
  drives := hp.drives h hword hallows
  word := hword
  name := by
    rw [hrewritten.name, h.package]
    exact Declaration.Head.isWord_target hp.package
  version := hrewritten.isNumber
  generates := ⟨statements, hgenerate⟩
  unread := c.unread_inside
  pos := by
    rw [c.starts, Called.inside, Called.block, Called.arguments]
    rfl
  journal := by
    obtain ⟨⟨buffer, rfl⟩, -⟩ := h.frame
    exact ⟨_, rfl⟩
  owing := by
    have hexpanded := (hp.expanded h).owing
    rw [if_pos hword] at hexpanded
    exact (hexpanded.move c.inside).owing.opened

/-- A declaration by the keyword leaves the word what it was. -/
theorem tracksKeywords_steady (hk : k.Sound) : TracksKeywords k.Steady := by
  intro fuel p q r p' written keyword node ih hword hqualified hlive hdispatch hadvance h
  have hname := (ih fuel (Nat.le_refl _)).name h
  have hmove := Steady.move (k := k) (.read (Reader.drops_advance _) hadvance)
  rcases dispatch_eq_ok hword hlive hdispatch with ⟨-, rfl⟩ | ⟨site, -, rfl, hexpand⟩
  · exact hmove.trans hname
  refine ⟨tracksKeywords_isRun (fun n _ => allRuns n) hword hqualified hlive hdispatch hadvance h,
    fun hallows hp => ?_⟩
  have hkept := hp.expanded hexpand
  by_cases hsite : site.word = k.word
  · obtain ⟨after, body, hrewritten, statements, hgenerate⟩ := hexpand.rewritten
    obtain ⟨c⟩ := hrewritten.called
    have hopens := hp.opens hexpand hsite
      (hallows.of_suffix (hmove.trans hname).run.journal_suffix) hrewritten hgenerate c
    -- from the name of the keyword to the arguments of the call, the block and its statements
    rw [hrewritten.read_word hadvance] at h
    obtain ⟨n, hn, arguments, harguments, -⟩ :=
      nameWithin_call c.before_insignificant c.unread h
    rw [Parser.move_move] at harguments
    obtain ⟨m, hm, nodes, t, hblock, hbehind⟩ :=
      expressionsWithin_call c.unread_arguments harguments
    rw [Parser.move_move] at hblock
    obtain ⟨j, hj, finish, rest, hstatements, hbrace, hclose⟩ :=
      blockWithin_open c.blank_insignificant c.unread_block hblock
    rw [Parser.move_move] at hstatements
    obtain ⟨⟨behind, hparen⟩, hclosed⟩ :=
      hopens.closed hk (fun i hi => ih i (by omega)) hstatements hbrace hclose
    have hs : significant t.unread = ')' :: behind := by
      rw [hparen]
      exact Lexeme.significant_cons behind (by decide) (by decide)
    obtain ⟨-, rfl⟩ := hbehind (by rw [hs]; rfl)
    have ht := hclosed (hallows.of_suffix List.suffix_rfl)
    exact ⟨((ht.owing.move _).owing.move 1).owing,
      fun package => (ht.meaning package).trans (hkept.meaning package),
      ht.restorations.trans hkept.restorations⟩
  · rw [if_neg hsite] at hkept
    exact hkept.trans ((hmove.trans hname).keeps hallows hkept.owing)

/-- **Every successful call of the grammar leaves the keyword as it was**, unless it has been
disturbed. -/
theorem steady (hk : k.Sound) (fuel : Nat) : Tracked k.Steady fuel :=
  steady_tracks.all (tracksKeywords_steady hk) fuel

end Followed

end BraceScript
