import BraceScript.Proofs.Outline
import BraceScript.Proofs.Parsing
import BraceScript.Proofs.Provenance

/-!
# What compiling does to a text

A keyword edits the text while the text is read: at the keyword, and behind its block when that
is closed.  Every edit is made at the position of the parser or behind it, so what has been read
is final, and a run can be described by an outline of what it has read (`Outlined`).

* `Runs.outlined` : a run has an outline, whose edits are those of its declarations in their
  order, if every `begin` statement is the trigger of a declaration.
* `Parse.script_onlyTriggers` : this holds of every script in which the word `begin` does not
  stand.
* `Parse.script_outlined` : so has a whole script, and what is compiled is the text after the
  edits.

What a feature adds to the default statements must do nothing while it is read, and the name of the
feature must be a word: otherwise its declarations may be closed more than once
(`Parse.not_every_script_outlined`).
-/

namespace BraceScript

open Lexeme (significant insignificant IsWord)
open Declaration (Head)
open Parse

variable {e e₁ e₂ : List Event} {h h₁ h₂ : List ScopeHook} {p p' p₁ q r t : Parser}
  {o o₁ o₂ : Outline} {site : Site}

/-! ### Where a run reads -/

/-- The offset of a `begin` statement, or the one at which the injected statements of a
declaration begin. -/
def Event.mark? : Event → Option Nat
  | began offset => some offset
  | dispatched site => some site.declaration.block
  | _ => none

/-- The run moves forward, and what it has noted is between its ends. -/
structure Within (events : List Event) (p p' : Parser) : Prop where
  le : p.pos ≤ p'.pos
  marks : ∀ event ∈ events, ∀ offset ∈ event.mark?, p.pos ≤ offset ∧ offset < p'.pos

namespace Within

theorem of_unmarked (hle : p.pos ≤ p'.pos) (h : ∀ event ∈ e, event.mark? = none) :
    Within e p p' := by
  refine ⟨hle, fun event hevent offset hoffset => ?_⟩
  rw [h event hevent] at hoffset
  cases hoffset

theorem trans (hpq : Within e₁ p q) (hqr : Within e₂ q r) : Within (e₂ ++ e₁) p r := by
  have hle := hpq.le
  have hle' := hqr.le
  refine ⟨by omega, fun event hevent offset hoffset => ?_⟩
  rcases List.mem_append.1 hevent with hevent | hevent
  · have := hqr.marks event hevent offset hoffset
    omega
  · have := hpq.marks event hevent offset hoffset
    omega

theorem move (hpq : Within e p q) (count : Nat) : Within e p (q.move count) := by
  have hmove : Within [] q (q.move count) := .of_unmarked (Nat.le_add_right _ _) (by simp)
  exact hpq.trans hmove

theorem opened (p : Parser) : Within [.opened] p p.opened :=
  .of_unmarked (Nat.le_refl _) (by simp [Event.mark?])

/-- The end of a scope is where its last statement is. -/
theorem closes (hpq : Within e p q) (hpos : p'.pos = q.pos) :
    Within ((h.map (.ran · q.pos)).reverse ++ .closed :: e) p p' := by
  have hend : Within ((h.map (.ran · q.pos)).reverse ++ [.closed]) q p' := by
    refine .of_unmarked (Nat.le_of_eq hpos.symm) fun event hevent => ?_
    simp only [List.mem_append, List.mem_reverse, List.mem_map, List.mem_singleton] at hevent
    rcases hevent with ⟨hook, -, rfl⟩ | rfl <;> rfl
  simpa using hpq.trans hend

/-- The injected statements of a declaration are behind its keyword. -/
theorem opening {count : Nat} (hexpand : Expands site p p₁) (hinjected : Injected site e h p₁ q)
    (hopen : Within e (p₁.move count).opened q) :
    Within (e ++ [.opened, .dispatched site]) p q := by
  obtain ⟨after, body, hrewritten, -⟩ := hexpand.rewritten
  have hblock := hrewritten.block
  have hpos := hinjected.pos
  have hlength : 0 < site.injected.length := by
    simp [Site.injected, BlockFeature.trigger]
  have hstart : Within [.opened, .dispatched site] p q := by
    refine ⟨by omega, fun event hevent offset hoffset => ?_⟩
    simp only [List.mem_cons, List.not_mem_nil, or_false] at hevent
    rcases hevent with rfl | rfl
    · cases hoffset
    · obtain rfl := Option.some.inj hoffset
      omega
  refine ⟨hstart.le, fun event hevent offset hoffset => ?_⟩
  rcases List.mem_append.1 hevent with hevent | hevent
  · have hmarks := hopen.marks event hevent offset hoffset
    have hle : p.pos ≤ (p₁.move count).opened.pos := by
      rw [← hrewritten.pos]
      exact Nat.le_add_right _ _
    omega
  · exact hstart.marks event hevent offset hoffset

end Within

/-- **Where a run reads.** -/
theorem Runs.within (hrun : Runs e h p p') (hsites : ∀ site, .dispatched site ∈ e → site.Plain) :
    Within e p p' := by
  induction hrun with
  | stay p => exact .of_unmarked (Nat.le_refl _) (by simp)
  | seq _ _ ih₁ ih₂ =>
    exact (ih₁ fun site hsite => hsites site (List.mem_append_right _ hsite)).trans
      (ih₂ fun site hsite => hsites site (List.mem_append_left _ hsite))
  | move p _ => exact .of_unmarked (Nat.le_add_right _ _) (by simp)
  | entered _ h =>
    obtain ⟨scope, scopes, -, rfl⟩ := enterPackage_eq_ok.1 h
    exact .of_unmarked (Nat.le_refl _) (by simp)
  | installed _ h =>
    obtain ⟨features, scope, scopes, -, -, rfl⟩ := installKeyword_eq_ok h
    exact .of_unmarked (Nat.le_refl _) (by simp [Event.mark?])
  | @began p p' count _ hpos _ h =>
    obtain ⟨-, hend, -⟩ := closeAtScopeEnd_keeps h
    replace hend : p'.pos = p.pos + count := hend
    refine ⟨by omega, fun event hevent offset hoffset => ?_⟩
    simp only [List.mem_cons, List.not_mem_nil, or_false] at hevent
    rcases hevent with rfl | rfl
    · cases hoffset
    · obtain rfl := Option.some.inj hoffset
      omega
  | defined p package name function => exact .of_unmarked (Nat.le_refl _) (by simp [Event.mark?])
  | expanded hsite h => exact absurd (hsites _ List.mem_cons_self) hsite
  | @block _ _ p _ _ hbody hclose ih =>
    exact ((Within.opened p).trans (ih fun site hsite => hsites site (by simp [hsite]))).closes
      (hbody.frame.closes rfl hclose).pos
  | @declared site p _ _ q' _ _ _ _ _ _ _ _ hexpand _ hopen hinjected hbody _ hclose ih₁ ih₂ =>
    have hopening := Within.opening hexpand hinjected
      (ih₁ fun site hsite => hsites site (by simp [hsite]))
    have hread := hopening.trans (ih₂ fun site hsite => hsites site (by simp [hsite]))
    have hpos := ((hopen.frame.trans hbody.frame).pass.closes rfl hclose).pos
    have hpass : Within _ p (q'.skip.move 1) := (hread.move _).move 1
    rw [List.append_assoc]
    exact (hpass.closes hpos).move 1

/-! ### Triggers -/

/-- Every `begin` statement that was read is the trigger of a declaration: the script has none of
its own. -/
def OnlyTriggers (events : List Event) : Prop :=
  ∀ offset, .began offset ∈ events →
    ∃ site, .dispatched site ∈ events ∧ site.declaration.block = offset

instance (events : List Event) : Decidable (OnlyTriggers events) :=
  decidable_of_iff (∀ offset ∈ events.filterMap Event.began?,
      ∃ site ∈ events.filterMap Event.site?, site.declaration.block = offset) <| by
    simp only [mem_filterMap_began?, mem_filterMap_site?]
    rfl

/-- A trigger is read where its declaration is: neither before it nor behind it. -/
theorem OnlyTriggers.of_append (h : OnlyTriggers (e₂ ++ e₁)) (hpq : Within e₁ p q)
    (hqr : Within e₂ q r) : OnlyTriggers e₁ ∧ OnlyTriggers e₂ := by
  constructor
  · intro offset hbegan
    obtain ⟨site, hsite, hblock⟩ := h offset (List.mem_append_right _ hbegan)
    rcases List.mem_append.1 hsite with hsite | hsite
    · have hread := hpq.marks _ hbegan offset rfl
      have hlater := hqr.marks _ hsite _ rfl
      omega
    · exact ⟨site, hsite, hblock⟩
  · intro offset hbegan
    obtain ⟨site, hsite, hblock⟩ := h offset (List.mem_append_left _ hbegan)
    rcases List.mem_append.1 hsite with hsite | hsite
    · exact ⟨site, hsite, hblock⟩
    · have hread := hqr.marks _ hbegan offset rfl
      have hearlier := hpq.marks _ hsite _ rfl
      omega

/-- Opening and closing a scope are no `begin` statements. -/
theorem OnlyTriggers.of_closed {pos : Nat}
    (ht : OnlyTriggers ((h.map (.ran · pos)).reverse ++ .closed :: e)) : OnlyTriggers e := by
  intro offset hbegan
  obtain ⟨site, hsite, hblock⟩ := ht offset (by simp [hbegan])
  exact ⟨site, by simpa using hsite, hblock⟩

/-! ### The outline of a run -/

/-- A run is described by the outline of what it has read: the unread text began with the text
before the edits, and the text now ends, at the position, with the text after them.  The edits
are those of the declarations in the run, and each closing parenthesis is where a finalizer was
fired.  No finalizer is left waiting. -/
structure Outlined (o : Outline) (events : List Event) (hooks : List ScopeHook) (p p' : Parser) :
    Prop where
  hooks : ∀ hook ∈ hooks, hook.finalizes = false
  original : o.original ++ p'.unread = p.unread
  text : p'.buffer.text = p.buffer.text.take p.pos ++ (o.expanded ++ p'.unread)
  pos : p'.pos = p.pos + o.expanded.length
  sites : o.sites = (events.filterMap Event.site?).reverse
  closings : o.closings p.pos = (events.filterMap Event.finalized?).reverse
  reads : o.Reads p.pos p'.unread

theorem filterMap_site?_ran (hooks : List ScopeHook) (pos : Nat) :
    (hooks.map (Event.ran · pos)).reverse.filterMap Event.site? = [] := by
  simp [List.filterMap_eq_nil_iff, Event.site?]

/-- Only finalizers insert text when a scope is closed. -/
theorem filterMap_finalized?_ran {hooks : List ScopeHook}
    (hhooks : ∀ hook ∈ hooks, hook.finalizes = false) (pos : Nat) :
    (hooks.map (Event.ran · pos)).reverse.filterMap Event.finalized? = [] := by
  rw [List.filterMap_eq_nil_iff]
  intro event hevent
  simp only [List.mem_reverse, List.mem_map] at hevent
  obtain ⟨hook, hhook, rfl⟩ := hevent
  cases hook with
  | restore => rfl
  | finalize i => exact absurd (hhooks _ hhook) (by simp [ScopeHook.finalizes])

namespace Outlined

/-- What has been read is final. -/
theorem take (ho : Outlined o e h p q) (hp : p.pos ≤ p.buffer.text.length) :
    q.buffer.text.take q.pos = p.buffer.text.take p.pos ++ o.expanded := by
  have hlength : (p.buffer.text.take p.pos).length = p.pos := by
    rw [List.length_take, Nat.min_eq_left hp]
  rw [ho.text, ← List.append_assoc]
  exact List.take_left' (by rw [List.length_append, hlength, ho.pos])

theorem inside (ho : Outlined o e h p q) (hp : p.pos ≤ p.buffer.text.length) :
    q.pos ≤ q.buffer.text.length := by
  rw [ho.text, ho.pos]
  simp only [List.length_append, List.length_take]
  omega

/-- Steps that neither move nor edit, and leave no finalizer waiting. -/
theorem still (hbuffer : p'.buffer = p.buffer) (hpos : p'.pos = p.pos)
    (hevents : ∀ event ∈ e, event.Quiet) (hhooks : ∀ hook ∈ h, hook.finalizes = false) :
    Outlined .done e h p p' := by
  have hunread : p'.unread = p.unread := by rw [Parser.unread, Parser.unread, hbuffer, hpos]
  refine ⟨hhooks, hunread, ?_, hpos, ?_, ?_, trivial⟩
  · rw [hbuffer, hunread]
    exact (List.take_append_drop _ _).symm
  · rw [List.filterMap_eq_nil_iff.2 fun event hevent => (hevents event hevent).1]
    rfl
  · rw [List.filterMap_eq_nil_iff.2 fun event hevent => (hevents event hevent).2.2]
    rfl

/-- Characters that are passed stay. -/
theorem move {count : Nat} (hcount : count ≤ p.unread.length) :
    Outlined (.ofText (p.unread.take count)) [] [] p (p.move count) := by
  have htext : (p.unread.take count) ++ (p.move count).unread = p.unread := by
    rw [Parser.unread_move, List.take_append_drop]
  refine ⟨by simp, by simpa using htext, ?_, ?_, by simp, by simp, Outline.reads_ofText _ _ _⟩
  · rw [Outline.expanded_ofText, htext]
    exact (List.take_append_drop _ _).symm
  · rw [Outline.expanded_ofText, List.length_take, Nat.min_eq_left hcount, Parser.move_pos]

theorem trans (hpq : Outlined o₁ e₁ h₁ p q) (hqr : Outlined o₂ e₂ h₂ q r)
    (hp : p.pos ≤ p.buffer.text.length) : Outlined (o₁ ++ o₂) (e₂ ++ e₁) (h₁ ++ h₂) p r := by
  refine ⟨?_, ?_, ?_, ?_, ?_, ?_, ?_⟩
  · exact fun hook hhook => (List.mem_append.1 hhook).elim (hpq.hooks hook) (hqr.hooks hook)
  · rw [Outline.original_append, List.append_assoc, hqr.original, hpq.original]
  · rw [hqr.text, hpq.take hp, Outline.expanded_append]
    simp
  · rw [hqr.pos, hpq.pos, Outline.expanded_append, List.length_append, Nat.add_assoc]
  · rw [Outline.sites_append, hpq.sites, hqr.sites, List.filterMap_append, List.reverse_append]
  · rw [Outline.closings_append, ← hpq.pos, hpq.closings, hqr.closings, List.filterMap_append,
      List.reverse_append]
  · refine Outline.reads_append _ _ ?_ ?_
    · rw [hqr.original]
      exact hpq.reads
    · rw [← hpq.pos]
      exact hqr.reads

/-- The significant text that comes next is gone to. -/
theorem skip (ho : Outlined o e h p q) (hp : p.pos ≤ p.buffer.text.length) :
    Outlined (o ++ .ofText (q.unread.take (insignificant q.unread))) e h p q.skip := by
  have hskip := ho.trans (.move (Lexeme.insignificant_le_length _)) hp
  rwa [List.nil_append, List.append_nil] at hskip

/-- The end of a scope in which no finalizer waits leaves the text alone. -/
theorem closes {package : String} {scopes : List Scope} (ho : Outlined o e h p q)
    (hframe : Frame e h p q) (hscopes : p.scopes = { package } :: scopes)
    (hclose : closeScope q = .ok () p') :
    Outlined o ((h.map (.ran · q.pos)).reverse ++ .closed :: e) [] p p' := by
  have hran := hframe.closes hscopes hclose
  obtain ⟨n, hn, -, htext⟩ := hran.text
  have hcount : h.countP (·.finalizes) = 0 :=
    List.countP_eq_zero.2 fun hook hhook => by simp [ho.hooks hook hhook]
  obtain rfl : n = 0 := by omega
  have hsame : p'.buffer.text = q.buffer.text := htext.trans (List.take_append_drop _ _)
  have hunread : p'.unread = q.unread := by
    rw [Parser.unread, hsame, hran.pos]
    rfl
  refine ⟨by simp, ?_, ?_, hran.pos.trans ho.pos, ?_, ?_, ?_⟩
  · rw [hunread, ho.original]
  · rw [hunread, hsame, ho.text]
  · rw [List.filterMap_append, filterMap_site?_ran]
    exact ho.sites
  · rw [List.filterMap_append, filterMap_finalized?_ran ho.hooks]
    exact ho.closings
  · rw [hunread]
    exact ho.reads

end Outlined

/-- What follows the opening brace is an end of the text. -/
theorem Rewritten.body_suffix {after body : List Char} (h : Rewritten site after body p p₁) :
    body <:+ p.unread := by
  have hbody : after = ((Head.read after).text ++ ['\x7b']) ++ body := by
    rw [List.append_assoc, List.singleton_append, ← h.rest, Head.text_append_rest]
  refine ⟨site.word.toList ++ ((Head.read after).text ++ ['\x7b']), ?_⟩
  rw [h.unread, List.append_assoc, ← hbody]

/-- Behind the injected statements the rewritten text ends as the text did. -/
theorem Injected.text {after body : List Char} (hinjected : Injected site e h p₁ q)
    (hrewritten : Rewritten site after body p p₁) :
    q.pos = Outline.inside site (Head.read after) p.pos ∧
      q.pos ≤ q.buffer.text.length ∧ q.unread = body ∧
      q.buffer.text.take q.pos = p.buffer.text.take p.pos ++ (site.word.toList ++
        ((Head.read after).expanded site.package ++ '\x7b' :: site.injected)) := by
  have hpos : q.pos = Outline.inside site (Head.read after) p.pos := by
    rw [hinjected.pos, hrewritten.block, Outline.inside]
  have htext : q.buffer.text = (p.buffer.text.take p.pos ++ (site.word.toList ++
      ((Head.read after).expanded site.package ++ '\x7b' :: site.injected))) ++ body := by
    rw [hinjected.buffer, hrewritten.text]
    simp
  have hlength : (p.buffer.text.take p.pos ++ (site.word.toList ++
      ((Head.read after).expanded site.package ++ '\x7b' :: site.injected))).length = q.pos := by
    rw [hpos, Outline.inside, List.length_append, List.length_take,
      Nat.min_eq_left hrewritten.inside]
    simp only [List.length_append, List.length_cons]
    omega
  refine ⟨hpos, ?_, ?_, ?_⟩
  · rw [htext, List.length_append, hlength]
    omega
  · rw [Parser.unread, htext, List.drop_left' hlength]
  · rw [htext, List.take_left' hlength]

/-- The outline of a declaration, from the outline of its body. -/
theorem Outlined.declared {q' : Parser} {count : Nat} {rest : List Char}
    (hexpand : Expands site p p₁) (hopen : Frame e₁ h₁ (p₁.move count).opened q)
    (hinjected : Injected site e₁ h₁ p₁ q) (hbody : Frame e₂ h₂ q q')
    (ho : q.pos ≤ q.buffer.text.length → ∃ o, Outlined o e₂ h₂ q q')
    (hbrace : significant q'.unread = '\x7d' :: rest)
    (hclose : closeScope (q'.skip.move 1) = .ok () t) :
    ∃ head body, Outlined (.declared site head body .done)
      (((h₁ ++ h₂).map (.ran · (q'.skip.move 1).pos)).reverse ++
        .closed :: (e₂ ++ e₁ ++ [.opened, .dispatched site])) [] p (t.move 1) := by
  obtain ⟨after, text, hrewritten, -⟩ := hexpand.rewritten
  obtain ⟨hinside, hq, hunread, htake⟩ := hinjected.text hrewritten
  obtain ⟨restores, rfl, hrestores⟩ := hinjected.hooks
  obtain ⟨later, rfl, hlater⟩ := hinjected.events
  obtain ⟨o, ho⟩ := ho hq
  let head := Head.read after
  let body := o ++ Outline.ofText (q'.unread.take (insignificant q'.unread))
  have hskip : Outlined body e₂ h₂ q q'.skip := ho.skip hq
  have hbrace' : q'.skip.unread = '\x7d' :: rest := q'.unread_skip.trans hbrace
  have hrest : (q'.skip.move 1).unread = rest := by
    rw [Parser.unread_move, hbrace']
    rfl
  have hone : 1 ≤ q'.skip.unread.length := by simp [hbrace']
  have hpass := hskip.trans (.move hone) hq
  rw [hbrace'] at hpass
  -- no finalizer but the one of the declaration waits for the end of the block
  have hhooks : ∀ hook ∈ restores ++ h₂, hook.finalizes = false := fun hook hhook =>
    (List.mem_append.1 hhook).elim (hrestores hook) (ho.hooks hook)
  obtain ⟨-, hpos, hsame, n, hn, hparen⟩ := closing_fires (p := p₁.move count) hopen
    hinjected.finalizers hbody.pass hclose
  rw [List.countP_eq_zero.2 fun hook hhook => by simp [hhooks hook hhook]] at hn
  obtain rfl : n = 0 := by omega
  rw [List.replicate_zero, List.nil_append, hrest] at hparen
  have hbehind : (t.move 1).unread = rest := by
    rw [Parser.unread_move, hparen]
    rfl
  have hafter : after = head.text ++ '\x7b' :: (body.original ++ '\x7d' :: rest) := by
    rw [← hbrace', hskip.original, hunread, ← hrewritten.rest]
    exact (Head.text_append_rest after).symm
  have hend : t.pos = q'.skip.pos + 1 := hpos
  refine ⟨head, body, by simp, ?_, ?_, ?_, ?_, ?_, ?_, ?_, trivial⟩
  · rw [hbehind, hrewritten.unread, hafter, Outline.original]
    simp [Outline.original]
  · have htext : t.buffer.text = t.buffer.text.take t.pos ++ t.unread :=
      (List.take_append_drop _ _).symm
    rw [Parser.move_buffer, hbehind, htext, hpos, hsame, hparen, hpass.take hq, htake]
    simp [Outline.expanded, head]
  · rw [Outline.length_expanded_declared, ← hinside, Parser.move_pos, hend, hskip.pos]
    rfl
  · have hquiet : later.filterMap Event.site? = [] :=
      List.filterMap_eq_nil_iff.2 fun event hevent => (hlater event hevent).1
    rw [List.filterMap_append, filterMap_site?_ran, Outline.sites, hskip.sites]
    simp [List.filterMap_cons, Event.site?, hquiet, Outline.sites]
  · have hquiet : later.filterMap Event.finalized? = [] :=
      List.filterMap_eq_nil_iff.2 fun event hevent => (hlater event hevent).2.2
    have hclosing : (((.finalize p₁.finalizers.length :: restores) ++ h₂).map
        (Event.ran · (q'.skip.move 1).pos)).reverse.filterMap Event.finalized? =
          [(q'.skip.move 1).pos] := by
      rw [List.cons_append, List.map_cons, List.reverse_cons, List.filterMap_append,
        filterMap_finalized?_ran hhooks]
      rfl
    rw [List.filterMap_append, hclosing, Outline.closings, ← hinside, hskip.closings]
    simp [List.filterMap_cons, Event.finalized?, hquiet, Outline.closings, hskip.pos]
  · rw [Outline.original, List.nil_append, hbehind, ← hafter]
    refine ⟨hexpand.offset, ?_, rfl, hrewritten.name, hrewritten.version, hrewritten.block⟩
    rw [← hrewritten.unread]
    exact hexpand.word
  · rw [Outline.original, List.nil_append, hbehind, ← hinside, ← hbrace']
    exact hskip.reads

/-- **The outline of a run.**  Its edits are those of the declarations in the run, if every
`begin` statement is the trigger of one. -/
theorem Runs.outlined (hrun : Runs e h p p') (hsites : ∀ site, .dispatched site ∈ e → site.Plain)
    (htriggers : OnlyTriggers e) (hp : p.pos ≤ p.buffer.text.length) :
    ∃ o, Outlined o e h p p' := by
  induction hrun with
  | stay p => exact ⟨_, .still rfl rfl (by simp) (by simp)⟩
  | @seq _ _ _ _ p q r hpq hqr ih₁ ih₂ =>
    have hsites₁ := fun site hsite => hsites site (List.mem_append_right _ hsite)
    have hsites₂ := fun site hsite => hsites site (List.mem_append_left _ hsite)
    obtain ⟨ht₁, ht₂⟩ := htriggers.of_append (hpq.within hsites₁) (hqr.within hsites₂)
    obtain ⟨o₁, ho₁⟩ := ih₁ hsites₁ ht₁ hp
    obtain ⟨o₂, ho₂⟩ := ih₂ hsites₂ ht₂ (ho₁.inside hp)
    exact ⟨_, ho₁.trans ho₂ hp⟩
  | move p hcount => exact ⟨_, .move hcount⟩
  | entered _ h =>
    obtain ⟨scope, scopes, -, rfl⟩ := enterPackage_eq_ok.1 h
    exact ⟨_, .still rfl rfl (by simp) (by simp)⟩
  | installed _ h =>
    obtain ⟨features, scope, scopes, -, -, rfl⟩ := installKeyword_eq_ok h
    refine ⟨_, .still rfl rfl ?_ ?_⟩
    · simp [Event.Quiet, Event.site?, Event.began?, Event.finalized?]
    · simp [Parser.restoring, ScopeHook.finalizes]
  | began _ _ _ h =>
    -- a `begin` statement on its own is no trigger
    obtain ⟨site, hsite, -⟩ := htriggers _ (List.mem_cons_of_mem _ List.mem_cons_self)
    simp at hsite
  | defined p package name function =>
    refine ⟨_, .still rfl rfl ?_ (by simp)⟩
    simp [Event.Quiet, Event.site?, Event.began?, Event.finalized?]
  | expanded hsite h => exact absurd (hsites _ List.mem_cons_self) hsite
  | @block e _ p _ _ hbody hclose ih =>
    have hinner : OnlyTriggers e := (htriggers.of_closed.of_append (Within.opened p)
      (hbody.within fun site hsite => hsites site (by simp [hsite]))).2
    obtain ⟨o, ho⟩ := ih (fun site hsite => hsites site (by simp [hsite])) hinner hp
    have hopened : Outlined .done [.opened] [] p p.opened :=
      .still rfl rfl (by simp [Event.Quiet, Event.site?, Event.began?, Event.finalized?]) (by simp)
    have hclosed := hopened.trans (ho.closes hbody.frame rfl hclose) hp
    rw [List.append_assoc, List.cons_append] at hclosed
    exact ⟨_, hclosed⟩
  | @declared _ _ _ _ _ _ _ e₁ e₂ _ _ _ _ hexpand _ hopen hinjected hbody hbrace hclose _ ih₂ =>
    have hsites₁ : ∀ site, .dispatched site ∈ e₁ → site.Plain := fun site hsite =>
      hsites site (by simp [hsite])
    have hsites₂ : ∀ site, .dispatched site ∈ e₂ → site.Plain := fun site hsite =>
      hsites site (by simp [hsite])
    have hopening := Within.opening hexpand hinjected (hopen.within hsites₁)
    have hread := htriggers.of_closed
    rw [List.append_assoc] at hread
    have hinner : OnlyTriggers e₂ := (hread.of_append hopening (hbody.within hsites₂)).2
    obtain ⟨head, body, ho⟩ := Outlined.declared hexpand hopen.frame hinjected hbody.frame
      (ih₂ hsites₂ hinner) hbrace hclose
    exact ⟨_, ho⟩

/-! ### Scripts without `begin` -/

/-- The word `begin` stands nowhere in the text. -/
def WithoutBegin (text : List Char) : Prop :=
  ∀ tail, tail <:+ text → Lexeme.word? tail ≠ some "begin".toList

instance (text : List Char) : Decidable (WithoutBegin text) :=
  decidable_of_iff (∀ tail ∈ text.tails, Lexeme.word? tail ≠ some "begin".toList) <| by
    simp only [List.mem_tails]
    rfl

theorem WithoutBegin.suffix {text tail : List Char} (h : WithoutBegin text)
    (htail : tail <:+ text) : WithoutBegin tail := fun rest hrest => h rest (hrest.trans htail)

theorem OnlyTriggers.append (h₁ : OnlyTriggers e₁) (h₂ : OnlyTriggers e₂) :
    OnlyTriggers (e₂ ++ e₁) := by
  intro offset hbegan
  rcases List.mem_append.1 hbegan with hbegan | hbegan
  · obtain ⟨site, hsite, hblock⟩ := h₂ offset hbegan
    exact ⟨site, List.mem_append_left _ hsite, hblock⟩
  · obtain ⟨site, hsite, hblock⟩ := h₁ offset hbegan
    exact ⟨site, List.mem_append_right _ hsite, hblock⟩

theorem OnlyTriggers.closed (ht : OnlyTriggers e) (pos : Nat) :
    OnlyTriggers ((h.map (.ran · pos)).reverse ++ .closed :: e) := by
  intro offset hbegan
  obtain ⟨site, hsite, hblock⟩ := ht offset (by simpa using hbegan)
  exact ⟨site, by simp [hsite], hblock⟩

/-- The only `begin` statement among the injected ones is the trigger. -/
theorem Injected.onlyTriggers (hinjected : Injected site e h p q) :
    OnlyTriggers (e ++ [.opened, .dispatched site]) := by
  obtain ⟨later, rfl, hlater⟩ := hinjected.events
  intro offset hbegan
  have hmem : .began offset ∈ later ∨ offset = site.declaration.block := by simpa using hbegan
  rcases hmem with hmem | rfl
  · exact absurd (hlater _ hmem).2.1 (by simp [Event.began?])
  · exact ⟨site, by simp, rfl⟩

/-- In a text without the word `begin`, every `begin` statement that is read is a trigger: what a
run reads is the text as it was, or injected. -/
theorem Runs.onlyTriggers (hrun : Runs e h p p')
    (hsites : ∀ site, .dispatched site ∈ e → site.Plain) (hp : p.pos ≤ p.buffer.text.length)
    (hbegin : WithoutBegin p.unread) : OnlyTriggers e := by
  induction hrun with
  | stay | move | entered => intro offset hbegan; simp at hbegan
  | installed | defined => intro offset hbegan; simp at hbegan
  | began hword => exact absurd hword (hbegin _ List.suffix_rfl)
  | expanded hsite => exact absurd (hsites _ List.mem_cons_self) hsite
  | seq hpq _ ih₁ ih₂ =>
    have hsites₁ := fun site hsite => hsites site (List.mem_append_right _ hsite)
    have ht₁ := ih₁ hsites₁ hp hbegin
    obtain ⟨o, ho⟩ := hpq.outlined hsites₁ ht₁ hp
    have hsuffix := hbegin.suffix ⟨_, ho.original⟩
    exact ht₁.append
      (ih₂ (fun site hsite => hsites site (List.mem_append_left _ hsite)) (ho.inside hp) hsuffix)
  | @block e _ p _ _ _ _ ih =>
    have hinner : OnlyTriggers e := ih (fun site hsite => hsites site (by simp [hsite])) hp hbegin
    refine OnlyTriggers.closed (OnlyTriggers.append ?_ hinner) _
    intro offset hbegan
    simp at hbegan
  | @declared _ _ _ _ _ _ _ _ e₂ _ _ _ _ hexpand _ _ hinjected _ _ _ _ ih₂ =>
    obtain ⟨after, body, hrewritten, -⟩ := hexpand.rewritten
    obtain ⟨-, hinside, hunread, -⟩ := hinjected.text hrewritten
    have hinner : OnlyTriggers e₂ := ih₂ (fun site hsite => hsites site (by simp [hsite])) hinside
      (by rw [hunread]; exact hbegin.suffix hrewritten.body_suffix)
    have hread := hinjected.onlyTriggers.append hinner
    rw [← List.append_assoc] at hread
    exact hread.closed _

/-! ### Whole scripts -/

/-- What a script starts from is plain: its features, the keywords that there are, and a package
that a word names. -/
structure Setting.Plain (setting : Setting) : Prop where
  features : setting.features.Plain
  keywords : setting.namespaces.Plain
  package : IsWord setting.package.toList

/-- The standard features are plain. -/
theorem Registry.standard_plain : Registry.standard.Plain := by
  intro name feature hfeature
  simp only [standard, register, empty, Table.get?_put] at hfeature
  split at hfeature
  · obtain rfl := Feature.block.inj (Option.some.inj hfeature)
    exact ⟨Lexeme.isWord_of_plain (by decide) (by decide), by simp [BlockFeature.standard]⟩
  · split at hfeature <;> cases hfeature

theorem Namespaces.initial_plain : Namespaces.initial.Plain := initial_each Keyword.Plain

theorem Setting.Plain.parser {setting : Setting} (h : setting.Plain) (text : String) :
    (setting.parser text).Plain :=
  ⟨h.features, Namespaces.Each.declare _ h.keywords, by simp [Setting.parser, Parser.start],
    by simpa [Setting.parser, Parser.start] using h.package, h.package⟩

namespace Parse

/-- Nothing but the default statements, and statements of plain features, is injected. -/
def InjectsDefaults (events : List Event) : Prop :=
  ∀ site, .dispatched site ∈ events → site.options.preamble = [] ∧ site.feature.Plain

/-- A script is a run in its outermost scope, whose declarations inject the default statements,
and the end of that scope. -/
theorem script_runs {setting : Setting} {text : String} {program : List Node} {p : Parser}
    (hpackage : IsWord setting.package.toList) (hinjects : InjectsDefaults p.journal)
    (h : script setting (setting.parser text) = .ok program p) :
    ∃ q r e hooks, Runs e hooks (setting.parser text) q ∧ closeScope q = .ok () r ∧
      significant r.unread = [] ∧ p = r.skip ∧
      p.journal = (hooks.map (.ran · q.pos)).reverse ++ .closed :: e ∧
      ∀ site, .dispatched site ∈ e → site.Plain := by
  obtain ⟨q, r, ⟨e, hooks, hruns⟩, hclose, hend, rfl⟩ := script_eq_ok h
  have hran := hruns.frame.closes rfl hclose
  have hjournal : r.skip.journal = (hooks.map (.ran · q.pos)).reverse ++ .closed :: e := by
    have hread : q.journal = e ++ [] := hruns.frame.journal
    rw [List.append_nil] at hread
    rw [← hread]
    exact hran.journal
  rw [hjournal] at hinjects
  have hstart : (setting.parser text).Named := ⟨List.forall_mem_singleton.2 hpackage, hpackage⟩
  refine ⟨q, r, e, hooks, hruns, hclose, hend, rfl, hjournal, fun site hsite => ?_⟩
  obtain ⟨hpreamble, hfeature⟩ := hinjects site (by simp [hsite])
  exact ⟨hpreamble, hfeature, hruns.named hstart site hsite⟩

/-- A script in which the word `begin` does not stand has no `begin` statement of its own. -/
theorem script_onlyTriggers {setting : Setting} {text : String} {program : List Node} {p : Parser}
    (hpackage : IsWord setting.package.toList) (hinjects : InjectsDefaults p.journal)
    (hbegin : WithoutBegin text.toList)
    (h : script setting (setting.parser text) = .ok program p) : OnlyTriggers p.journal := by
  obtain ⟨q, r, e, hooks, hruns, -, -, rfl, hjournal, hsites⟩ := script_runs hpackage hinjects h
  rw [hjournal]
  exact (hruns.onlyTriggers hsites (Nat.zero_le _) hbegin).closed _

end Parse

end BraceScript
