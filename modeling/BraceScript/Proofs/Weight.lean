import BraceScript.Proofs.Rewriting

/-!
# What a run uses up

An expansion makes the text longer, so the length of the unread text is no measure for what is left
to be read.  What goes down is the length of the text behind the declarations that have been
expanded (`Parser.weight`): reading the injected statements takes nothing off it, and the block
behind them begins with less than its declaration did.  A closing parenthesis that waits for the end
of its block counts from the moment at which it is registered.

An expansion needs an opening brace of its own, and the injected statements expand nothing.  So a
run expands no more declarations than it leaves braces behind (`Runs.spends`).
-/

namespace BraceScript

open Lexeme (significant)
open Declaration (Head)
open Parse

/-- The number of declarations that were expanded. -/
def expansions (events : List Event) : Nat := events.countP fun event => event.site?.isSome

/-- Only the default statements are injected. -/
structure Site.Default (site : Site) : Prop where
  preamble : site.options.preamble = []
  extra : site.feature.extra = []

namespace Parser

/-- The number of finalizers that wait for the end of a scope. -/
def waiting (scopes : List Scope) : Nat :=
  (scopes.map fun scope => scope.hooks.countP (·.finalizes)).sum

/-- What is left to be read: the unread text and the closing parentheses that wait. -/
def weight (p : Parser) : Nat := p.unread.length + waiting p.scopes

/-- The number of opening braces that are unread. -/
def braces (p : Parser) : Nat := p.unread.count '\x7b'

end Parser

open BraceScript.Parser (waiting)

variable {e e₁ e₂ : List Event} {h h₁ h₂ : List ScopeHook} {p q r p' : Parser} {site : Site}

@[simp] theorem expansions_append (e₁ e₂ : List Event) :
    expansions (e₁ ++ e₂) = expansions e₁ + expansions e₂ := List.countP_append

@[simp] theorem expansions_nil : expansions [] = 0 := rfl

@[simp] theorem expansions_cons (event : Event) (events : List Event) :
    expansions (event :: events) = expansions events + if event.site?.isSome then 1 else 0 :=
  List.countP_cons

theorem expansions_eq_zero : expansions e = 0 ↔ ∀ event ∈ e, event.site? = none := by
  simp [expansions, List.countP_eq_zero]

/-- Hooks that run expand nothing. -/
@[simp] theorem expansions_ran (hooks : List ScopeHook) (pos : Nat) :
    expansions ((hooks.map (.ran · pos)).reverse) = 0 := by
  simp [expansions_eq_zero, Event.site?]

@[simp] theorem waiting_cons (scope : Scope) (scopes : List Scope) :
    waiting (scope :: scopes) = scope.hooks.countP (·.finalizes) + waiting scopes := rfl

theorem Grown.waiting_eq {scopes scopes' : List Scope} (hgrown : Grown h scopes scopes') :
    waiting scopes' = waiting scopes + h.countP (·.finalizes) := by
  cases hgrown with
  | none hnil => simp [hnil]
  | innermost scopes heq _ =>
    rw [waiting_cons, waiting_cons, heq, List.countP_append]
    omega

/-- A declaration whose statements are the default ones injects nothing that reading could stumble
over, where the features are plain. -/
theorem Site.Default.plain (hsite : site.Default) (hp : p.Plain) (hexpand : Expands site p q) :
    site.Plain :=
  have hplain := (hexpand.plain hp).2
  ⟨hsite.preamble, hplain.1, hplain.2⟩

/-- From one parser to the other nothing has become heavier, and the declarations that were expanded
have taken a brace each. -/
structure Spends (events : List Event) (p q : Parser) : Prop where
  weight : q.weight ≤ p.weight
  braces : expansions events + q.braces ≤ p.braces

namespace Spends

theorem refl (p : Parser) : Spends [] p p := ⟨Nat.le_refl _, by simp [expansions]⟩

theorem trans (hpq : Spends e₁ p q) (hqr : Spends e₂ q r) : Spends (e₂ ++ e₁) p r where
  weight := hqr.weight.trans hpq.weight
  braces := by
    have := hpq.braces
    have := hqr.braces
    rw [expansions_append]
    omega

/-- Without expansions, an end of the unread text is left. -/
theorem of_suffix (he : expansions e = 0) (hunread : q.unread <:+ p.unread)
    (hweight : q.weight ≤ p.weight) : Spends e p q where
  weight := hweight
  braces := by
    rw [he, Nat.zero_add]
    exact hunread.sublist.count_le _

theorem of_eq (he : expansions e = 0) (hunread : q.unread = p.unread)
    (hwaiting : waiting q.scopes = waiting p.scopes) : Spends e p q :=
  .of_suffix he (hunread ▸ List.suffix_rfl) (by rw [Parser.weight, hunread, hwaiting]; rfl)

theorem move (p : Parser) (count : Nat) : Spends [] p (p.move count) := by
  have hunread := p.unread_move count
  refine of_suffix rfl (hunread ▸ List.drop_suffix _ _) ?_
  rw [Parser.weight, hunread, List.length_drop]
  exact Nat.add_le_add_right (Nat.sub_le _ _) _

theorem skip (p : Parser) : Spends [] p p.skip := move p _

theorem opened (p : Parser) : Spends [.opened] p p.opened := of_eq rfl rfl (Nat.zero_add _)

end Spends

/-- Passing a significant character makes the rest lighter. -/
theorem Parser.weight_pass {c : Char} {rest : List Char} (hs : significant p.unread = c :: rest) :
    (p.skip.move 1).weight < p.weight := by
  have hlength : (significant p.unread).length ≤ p.unread.length :=
    (List.drop_suffix _ _).length_le
  rw [Parser.weight, Parser.unread_move, Parser.unread_skip, hs]
  rw [hs, List.length_cons] at hlength
  change rest.length + waiting p.scopes < p.unread.length + waiting p.scopes
  omega

/-- Passing a word makes the rest lighter. -/
theorem Parser.weight_word {w : String} (hword : Lexeme.word? p.unread = some w.toList) :
    (p.move w.length).weight < p.weight := by
  have hlength : w.length ≤ p.unread.length := by
    rw [← String.length_toList]
    exact length_le_of_word? hword
  obtain ⟨c, tail, hcons, -⟩ := (Lexeme.IsWord.of_word? hword).exists_cons
  have hpos : 0 < w.length := by
    rw [← String.length_toList, hcons]
    exact Nat.succ_pos _
  rw [Parser.weight, Parser.unread_move, List.length_drop]
  change p.unread.length - w.length + waiting p.scopes < p.unread.length + waiting p.scopes
  omega

/-- The end of a scope turns finalizers that wait into parentheses, at most one for each. -/
theorem Spends.closes {package : String} {scopes : List Scope} (hframe : Frame e h p q)
    (hscopes : p.scopes = { package } :: scopes) (hclose : closeScope q = .ok () p') :
    Spends ((h.map (.ran · q.pos)).reverse ++ [.closed]) q p' := by
  have hran := hframe.closes hscopes hclose
  obtain ⟨n, hn, hinside, htext⟩ := hran.text
  have hunread : p'.unread = List.replicate n ')' ++ q.unread :=
    (Ran.unread_eq hinside hran.pos htext).2
  have hwaiting : waiting q.scopes = waiting scopes + h.countP (·.finalizes) := by
    rw [hframe.scopes.waiting_eq, hscopes, waiting_cons]
    simp
  refine ⟨?_, ?_⟩
  · rw [Parser.weight, Parser.weight, hunread, hran.scopes, hwaiting, List.length_append,
      List.length_replicate]
    change n + q.unread.length + waiting scopes ≤ _
    omega
  · rw [expansions_append, expansions_ran, Parser.braces, Parser.braces, hunread,
      List.count_append, List.count_replicate]
    simp [expansions, Event.site?]

/-- The text before an expansion, with the keyword and the brace in front of the body. -/
theorem Rewritten.unread_eq {after body : List Char} {p₁ : Parser}
    (h : Rewritten site after body p p₁) :
    p.unread = site.word.toList ++ ((Head.read after).text ++ '\x7b' :: body) := by
  rw [h.unread, ← h.rest, Head.text_append_rest]

/-- **A declaration that has been opened** has taken its keyword and its brace, for which one
finalizer waits. -/
theorem Injected.spends {after body : List Char} {count : Nat} {p₁ : Parser}
    (hexpand : Expands site p p₁) (hrewritten : Rewritten site after body p p₁)
    (hopen : Runs e₁ h₁ (p₁.move count).opened q) (hinjected : Injected site e₁ h₁ p₁ q) :
    q.weight < p.weight ∧ q.braces + 1 ≤ p.braces ∧ expansions e₁ = 0 ∧ q.unread = body := by
  obtain ⟨-, -, hunread, -⟩ := hinjected.text hrewritten
  obtain ⟨c, tail, hcons, -⟩ := (Lexeme.IsWord.of_word? hexpand.word).exists_cons
  have htext := hrewritten.unread_eq
  obtain ⟨restores, hrestores, hquiet⟩ := hinjected.hooks
  have hcount : h₁.countP (·.finalizes) = 1 := by
    rw [hrestores, List.countP_cons,
      List.countP_eq_zero.2 fun hook hhook => by simp [hquiet hook hhook]]
    simp [ScopeHook.finalizes]
  obtain ⟨⟨buffer, rfl⟩, -⟩ := hexpand.frame
  have hwaiting : waiting q.scopes = waiting p.scopes + 1 := by
    rw [hopen.frame.scopes.waiting_eq, hcount]
    exact congrArg (· + 1) (Nat.zero_add _)
  refine ⟨?_, ?_, ?_, hunread⟩
  · rw [Parser.weight, Parser.weight, hunread, htext, hwaiting, hcons]
    simp only [List.length_append, List.length_cons]
    omega
  · rw [Parser.braces, Parser.braces, hunread, htext, List.count_append, List.count_append,
      List.count_cons_self]
    omega
  · obtain ⟨later, rfl, hlater⟩ := hinjected.events
    rw [expansions_append, expansions_eq_zero.2 fun event hevent => (hlater event hevent).1]
    rfl

/-- **What a run uses up.** -/
theorem Runs.spends (hrun : Runs e h p p') (hp : p.Plain)
    (hsites : ∀ site, .dispatched site ∈ e → site.Default) : Spends e p p' := by
  induction hrun with
  | stay p => exact .refl p
  | seq h₁ _ ih₁ ih₂ =>
    exact (ih₁ hp fun site hsite => hsites site (List.mem_append_right _ hsite)).trans
      (ih₂ (h₁.plain hp).1 fun site hsite => hsites site (List.mem_append_left _ hsite))
  | move p _ => exact .move p _
  | entered hname h =>
    have hwaiting := (Frame.entered hname h).scopes.waiting_eq
    obtain ⟨scope, scopes, -, rfl⟩ := enterPackage_eq_ok.1 h
    exact .of_eq rfl rfl hwaiting
  | installed _ h =>
    have hwaiting := (Frame.installed h).scopes.waiting_eq
    obtain ⟨features, scope, scopes, -, -, rfl⟩ := installKeyword_eq_ok h
    exact .of_eq rfl rfl (by simpa [Parser.restoring, ScopeHook.finalizes] using hwaiting)
  | @began p p' count _ hpos hle h =>
    -- the word has been read, and a finalizer waits instead
    have hwaiting := (Frame.began h).scopes.waiting_eq
    obtain ⟨scope, scopes, -, rfl⟩ := closeAtScopeEnd_eq_ok.1 h
    have hunread := p.unread_move count
    refine .of_suffix rfl (hunread ▸ List.drop_suffix _ _) ?_
    rw [Parser.weight, hwaiting]
    change (p.move count).unread.length + _ ≤ _
    rw [hunread, List.length_drop, Parser.weight]
    simp [ScopeHook.finalizes]
    omega
  | defined p package name function => exact .of_eq rfl rfl rfl
  | expanded hsite h => exact absurd ((hsites _ (by simp)).plain hp h) hsite
  | @block e h p q p' hbody hclose ih =>
    have hread := (Spends.opened p).trans
      (ih hp.opened fun site hsite => hsites site (by simp [hsite]))
    simpa using hread.trans (.closes hbody.frame rfl hclose)
  | @declared site p p₁ q q' t count e₁ e₂ h₁ h₂ rest hsite hexpand _ hopen hinjected hbody hbrace
      hclose ih₁ ih₂ =>
    obtain ⟨after, body, hrewritten, -⟩ := hexpand.rewritten
    obtain ⟨hweight, hbraces, hnone, -⟩ := hinjected.spends hexpand hrewritten hopen
    have hinner := ih₂ (hopen.plain ((hexpand.plain hp).1.move _).opened).1
      fun site hsite => hsites site (by simp [hsite])
    have hend := (((Spends.skip q').trans (.move _ 1)).trans
      (.closes (hopen.frame.trans hbody.frame).pass rfl hclose)).trans (.move t 1)
    have hread := hinner.trans hend
    have hless := hread.weight
    have hspent := hread.braces
    refine ⟨by omega, ?_⟩
    simp only [expansions_append, expansions_ran, expansions_cons, expansions_nil, hnone,
      Event.site?] at hspent ⊢
    simp only [Option.isSome_none, Option.isSome_some, Bool.false_eq_true, if_true,
      if_false] at hspent ⊢
    omega

end BraceScript
