import BraceScript.Proofs.Data
import BraceScript.Proofs.Order
import BraceScript.Proofs.Prelude

/-!
# What stops a script

Reading a script ends without success for a reason that is reported, with two exceptions: a
registered thing that is no feature is used as one, or an integer has more digits than any integer
may have (`Blamed`).  Every part of the grammar that may fail by itself fails in this way in a
parser in good order (`Parse.Elementary.blames`), so every call does (`Form.Fails.blamed`).

The steps of the rewriting never fail by themselves: what a declaration or the end of a scope writes
into the text has a place there, and what it writes can be written
(`Parse.rewriting_never_fails`).
-/

namespace BraceScript

open Lexeme (significant)
open Parse

variable {α β : Type} {p q r : Parser} {e : Error} {U V : Prop}

/-! ### Reasons -/

/-- The text is refused, or the options in it are. -/
def Error.isRefusal : Error → Bool
  | misconfigured _ | missingBlock _ | unreadable _ _ => true
  | _ => false

/-- The outcome is such a refusal. -/
def isRefused : Except Error α → Bool
  | .error e => e.isRefusal
  | .ok _ => false

theorem isRefused_iff {outcome : Except Error α} :
    isRefused outcome = true ↔ ∃ e, outcome = .error e ∧ e.isRefusal = true := by
  cases outcome <;> simp [isRefused]

/-- What is refused is reported. -/
theorem Error.isReported_of_isRefusal (h : e.isRefusal = true) : e.isReported = true := by
  cases e <;> first | rfl | cases h

/-- A keyword that is no placeholder. -/
def Keyword.expands : Keyword → Bool
  | .expand .. => true
  | .idle => false

theorem Keyword.expands_iff {keyword : Keyword} :
    keyword.expands = true ↔ ∃ feature options, keyword = .expand feature options := by
  cases keyword <;> simp [Keyword.expands]

/-- Right before the position stands an integer of more digits than any integer may have. -/
def Parser.BehindOverlong (p : Parser) : Prop := Lexeme.EndsOverlong p.buffer.text p.unread

/-- The text is refused, or an integer of too many digits was read, or, where not everything
that is registered can be used (`U`), a thing that cannot be used was. -/
def Blamed (U : Prop) (e : Error) (q : Parser) : Prop :=
  e.isRefusal = true ∨ (e = .integerTooLong ∧ q.BehindOverlong) ∨ (e = .notFeature ∧ ¬ U)

theorem Blamed.mono (h : Blamed V e q) (hUV : U → V) : Blamed U e q :=
  h.imp_right fun h => h.imp_right fun h => ⟨h.1, fun hU => h.2 (hUV hU)⟩

namespace Parse

/-- Where the computation fails, the error has a reason. -/
def Blames (U : Prop) (x : Parse α) (p : Parser) : Prop :=
  ∀ e q, x p = .error e q → Blamed U e q

theorem Blames.bind {x : Parse α} {f : α → Parse β} (hx : Blames U x p)
    (hf : ∀ a q, x p = .ok a q → Blames U (f a) q) : Blames U (x >>= f) p := by
  intro e q h
  rcases Run.bind_eq_error.1 h with h | ⟨a, r, ha, h⟩
  · exact hx e q h
  · exact hf a r ha e q h

theorem blames_pure (a : α) : Blames U (pure a) p := fun _ _ h => absurd h Run.pure_eq_error

theorem blames_get : Blames U get p := by
  intro e q h
  cases h

theorem blames_modify (g : Parser → Parser) : Blames U (modify g) p := by
  intro e q h
  cases h

theorem blames_failAt {fault : Fault} (hfault : fault ≠ .exhausted ∧ fault ≠ .integerTooLong)
    (offset : Nat) : Blames U (failAt offset fault : Parse α) p := by
  intro e q h
  obtain ⟨rfl, -⟩ := EStateM.Result.error.inj h
  left
  cases fault <;> first | rfl | exact absurd rfl hfault.1 | exact absurd rfl hfault.2

theorem blames_fail {fault : Fault} (hfault : fault ≠ .exhausted ∧ fault ≠ .integerTooLong) :
    Blames U (fail fault : Parse α) p := fun e q h => blames_failAt hfault p.pos e q h

/-- A reader that does not run out of fuel fails for a place in the text, or behind an integer. -/
theorem blames_read {x : Reader α} {P : α → Prop} (hlasts : ∀ text, Reader.Lasts x text)
    (hfinds : Reader.Finds x P) : Blames U (read x) p := by
  intro e q h
  simp only [read] at h
  split at h
  · cases h
  · next fault rest hread =>
    obtain ⟨rfl, rfl⟩ := EStateM.Result.error.inj h
    cases hfault : fault.fault with
    | exhausted => exact absurd hfault (hlasts _ _ _ hread)
    | integerTooLong =>
      have hoverlong := hfinds.overlong hread hfault
      obtain ⟨before, lexeme, hunread, -⟩ := id hoverlong
      have hrest : (p.move (p.unread.length - rest.length)).unread = rest := by
        rw [Parser.unread_move, hunread, ← List.append_assoc, List.length_append,
          Nat.add_sub_cancel, List.drop_left]
      refine .inr (.inl ⟨rfl, ?_⟩)
      rw [← hrest] at hoverlong
      exact hoverlong.of_suffix (List.drop_suffix _ _)
    | _ => exact .inl rfl

theorem blames_orMisconfigured {x : Except Misconfiguration α}
    (hx : ∀ cause, x = .error cause → cause.isShowable = true) :
    Blames U (orMisconfigured x) p := by
  intro e q h
  cases x with
  | ok a => exact absurd h Run.pure_eq_error
  | error cause =>
    obtain ⟨rfl, -⟩ := Run.throw_eq_error.1 h
    rw [Options.Refusal.of_showable (hx cause rfl)]
    exact .inl rfl

theorem blames_require (features : Registry) (name : String) :
    Blames U (orMisconfigured (features.require name)) p := by
  refine blames_orMisconfigured fun cause h => ?_
  rw [Registry.require] at h
  split at h
  · cases h
  · obtain rfl := Except.error.inj h
    rfl

/-! ### Installations -/

theorem blames_prepare {options : Value} (hoptions : options.Readable) (feature : BlockFeature) :
    Blames U (prepare feature options) p := by
  intro e q h
  rw [prepare] at h
  cases hrefused : Options.normalise feature options with
  | ok record =>
    rw [hrefused] at h
    exact absurd h Run.pure_eq_error
  | error refusal =>
    rw [hrefused] at h
    obtain ⟨rfl, -⟩ := Run.throw_eq_error.1 h
    obtain ⟨cause, rfl⟩ := Options.normalise_readable hoptions hrefused
    exact .inl rfl

theorem blames_installKeyword {feature : BlockFeature} {target : String} {record : KeywordOptions}
    (hscopes : p.scopes ≠ []) : Blames U (installKeyword feature target record) p := by
  intro e q h
  cases hprovide : p.features.provide (.block feature) with
  | error cause =>
    rw [installKeyword_of_taken hprovide] at h
    obtain ⟨rfl, -⟩ := EStateM.Result.error.inj h
    exact .inl rfl
  | ok features =>
    obtain ⟨r, hinstalled, -⟩ := installKeyword_of_provide hscopes hprovide
    cases hinstalled.symm.trans h

/-- A feature is installed with options that were read, or refused with a cause. -/
theorem blames_installWithin {fuel : Nat} {feature : Feature} {target name : String}
    {options : Value} (hp : p.Orderly) (hfeature : Table.get? p.features name = some feature)
    (hoptions : options.Readable) (hfuel : Suffices fuel options) :
    Blames p.features.Usable (installWithin fuel feature target options) p := by
  induction fuel generalizing feature name options p with
  | zero => simp [Suffices] at hfuel
  | succ fuel ih =>
    cases feature with
    | bare kind other =>
      intro e q h
      obtain ⟨rfl, -⟩ := Run.throw_eq_error.1 h
      exact .inr (.inr ⟨rfl, fun husable => husable name kind other hfeature⟩)
    | block feature =>
      refine (blames_prepare hoptions feature).bind fun record q hprepare => ?_
      obtain ⟨-, rfl⟩ := prepare_eq_ok hprepare
      exact blames_installKeyword hp.scopes
    | dispatcher =>
      refine (blames_orMisconfigured fun cause h =>
        showable_of_featurePairs h hoptions.isShowable).bind fun pairs q horRefused => ?_
      obtain ⟨hpairs, rfl⟩ := orMisconfigured_eq_ok horRefused
      intro e r h
      -- the entries before the refused one have been installed
      obtain ⟨before, pair, after, t, rfl, hbefore, hrefused⟩ := Run.forM_eq_error h
      have hread := Value.Readable.handsOn options _ hoptions hpairs
      have hinstalls : Installs Value.Readable q t := by
        refine forM_installs (fun pair hmem p q hpair => ?_) hbefore
        rw [Run.get_bind] at hpair
        obtain ⟨feature, hregistered, hinstall⟩ := require_bind_eq_ok hpair
        exact installWithin_installs Value.Readable.handsOn
          (hread pair (List.mem_append_left _ hmem)) hregistered hinstall
      have ht := hp.installs (hinstalls.mono fun _ => Value.Readable.recordsWritable)
      rw [Run.get_bind] at hrefused
      have hblamed : Blamed t.features.Usable e r := by
        refine (blames_require _ _).bind (fun feature u hrequire => ?_) e r hrefused
        obtain ⟨hrequired, rfl⟩ := orMisconfigured_eq_ok hrequire
        have hmem : pair ∈ before ++ pair :: after := by simp
        exact ih ht.orderly (get?_of_require hrequired)
          (hread pair hmem) (hfuel.of_featurePairs hpairs pair hmem)
      exact hblamed.mono ht.usable

/-! ### The parts of the grammar -/

theorem blames_closeAtScopeEnd (hp : p.Orderly) : Blames U closeAtScopeEnd p := by
  obtain ⟨scope, scopes, hscopes⟩ := List.exists_cons_of_ne_nil hp.scopes
  have hwaits := (closeAtScopeEnd_eq_ok (u := ())).2 ⟨scope, scopes, hscopes, rfl⟩
  intro e q h
  rw [hwaits] at h
  cases h

theorem blames_enterPackage {name : String} (hp : p.scopes ≠ []) :
    Blames U (enterPackage name) p := by
  obtain ⟨scope, scopes, hscopes⟩ := List.exists_cons_of_ne_nil hp
  have hentered : enterPackage name p = .ok () _ :=
    enterPackage_eq_ok.2 ⟨scope, scopes, hscopes, rfl⟩
  intro e q h
  rw [hentered] at h
  cases h

theorem blames_packageStatement (hp : p.Orderly) : Blames U packageStatement p := by
  refine (blames_read (fun _ => Reader.lasts_word _) (Reader.finds_word _)).bind
    fun name q hname => ?_
  obtain ⟨hword, rfl⟩ := read_word_eq_ok hname
  refine (blames_modify _).bind fun _ q hdeclare => ?_
  obtain rfl := Run.modify_eq_ok.1 hdeclare
  exact blames_enterPackage hp.scopes

theorem blames_useStatement (hp : p.Orderly) : Blames p.features.Usable useStatement p := by
  refine Blames.bind ?_ fun ⟨name, feature⟩ q hname => ?_
  · refine (blames_read (fun _ => Reader.lasts_peek) Reader.finds_peek).bind fun _ _ _ =>
      blames_get.bind fun _ _ _ => (blames_read (fun _ => Reader.lasts_word _)
      (Reader.finds_word _)).bind fun _ _ _ => blames_get.bind fun _ _ _ => ?_
    split
    · exact blames_failAt (by simp) _
    · exact blames_pure _
  · obtain ⟨hword, hfeature, rfl⟩ := featureName_eq_ok hname
    have hnamed := hp.move (.skip_word hword)
    refine (blames_read (fun _ => lasts_useArguments) finds_useArguments).bind
      fun options r hoptions => ?_
    obtain ⟨count, hcount, hread, rfl⟩ := (read_eq_ok drops_useArguments).1 hoptions
    have hmoved := hnamed.orderly.move ⟨count, hcount, rfl⟩
    rw [Blames, Run.get_bind]
    exact blames_installWithin hmoved.orderly hfeature (finds_useArguments.value hread)
      (.inr (Nat.lt_succ_self _))

theorem blames_beginStatement (hp : p.Orderly) (offset : Nat) :
    Blames p.features.Usable (beginStatement offset) p := by
  refine (blames_read (fun _ => Reader.lasts_peek) Reader.finds_peek).bind fun _ q hpeek =>
    blames_get.bind fun _ _ hget => ?_
  obtain ⟨rfl, rfl⟩ := Run.get_eq_ok.1 hget
  refine (blames_read (fun _ => Reader.lasts_word _) (Reader.finds_word _)).bind
    fun name r hname => (blames_read (fun _ => Reader.lasts_expect _)
    (Reader.finds_expect _)).bind fun _ s hpoint => (blames_read (fun _ => Reader.lasts_word _)
    (Reader.finds_word _)).bind fun hook t hhook => blames_get.bind fun _ _ hget => ?_
  obtain ⟨rfl, rfl⟩ := Run.get_eq_ok.1 hget
  have hmove : IsMove p t :=
    (((IsMove.read Reader.drops_peek hpeek).trans (.read (Reader.drops_word _) hname)).trans
      (.read (Reader.drops_expect _) hpoint)).trans (.read (Reader.drops_word _) hhook)
  have hmoved := hp.move hmove
  obtain ⟨count, -, rfl⟩ := hmove
  split
  · exact blames_failAt (by simp) _
  · next kind other hbare =>
    intro e q h
    obtain ⟨rfl, -⟩ := Run.throw_eq_error.1 h
    exact .inr (.inr ⟨rfl, fun husable => husable name kind other hbare⟩)
  · exact blames_failAt (by simp) _
  · split
    · refine (blames_modify _).bind fun _ q hnote => ?_
      obtain rfl := Run.modify_eq_ok.1 hnote
      exact blames_closeAtScopeEnd
        ⟨hmoved.orderly.inside, hp.scopes, hp.keywords, hp.hooks⟩
    · exact blames_failAt (by simp) _

theorem blames_dispatch {keyword : Keyword} {word : String} (hp : p.Orderly)
    (hword : Lexeme.word? p.unread = some word.toList)
    (hlive : p.namespaces.keyword? p.currentPackage word = some keyword) :
    Blames U (dispatch keyword p.pos word) p := by
  cases keyword with
  | idle => exact blames_pure _
  | expand feature options =>
    intro e q h
    obtain ⟨d, herror, -⟩ := dispatch_expand_eq_error.1 h
    rcases hp.expands hword hlive with ⟨d, c, hexpand⟩ | ⟨cause, c, hexpand⟩
    · cases hexpand.symm.trans herror
    · obtain ⟨rfl, -⟩ := EStateM.Result.error.inj (hexpand.symm.trans herror)
      exact .inl rfl

theorem blames_closeScope (hp : p.Orderly) : Blames U closeScope p := by
  intro e q h
  obtain ⟨r, hclose, -⟩ := hp.closes
  cases hclose.symm.trans h

/-- **The parts of the grammar that may fail by themselves fail for a reason.** -/
theorem Elementary.blames {x : Parse α} (hx : Elementary p α x) (hp : p.Orderly) :
    Blames p.features.Usable x p := by
  cases hx with
  | fail hfault => exact blames_fail hfault
  | expect c => exact blames_read (fun _ => Reader.lasts_expect c) (Reader.finds_expect c)
  | word what => exact blames_read (fun _ => Reader.lasts_word what) (Reader.finds_word what)
  | quoted => exact blames_read (fun _ => Reader.lasts_quoted) Reader.finds_quoted
  | number => exact blames_read (fun _ => Literal.lasts_number) Literal.finds_number
  | packageStatement => exact blames_packageStatement hp
  | versionStatement =>
    exact (blames_read (fun _ => lasts_versionLiteral) finds_versionLiteral).bind fun _ _ _ =>
      blames_get.bind fun _ _ _ => blames_pure _
  | useStatement => exact blames_useStatement hp
  | beginStatement offset => exact blames_beginStatement hp offset
  | dispatch hword hlive => exact blames_dispatch hp hword hlive
  | closeScope => exact blames_closeScope hp

/-! ### Calls and whole scripts -/

theorem Stops.blamed (h : Stops p e q) (hp : p.Orderly) : Blamed p.features.Usable e q := by
  obtain ⟨r, α, x, hmove, hx, herror⟩ := h
  have hr := hp.move hmove
  exact (hx.blames hr.orderly e q herror).mono hr.usable

end Parse

variable {n : Nat} {f : Form} {setting : Setting} {text : String} {rest : List Char}

theorem Halts.blamed (h : Halts n f p e q) (hp : p.Orderly) : Blamed p.features.Usable e q := by
  have htracked := Parser.Orderly.tracks.all Parser.Orderly.tracksKeywords n
  have hskip := hp.move (.skip p)
  cases h with
  | first h => exact h.blamed hp
  | statement hnode h =>
    have hr := hskip.trans (htracked.statement hnode hskip.orderly)
    exact (h.blamed hr.orderly).mono hr.usable
  | parenthesized hitem h | item hitem h =>
    have hr := hskip.trans (htracked.expression hitem hskip.orderly)
    exact (h.blamed hr.orderly).mono hr.usable
  | block hs hbody h =>
    have hinner := hp.move (.pass hs)
    have hr := htracked.statements hbody hinner.orderly.opened
    exact (h.blamed hr.orderly).mono fun husable => hr.usable (hinner.usable husable)

/-- **A call that fails has run out of fuel or fails for a reason.** -/
theorem Form.Fails.blamed (h : f.Fails n p e q) (hp : p.Orderly) :
    e = .exhausted ∨ Blamed p.features.Usable e q := by
  rcases h.leads with ⟨g, r, -, he⟩ | ⟨m, g, r, hleads, hhalts⟩
  · exact .inl he
  · obtain ⟨hr, husable⟩ := hleads.orderly hp
    exact .inr ((hhalts.blamed hr).mono husable)

namespace Parse

theorem blames_finish (nodes : List Node) (hp : p.Orderly) : Blames U (finish nodes) p := by
  refine (blames_closeScope hp).bind fun _ q _ =>
    (blames_read (fun _ => Reader.lasts_peek) Reader.finds_peek).bind fun c r _ => ?_
  cases c with
  | none => exact blames_pure _
  | some c => exact blames_fail (by simp)

theorem programWithin_blamed (hp : p.Orderly) (h : programWithin n p = .error e q) :
    e = .exhausted ∨ Blamed p.features.Usable e q := by
  rcases Run.bind_eq_error.1 h with h | ⟨nodes, r, hnodes, h⟩
  · exact Form.Fails.blamed (f := .statements none) h hp
  · have hr := (Parser.Orderly.tracks.all Parser.Orderly.tracksKeywords n).statements hnodes hp
    exact .inr ((blames_finish nodes hr.orderly e q h).mono hr.usable)

end Parse

/-- A script starts in good order. -/
theorem Setting.orderly (h : setting.namespaces.Each Keyword.Accepted) (text : String) :
    (setting.parser text).Orderly where
  inside := Nat.zero_le _
  scopes := List.cons_ne_nil _ _
  keywords := h.declare setting.package
  hooks := by simp [Setting.parser, Parser.start]

theorem Registry.standard_usable : Registry.standard.Usable := by
  intro name kind other h
  simp only [standard, register, empty, Table.get?_put] at h
  split at h
  · cases h
  · split at h <;> cases h

/-- **A script without a prelude fails with an error that is reported**, if all that is registered
can be used; the exception is an integer of too many digits. -/
theorem compile_refused (husable : setting.features.Usable) (hprelude : setting.prelude = [])
    (hkeywords : setting.namespaces.Each Keyword.Accepted) (text : String) :
    (∀ fuel e q, Parse.scriptWithin setting fuel (setting.parser text) = .error e q →
      e ≠ .exhausted →
        e.isRefusal = true ∨ (e = .integerTooLong ∧ q.BehindOverlong)) ∧
      ∀ e, compile text setting = .error e → e ≠ .exhausted →
        e.isReported = true ∨ e = .integerTooLong := by
  have hscript : ∀ fuel e q, Parse.scriptWithin setting fuel (setting.parser text) = .error e q →
      e ≠ .exhausted → e.isRefusal = true ∨ (e = .integerTooLong ∧ q.BehindOverlong) := by
    intro fuel e q h hexhausted
    rw [Parse.scriptWithin, hprelude] at h
    rcases Parse.programWithin_blamed (Setting.orderly hkeywords text) h with
      he | he | he | ⟨-, hunusable⟩
    · exact absurd he hexhausted
    · exact .inl he
    · exact .inr he
    · exact absurd husable hunusable
  refine ⟨hscript, fun e h hexhausted => ?_⟩
  obtain ⟨fuel, heq⟩ := Parse.exists_script_eq setting (setting.parser text)
  rw [compile_eq_ofRun, heq] at h
  cases hrun : Parse.scriptWithin setting fuel (setting.parser text) with
  | ok program q =>
    rw [hrun] at h
    cases h
  | error e' q =>
    rw [hrun] at h
    obtain rfl := Except.error.inj h
    exact (hscript fuel e' q hrun hexhausted).imp Error.isReported_of_isRefusal (·.1)

/-- A declaration without a block is reported. -/
theorem compile_refused_blockless :
    (({} : Setting).features.Usable ∧ ({} : Setting).prelude = [] ∧
        ({} : Setting).namespaces.Each Keyword.Accepted) ∧
      ∃ e, compile "use module; module Foo" {} = .error e ∧ e ≠ .exhausted ∧
        (e.isReported = true ∨ e = .integerTooLong) := by
  have hsetting : ({} : Setting).features.Usable ∧ ({} : Setting).prelude = [] ∧
      ({} : Setting).namespaces.Each Keyword.Accepted :=
    ⟨Registry.standard_usable, rfl, Namespaces.initial_each _⟩
  have hread : isRefused (compile "use module; module Foo" {}) = true := by decide +kernel
  refine ⟨hsetting, ?_⟩
  obtain ⟨e, hcompile, hrefusal⟩ := isRefused_iff.1 hread
  have hexhausted : e ≠ .exhausted := by
    rintro rfl
    cases hrefusal
  exact ⟨e, hcompile, hexhausted,
    (compile_refused hsetting.1 hsetting.2.1 hsetting.2.2 _).2 e hcompile hexhausted⟩

/-- A number of too many digits is not read. -/
theorem Literal.number_overlong {ds : List Char} (hds : ∀ c ∈ ds, c.isDigit = true)
    (hlong : Lexeme.maxDigits < ds.length) :
    ∃ e, Literal.number ds = .error e [] ∧ e.fault = .integerTooLong := by
  have hne : ds ≠ [] := by
    rintro rfl
    simp at hlong
  have hisNumber := Lexeme.isNumber_digits hds hne
  have hread := reader_number_append hisNumber .nil .expectedNumber
  rw [List.append_nil] at hread
  have hvalue : Lexeme.numberValue ds = none := by
    simp [Lexeme.numberValue, filter_underscore_digits hds, count_point_digits hds, hlong]
  obtain ⟨d, rest, rfl, hd, -⟩ := hisNumber.exists_cons
  refine ⟨⟨.integerTooLong, []⟩, ?_, rfl⟩
  rw [Literal.number, Run.bind_of_ok (accept_minus_digit rest hd), Run.bind_of_ok hread, hvalue]
  rfl

/-- An integer of too many digits stops the reading of a statement. -/
theorem Parse.statementsWithin_overlong (hp : p.unread = '1' :: rest)
    (hdigits : ∀ c ∈ '1' :: rest, c.isDigit = true)
    (hlong : Lexeme.maxDigits < ('1' :: rest).length) (fuel : Nat) :
    ∃ q, statementsWithin none (fuel + 3) p = .error .integerTooLong q := by
  obtain ⟨hs, hskip⟩ := Parser.at_mark hp (by decide) (by decide)
  have hpeek := read_peek p
  rw [hs, hskip] at hpeek
  have hpeekWord := read_peekWord p
  rw [hs, hskip, Lexeme.word?_eq_none rest (by decide)] at hpeekWord
  obtain ⟨fault, hnumber, hfault⟩ := Literal.number_overlong hdigits hlong
  obtain ⟨q, hread⟩ : ∃ q, read Literal.number p = .error .integerTooLong q := by
    simp only [read, hp, hnumber, hfault]
    exact ⟨_, rfl⟩
  have hexpression : expressionWithin (fuel + 1) p = .error .integerTooLong q := by
    rw [expressionWithin.eq_def]
    dsimp only
    rw [Run.bind_of_ok hpeek]
    refine Run.bind_eq_error.2 (.inr ⟨p, p, rfl, ?_⟩)
    rw [if_pos (by rfl)]
    exact Run.bind_eq_error.2 (.inl hread)
  have hstatement : statementWithin (fuel + 2) p = .error .integerTooLong q := by
    rw [statementWithin.eq_def]
    dsimp only
    rw [Run.bind_of_ok hpeekWord]
    exact Run.bind_eq_error.2 (.inl hexpression)
  refine ⟨q, ?_⟩
  rw [statementsWithin.eq_def]
  dsimp only
  rw [Run.bind_of_ok hpeek]
  dsimp only [List.head?_cons]
  rw [if_neg (by decide), if_neg (by decide)]
  exact Run.bind_eq_error.2 (.inl hstatement)

/-- An integer of too many digits is an error that is not reported. -/
theorem compile_overlong (hdigits : ∀ c ∈ '1' :: rest, c.isDigit = true)
    (hlong : Lexeme.maxDigits < ('1' :: rest).length) :
    compile (String.ofList ('1' :: rest)) {} = .error .integerTooLong := by
  let p := ({} : Setting).parser (String.ofList ('1' :: rest))
  have hp : p.unread = '1' :: rest := String.toList_ofList
  have hfuel : 3 ≤ fuelFor p := by
    calc 3 ≤ 16 * (0 + 1) * (0 + 256) := by decide
      _ ≤ fuelFor p := Nat.mul_le_mul (Nat.mul_le_mul_left _ (Nat.le_add_left _ _))
        (Nat.add_le_add_right (Nat.zero_le _) _)
  obtain ⟨fuel, hfuel⟩ := Nat.exists_eq_add_of_le' hfuel
  obtain ⟨q, hstatements⟩ := statementsWithin_overlong hp hdigits hlong fuel
  have hscript : script {} p = .error .integerTooLong q := by
    change program p = _
    rw [program_eq, hfuel]
    exact Run.bind_eq_error.2 (.inl hstatements)
  rw [compile, hscript]

/-- One digit more than an integer may have. -/
def longInteger : String := String.ofList ('1' :: List.replicate Lexeme.maxDigits '1')

/-- **Not every error is reported**: an integer of too many digits is not. -/
theorem integer_error_unreported : compile longInteger {} = .error .integerTooLong ∧
    Error.integerTooLong.isReported = false :=
  ⟨compile_overlong (by simp [List.mem_replicate]) (by simp), rfl⟩

/-! ### The rewriting -/

namespace Parse

/-- **The steps of the rewriting never fail.**  When a prelude has been installed, in which all
records that are given as they are can be written, a script is read with so much fuel from a parser
`p`.  Whatever states the reading goes through (`Leads`):

* the statements for the top of a block can be written for every live keyword, and a declaration
  that is read is expanded, unless its block is missing;
* where a block has been read up to its brace, and where the script has, its scope can be closed,
  so the declarations that wait for it are;
* the script does not fail with an edit outside its text, with a value that cannot be written, or
  for want of a scope. -/
theorem rewriting_never_fails (hkeywords : setting.namespaces.Each Keyword.Accepted)
    (hrecords : ∀ row ∈ setting.prelude, row.2.RecordsWritable)
    (hprelude : installPrelude setting.package setting.prelude (setting.parser text) = .ok () p)
    (fuel : Nat) :
    (∀ m f q word feature options, Leads fuel (.statements none) p m f q →
      Lexeme.word? q.skip.unread = some word.toList →
      q.skip.namespaces.keyword? q.skip.currentPackage word = some (.expand feature options) →
        (∀ name version, ∃ statements,
          Preamble.generate feature name version options = .ok statements) ∧
        ((∃ d c, Declaration.expand feature options q.skip.currentPackage word
            ⟨q.skip.buffer, q.skip.pos⟩ = .ok d c) ∨
          ∃ cause c, Declaration.expand feature options q.skip.currentPackage word
            ⟨q.skip.buffer, q.skip.pos⟩ = .error (.missingBlock cause) c)) ∧
      (∀ m q rest nodes r rest', Leads fuel (.statements none) p (m + 1) .block q →
        significant q.unread = '\x7b' :: rest →
        statementsWithin (some "\x7d") m (q.skip.move 1).opened = .ok nodes r →
        significant r.unread = '\x7d' :: rest' →
          ∃ s, closeScope (r.skip.move 1) = .ok () s) ∧
      (∀ nodes r, statementsWithin none fuel p = .ok nodes r → ∃ s, closeScope r = .ok () s) ∧
      ∀ e q, programWithin fuel p = .error e q →
        (∀ cause, e ≠ .outsideBuffer cause) ∧ (∀ cause, e ≠ .unwritable cause) ∧
          e ≠ .noScope := by
  have hinstalls := installPrelude_given Value.RecordsWritable.handsOn hrecords hprelude
  have hp : p.Orderly := ((Setting.orderly hkeywords text).installs hinstalls).orderly
  refine ⟨?_, ?_, ?_, ?_⟩
  · intro m f q word feature options hleads hword hlive
    have hq := ((hleads.orderly hp).1.move (.skip q)).orderly
    exact ⟨(hq.accepted hlive).generate, hq.expands hword hlive⟩
  · intro m q rest nodes r rest' hleads hopen hbody hbrace
    have hinner := (hleads.orderly hp).1.move (.pass hopen)
    have hr := (Parser.Orderly.tracks.all Parser.Orderly.tracksKeywords m).statements hbody
      hinner.orderly.opened
    obtain ⟨s, hclose, -⟩ := (hr.orderly.move (.pass hbrace)).orderly.closes
    exact ⟨s, hclose⟩
  · intro nodes r hbody
    have hr := (Parser.Orderly.tracks.all Parser.Orderly.tracksKeywords fuel).statements hbody hp
    obtain ⟨s, hclose, -⟩ := hr.orderly.closes
    exact ⟨s, hclose⟩
  · intro e q h
    rcases programWithin_blamed hp h with rfl | he | ⟨rfl, -⟩ | ⟨rfl, -⟩
    · simp
    · cases e <;> simp_all [Error.isRefusal]
    · simp
    · simp

/-- A keyword with a preamble that is no script, installed before the script, and one with options
that are given as a record. -/
def boxedSetting : Setting where
  prelude := [("module", .mapping [(.text "as", .text "box"),
      (.text "inner", .list [.text "syntax", .text "module"]),
      (.text "preamble", .list [.text "\x7d \"", .text "box"])]),
    ("syntax", .list [.text "module", .record "crate" [("module", .null)] ["box"]])]

/-- A declaration with that keyword is expanded. -/
theorem rewriting_never_fails_boxed :
    boxedSetting.namespaces.Each Keyword.Accepted ∧
      (∀ row ∈ boxedSetting.prelude, row.2.RecordsWritable) ∧
      ∃ p feature options,
        installPrelude boxedSetting.package boxedSetting.prelude
          (boxedSetting.parser "box A 1.2 \x7b 3 \x7d") = .ok () p ∧
        Leads 9 (.statements none) p 9 (.statements none) p ∧
        Lexeme.word? p.skip.unread = some "box".toList ∧
        p.skip.namespaces.keyword? p.skip.currentPackage "box" = some (.expand feature options) ∧
        ((∃ d c, Declaration.expand feature options p.skip.currentPackage "box"
            ⟨p.skip.buffer, p.skip.pos⟩ = .ok d c) ∨
          ∃ cause c, Declaration.expand feature options p.skip.currentPackage "box"
            ⟨p.skip.buffer, p.skip.pos⟩ = .error (.missingBlock cause) c) := by
  have hkeywords : boxedSetting.namespaces.Each Keyword.Accepted := Namespaces.initial_each _
  have hrecords : ∀ row ∈ boxedSetting.prelude, row.2.RecordsWritable := by
    have hcrate : Literal.Writable
        (KeywordOptions.mk "crate" [⟨"module", .null⟩] ["box"]).toValue := ⟨_, rfl⟩
    simpa [boxedSetting, Value.RecordsWritable, Value.records, Value.recordsOfItems, Value.record?]
      using hcrate
  have hread : Run.passes (fun _ p => decide (Lexeme.word? p.skip.unread = some "box".toList) &&
      (p.skip.namespaces.keyword? p.skip.currentPackage "box").any Keyword.expands)
      (installPrelude boxedSetting.package boxedSetting.prelude
        (boxedSetting.parser "box A 1.2 \x7b 3 \x7d")) = true := by decide +kernel
  obtain ⟨_, p, hprelude, hread⟩ := Run.passes_iff.1 hread
  simp only [Bool.and_eq_true, decide_eq_true_iff, Option.any_eq_true] at hread
  obtain ⟨hword, keyword, hkeyword, hexpands⟩ := hread
  obtain ⟨feature, options, rfl⟩ := Keyword.expands_iff.1 hexpands
  refine ⟨hkeywords, hrecords, p, feature, options, hprelude, .here _ _ _, hword, hkeyword, ?_⟩
  exact ((rewriting_never_fails hkeywords hrecords hprelude 9).1 9 _ p "box" feature options
    (.here _ _ _) hword hkeyword).2

/-- A record of which no literal can be written: a key in it is no text. -/
def unwritableRecord : KeywordOptions := ⟨"module", [⟨"x", .mapping [(.int 1, .int 2)]⟩], []⟩

/-- **A record without a literal stops the rewriting.**  It is installed as it is, and in the first
block the statement that installs the keyword again cannot be printed. -/
theorem record_stops_rewriting :
    let setting : Setting := { prelude := [("module", unwritableRecord.asValue)] }
    let text := "module Foo \x7b 2 \x7d"
    (∃ p, installPrelude setting.package setting.prelude (setting.parser text) = .ok () p) ∧
      ∃ cause, compile text setting = .error (.unwritable cause) := by
  intro setting text
  have hprelude : Run.passes (fun _ _ => true)
      (installPrelude setting.package setting.prelude (setting.parser text)) = true := by
    decide +kernel
  have hscript : Run.fails (fun e _ => e matches .unwritable _)
      (script setting (setting.parser text)) = true := by
    decide +kernel
  obtain ⟨_, p, hprelude, -⟩ := Run.passes_iff.1 hprelude
  obtain ⟨e, q, hscript, he⟩ := Run.fails_iff.1 hscript
  refine ⟨⟨p, hprelude⟩, ?_⟩
  rw [compile, hscript]
  cases e with
  | unwritable cause => exact ⟨cause, rfl⟩
  | _ => cases he

end Parse

end BraceScript
