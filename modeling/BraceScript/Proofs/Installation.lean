import BraceScript.Proofs.Data
import BraceScript.Proofs.Grammar
import BraceScript.Proofs.Runs

/-!
# Statements that leave the text alone

Installing features changes no text and no position: it only adds keywords, and hooks that put
back what their names meant.  `Quiet` collects what the other statements of a preamble leave as
it is, and each of them is shown to be read quietly, whatever stands behind it.
-/

namespace BraceScript

open Lexeme (significant Insignificant IsWord EndsLexeme EndsWord)
open Parse

/-- The parser has moved on and installed keywords, and nothing else. -/
structure Quiet (count : Nat) (p q : Parser) : Prop where
  runs : ∃ e h, Runs e h p q ∧ (∀ x ∈ e, x.Quiet) ∧ ∀ hook ∈ h, hook.finalizes = false
  buffer : q.buffer = p.buffer
  pos : q.pos = p.pos + count
  finalizers : q.finalizers = p.finalizers
  package : q.currentPackage = p.currentPackage

variable {m n : Nat} {p q r : Parser}

theorem Quiet.refl (p : Parser) : Quiet 0 p p :=
  ⟨⟨[], [], .stay p, by simp, by simp⟩, rfl, rfl, rfl, rfl⟩

theorem Quiet.trans (h : Quiet m p q) (h' : Quiet n q r) : Quiet (m + n) p r := by
  obtain ⟨e, hooks, hruns, he, hhooks⟩ := h.runs
  obtain ⟨e', hooks', hruns', he', hhooks'⟩ := h'.runs
  refine ⟨⟨e' ++ e, hooks ++ hooks', hruns.seq hruns', ?_, ?_⟩, h'.buffer.trans h.buffer, ?_,
    h'.finalizers.trans h.finalizers, h'.package.trans h.package⟩
  · exact fun x hx => (List.mem_append.1 hx).elim (he' x) (he x)
  · exact fun x hx => (List.mem_append.1 hx).elim (hhooks x) (hhooks' x)
  · rw [h'.pos, h.pos]
    omega

theorem Quiet.move (p : Parser) (count : Nat) (h : count ≤ p.unread.length) :
    Quiet count p (p.move count) :=
  ⟨⟨[], [], .move p h, by simp, by simp⟩, rfl, rfl, rfl, rfl⟩

/-- What is unread so many characters further on in the same text. -/
theorem Parser.unread_of_pos {s rest : List Char} (hbuffer : q.buffer = p.buffer)
    (hpos : q.pos = p.pos + s.length) (hp : p.unread = s ++ rest) : q.unread = rest := by
  have hdrop : p.buffer.text.drop (p.pos + s.length) = rest := by
    rw [← List.drop_drop, show p.buffer.text.drop p.pos = s ++ rest from hp, List.drop_left]
  rw [Parser.unread, hbuffer, hpos, hdrop]

theorem Quiet.unread {s rest : List Char} (h : Quiet s.length p q) (hp : p.unread = s ++ rest) :
    q.unread = rest := Parser.unread_of_pos h.buffer h.pos hp

/-! ### Installations -/

namespace Parse

theorem installKeyword_quiet {feature : BlockFeature} {target name : String}
    {options : KeywordOptions} (hfeature : Table.get? p.features name = some (.block feature))
    (h : installKeyword feature target options p = .ok () q) : Quiet 0 p q := by
  have hruns := Runs.installed hfeature h
  obtain ⟨features, scope, scopes, -, hscopes, rfl⟩ := installKeyword_eq_ok h
  refine ⟨⟨_, _, hruns, ?_, ?_⟩, rfl, rfl, rfl, ?_⟩
  · simp [Event.Quiet, Event.site?, Event.began?, Event.finalized?]
  · simp [Parser.restoring, ScopeHook.finalizes]
  · simp [Parser.currentPackage, Parser.hooked, Parser.note, hscopes]

theorem orMisconfigured_eq_ok {α : Type} {x : Except Misconfiguration α} {a : α}
    (h : orMisconfigured x p = .ok a q) : x = .ok a ∧ q = p := by
  cases x with
  | error cause => exact absurd h Run.throw_eq_ok
  | ok b =>
    obtain ⟨rfl, rfl⟩ := Run.pure_eq_ok.1 h
    exact ⟨rfl, rfl⟩

theorem get?_of_require {features : Registry} {name : String} {feature : Feature}
    (h : features.require name = .ok feature) : Table.get? features name = some feature := by
  rw [Registry.require] at h
  split at h
  · next hget => rw [hget, Except.ok.inj h]
  · cases h

/-- Something is done with a registered feature, which is looked up by its name. -/
theorem require_bind_eq_ok {α : Type} {name : String} {f : Feature → Parse α} {a : α}
    (h : (orMisconfigured (p.features.require name) >>= f) p = .ok a q) :
    ∃ feature, Table.get? p.features name = some feature ∧ f feature p = .ok a q := by
  obtain ⟨feature, r, hrequire, hdone⟩ := Run.bind_eq_ok.1 h
  obtain ⟨hrequired, rfl⟩ := orMisconfigured_eq_ok hrequire
  exact ⟨feature, get?_of_require hrequired, hdone⟩

theorem prepare_eq_ok {feature : BlockFeature} {options : Value} {prepared : KeywordOptions}
    (h : prepare feature options p = .ok prepared q) :
    Options.normalise feature options = .ok prepared ∧ q = p := by
  rw [prepare] at h
  cases heq : Options.normalise feature options with
  | ok prepared' =>
    rw [heq] at h
    obtain ⟨rfl, rfl⟩ := Run.pure_eq_ok.1 h
    exact ⟨rfl, rfl⟩
  | error refusal =>
    rw [heq] at h
    exact absurd h Run.throw_eq_ok

end Parse

/-- Keywords of registered features have been installed, one after the other, with options that
were normalised from values of some kind. -/
inductive Installs (Given : Value → Prop) : Parser → Parser → Prop
  | refl (p : Parser) : Installs Given p p
  | keyword {p q r : Parser} {feature : BlockFeature} {target name : String} {value : Value}
      {options : KeywordOptions} (hfeature : Table.get? p.features name = some (.block feature))
      (hgiven : Given value) (hoptions : Options.normalise feature value = .ok options)
      (h : installKeyword feature target options p = .ok () q) (more : Installs Given q r) :
      Installs Given p r

variable {Given : Value → Prop}

theorem Installs.trans (h : Installs Given p q) (h' : Installs Given q r) :
    Installs Given p r := by
  induction h with
  | refl => exact h'
  | keyword hfeature hgiven hoptions h _ ih => exact .keyword hfeature hgiven hoptions h (ih h')

theorem Installs.mono {Given' : Value → Prop} (h : Installs Given p q)
    (hkind : ∀ v, Given v → Given' v) : Installs Given' p q := by
  induction h with
  | refl p => exact .refl p
  | keyword hfeature hgiven hoptions h _ ih =>
    exact .keyword hfeature (hkind _ hgiven) hoptions h ih

/-- A setting in which the keyword of a feature is installed, beside the standard features. -/
def Setting.offering (feature : BlockFeature) : Setting where
  features := Registry.standard.register (.block feature)
  prelude := [(feature.name, .null)]

/-- Installing keywords is quiet. -/
theorem Installs.quiet (h : Installs Given p q) : Quiet 0 p q := by
  induction h with
  | refl p => exact .refl p
  | keyword hfeature _ _ h _ ih => exact (installKeyword_quiet hfeature h).trans ih

namespace Parse

theorem forM_installs {α : Type} {f : α → Parse Unit} {as : List α}
    (hf : ∀ a ∈ as, ∀ {p q}, f a p = .ok () q → Installs Given p q)
    (h : as.forM f p = .ok () q) : Installs Given p q := by
  induction as generalizing p with
  | nil =>
    obtain rfl := Run.forM_nil_eq_ok.1 h
    exact .refl p
  | cons a as ih =>
    rw [List.forall_mem_cons] at hf
    obtain ⟨r, ha, has⟩ := Run.forM_cons_eq_ok.1 h
    exact (hf.1 ha).trans (ih hf.2 has)

/-- Installing a registered feature installs keywords, and nothing else. -/
theorem installWithin_installs (hkind : HandsOn Given) {fuel : Nat} {feature : Feature}
    {target name : String} {options : Value} (hoptions : Given options)
    (hfeature : Table.get? p.features name = some feature)
    (h : installWithin fuel feature target options p = .ok () q) : Installs Given p q := by
  induction fuel generalizing feature name options p q with
  | zero => exact absurd h Run.throw_eq_ok
  | succ fuel ih =>
    cases feature with
    | bare => exact absurd h Run.throw_eq_ok
    | block feature =>
      rw [installWithin, installBlock] at h
      obtain ⟨prepared, r, hprepare, hinstall⟩ := Run.bind_eq_ok.1 h
      obtain ⟨hnormalise, rfl⟩ := prepare_eq_ok hprepare
      exact .keyword hfeature hoptions hnormalise hinstall (.refl q)
    | dispatcher =>
      rw [installWithin] at h
      obtain ⟨pairs, r, hpairs, hinstall⟩ := Run.bind_eq_ok.1 h
      obtain ⟨hpaired, rfl⟩ := orMisconfigured_eq_ok hpairs
      refine forM_installs (fun pair hmem p q hpair => ?_) hinstall
      rw [Run.get_bind] at hpair
      obtain ⟨feature, hregistered, hinstall⟩ := require_bind_eq_ok hpair
      exact ih (hkind options pairs hoptions hpaired pair hmem) hregistered hinstall

/-- Installing a registered feature is quiet. -/
theorem installWithin_quiet {fuel : Nat} {feature : Feature} {target name : String}
    {options : Value} (hfeature : Table.get? p.features name = some feature)
    (h : installWithin fuel feature target options p = .ok () q) : Quiet 0 p q :=
  (installWithin_installs .any trivial hfeature h).quiet

/-! ### `use` statements -/

theorem featureName_eq_ok {name : String} {feature : Feature}
    (h : featureName p = .ok (name, feature) q) :
    Lexeme.word? (significant p.unread) = some name.toList ∧
      Table.get? p.features name = some feature ∧ q = p.skip.move name.length := by
  rw [featureName, Run.bind_of_ok (read_peek p), Run.get_bind] at h
  obtain ⟨name', r, hname, hget⟩ := Run.bind_eq_ok.1 h
  obtain ⟨hword, rfl⟩ := read_word_eq_ok hname
  rw [Parser.unread_skip, Lexeme.significant_significant] at hword
  rw [Parser.skip_skip, Run.get_bind] at hget
  cases hfeature : Table.get? p.features name' with
  | none =>
    rw [show (p.skip.move name'.length).features = p.features from rfl, hfeature] at hget
    exact absurd hget failAt_eq_ok
  | some feature' =>
    rw [show (p.skip.move name'.length).features = p.features from rfl, hfeature] at hget
    obtain ⟨heq, rfl⟩ := Run.pure_eq_ok.1 hget
    obtain ⟨rfl, rfl⟩ := Prod.mk.inj heq
    exact ⟨hword, hfeature, rfl⟩

/-- A `use` statement reads the name of a feature and options, and installs the feature. -/
theorem useStatement_eq_ok (h : useStatement p = .ok () q) :
    ∃ name feature options, Lexeme.word? (significant p.unread) = some name.toList ∧
      Table.get? p.features name = some feature ∧
      ∃ count ≤ (p.skip.move name.length).unread.length,
        useArguments (p.skip.move name.length).unread =
          .ok options ((p.skip.move name.length).unread.drop count) ∧
        install feature p.currentPackage options ((p.skip.move name.length).move count) =
          .ok () q := by
  obtain ⟨⟨name, feature⟩, r, hname, h⟩ := Run.bind_eq_ok.1 h
  obtain ⟨hword, hfeature, rfl⟩ := featureName_eq_ok hname
  obtain ⟨options, r, hoptions, h⟩ := Run.bind_eq_ok.1 h
  obtain ⟨count, hcount, hread, rfl⟩ := (read_eq_ok drops_useArguments).1 hoptions
  rw [Run.get_bind] at h
  exact ⟨name, feature, options, hword, hfeature, count, hcount, hread, h⟩

/-- The literal of some value. -/
def IsLiteral (part : List Char) : Prop := ∃ v, Literal.write v = .ok part

theorem endsLexeme_semicolon (rest : List Char) : EndsLexeme (';' :: rest) :=
  .cons rest (Lexeme.isDelimiter_of_mem (by simp))

theorem endsLexeme_comma (rest : List Char) : EndsLexeme (',' :: rest) :=
  .cons rest (Lexeme.isDelimiter_of_mem (by simp))

/-- Behind a literal comes a comma or the semicolon, and both end it. -/
theorem endsLexeme_more (parts : List (List Char)) (rest : List Char) :
    EndsLexeme (parts.flatMap (fun next => ',' :: ' ' :: next) ++ ';' :: rest) := by
  cases parts with
  | nil => exact endsLexeme_semicolon rest
  | cons next parts => exact endsLexeme_comma _

/-- Literals that stand for themselves are the literals of a list of values. -/
theorem exists_writeItems {parts : List (List Char)} (h : ∀ part ∈ parts, IsLiteral part) :
    ∃ vs, Literal.writeItems vs = .ok parts := by
  induction parts with
  | nil => exact ⟨[], rfl⟩
  | cons part parts ih =>
    rw [List.forall_mem_cons] at h
    obtain ⟨⟨v, hv⟩, h⟩ := h
    obtain ⟨vs, hvs⟩ := ih h
    exact ⟨v :: vs, by rw [Literal.writeItems, hv, hvs]; rfl⟩

/-- What a `use` statement hands on for its arguments: nothing, the one value, or the list of
several. -/
def ofArguments : List Value → Value
  | [] => .null
  | [v] => v
  | vs => .list vs

/-- Further literals are read up to a semicolon. -/
theorem moreData_append {vs : List Value} {parts : List (List Char)}
    (h : Literal.writeItems vs = .ok parts) {fuel : Nat} (hfuel : parts.length < fuel)
    (rest : List Char) :
    ∃ found, moreData fuel (parts.flatMap (fun next => ',' :: ' ' :: next) ++ ';' :: rest) =
      .ok found (';' :: rest) ∧ (Value.ProperItems vs → found = Value.listedItems vs) := by
  induction vs generalizing fuel parts with
  | nil =>
    obtain rfl := Except.ok.inj h
    obtain ⟨fuel, rfl⟩ : ∃ n, fuel = n + 1 := ⟨fuel - 1, by simp at hfuel; omega⟩
    have hs := Lexeme.significant_semicolon rest
    have hcomma : Reader.accept ',' (';' :: rest) = .ok false (';' :: rest) := by
      rw [Reader.accept_eq_false (by rw [hs]; simp), hs]
    refine ⟨[], ?_, fun _ => rfl⟩
    rw [List.flatMap_nil, List.nil_append, moreData, Run.bind_of_ok hcomma]
    rfl
  | cons v vs ih =>
    obtain ⟨part, parts, hv, hparts, rfl⟩ := Literal.writeItems_cons_eq_ok.1 h
    obtain ⟨fuel, rfl⟩ : ∃ n, fuel = n + 1 := ⟨fuel - 1, by simp at hfuel; omega⟩
    obtain ⟨found, hfound, hlisted⟩ := ih hparts (by simpa using hfuel)
    obtain ⟨v', hv', hlisted'⟩ := Literal.value_append hv
      (.blank (by decide) : Insignificant [' ']) (endsLexeme_more parts rest)
    rw [List.singleton_append] at hv'
    have hs := Lexeme.significant_cons
      (' ' :: (part ++ (parts.flatMap (fun next => ',' :: ' ' :: next) ++ ';' :: rest)))
      (show Text.isBlank ',' = false by decide) (by decide)
    refine ⟨v' :: found, ?_, fun hproper => ?_⟩
    · rw [List.flatMap_cons, List.append_assoc, List.cons_append, List.cons_append, moreData,
        Run.bind_of_ok (Reader.accept_eq_true hs), if_pos rfl, Run.bind_of_ok hv',
        Run.bind_of_ok hfound]
      rfl
    · rw [hlisted' hproper.1, hlisted hproper.2, Value.listedItems]

/-- The arguments of a `use` statement are read up to the semicolon behind them. -/
theorem useArguments_append {vs : List Value} {parts : List (List Char)}
    (h : Literal.writeItems vs = .ok parts) (rest : List Char) :
    ∃ found, useArguments (' ' :: (Literal.commaList parts ++ ';' :: rest)) =
      .ok (ofArguments found) (';' :: rest) ∧
        (Value.ProperItems vs → found = Value.listedItems vs) := by
  cases vs with
  | nil =>
    obtain rfl := Except.ok.inj h
    exact ⟨[], rfl, fun _ => rfl⟩
  | cons v vs =>
    obtain ⟨part, parts, hv, hparts, rfl⟩ := Literal.writeItems_cons_eq_ok.1 h
    rw [Literal.commaList_cons, List.append_assoc]
    obtain ⟨hs, hne⟩ := Literal.significant_write hv
      (parts.flatMap (fun next => ',' :: ' ' :: next) ++ ';' :: rest)
    obtain ⟨v', hv', hlisted'⟩ := Literal.value_append hv .nil (endsLexeme_more parts rest)
    rw [List.nil_append] at hv'
    obtain ⟨c, tail, rfl, -⟩ := Literal.write_head hv
    have hpeek : Reader.peek (' ' :: (c :: tail ++
        (parts.flatMap (fun next => ',' :: ' ' :: next) ++ ';' :: rest))) = .ok (some c)
        (c :: tail ++ (parts.flatMap (fun next => ',' :: ' ' :: next) ++ ';' :: rest)) := by
      have hblank := (.blank (by decide) : Insignificant [' ']).significant_append
        (c :: tail ++ (parts.flatMap (fun next => ',' :: ' ' :: next) ++ ';' :: rest))
      rw [List.singleton_append, hs] at hblank
      rw [Reader.peek_eq, hblank]
      rfl
    have hc : c ≠ ';' ∧ c ≠ '\x7d' :=
      ⟨by simpa using hne ';' (by simp), by simpa using hne '\x7d' (by simp)⟩
    -- every further literal takes two characters at least, so the fuel suffices for all of them
    have hfuel : parts.length <
        (parts.flatMap (fun next => ',' :: ' ' :: next) ++ ';' :: rest).length + 1 := by
      have hlength : parts.length ≤ (parts.flatMap fun next => ',' :: ' ' :: next).length := by
        clear hparts hs hne hv' hpeek
        induction parts with
        | nil => simp
        | cons part parts ih => simp at ih ⊢; omega
      rw [List.length_append]
      omega
    obtain ⟨found, hfound, hlisted⟩ := moreData_append hparts hfuel rest
    refine ⟨v' :: found, ?_, fun hproper => ?_⟩
    · rw [useArguments, Run.bind_of_ok hpeek]
      simp only [Option.all_some, hc, beq_iff_eq, Bool.or_eq_true, or_self, ↓reduceIte,
        Run.bind_of_ok hv', Run.get_bind, Run.bind_of_ok hfound]
      cases found <;> rfl
    · rw [hlisted' hproper.1, hlisted hproper.2, Value.listedItems]

end Parse

end BraceScript
