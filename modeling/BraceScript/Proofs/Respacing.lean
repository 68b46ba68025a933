import BraceScript.Proofs.DeclaredMeaning
import BraceScript.Proofs.Enclosed
import BraceScript.Proofs.Tandem

/-!
# Gaps do not matter

Texts that differ in one gap are read alike (`Lexeme.readAlike_respaced`), and from parsers whose
unread texts do so every reader of the grammar follows itself (`Parse.tandem_respaced`), so long as
the declarations that are expanded inject closed statements: only text that opens a comment or a
quoted text and does not close it could make a gap behind it count.
-/

namespace BraceScript

open Lexeme (significant Respaced Aligned Behind IsWord Outside outside_singleton piecewise_outside
  Past)
open Declaration (Head)
open BraceScript.Parser (Apart ApartIn)

/-! ### Texts that differ in one gap -/

namespace Lexeme

variable {t t' : List Char} {c : Char}

theorem Respaced.aligned (h : Respaced t t') (ht : Lexeme.significant t = t)
    (ht' : Lexeme.significant t' = t') : Aligned t t' := by
  rw [← ht, ← ht']
  exact h.significant

theorem Respaced.aligned_cons (h : Respaced (c :: t) (c :: t')) (hblank : Text.isBlank c = false)
    (hcomment : c ≠ '#') : Aligned (c :: t) (c :: t') :=
  h.aligned (significant_cons t hblank hcomment) (significant_cons t' hblank hcomment)

/-- **Texts that differ in one gap are read alike.** -/
theorem readAlike_respaced : ReadAlike Respaced where
  level h := .inl ⟨h.significant.respaced, h.significant.head?, significant_significant _,
    significant_significant _⟩
  cons h hblank hcomment hquote := by
    obtain ⟨_, _, hrest, ht, ht'⟩ := (h.aligned_cons hblank hcomment).behind_cons rfl hquote
    obtain ⟨-, rfl⟩ := List.cons.inj ht
    obtain ⟨-, rfl⟩ := List.cons.inj ht'
    exact hrest
  lexeme hlexer := hlexer.respaced
  quoted h hread := (h.aligned_cons (by decide) (by decide)).quoted rfl hread
  arrow h := (h.text.aligned h.significant h.significant').arrow
  digit h := (h.text.aligned h.significant h.significant').digit

/-- Both texts end at once. -/
theorem Respaced.not_ended (t t' : List Char) : ¬ Ended Respaced t t' := by
  rintro ⟨h, rfl, c, hc, hhead⟩
  obtain ⟨rest, rfl⟩ := List.head?_eq_some_iff.1 hhead
  have hsame := h.significant.head?
  have hsignificant : Lexeme.significant (c :: rest) = c :: rest := by
    rcases hc with rfl | rfl <;> exact significant_cons rest (by decide) (by decide)
  rw [hsignificant] at hsame
  cases hsame

end Lexeme

/-! ### Declarations -/

/-- All declarations that were expanded have injected closed statements. -/
def Parser.Closed (p : Parser) : Prop := ∀ site, .dispatched site ∈ p.journal → site.Closed

namespace Parse

/-- The parser after the declaration of a keyword that comes next was expanded: `chars` were
injected behind the head `head` and the brace. -/
def expandedTo (p : Parser) (written : String) (head : Head) (chars body : List Char) : Parser :=
  { p with buffer := { p.buffer with
    text := p.buffer.text.take p.pos ++
      (written.toList ++ head.injected p.currentPackage chars body) } }

theorem unread_expandedTo {p : Parser} {written : String} {head : Head} {chars body : List Char}
    (hinside : p.pos ≤ p.buffer.text.length) :
    (expandedTo p written head chars body).unread =
      written.toList ++ head.injected p.currentPackage chars body :=
  List.drop_left' (by rw [List.length_take, Nat.min_eq_left hinside]; rfl)

theorem expandAt_here {feature : BlockFeature} {options : KeywordOptions} {written : String}
    {after : List Char} {p q : Parser} (hp : p.unread = written.toList ++ after)
    (hinside : p.pos ≤ p.buffer.text.length) :
    (∃ found, expandAt feature options p.pos written p = .ok found q) ↔
      ∃ body statements, Head.rest after = '\x7b' :: body ∧
        Preamble.generate feature ((Head.read after).target p.currentPackage)
          ((Head.read after).version.map String.ofList) options = .ok statements ∧
        q = expandedTo p written (Head.read after)
          (feature.trigger.toList ++ (Preamble.render statements).toList) body := by
  have hpos : (p.buffer.text.take p.pos).length = p.pos := by
    rw [List.length_take, Nat.min_eq_left hinside]
  have hbuffer : p.buffer =
      ⟨p.buffer.text.take p.pos ++ (written.toList ++ after), p.buffer.file⟩ := by
    rw [← hp, Parser.unread, List.take_append_drop]
  have hexpand {d : Declaration} {c : Cursor} := @Declaration.expand_eq_ok feature options
    p.currentPackage written p.buffer.file (p.buffer.text.take p.pos) after d c
  rw [hpos, ← hbuffer] at hexpand
  constructor
  · rintro ⟨⟨declaration, count⟩, h⟩
    obtain ⟨c, hc, -, rfl⟩ := expandAt_eq_ok.1 h
    obtain ⟨body, statements, hrest, hgenerate, -, hc⟩ := hexpand.1 hc
    refine ⟨body, statements, hrest, hgenerate, ?_⟩
    rw [hc.eq]
    simp [expandedTo, Head.injected]
  · rintro ⟨body, statements, hrest, hgenerate, rfl⟩
    refine ⟨_, expandAt_eq_ok.2 ⟨⟨⟨_, p.buffer.file⟩, _⟩,
      hexpand.2 ⟨body, statements, hrest, hgenerate, rfl, rfl, rfl, rfl⟩, rfl, ?_⟩⟩
    simp [expandedTo, Head.injected]

/-- A keyword is expanded in both texts, if a head that is expanded in the first one stands in the
second one with the same target and version, and the expansion leaves the texts related. -/
theorem follows_dispatch_of {ok : Site → Prop} {W : String → Prop}
    {R : List Char → List Char → Prop}
    (hheads : ∀ {site : Site} {package : String} {after after' body : List Char}
      {statements : List String}, R after after' → ok site → W package →
      Head.rest after = '\x7b' :: body →
      Preamble.generate site.feature ((Head.read after).target package)
        ((Head.read after).version.map String.ofList) site.options = .ok statements →
      (Head.read after').target package = (Head.read after).target package ∧
        (Head.read after').version = (Head.read after).version ∧
        ∃ body', Head.rest after' = '\x7b' :: body' ∧
          let chars := site.feature.trigger.toList ++ (Preamble.render statements).toList
          R ((Head.read after).injected package chars body)
            ((Head.read after').injected package chars body'))
    (A : Around) (d : Nat) (keyword : Keyword) (written : String) (p p' : Parser) :
    Follows ok (fun s t => ApartIn A d W (Past R written.toList) s t ∧ s = p ∧ t = p')
      (dispatch keyword p.pos written) (dispatch keyword p'.pos written)
      fun _ => ApartIn A d W (Past R written.toList) where
  keeps {s _ _} h hgood := by
    cases keyword with
    | idle =>
      obtain ⟨-, rfl⟩ := Run.pure_eq_ok.1 h
      exact hgood
    | expand feature options =>
      obtain ⟨declaration, c, -, rfl⟩ := dispatch_expand_eq_ok.1 h
      exact hgood.of_note
  follows := by
    rintro p p' r _ ⟨h, rfl, rfl⟩ hx hgood
    cases keyword with
    | idle =>
      obtain ⟨-, rfl⟩ := Run.pure_eq_ok.1 hx
      exact ⟨p', rfl, h⟩
    | expand feature options =>
      obtain ⟨after, after', hafter, hp, hp'⟩ := h.text
      rw [dispatch, Run.get_bind] at hx ⊢
      obtain ⟨found, q, hexpand, hx⟩ := Run.bind_eq_ok.1 hx
      obtain rfl := Run.modify_eq_ok.1 hx
      obtain ⟨body, statements, hrest, hgenerate, rfl⟩ :=
        (expandAt_here hp h.inside).1 ⟨found, hexpand⟩
      obtain ⟨htarget, hversion, body', hrest', hrelated⟩ := hheads hafter
        (hgood _ List.mem_cons_self) h.holds_currentPackage hrest hgenerate
      rw [← htarget, ← hversion, ← h.currentPackage] at hgenerate
      obtain ⟨⟨declaration', count'⟩, hexpand'⟩ := (expandAt_here hp' h.inside').2
        ⟨body', statements, hrest', hgenerate, rfl⟩
      rw [Run.bind_of_ok hexpand']
      refine ⟨_, rfl, { h with text := ?_, inside := ?_, inside' := ?_ }⟩
      · refine ⟨_, _, hrelated, unread_expandedTo h.inside, ?_⟩
        rw [← h.currentPackage]
        exact unread_expandedTo h.inside'
      · have := h.inside
        change p.pos ≤ (p.buffer.text.take p.pos ++ _).length
        rw [List.length_append, List.length_take]
        omega
      · have := h.inside'
        change p'.pos ≤ (p'.buffer.text.take p'.pos ++ _).length
        rw [List.length_append, List.length_take]
        omega

/-- A head that is expanded may have the gap in it, and so may the body behind its brace. -/
theorem follows_dispatch (A : Around) (d : Nat) (keyword : Keyword) (written : String)
    (p p' : Parser) :
    Follows Site.Closed
      (fun s t => ApartIn A d (fun s => IsWord s.toList) (Past Respaced written.toList) s t ∧
        s = p ∧ t = p')
      (dispatch keyword p.pos written) (dispatch keyword p'.pos written)
      fun _ => ApartIn A d (fun s => IsWord s.toList) (Past Respaced written.toList) := by
  refine follows_dispatch_of (fun hafter hsite hpackage hrest hgenerate => ?_) A d keyword written
    p p'
  obtain ⟨hname, hversion, body', hrest', hrespaced⟩ := Head.respaced hafter hrest
  have hfeature := piecewise_outside.word hsite.name
  have hinjected := piecewise_outside.injected hfeature
    (piecewise_outside.generate hfeature hsite.extra hsite.preamble
      (piecewise_outside.target (fun w => IsWord.of_word?) hpackage)
      (piecewise_outside.literal fun v hv => hv) hgenerate)
  exact ⟨by rw [Head.target, Head.target, hname], hversion, body', hrest',
    hrespaced _ _ hinjected⟩

/-- Parsers whose texts differ in one gap run in tandem. -/
theorem tandem_respaced : Tandem Site.Closed (fun s => IsWord s.toList) Respaced where
  toReadAlike := Lexeme.readAlike_respaced
  word _ h := h
  close _ _ h := h.prepend (v := [')']) (by decide)
  dispatch := follows_dispatch

/-! ### Whole scripts -/

theorem follows_programWithin (fuel : Nat) :
    Follows Site.Closed (Apart (fun s => IsWord s.toList) Respaced) (programWithin fuel)
      (programWithin fuel) fun _ => Apart (fun s => IsWord s.toList) Respaced := by
  refine ((allFollow tandem_respaced .same fuel).statements none fun _ => Respaced.not_ended).bind
    fun nodes => (follows_closeScope_same tandem_respaced.close).bind fun _ =>
      follows_peek_even Lexeme.readAlike_respaced Respaced.not_ended fun next => ?_
  cases next with
  | none => exact .pure fun _ _ h => h.mono fun _ _ h => h.1.text
  | some c => exact follows_fail _

theorem follows_scriptWithin (setting : Setting) (fuel : Nat) :
    Follows Site.Closed (Apart (fun s => IsWord s.toList) Respaced) (scriptWithin setting fuel)
      (scriptWithin setting fuel) fun _ => Apart (fun s => IsWord s.toList) Respaced :=
  (follows_installPrelude _ _).bind fun _ => follows_programWithin fuel

/-- Parsers at the start of two texts that differ in one gap. -/
theorem apart_start {setting : Setting} {text text' : String}
    (hpackage : IsWord setting.package.toList) (h : Respaced text.toList text'.toList) :
    Apart (fun s => IsWord s.toList) Respaced (setting.parser text) (setting.parser text') where
  text := h
  inside := Nat.zero_le _
  inside' := Nat.zero_le _
  namespaces := rfl
  features := rfl
  scopes := rfl
  root := rfl
  finalizers := rfl
  plain := nofun
  packages := by simpa [Setting.parser, Parser.start] using hpackage
  named := hpackage

end Parse

/-- Both scripts compile, to the same program and the same packages, or both fail. -/
inductive SameOutcome : Except Error Compiled → Except Error Compiled → Prop
  | ok {compiled compiled' : Compiled} (hprogram : compiled'.program = compiled.program)
      (hnamespaces : compiled'.namespaces = compiled.namespaces) :
      SameOutcome (.ok compiled) (.ok compiled')
  | error (e e' : Error) : SameOutcome (.error e) (.error e')

/-- If the script compiles, the declarations that are expanded on the way inject closed
statements. -/
def InjectsClosed (setting : Setting) (text : String) : Prop :=
  ∀ compiled, Compiles text setting compiled → ∃ fuel program p,
    Parse.scriptWithin setting fuel (setting.parser text) = .ok program p ∧ p.Closed

/-- The declarations that are expanded when a script is read, in success or before an error. -/
def expandedSites (setting : Setting) (text : String) : List Site :=
  (Run.final (Parse.script setting (setting.parser text))).journal.filterMap Event.site?

variable {setting : Setting} {text text' : String}

theorem mem_expandedSites {site : Site} : site ∈ expandedSites setting text ↔ .dispatched site ∈
    (Run.final (Parse.script setting (setting.parser text))).journal :=
  mem_filterMap_site?

theorem InjectsClosed.of_expandedSites (hfuel : compile text setting ≠ .error .exhausted)
    (h : ∀ site ∈ expandedSites setting text, site.Closed) : InjectsClosed setting text := by
  intro compiled hcompiles
  obtain ⟨fuel, hscript⟩ := Parse.exists_script_eq setting (setting.parser text)
  have hcompile := (compiles_iff hfuel).1 hcompiles
  rw [compile_eq_ofRun] at hcompile
  cases hrun : Parse.script setting (setting.parser text) with
  | error e p =>
    rw [hrun] at hcompile
    cases hcompile
  | ok program p =>
    refine ⟨fuel, program, p, hscript.symm.trans hrun, fun site hsite => ?_⟩
    refine h site (mem_expandedSites.2 ?_)
    rw [hrun]
    exact hsite

theorem Site.Default.closed {site : Site} (h : site.Default)
    (hname : IsWord site.feature.name.toList) : site.Closed :=
  ⟨hname, by simp [h.extra], by simp [h.preamble]⟩

/-- What compiles with one gap compiles with the other. -/
theorem Compiles.respaced {program : List Node} {namespaces : Namespaces} {source : String}
    (hpackage : IsWord setting.package.toList) (h : Respaced text.toList text'.toList)
    (hclosed : InjectsClosed setting text)
    (hcompiles : Compiles text setting ⟨program, namespaces, source⟩) :
    ∃ source', Compiles text' setting ⟨program, namespaces, source'⟩ := by
  obtain ⟨fuel, program₁, q, hrun, hgood⟩ := hclosed _ hcompiles
  have hsame : Compiles text setting ⟨program₁, q.namespaces, String.ofList q.buffer.text⟩ :=
    ⟨fuel, by rw [compileWithin, hrun, Compiled.ofRun]⟩
  obtain ⟨rfl, rfl, -⟩ := Compiled.mk.inj (hsame.unique hcompiles)
  obtain ⟨q', hrun', happart⟩ := (Parse.follows_scriptWithin setting fuel).follows
    (Parse.apart_start hpackage h) hrun hgood
  exact ⟨String.ofList q'.buffer.text, fuel, by
    rw [compileWithin, hrun', Compiled.ofRun, happart.namespaces]⟩

/-- Where `compile` does not run out of fuel, it finds what the scripts compile to. -/
theorem SameOutcome.of_compiles (hfuel : compile text setting ≠ .error .exhausted)
    (hfuel' : compile text' setting ≠ .error .exhausted)
    (h : ∀ program namespaces, (∃ source, Compiles text setting ⟨program, namespaces, source⟩) ↔
      ∃ source, Compiles text' setting ⟨program, namespaces, source⟩) :
    SameOutcome (compile text setting) (compile text' setting) := by
  cases hcompile : compile text setting with
  | ok compiled =>
    obtain ⟨source, hcompiles⟩ :=
      (h compiled.program compiled.namespaces).1 ⟨_, (compiles_iff hfuel).2 hcompile⟩
    rw [(compiles_iff hfuel').1 hcompiles]
    exact .ok rfl rfl
  | error e =>
    cases hcompile' : compile text' setting with
    | error e' => exact .error e e'
    | ok compiled' =>
      obtain ⟨source, hcompiles⟩ :=
        (h compiled'.program compiled'.namespaces).2 ⟨_, (compiles_iff hfuel').2 hcompile'⟩
      rw [(compiles_iff hfuel).1 hcompiles] at hcompile
      cases hcompile

/-- **Insignificant input is insignificant.**  Two scripts differ in one run of blanks and comments,
which stands outside quoted texts and comments and is not empty in either of them.  They start in a
package that a word names, and their declarations inject closed statements.  Then with enough fuel
either both compile or neither does, and they compile to the same program and the same packages.
The same holds of `compile`, which does not run out of the fuel that it gives itself where the
features are plain and the declarations inject the default statements only. -/
theorem insignificant_input {a w w' b : List Char}
    (hpackage : IsWord setting.package.toList) (ha : Outside a) (hw : Lexeme.IsGap w)
    (hw' : Lexeme.IsGap w') (htext : text.toList = a ++ (w ++ b))
    (htext' : text'.toList = a ++ (w' ++ b))
    (hclosed : InjectsClosed setting text) (hclosed' : InjectsClosed setting text') :
    (∀ program namespaces, (∃ source, Compiles text setting ⟨program, namespaces, source⟩) ↔
      ∃ source, Compiles text' setting ⟨program, namespaces, source⟩) ∧
    (setting.Plain → (∀ site ∈ expandedSites setting text, site.Default) →
      (∀ site ∈ expandedSites setting text', site.Default) →
      SameOutcome (compile text setting) (compile text' setting)) := by
  have hrespaced : Respaced text.toList text'.toList := by
    rw [htext, htext']
    exact .gap b ha hw hw'
  have hcompiles (program : List Node) (namespaces : Namespaces) :
      (∃ source, Compiles text setting ⟨program, namespaces, source⟩) ↔
        ∃ source, Compiles text' setting ⟨program, namespaces, source⟩ :=
    ⟨fun ⟨_, h⟩ => h.respaced hpackage hrespaced hclosed,
      fun ⟨_, h⟩ => h.respaced hpackage hrespaced.symm hclosed'⟩
  have hends {text : String} (hsetting : setting.Plain)
      (hdefault : ∀ site ∈ expandedSites setting text, site.Default) :
      compile text setting ≠ .error .exhausted :=
    Parse.compile_ne_exhausted (Parse.script_ends hsetting fun site hsite =>
      hdefault site (mem_expandedSites.2 hsite))
  exact ⟨hcompiles, fun hsetting hdefault hdefault' =>
    .of_compiles (hends hsetting hdefault) (hends hsetting hdefault') hcompiles⟩

/-- A blank or a comment between a keyword and the name that it declares. -/
theorem insignificant_input_comment :
    Outside "use module; module".toList ∧ Lexeme.IsGap " ".toList ∧
      Lexeme.IsGap "# the first\n".toList ∧
      (∀ text ∈ ["use module; module Foo 1.2 \x7b 3 \x7d",
        "use module; module# the first\nFoo 1.2 \x7b 3 \x7d"],
        InjectsClosed {} text ∧ ∀ site ∈ expandedSites {} text, site.Default) ∧
      SameOutcome (compile "use module; module Foo 1.2 \x7b 3 \x7d")
        (compile "use module; module# the first\nFoo 1.2 \x7b 3 \x7d") := by
  have ha : Outside "use module; module".toList := by decide
  have hw : Lexeme.IsGap " ".toList := ⟨.blank (by decide) .nil, by decide⟩
  have hcomment : Lexeme.IsGap ('#' :: (" the first".toList ++ "\n".toList)) :=
    ⟨.comment (by decide) .nil, by decide⟩
  have hsetting : Setting.Plain {} :=
    ⟨Registry.standard_plain, Namespaces.initial_plain, by decide +kernel⟩
  have hread : ∀ text ∈ ["use module; module Foo 1.2 \x7b 3 \x7d",
      "use module; module# the first\nFoo 1.2 \x7b 3 \x7d"],
      (expandedSites {} text).all fun site => decide (site.options.preamble = [] ∧
        site.feature.extra = [] ∧ IsWord site.feature.name.toList) := by
    decide +kernel
  have hsites : ∀ text ∈ ["use module; module Foo 1.2 \x7b 3 \x7d",
      "use module; module# the first\nFoo 1.2 \x7b 3 \x7d"],
      InjectsClosed {} text ∧ ∀ site ∈ expandedSites {} text, site.Default := by
    intro text htext
    have hsite : ∀ site ∈ expandedSites {} text, site.Default ∧ site.Closed := by
      intro site hsite
      obtain ⟨hpreamble, hextra, hname⟩ :=
        of_decide_eq_true (List.all_eq_true.1 (hread text htext) site hsite)
      have hdefault : site.Default := ⟨hpreamble, hextra⟩
      exact ⟨hdefault, hdefault.closed hname⟩
    have hends : compile text ≠ .error .exhausted :=
      Parse.compile_ne_exhausted (Parse.script_ends hsetting fun site h =>
        (hsite site (mem_expandedSites.2 h)).1)
    exact ⟨.of_expandedSites hends fun site h => (hsite site h).2, fun site h => (hsite site h).1⟩
  obtain ⟨hclosed, hdefault⟩ := hsites _ List.mem_cons_self
  obtain ⟨hclosed', hdefault'⟩ := hsites _ (List.mem_cons_of_mem _ List.mem_cons_self)
  obtain ⟨-, hsame⟩ := insignificant_input (b := "Foo 1.2 \x7b 3 \x7d".toList) hsetting.package ha
    hw hcomment (by decide) (by decide) hclosed hclosed'
  exact ⟨ha, hw, hcomment, hsites, hsame hsetting hdefault hdefault'⟩

/-- A feature that adds a statement with a comment behind it. -/
def notedFeature : BlockFeature where
  kind := "Noted"
  name := "noted"
  keyword := "noted"
  extra := ["1 # one"]

/-- Two scripts with the keyword of the feature differ in one gap, and inject no statements from
options.  The first one compiles, and the second one does not. -/
structure GapMatters (feature : BlockFeature) (a w w' b : String) : Prop where
  outside : Outside a.toList
  gap : Lexeme.IsGap w.toList
  gap' : Lexeme.IsGap w'.toList
  preamble : ∀ text ∈ [a ++ (w ++ b), a ++ (w' ++ b)],
    ∀ site ∈ expandedSites (.offering feature) text, site.options.preamble = []
  compiles : ∃ compiled, compile (a ++ (w ++ b)) (.offering feature) = .ok compiled
  fails (compiled : Compiled) : ¬ Compiles (a ++ (w' ++ b)) (.offering feature) compiled

/-- **Not every gap is insignificant**: a comment that a feature leaves open, in a statement that it
adds or in its name, ends with the next line break, so that a blank in its place counts. -/
theorem not_every_gap_insignificant :
    (IsWord notedFeature.name.toList ∧
      GapMatters notedFeature "noted Foo \x7b" "\n" " " "; 2 \x7d") ∧
    Parse.hashedFeature.extra = [] ∧
      GapMatters Parse.hashedFeature "hashed Foo \x7b" "\n" " " ".scope_end; 2 \x7d" := by
  have hbreak : Lexeme.IsGap "\n".toList := ⟨.blank (by decide) .nil, by decide⟩
  have hblank : Lexeme.IsGap " ".toList := ⟨.blank (by decide) .nil, by decide⟩
  refine ⟨⟨by decide +kernel, ?_⟩, rfl, ?_⟩
  · exact ⟨by decide, hbreak, hblank, by decide +kernel,
      exists_compile_of_passes (by decide +kernel), not_compiles_of_fails (by decide +kernel)⟩
  · exact ⟨by decide, hbreak, hblank, by decide +kernel,
      exists_compile_of_passes (by decide +kernel), not_compiles_of_fails (by decide +kernel)⟩

end BraceScript
