import BraceScript.Proofs.InStep
import BraceScript.Proofs.Uses
import BraceScript.Script

/-!
# A prelude is a `use` statement in front of a script

The features of a prelude are installed before a script is read, and those of `use` statements
while it is read.  Both come to the same: a script with a feature in its prelude compiles exactly
if the script with the `use` statement on a line in front of it does, and to the same, but for the
line in front of the expanded text (`compiles_prelude`).

How much fuel a script is given depends on its length.  `Compiles` says that a script compiles
whatever the fuel, so long as there is enough of it; unless `compile` runs out of its own, it gives
what `Compiles` says (`compiles_iff`).
-/

namespace BraceScript

open Lexeme (significant IsWord)
open Run (Alike Related related_get)

/-! ### Compiling with enough fuel -/

namespace Parse

/-- Closes the script after its statements. -/
def finish (statements : List Node) : Parse (List Node) := do
  closeScope
  match ← read Reader.peek with
  | none => return statements
  | some c => fail (.unexpectedAfterEnd c)

/-- Reads a whole script, with so much fuel. -/
def programWithin (fuel : Nat) : Parse (List Node) := do
  finish (← statementsWithin none fuel)

/-- Installs the prelude and reads a whole script, with so much fuel. -/
def scriptWithin (setting : Setting) (fuel : Nat) : Parse (List Node) := do
  installPrelude setting.package setting.prelude
  programWithin fuel

end Parse

namespace Compiled

/-- What a run of the parser over a whole script has compiled. -/
def ofRun : EStateM.Result Error Parser (List Node) → Except Error Compiled
  | .ok program p => .ok ⟨program, p.namespaces, String.ofList p.buffer.text⟩
  | .error e _ => .error e

/-- The same script with some more text in front. -/
def behind (line : String) (compiled : Compiled) : Compiled :=
  { compiled with source := line ++ compiled.source }

end Compiled

/-- Reads a script with so much fuel. -/
def compileWithin (text : String) (setting : Setting) (fuel : Nat) : Except Error Compiled :=
  Compiled.ofRun (Parse.scriptWithin setting fuel (setting.parser text))

/-- With enough fuel the script compiles to this. -/
def Compiles (text : String) (setting : Setting) (compiled : Compiled) : Prop :=
  ∃ fuel, compileWithin text setting fuel = .ok compiled

variable {text : String} {setting : Setting} {compiled : Compiled} {n m : Nat}

theorem Parse.program_eq (p : Parser) : program p = programWithin (fuelFor p) p := by
  have hstatements : statements none p = statementsWithin none (fuelFor p) p := Run.get_bind
  exact Run.bind_congr_left (f := finish) hstatements

/-- The fuel of a script depends on what its prelude has installed. -/
theorem Parse.exists_script_eq (setting : Setting) (p : Parser) :
    ∃ fuel, script setting p = scriptWithin setting fuel p := by
  cases hprelude : installPrelude setting.package setting.prelude p with
  | ok _ q =>
    refine ⟨fuelFor q, ?_⟩
    rw [script, scriptWithin, Run.bind_of_ok hprelude, Run.bind_of_ok hprelude, program_eq]
  | error e q =>
    refine ⟨0, ?_⟩
    simp only [script, scriptWithin, Bind.bind, EStateM.bind, hprelude]

theorem compile_eq_ofRun (text : String) (setting : Setting) :
    compile text setting = Compiled.ofRun (Parse.script setting (setting.parser text)) := by
  rw [compile]
  cases Parse.script setting (setting.parser text) <;> rfl

theorem exists_compile_eq (text : String) (setting : Setting) :
    ∃ fuel, compile text setting = compileWithin text setting fuel := by
  obtain ⟨fuel, h⟩ := Parse.exists_script_eq setting (setting.parser text)
  exact ⟨fuel, by rw [compile_eq_ofRun, h, compileWithin]⟩

/-! ### More fuel, or more text in front -/

namespace Parse

variable {before : List Char} {cut : Prop}

theorem inStep_installPrelude {distance : Nat} (package : String)
    (rows : List (String × Value)) :
    InStep before distance cut (installPrelude package rows) (installPrelude package rows) := by
  refine Run.related_forM (fun row => related_get.bind fun p p' h => ?_) rows
  rw [h.features]
  exact (inStep_orMisconfigured _).next fun feature => inStep_installWithin _ _ _ _

theorem inStep_programWithin (h : n = m ∨ cut ∧ n ≤ m) :
    InStep before before.length cut (programWithin n) (programWithin m) := by
  refine ((allInStep h).statements none).next fun statements => inStep_closeScope.next fun _ =>
    (inStep_read _).next fun next => ?_
  cases next with
  | none => exact inStep_pure _
  | some c => exact related_fail _

/-- A parser that has just started is in step with itself. -/
theorem shifted_start (setting : Setting) (text : String) :
    Parser.Shifted [] 0 (setting.parser text) (setting.parser text) :=
  ⟨rfl, (Nat.zero_add _).symm, rfl, rfl, rfl, rfl, rfl, nofun⟩

end Parse

/-- Two runs in step have compiled the same, but for the text in front. -/
theorem Compiled.ofRun_alike {before : List Char} {distance : Nat} {cut : Prop}
    {r r' : EStateM.Result Error Parser (List Node)}
    (h : Alike Eq (Parser.Shifted before distance) cut r r') :
    (∃ compiled, ofRun r = .ok compiled ∧ ofRun r' = .ok (compiled.behind (String.ofList before))) ∨
      (∃ e e', ofRun r = .error e ∧ ofRun r' = .error e') ∨
      (cut ∧ ofRun r = .error .exhausted) := by
  cases h with
  | @ok program _ p p' hprogram hp =>
    refine .inl ⟨_, rfl, ?_⟩
    rw [ofRun, ← hprogram, hp.namespaces, hp.text, String.ofList_append]
    rfl
  | error e e' p p' => exact .inr (.inl ⟨e, e', rfl, rfl⟩)
  | cut p _ hcut => exact .inr (.inr ⟨hcut, rfl⟩)

/-- With more fuel a script compiles to the same, unless it ran out before. -/
theorem compileWithin_alike (text : String) (setting : Setting) (h : n ≤ m) :
    compileWithin text setting n = .error .exhausted ∨
      (∃ compiled, compileWithin text setting n = .ok compiled ∧
        compileWithin text setting m = .ok compiled) ∨
      ∃ e e', compileWithin text setting n = .error e ∧
        compileWithin text setting m = .error e' := by
  have hprogram : Parse.InStep [] 0 True (Parse.programWithin n) (Parse.programWithin m) :=
    Parse.inStep_programWithin (.inr ⟨trivial, h⟩)
  have hscript : Parse.InStep [] 0 True (Parse.scriptWithin setting n)
      (Parse.scriptWithin setting m) := (Parse.inStep_installPrelude _ _).next fun _ => hprogram
  have halike := hscript _ _ (Parse.shifted_start setting text)
  rcases Compiled.ofRun_alike halike with ⟨compiled, hn, hm⟩ | ⟨e, e', hn, hm⟩ | ⟨-, hn⟩
  · rw [Compiled.behind, String.ofList_nil, String.empty_append] at hm
    exact .inr (.inl ⟨compiled, hn, hm⟩)
  · exact .inr (.inr ⟨e, e', hn, hm⟩)
  · exact .inl hn

theorem compileWithin_mono (hnm : n ≤ m) (h : compileWithin text setting n = .ok compiled) :
    compileWithin text setting m = .ok compiled := by
  rcases compileWithin_alike text setting hnm with
    hn | ⟨other, hn, hm⟩ | ⟨e, e', hn, hm⟩
  · rw [h] at hn
    cases hn
  · rw [hm, ← hn, h]
  · rw [h] at hn
    cases hn

/-- A script compiles to one thing. -/
theorem Compiles.unique {compiled' : Compiled} (h : Compiles text setting compiled)
    (h' : Compiles text setting compiled') : compiled = compiled' := by
  obtain ⟨n, hn⟩ := h
  obtain ⟨m, hm⟩ := h'
  have hn := compileWithin_mono (le_max_left n m) hn
  have hm := compileWithin_mono (le_max_right n m) hm
  exact Except.ok.inj (hn.symm.trans hm)

/-- Unless it runs out of fuel, `compile` gives what the script compiles to. -/
theorem compiles_iff (hfuel : compile text setting ≠ .error .exhausted) :
    Compiles text setting compiled ↔ compile text setting = .ok compiled := by
  obtain ⟨n, hn⟩ := exists_compile_eq text setting
  rw [hn] at hfuel ⊢
  refine ⟨fun ⟨m, hm⟩ => ?_, fun h => ⟨n, h⟩⟩
  rcases le_total m n with hmn | hnm
  · exact compileWithin_mono hmn hm
  · rcases compileWithin_alike text setting hnm with
      hcut | ⟨other, hother, hm'⟩ | ⟨e, e', -, hm'⟩
    · exact absurd hcut hfuel
    · rw [hother, ← hm', hm]
    · rw [hm] at hm'
      cases hm'

/-! ### The first statement -/

namespace Parse

variable {p : Parser} {name arguments rest : List Char} {feature : Feature} {options : Value}

/-- Behind a statement that leaves no node and its semicolon, the list of statements goes on. -/
theorem statementsWithin_silent {closing : Option String} {c : Char} {x : Parse Unit}
    {p' : Parser} {fuel : Nat} (hp : significant p.unread = c :: rest)
    (hc : closes closing c = false) (hne : c ≠ ';')
    (hstatement : statementWithin fuel p.skip = (do x; return none : Parse (Option Node)) p')
    (hsemicolon : ∀ q, x p' = .ok () q → ∃ rest', significant q.unread = ';' :: rest') :
    statementsWithin closing (fuel + 1) p =
      (do
        x
        modify fun q => q.skip.move 1
        statementsWithin closing fuel : Parse (List Node)) p' := by
  rw [statementsWithin.eq_def]
  dsimp only
  rw [Run.bind_of_ok (read_peek p), hp]
  dsimp only [List.head?_cons]
  rw [if_neg (by rw [hc]; decide), if_neg hne, Run.bind_congr_left hstatement]
  simp only [bind_assoc, pure_bind]
  refine Run.bind_congr_right fun _ q hx => ?_
  obtain ⟨rest', hq⟩ := hsemicolon q hx
  rw [Run.bind_of_ok (read_peek q), hq]
  dsimp only [List.head?_cons]
  rw [if_pos rfl, Run.bind_of_ok (read_advance_skip hq)]
  simp only [Option.toList_none, List.nil_append, bind_pure]
  rfl

/-- A `use` statement on the first line is an installation before the rest is read. -/
theorem statementsWithin_use (hname : IsWord name) (harguments : IsArguments arguments options)
    (hfeature : Table.get? p.features (String.ofList name) = some feature)
    (hp : p.unread = "use ".toList ++ (name ++ (arguments ++ ';' :: '\n' :: rest)))
    (fuel : Nat) :
    statementsWithin none (fuel + 2) p =
      (do
        install feature p.currentPackage options
        modify (Parser.move · 2)
        statementsWithin none (fuel + 1) : Parse (List Node))
        (p.move ("use ".toList ++ (name ++ arguments)).length) := by
  have hsignificant : significant p.unread = p.unread := by
    rw [hp]
    exact Lexeme.significant_cons _ (by decide) (by decide)
  have hskip : p.skip = p := Parser.skip_eq_self rfl hsignificant
  have hstatement := statementWithin_use hname harguments hfeature hp fuel
  have hunread : (p.move ("use ".toList ++ (name ++ arguments)).length).unread =
      ';' :: '\n' :: rest :=
    Parser.unread_move_append (by rw [hp, List.append_assoc, List.append_assoc]) rfl
  generalize hmoved : p.move ("use ".toList ++ (name ++ arguments)).length = p'
    at hstatement hunread ⊢
  have hinstalled (q : Parser) (h : install feature p.currentPackage options p' = .ok () q) :
      q.unread = ';' :: '\n' :: rest := by
    have hfeature' : Table.get? p'.features (String.ofList name) = some feature := by
      rwa [← hmoved]
    have hquiet : Quiet 0 p' q := installWithin_quiet hfeature' h
    rw [Parser.unread, hquiet.buffer, hquiet.pos]
    exact hunread
  have hsemicolon := Lexeme.significant_semicolon ('\n' :: rest)
  rw [statementsWithin_silent (hsignificant.trans hp) rfl (by decide) (hskip.symm ▸ hstatement)
    fun q h => ⟨_, (congrArg significant (hinstalled q h)).trans hsemicolon⟩]
  refine Run.bind_congr_right fun _ q h => ?_
  have hq := hinstalled q h
  have hskip' : q.skip = q := Parser.skip_eq_self hq hsemicolon
  have hnewline : (q.move 1).unread = '\n' :: rest :=
    Parser.unread_move_append (s := [';']) hq rfl
  change statementsWithin none (fuel + 1) (q.skip.move 1) =
    statementsWithin none (fuel + 1) (q.move 2)
  rw [hskip', statementsWithin_insignificant (w := ['\n']) none fuel (.blank (by decide)) hnewline,
    Parser.move_move]
  rfl

/-- A `use` statement on the first line of a script is an installation before the rest. -/
theorem programWithin_use (hname : IsWord name) (harguments : IsArguments arguments options)
    (hfeature : Table.get? p.features (String.ofList name) = some feature)
    (hp : p.unread = "use ".toList ++ (name ++ (arguments ++ ';' :: '\n' :: rest)))
    (fuel : Nat) :
    programWithin (fuel + 2) p =
      (do
        install feature p.currentPackage options
        modify (Parser.move · 2)
        programWithin (fuel + 1) : Parse (List Node))
        (p.move ("use ".toList ++ (name ++ arguments)).length) := by
  have hstatements := statementsWithin_use hname harguments hfeature hp fuel
  rw [programWithin, Run.bind_congr_left hstatements]
  simp only [bind_assoc]
  rfl

/-- A prelude of one feature is its installation. -/
theorem installPrelude_singleton {name : String}
    (hfeature : Table.get? p.features name = some feature) (package : String) :
    installPrelude package [(name, options)] p = install feature package options p := by
  have hrequire : p.features.require name = .ok feature := by rw [Registry.require, hfeature]
  simp only [installPrelude, List.forM_eq_forM, List.forM_cons, List.forM_nil, bind_assoc]
  rw [Run.get_bind, hrequire]
  change (install feature package options >>= fun _ => pure ()) p = _
  rw [bind_pure_unit]

/-- What stands behind the name of a feature to hand over options: nothing where there are none,
or their literal. -/
inductive HandsOver : Value → List Char → Prop
  | nothing : HandsOver .null []
  | literal {options : Value} {literal : List Char} (h : Literal.write options = .ok literal) :
      HandsOver options (' ' :: literal)

theorem HandsOver.isArguments (h : HandsOver options arguments) (hproper : options.Proper)
    (hlisted : options.listed = options) : IsArguments arguments options := by
  cases h with
  | nothing => exact .nothing
  | literal h => exact hlisted ▸ IsArguments.literal h hproper

end Parse

/-! ### Preludes -/

/-- A `use` statement on a line of its own. -/
def useLine (name : String) (arguments : List Char) : String :=
  "use " ++ name ++ String.ofList arguments ++ ";\n"

variable {name : String} {arguments : List Char} {feature : Feature} {options : Value}

/-- With one more unit of fuel for the `use` statement, the script behind the line ends as the
script with the prelude does. -/
theorem alike_prelude (text : String) (hfeature : Table.get? setting.features name = some feature)
    (hname : IsWord name.toList) (harguments : Parse.IsArguments arguments options) (fuel : Nat) :
    Alike Eq (Parser.Shifted (useLine name arguments).toList (useLine name arguments).toList.length)
      False
      (Parse.scriptWithin { setting with prelude := [(name, options)] } (fuel + 1)
        (setting.parser text))
      (Parse.scriptWithin { setting with prelude := [] } (fuel + 2)
        (setting.parser (useLine name arguments ++ text))) := by
  let p := setting.parser text
  let q := setting.parser (useLine name arguments ++ text)
  let count := ("use ".toList ++ (name.toList ++ arguments)).length
  have hline : (useLine name arguments).toList =
      "use ".toList ++ (name.toList ++ arguments) ++ [';', '\n'] := by
    simp [useLine]
  have hlength : (useLine name arguments).toList.length = count + 2 := by
    rw [hline, List.length_append]
    rfl
  have hq : q.unread =
      "use ".toList ++ (name.toList ++ (arguments ++ ';' :: '\n' :: text.toList)) := by
    change (useLine name arguments ++ text).toList = _
    rw [String.toList_append, hline]
    simp
  have hstart : Parser.Shifted (useLine name arguments).toList count p (q.move count) :=
    ⟨String.toList_append, Nat.add_comm .., rfl, rfl, rfl, rfl, rfl, nofun⟩
  have hfeatures : Table.get? q.features (String.ofList name.toList) = some feature := by
    rwa [String.ofList_toList]
  have hprelude : Parse.installPrelude setting.package [(name, options)] p =
      Parse.install feature setting.package options p :=
    Parse.installPrelude_singleton hfeature setting.package
  have huse := Parse.programWithin_use hname harguments hfeatures hq fuel
  rw [Parse.scriptWithin, Run.bind_congr_left hprelude]
  change Alike _ _ _ _ (Parse.programWithin (fuel + 2) q)
  rw [huse]
  refine (Parse.inStep_installWithin _ _ _ _ _ _ hstart).bind fun _ _ s t _ hst => ?_
  refine Parse.inStep_programWithin (.inl rfl) s (t.move 2) { hst with pos := ?_ }
  change t.pos + 2 = _
  rw [hst.pos, hlength]
  omega

theorem exists_compile_of_passes
    (h : Run.passes (fun _ _ => true) (Parse.script setting (setting.parser text)) = true) :
    ∃ compiled, compile text setting = .ok compiled := by
  obtain ⟨program, p, hscript, -⟩ := Run.passes_iff.1 h
  exact ⟨_, by rw [compile, hscript]⟩

/-- A script that fails for another reason than too little fuel compiles with no fuel. -/
theorem not_compiles_of_fails (h : Run.fails (fun e _ => !e matches .exhausted)
      (Parse.script setting (setting.parser text)) = true) (compiled : Compiled) :
    ¬ Compiles text setting compiled := by
  obtain ⟨e, p, hscript, he⟩ := Run.fails_iff.1 h
  have hcompile : compile text setting = .error e := by rw [compile, hscript]
  have hfuel : compile text setting ≠ .error .exhausted := by
    rw [hcompile]
    rintro ⟨⟩
    cases he
  rw [compiles_iff hfuel, hcompile]
  exact nofun

/-- **A prelude is a `use` statement.**  Installing a feature that scripts can name before a script
is read comes to the same as a line in front of the script that uses the feature with these
options: with enough fuel either both compile or neither does, and they compile to the same program
and packages, the second one with the line in front of the expanded text.  The same holds of
`compile`, unless it runs out of the fuel that it gives itself. -/
theorem compiles_prelude (setting : Setting) (text : String)
    (hfeature : Table.get? setting.features name = some feature) (hname : IsWord name.toList)
    (harguments : Parse.HandsOver options arguments) (hproper : options.Proper)
    (hlisted : options.listed = options) :
    (∀ compiled',
      Compiles (useLine name arguments ++ text) { setting with prelude := [] } compiled' ↔
      ∃ compiled, Compiles text { setting with prelude := [(name, options)] } compiled ∧
        compiled' = compiled.behind (useLine name arguments)) ∧
    (compile (useLine name arguments ++ text) { setting with prelude := [] } ≠ .error .exhausted →
      compile text { setting with prelude := [(name, options)] } ≠ .error .exhausted →
      ∀ compiled',
        compile (useLine name arguments ++ text) { setting with prelude := [] } = .ok compiled' ↔
        ∃ compiled, compile text { setting with prelude := [(name, options)] } = .ok compiled ∧
          compiled' = compiled.behind (useLine name arguments)) := by
  have halike (fuel : Nat) := Compiled.ofRun_alike <| alike_prelude text hfeature hname
    (harguments.isArguments hproper hlisted) fuel
  rw [String.ofList_toList] at halike
  have hcompiles (compiled' : Compiled) :
      Compiles (useLine name arguments ++ text) { setting with prelude := [] } compiled' ↔
      ∃ compiled, Compiles text { setting with prelude := [(name, options)] } compiled ∧
        compiled' = compiled.behind (useLine name arguments) := by
    constructor
    · rintro ⟨fuel, h⟩
      have h := compileWithin_mono (Nat.le_add_right fuel 2) h
      rcases halike fuel with ⟨compiled, hfirst, hsecond⟩ | ⟨e, e', -, hsecond⟩ | ⟨⟨⟩, -⟩
      · exact ⟨compiled, ⟨_, hfirst⟩, Except.ok.inj (h.symm.trans hsecond)⟩
      · cases h.symm.trans hsecond
    · rintro ⟨compiled, ⟨fuel, h⟩, rfl⟩
      have h := compileWithin_mono (Nat.le_add_right fuel 1) h
      rcases halike fuel with ⟨other, hfirst, hsecond⟩ | ⟨e, e', hfirst, -⟩ | ⟨⟨⟩, -⟩
      · obtain rfl := Except.ok.inj (h.symm.trans hfirst)
        exact ⟨_, hsecond⟩
      · cases h.symm.trans hfirst
  refine ⟨hcompiles, fun hfuel hfuel' compiled' => ?_⟩
  rw [← compiles_iff hfuel, hcompiles]
  simp only [compiles_iff hfuel']

/-- A keyword of another spelling, from a prelude and from a `use` statement. -/
theorem compiles_prelude_spelling :
    ∃ (options : Value) (arguments : List Char) (compiled : Compiled),
      Parse.HandsOver options arguments ∧ options.Proper ∧ options.listed = options ∧
      useLine "module" arguments = "use module \x7b\"as\" => \"class\"\x7d;\n" ∧
      compile "class Foo \x7b 1 \x7d" { prelude := [("module", options)] } = .ok compiled ∧
      compile (useLine "module" arguments ++ "class Foo \x7b 1 \x7d") =
        .ok (compiled.behind (useLine "module" arguments)) := by
  let options : Value := .mapping [(.text "as", .text "class")]
  let literal : List Char := "\x7b\"as\" => \"class\"\x7d".toList
  let text := "class Foo \x7b 1 \x7d"
  have hwrite : Literal.write options = .ok literal := by rfl
  have hproper : options.Proper := by simp [options, Value.Proper, Value.ProperRows]
  have hline : useLine "module" (' ' :: literal) =
      "use module \x7b\"as\" => \"class\"\x7d;\n" := by decide +kernel
  have hread : Run.passes (fun _ _ => true) (Parse.script { prelude := [("module", options)] }
      (Setting.parser { prelude := [("module", options)] } text)) = true := by decide +kernel
  have hread' : Run.passes (fun _ _ => true) (Parse.script {}
      (Setting.parser {} (useLine "module" (' ' :: literal) ++ text))) = true := by decide +kernel
  obtain ⟨program, p, hscript, -⟩ := Run.passes_iff.1 hread
  obtain ⟨program', p', hscript', -⟩ := Run.passes_iff.1 hread'
  have hprelude : compile text { prelude := [("module", options)] } ≠ .error .exhausted := by
    rw [compile, hscript]
    simp
  have huse : compile (useLine "module" (' ' :: literal) ++ text) =
      .ok ⟨program', p'.namespaces, String.ofList p'.buffer.text⟩ := by
    rw [compile, hscript']
  have hfeature : Table.get? Registry.standard "module" = some (.block .standard) := rfl
  obtain ⟨-, hcompile⟩ := compiles_prelude {} text hfeature (by decide +kernel) (.literal hwrite)
    hproper rfl
  obtain ⟨compiled, hfirst, hbehind⟩ := (hcompile (by rw [huse]; simp) hprelude _).1 huse
  exact ⟨options, ' ' :: literal, compiled, .literal hwrite, hproper, rfl, hline, hfirst,
    hbehind ▸ huse⟩

/-- **Only a word can be used**: a feature of another name is installed from a prelude, and no
`use` statement finds it. -/
theorem prelude_without_use : ∃ (setting : Setting) (feature : BlockFeature) (text : String),
    Table.get? setting.features feature.name = some (.block feature) ∧
      IsWord setting.package.toList ∧ Parse.HandsOver .null [] ∧
      (∃ compiled, compile text { setting with prelude := [(feature.name, .null)] } =
        .ok compiled) ∧
      ∀ compiled, ¬ Compiles (useLine feature.name [] ++ text) { setting with prelude := [] }
        compiled :=
  ⟨.offering Parse.dashedFeature, Parse.dashedFeature, "1", rfl, by decide +kernel, .nothing,
    exists_compile_of_passes (by decide +kernel), not_compiles_of_fails (by decide +kernel)⟩

end BraceScript
