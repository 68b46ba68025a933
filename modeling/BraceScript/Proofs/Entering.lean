import BraceScript.Proofs.Joined
import BraceScript.Proofs.Names
import BraceScript.Proofs.Nesting
import BraceScript.Proofs.Order
import BraceScript.Proofs.Propagation
import BraceScript.Proofs.Respacing

/-!
# Declarations that cannot fail before their body

`Parse.opening` and `Parse.nameWithin_declared` say what a declaration has done when it was read.
Here is what reads it.  A live keyword that stands for nothing but its spelling
(`KeywordOptions.bare`) and has a brace behind its head is expanded, and all that the expansion
writes is read: `Parser.entering` is the parser in front of the body, and
`Parse.expressionWithin_entered` puts the body and the end of the block together to the call that
the declaration is.  So whether the declaration can be read depends on its body alone.
-/

namespace BraceScript

open Lexeme (significant Insignificant IsWord EndsWord)
open Declaration (Head)
open Parse

/-! ### Options that give a spelling and nothing else -/

/-- The options give the keyword a spelling and nothing else. -/
def KeywordOptions.bare (spelling : String) : KeywordOptions := ⟨spelling, [], []⟩

variable {feature : BlockFeature} {w name : String}

namespace KeywordOptions

theorem normalise_bare (feature : BlockFeature) (h : isSpelling w = true) :
    Options.normalise feature (bare w).toValue = .ok (bare w) :=
  (Options.normalise_eq_ok rfl).2 ⟨Options.reads_toValue h, List.forall_mem_nil _⟩

theorem exists_write_bare (w : String) :
    ∃ literal, Literal.write (bare w).toValue = .ok literal :=
  writable_toValue (List.forall_mem_nil _)

theorem proper_bare (w : String) : (bare w).toValue.Proper :=
  proper_toValue (List.forall_mem_nil _)

theorem listed_bare (w : String) : (bare w).toValue.listed = (bare w).toValue := rfl

/-- The statements for such a keyword, without a version. -/
theorem generate_bare (name : String) (hextra : feature.extra = []) {literal : List Char}
    (h : Literal.write (bare w).toValue = .ok literal) :
    Preamble.generate feature name none (bare w) =
      .ok ["package " ++ name, "use " ++ feature.name ++ " " ++ String.ofList literal] := by
  refine Preamble.generate_eq_ok.2
    ⟨_, [], Preamble.useFeature_eq_ok.2 ⟨literal, h, rfl⟩, rfl, ?_⟩
  rw [hextra]
  rfl

end KeywordOptions

/-! ### Single statements -/

namespace Parse

variable {fuel : Nat} {p q r : Parser} {rest : List Char} {nodes : List Node} {node : Option Node}

theorem read_word_here {what : String} (hw : IsWord w.toList) (hrest : EndsWord rest)
    (hp : p.unread = w.toList ++ rest) :
    read (Reader.word what) p = .ok w (p.move w.length) := by
  have hskip : p.skip = p := Parser.skip_eq_self hp (hw.significant_append rest)
  have hword : Lexeme.word? (significant p.unread) = some w.toList := by
    rw [hp, hw.significant_append, Lexeme.word?_append hw hrest]
  rw [read_word hword, hskip]

theorem read_word_blank {what : String} (hw : IsWord w.toList) (hrest : EndsWord rest)
    (hp : p.unread = ' ' :: (w.toList ++ rest)) :
    read (Reader.word what) p = .ok w (p.move (1 + w.length)) := by
  have hword : Lexeme.word? (significant p.unread) = some w.toList := by
    rw [hp, word?_blank hw hrest]
  rw [read_word hword, skip_blank hp hw, Parser.move_move]

/-- A `package` statement enters its package. -/
theorem statementWithin_package {scope : Scope} {scopes : List Scope} (hname : IsWord name.toList)
    (hscopes : p.scopes = scope :: scopes)
    (hp : p.unread = "package ".toList ++ name.toList ++ ';' :: rest) (fuel : Nat) :
    statementWithin (fuel + 1) p = .ok none { p.move ("package ".toList ++ name.toList).length with
      namespaces := p.namespaces.declare name
      scopes := { scope with package := name } :: scopes } := by
  have hp' : p.unread = "package".toList ++ ' ' :: (name.toList ++ ';' :: rest) := by
    rw [hp]
    rfl
  have hmove : (p.move 7).unread = ' ' :: (name.toList ++ ';' :: rest) :=
    Parser.unread_move_append hp' rfl
  have hlength : 7 + (1 + name.length) = ("package ".toList ++ name.toList).length := by
    rw [List.length_append, String.length_toList, String.length_toList,
      show "package ".length = 8 from rfl]
    omega
  have henter : packageStatement (p.move 7) =
      .ok () { p.move ("package ".toList ++ name.toList).length with
        namespaces := p.namespaces.declare name
        scopes := { scope with package := name } :: scopes } := by
    rw [packageStatement,
      Run.bind_of_ok (read_word_blank hname (endsLexeme_semicolon rest).endsWord hmove),
      Parser.move_move, hlength]
    exact enterPackage_eq_ok.2 ⟨scope, scopes, hscopes, rfl⟩
  rw [statementWithin_packageWord hp']
  exact Run.bind_of_ok henter

/-- The trigger of a registered feature is noted, and its finalizer waits for the end of the
scope. -/
theorem beginStatement_scopeEnd (hname : IsWord feature.name.toList)
    (hfeature : Table.get? p.features feature.name = some (.block feature))
    (hp : p.unread = ' ' :: (feature.name.toList ++ '.' :: ("scope_end".toList ++ ';' :: rest)))
    (offset : Nat) : beginStatement offset p =
      closeAtScopeEnd ((p.move (feature.name.length + 11)).note (.began offset)) := by
  -- the name of the feature, the point, and the name of the hook, one behind the other
  have hfirst : (p.move 1).unread =
      feature.name.toList ++ '.' :: ("scope_end".toList ++ ';' :: rest) :=
    Parser.unread_move_append (s := [' ']) hp rfl
  have hpoint : (p.move (1 + feature.name.length)).unread =
      '.' :: ("scope_end".toList ++ ';' :: rest) := by
    rw [← Parser.move_move]
    exact Parser.unread_move_append hfirst String.length_toList
  have hend : (p.move (1 + feature.name.length + 1)).unread =
      "scope_end".toList ++ ';' :: rest := by
    rw [← Parser.move_move]
    exact Parser.unread_move_append (s := ['.']) hpoint rfl
  obtain ⟨hsignificant, hskip⟩ := Parser.at_mark hpoint (by decide) (by decide)
  have hendWord : IsWord "scope_end".toList := Lexeme.isWord_of_plain (by decide) (by decide)
  have hlength : 1 + feature.name.length + 1 + "scope_end".length = feature.name.length + 11 := by
    rw [show "scope_end".length = 9 from rfl]
    omega
  have hhook : feature.hooks.contains "scope_end" = true := by
    rw [BlockFeature.hooks, BlockFeature.endHook]
    decide
  have hfound : Table.get? (p.move (feature.name.length + 11)).features feature.name =
      some (.block feature) := hfeature
  rw [beginStatement, Run.bind_of_ok (read_peek _), skip_blank hp hname, Run.get_bind,
    Run.bind_of_ok (read_word_here hname (.point _) hfirst), Parser.move_move,
    Run.bind_of_ok (read_expect hsignificant), hskip, Parser.move_move,
    Run.bind_of_ok (read_word_here hendWord (endsLexeme_semicolon rest).endsWord hend),
    Parser.move_move, hlength, Run.get_bind, hfound]
  dsimp only
  rw [if_pos hhook]
  rfl

/-- The trigger lets the finalizer of its block wait for the end of the scope. -/
theorem statementWithin_trigger {scope : Scope} {scopes : List Scope}
    (hname : IsWord feature.name.toList)
    (hfeature : Table.get? p.features feature.name = some (.block feature))
    (hscopes : p.scopes = scope :: scopes)
    (hp : p.unread =
      "begin ".toList ++ (feature.name.toList ++ ".scope_end".toList) ++ ';' :: rest) (fuel : Nat) :
    statementWithin (fuel + 1) p = .ok none (Parser.hooked
      { (p.move ("begin ".toList ++ (feature.name.toList ++ ".scope_end".toList)).length).note
        (.began p.pos) with finalizers := p.finalizers ++ [{ armed := true }] }
      scope scopes (.finalize p.finalizers.length)) := by
  have hp' : p.unread = "begin".toList ++ ' ' ::
      (feature.name.toList ++ '.' :: ("scope_end".toList ++ ';' :: rest)) := by
    rw [hp, List.append_assoc, List.append_assoc]
    rfl
  have hmove : (p.move 5).unread =
      ' ' :: (feature.name.toList ++ '.' :: ("scope_end".toList ++ ';' :: rest)) :=
    Parser.unread_move_append hp' rfl
  have hlength : 5 + (feature.name.length + 11) =
      ("begin ".toList ++ (feature.name.toList ++ ".scope_end".toList)).length := by
    rw [List.length_append, List.length_append]
    change 5 + (feature.name.length + 11) = 6 + (feature.name.toList.length + 10)
    rw [String.length_toList]
    omega
  rw [statementWithin_beginWord hp',
    Run.bind_congr_left (beginStatement_scopeEnd hname (p := p.move 5) hfeature hmove p.pos),
    Parser.move_move, hlength]
  exact Run.bind_of_ok (a := ()) (closeAtScopeEnd_eq_ok.2 ⟨scope, scopes, hscopes, rfl⟩)

/-- A registered feature is installed with options that normalise. -/
theorem install_of_normalise {scope : Scope} {scopes : List Scope} {raw : Value}
    {options : KeywordOptions} (hraw : Options.normalise feature raw = .ok options)
    (hfeature : Table.get? p.features feature.name = some (.block feature))
    (hscopes : p.scopes = scope :: scopes) (target : String) :
    install (.block feature) target raw p = .ok () (Parser.hooked
      { p with
        namespaces := (p.namespaces.declareKeyword target options.spelling
          (some (.expand feature options))).installFunction target options.spelling
            (.trampoline feature.outcome) }
      scope scopes (p.restoring target options.spelling)) := by
  have hprepare : prepare feature raw p = .ok options p := by
    rw [prepare, hraw]
    rfl
  have hprovide : p.features.provide (.block feature) = .ok p.features := by
    rw [Registry.provide, show (Feature.block feature).name = feature.name from rfl, hfeature]
    exact if_pos rfl
  have hprovided : provide (.block feature) p = .ok () p := provide_eq_ok.2 ⟨_, hprovide, rfl⟩
  rw [install, installWithin, installBlock, Run.bind_of_ok hprepare, installKeyword,
    Run.bind_of_ok hprovided, Run.get_bind]
  exact onScopeEnd_eq_ok.2 ⟨scope, scopes, hscopes, rfl⟩

/-- The statement that installs such a keyword again. -/
theorem statementWithin_bare {scope : Scope} {scopes : List Scope} {literal : List Char}
    (hw : isSpelling w = true) (hname : IsWord feature.name.toList)
    (hfeature : Table.get? p.features feature.name = some (.block feature))
    (hscopes : p.scopes = scope :: scopes)
    (hliteral : Literal.write (KeywordOptions.bare w).toValue = .ok literal)
    (hp : p.unread = "use ".toList ++ (feature.name.toList ++ ' ' :: literal) ++ ';' :: rest)
    (fuel : Nat) :
    statementWithin (fuel + 1) p = .ok none (Parser.hooked
      { p.move ("use ".toList ++ (feature.name.toList ++ ' ' :: literal)).length with
        namespaces := (p.namespaces.declareKeyword p.currentPackage w
          (some (.expand feature (.bare w)))).installFunction p.currentPackage w
            (.trampoline feature.outcome) }
      scope scopes (p.restoring p.currentPackage w)) := by
  have harguments := IsArguments.literal hliteral (KeywordOptions.proper_bare w)
  rw [KeywordOptions.listed_bare] at harguments
  have hunread : p.unread =
      "use ".toList ++ (feature.name.toList ++ (' ' :: literal ++ ';' :: rest)) := by
    rw [hp]
    simp
  have hinstall := install_of_normalise (p := p.move
    ("use ".toList ++ (feature.name.toList ++ ' ' :: literal)).length)
    (KeywordOptions.normalise_bare feature hw) hfeature hscopes p.currentPackage
  rw [statementWithin_use hname harguments (by rwa [String.ofList_toList]) hunread fuel]
  exact Run.bind_of_ok hinstall

/-- A statement is read in front of its semicolon, and the list goes on behind it. -/
theorem statementsWithin_step {before s : List Char} (hs : StartsStatement s)
    (hbefore : Insignificant before) (hp : p.unread = before ++ (s ++ ';' :: rest))
    (hnode : statementWithin fuel (p.move before.length) = .ok node q)
    (hq : q.unread = ';' :: rest) :
    Proceeds (fuel + 1) p fuel (q.move 1) ∧ statementsWithin (some "\x7d") (fuel + 1) p =
      (do return node.toList ++ (← statementsWithin (some "\x7d") fuel) : Parse (List Node))
        (q.move 1) := by
  obtain ⟨hskip, hfirst⟩ := hs.skip_eq hbefore hp
  obtain ⟨hsemicolon, hskip'⟩ := Parser.at_mark hq (by decide) (by decide)
  rw [← hskip] at hnode
  constructor
  · have hmore : Proceeds fuel (q.skip.move 1) fuel (q.move 1) := by
      rw [hskip']
      exact .here _ _
    exact .statement hnode hsemicolon hmore
  · obtain ⟨c, tail, rfl, -, -, hne, hbrace⟩ := hs
    rw [statementsWithin_statement (c := c) hfirst
      (Bool.eq_false_iff.2 (mt closes_brace.1 hbrace)) hne hnode hsemicolon, hskip']

theorem statementsWithin_silent_step {before s : List Char} (hs : StartsStatement s)
    (hbefore : Insignificant before) (hp : p.unread = before ++ (s ++ ';' :: rest))
    (hnode : statementWithin fuel (p.move before.length) = .ok none q)
    (hq : q.unread = ';' :: rest) :
    Proceeds (fuel + 1) p fuel (q.move 1) ∧
      statementsWithin (some "\x7d") (fuel + 1) p =
        statementsWithin (some "\x7d") fuel (q.move 1) := by
  obtain ⟨hproceeds, heq⟩ := statementsWithin_step hs hbefore hp hnode hq
  rw [heq]
  exact ⟨hproceeds, by simp⟩

end Parse

/-! ### The text that an expansion writes -/

/-- The text that is written behind the brace of a declaration without a version, if the keyword
has nothing but a spelling. -/
def injectedText (feature : BlockFeature) (name : String) (literal : List Char) : List Char :=
  "begin ".toList ++ (feature.name.toList ++ ".scope_end".toList) ++ ';' ::
    (' ' :: ("package ".toList ++ name.toList ++ ';' ::
      spaced ["use ".toList ++ (feature.name.toList ++ ' ' :: literal),
        Preamble.placeholder.toList]))

theorem four_append (s₁ s₂ s₃ s₄ rest : List Char) :
    s₁ ++ ';' :: (' ' :: (s₂ ++ ';' :: spaced [s₃, s₄])) ++ rest =
      s₁ ++ ';' :: ([' '] ++ (s₂ ++ ';' ::
        ([' '] ++ (s₃ ++ ';' :: ([' '] ++ (s₄ ++ ';' :: rest)))))) := by
  simp [spaced]

theorem length_four (s₁ s₂ s₃ s₄ : List Char) :
    (s₁ ++ ';' :: (' ' :: (s₂ ++ ';' :: spaced [s₃, s₄]))).length =
      s₁.length + (s₂.length + (s₃.length + (s₄.length + 7))) := by
  simp [spaced]
  omega

theorem Site.injected_bare {site : Site} {literal : List Char} (hextra : site.feature.extra = [])
    (hoptions : site.options = .bare w) (hversion : site.declaration.version = none)
    (hliteral : Literal.write (KeywordOptions.bare w).toValue = .ok literal) :
    site.injected = injectedText site.feature site.declaration.name literal := by
  have hgenerate := KeywordOptions.generate_bare site.declaration.name hextra hliteral
  rw [← hoptions, ← hversion] at hgenerate
  have huse : ("use " ++ site.feature.name ++ " " ++ String.ofList literal).toList =
      "use ".toList ++ (site.feature.name.toList ++ ' ' :: literal) := by
    simp only [String.toList_append, String.toList_ofList, List.append_assoc]
    rfl
  exact Site.injected_eq hgenerate (by
    rw [List.map_cons, List.map_cons, List.map_nil, String.toList_append, huse]
    rfl)

namespace Parser

/-- The parser in front of the body of a declared block, when all that the expansion has written
has been read: `p` is the parser in the scope of the block, in front of `count` characters that the
expansion has written. -/
def entering (p : Parser) (feature : BlockFeature) (name w : String) (count : Nat) : Parser :=
  { p with
    pos := p.pos + count
    namespaces := ((p.namespaces.declare name).declareKeyword name w
      (some (.expand feature (.bare w)))).installFunction name w (.trampoline feature.outcome)
    scopes := ⟨name, [.finalize p.finalizers.length, p.restoring name w]⟩ :: p.scopes.tail
    finalizers := p.finalizers ++ [{ armed := true }]
    journal := .registered (p.restoring name w) :: .registered (.finalize p.finalizers.length) ::
      .began p.pos :: p.journal }

end Parser

namespace Parse

variable {fuel : Nat} {p : Parser} {rest : List Char}

/-- Three statements that leave no node are read one behind the other, and the placeholder behind
them. -/
theorem statementsWithin_four {s₁ s₂ s₃ : List Char} {q₁ q₂ q₃ : Parser} (hs₁ : StartsStatement s₁)
    (hs₂ : StartsStatement s₂) (hs₃ : StartsStatement s₃)
    (hp : p.unread = s₁ ++ ';' :: (' ' :: (s₂ ++ ';' ::
      spaced [s₃, Preamble.placeholder.toList])) ++ rest)
    (h₁ : ∀ rest, p.unread = s₁ ++ ';' :: rest →
      statementWithin (fuel + 6) p = .ok none q₁ ∧ q₁.unread = ';' :: rest)
    (h₂ : ∀ rest, (q₁.move 2).unread = s₂ ++ ';' :: rest →
      statementWithin (fuel + 5) (q₁.move 2) = .ok none q₂ ∧ q₂.unread = ';' :: rest)
    (h₃ : ∀ rest, (q₂.move 2).unread = s₃ ++ ';' :: rest →
      statementWithin (fuel + 4) (q₂.move 2) = .ok none q₃ ∧ q₃.unread = ';' :: rest) :
    Proceeds (fuel + 7) p (fuel + 3) (q₃.move 5) ∧
      statementsWithin (some "\x7d") (fuel + 7) p =
        (do return .literal .null :: (← statementsWithin (some "\x7d") (fuel + 3)) :
          Parse (List Node)) (q₃.move 5) := by
  have hblank : Insignificant [' '] := .blank (by decide)
  have hp₁ := hp.trans (four_append _ _ _ _ rest)
  obtain ⟨hread₁, hunread₁⟩ := h₁ _ hp₁
  obtain ⟨hread₂, hunread₂⟩ :=
    h₂ _ (Parser.unread_move_append (s := [';', ' ']) hunread₁ rfl)
  obtain ⟨hread₃, hunread₃⟩ :=
    h₃ _ (Parser.unread_move_append (s := [';', ' ']) hunread₂ rfl)
  have hunread₄ : (q₃.move 2).unread = '(' :: ')' :: ';' :: rest :=
    Parser.unread_move_append (s := [';', ' ']) hunread₃ rfl
  obtain ⟨hproceeds₁, hfirst⟩ := statementsWithin_silent_step hs₁ .nil hp₁ hread₁ hunread₁
  obtain ⟨hproceeds₂, hsecond⟩ := statementsWithin_silent_step hs₂ hblank
    (Parser.unread_move_append (s := [';']) hunread₁ rfl) hread₂ hunread₂
  obtain ⟨hproceeds₃, hthird⟩ := statementsWithin_silent_step hs₃ hblank
    (Parser.unread_move_append (s := [';']) hunread₂ rfl) hread₃ hunread₃
  obtain ⟨hproceeds₄, hfourth⟩ := statementsWithin_step
    ⟨'(', _, rfl, by decide⟩ hblank (Parser.unread_move_append (s := [';']) hunread₃ rfl)
    (statementWithin_placeholder hunread₄ fuel)
    (Parser.unread_move_append (s := ['(', ')']) hunread₄ rfl)
  exact ⟨((hproceeds₁.trans hproceeds₂).trans hproceeds₃).trans hproceeds₄,
    ((hfirst.trans hsecond).trans hthird).trans hfourth⟩

/-- **All that an expansion writes is read**, whatever stands behind it. -/
theorem statementsWithin_entering {scope : Scope} {scopes : List Scope} {literal : List Char}
    (hname : IsWord name.toList) (hw : isSpelling w = true)
    (hfeatureName : IsWord feature.name.toList)
    (hfeature : Table.get? p.features feature.name = some (.block feature))
    (hscopes : p.scopes = scope :: scopes) (hhooks : scope.hooks = [])
    (hliteral : Literal.write (KeywordOptions.bare w).toValue = .ok literal)
    (hp : p.unread = injectedText feature name literal ++ rest) (hfuel : 3 ≤ fuel) :
    let q := p.entering feature name w (injectedText feature name literal).length
    Proceeds (fuel + 4) p fuel q ∧ statementsWithin (some "\x7d") (fuel + 4) p =
      (do return .literal .null :: (← statementsWithin (some "\x7d") fuel) : Parse (List Node))
        q := by
  intro q
  obtain ⟨n, rfl⟩ := Nat.exists_eq_add_of_le' hfuel
  -- the parsers behind the statements
  let q₁ : Parser := Parser.hooked
    { (p.move ("begin ".toList ++ (feature.name.toList ++ ".scope_end".toList)).length).note
      (.began p.pos) with finalizers := p.finalizers ++ [{ armed := true }] }
    scope scopes (.finalize p.finalizers.length)
  let scope₁ : Scope := { scope with hooks := scope.hooks ++ [.finalize p.finalizers.length] }
  let q₂ : Parser := { (q₁.move 2).move ("package ".toList ++ name.toList).length with
    namespaces := p.namespaces.declare name
    scopes := { scope₁ with package := name } :: scopes }
  let q₃ : Parser := Parser.hooked
    { (q₂.move 2).move ("use ".toList ++ (feature.name.toList ++ ' ' :: literal)).length with
      namespaces := ((p.namespaces.declare name).declareKeyword name w
        (some (.expand feature (.bare w)))).installFunction name w (.trampoline feature.outcome) }
    { scope₁ with package := name } scopes (q₂.restoring name w)
  have hpos : q₃.pos + 5 = p.pos + (injectedText feature name literal).length := by
    have hlength : (injectedText feature name literal).length = _ := length_four _ _ _ _
    rw [hlength]
    change p.pos + _ + 2 + _ + 2 + _ + 5 = p.pos + (_ + (_ + (_ + (2 + 7))))
    omega
  have hrestoring : q₂.restoring name w = p.restoring name w := by
    change ScopeHook.restore name w ((p.namespaces.declare name).function? name w)
      ((p.namespaces.declare name).declaredKeyword? name w) = _
    rw [Namespaces.function?_declare, Namespaces.declaredKeyword?_declare]
    rfl
  have hscope : q₃.scopes =
      ⟨name, [.finalize p.finalizers.length, p.restoring name w]⟩ :: p.scopes.tail := by
    change (⟨name, scope.hooks ++ _ ++ [q₂.restoring name w]⟩ : Scope) :: scopes = _
    rw [hhooks, hrestoring, hscopes]
    rfl
  have hjournal : q₃.journal = .registered (p.restoring name w) ::
      .registered (.finalize p.finalizers.length) :: .began p.pos :: p.journal := by
    change Event.registered (q₂.restoring name w) :: _ = _
    rw [hrestoring]
    rfl
  have hend : q₃.move 5 = q := by
    change _ = p.entering _ _ _ _
    rw [Parser.entering, ← hpos, ← hscope, ← hjournal]
    rfl
  rw [← hend]
  exact statementsWithin_four (startsStatement_trigger feature.name) (startsStatement_package name)
    ⟨'u', _, rfl, by decide⟩ hp
    (fun _ hp => ⟨statementWithin_trigger hfeatureName hfeature hscopes hp _,
      Parser.unread_move_append (p := p) hp rfl⟩)
    (fun _ hp => ⟨statementWithin_package hname rfl hp _,
      Parser.unread_move_append (p := q₁.move 2) hp rfl⟩)
    (fun _ hp => ⟨statementWithin_bare (p := q₂.move 2) hw hfeatureName hfeature rfl hliteral hp _,
      Parser.unread_move_append (p := q₂.move 2) hp rfl⟩)

/-! ### The call around the block -/

variable {q t : Parser} {nodes statements : List Node} {node : Node} {behind : List Char}

/-- A word that is a live keyword is dispatched and then read as a name. -/
theorem wordExpression_keyword {keyword : Keyword}
    (hfree : IsFree w) (hqualified : Name.isQualified w = false)
    (hlive : p.namespaces.keyword? p.currentPackage w = some keyword) :
    wordExpression w fuel p = (do
      dispatch keyword p.pos w
      read (Reader.advance w.length)
      nameWithin w fuel : Parse Node) p := by
  obtain ⟨hstatement, hvalue⟩ := hfree
  rw [IsValueWord, not_or, Option.isSome_iff_ne_none, not_not] at hvalue
  rw [wordExpression]
  dsimp only
  rw [if_neg (by rintro rfl; exact hstatement (by simp [statementWords])),
    if_neg (by simpa using hstatement), hvalue.1]
  dsimp only
  rw [if_neg hvalue.2, Run.get_bind, if_pos (by rw [hqualified]; rfl), hlive]

/-- An expression with a comma behind it. -/
theorem expressionsWithin_comma {closing : Char} {item : Node}
    (hp : (significant p.unread).head? ≠ some closing)
    (hitem : expressionWithin fuel p.skip = .ok item q) (hq : significant q.unread = ',' :: rest) :
    expressionsWithin closing (fuel + 1) p =
      (do return item :: (← expressionsWithin closing fuel) : Parse (List Node))
        (q.skip.move 1) := by
  rw [expressionsWithin.eq_def]
  dsimp only
  rw [Run.bind_of_ok (read_accept_ne hp), if_neg (by decide), Run.bind_of_ok hitem,
    Run.bind_of_ok (read_accept hq), if_pos rfl]

/-- The last expression. -/
theorem expressionsWithin_last {closing : Char} {item : Node} (hcomma : closing ≠ ',')
    (hp : (significant p.unread).head? ≠ some closing)
    (hitem : expressionWithin fuel p.skip = .ok item q)
    (hq : significant q.unread = closing :: rest) :
    expressionsWithin closing (fuel + 1) p = .ok [item] (q.skip.move 1) := by
  have hne : (significant q.unread).head? ≠ some ',' := by
    rw [hq]
    exact fun h => hcomma (Option.some.inj h)
  have hq' : significant q.skip.unread = closing :: rest := by
    rw [Parser.unread_skip, Lexeme.significant_significant, hq]
  rw [expressionsWithin.eq_def]
  dsimp only
  rw [Run.bind_of_ok (read_accept_ne hp), if_neg (by decide), Run.bind_of_ok hitem,
    Run.bind_of_ok (read_accept_ne hne), if_neg (by decide), Run.bind_of_ok (read_expect hq'),
    Parser.skip_skip]
  rfl

/-- A block, from its parts. -/
theorem blockWithin_of_statements (hp : significant p.unread = '\x7b' :: rest)
    (hstatements : statementsWithin (some "\x7d") fuel (p.skip.move 1).opened = .ok statements q)
    (hq : significant q.unread = '\x7d' :: behind)
    (hclose : closeScope (q.skip.move 1) = .ok () t) :
    blockWithin (fuel + 1) p = .ok statements t := by
  rw [blockWithin.eq_def]
  dsimp only
  rw [Run.bind_of_ok (read_expect hp), Run.bind_of_ok ((openScope_eq_ok (u := ())).2 rfl),
    Run.bind_of_ok hstatements, Run.bind_of_ok (read_expect hq), Run.bind_of_ok hclose]
  rfl

/-- The arguments of a call that a declaration becomes. -/
theorem expressionsWithin_arguments {fuel : Nat} (hp : p.AtArguments name rest)
    (hblock : blockWithin fuel (p.move ((Literal.quote name).length + 4)) = .ok statements t)
    (ht : significant t.unread = ')' :: behind) :
    expressionsWithin ')' (fuel + 3) p =
      .ok [.literal (.text name), .doBlock statements] (t.skip.move 1) := by
  have hdo : expressionWithin (fuel + 1) (p.move ((Literal.quote name).length + 1)).skip =
      .ok (.doBlock statements) t := by
    rw [hp.skip_behind, expressionWithin_word hp.word_do, wordExpression]
    dsimp only
    rw [if_pos rfl, Run.bind_of_ok (read_advance_word hp.word_do rfl), Parser.move_move]
    exact Run.bind_of_ok hblock
  have hcomma : ')' ≠ ',' := by decide
  have hlast := expressionsWithin_last hcomma
    (by rw [hp.significant_behind]; exact show some 'd' ≠ some ')' by decide) hdo ht
  rw [expressionsWithin_comma (by rw [hp.significant_name]; simp [Literal.quote])
    (by rw [hp.skip]; exact hp.reads_name _) hp.significant_comma, hp.skip_comma,
    Run.bind_of_ok hlast]
  rfl

end Parse

/-! ### The end of the block -/

/-- The hook changes no text, since it is no finalizer or its finalizer does not wait or has
fired. -/
def ScopeHook.IdleIn (finalizers : List Finalizer) : ScopeHook → Prop
  | .restore .. => True
  | .finalize i => ∀ f, finalizers[i]? = some f → f.armed = false ∨ f.fired = true

namespace Parse

variable {p q : Parser} {hooks : List ScopeHook} {scopes : List Scope}

/-- A hook that is idle changes the packages and nothing else. -/
theorem runHook_idle {hook : ScopeHook} (h : hook.IdleIn p.finalizers) :
    runHook hook p =
      .ok () ({ p with namespaces := hook.apply p.namespaces }.note (.ran hook p.pos)) := by
  cases hook with
  | restore package name function keyword => exact runHook_restore_eq_ok.2 rfl
  | finalize i =>
    refine runHook_finalize_eq_ok.2 ?_
    rw [fire, Run.get_bind]
    dsimp only [Parser.note]
    cases hf : p.finalizers[i]? with
    | none => rfl
    | some f =>
      dsimp only
      rw [if_pos (by simpa using h f hf)]
      rfl

theorem forM_runHook_idle (h : ∀ hook ∈ hooks, hook.IdleIn p.finalizers) :
    ∃ q, hooks.forM runHook p = .ok () q ∧ q.buffer = p.buffer ∧ q.finalizers = p.finalizers := by
  induction hooks generalizing p with
  | nil => exact ⟨p, rfl, rfl, rfl⟩
  | cons hook hooks ih =>
    rw [List.forall_mem_cons] at h
    obtain ⟨q, hq, hbuffer, hfinalizers⟩ :=
      ih (p := { p with namespaces := hook.apply p.namespaces }.note (.ran hook p.pos)) h.2
    exact ⟨q, Run.forM_cons_eq_ok.2 ⟨_, runHook_idle h.1, hq⟩, hbuffer, hfinalizers⟩

/-- A scope whose first hook is a finalizer that waits, and whose other hooks are idle, is closed:
the parenthesis is inserted at the position, and nothing else. -/
theorem closeScope_of_idle {package : String} {i : Nat}
    (hscopes : p.scopes = ⟨package, .finalize i :: hooks⟩ :: scopes)
    (hi : p.finalizers[i]? = some { armed := true }) (hinside : p.pos ≤ p.buffer.text.length)
    (hidle : ∀ hook ∈ hooks, hook.IdleIn
      (p.finalizers.modify i fun f => { f with fired := true })) :
    ∃ q, closeScope p = .ok () q ∧ HooksRun (.finalize i :: hooks)
        ({ p with scopes }.note .closed) q ∧ q.unread = ')' :: p.unread ∧
      q.buffer.text.take p.pos = p.buffer.text.take p.pos ∧ q.pos ≤ q.buffer.text.length ∧
      q.finalizers = p.finalizers.modify i (fun f => { f with fired := true }) := by
  obtain ⟨r, hfire, hr⟩ :=
    exists_runHook (p := { p with scopes }.note .closed) hinside (.finalize i)
  obtain ⟨-, hpos, hfinalizers, htake, hunread⟩ :=
    runHook_finalize_armed (p := { p with scopes }.note .closed) hi hfire
  obtain ⟨q, hhooks, hbuffer, hq⟩ : ∃ q, hooks.forM runHook r = .ok () q ∧ q.buffer = r.buffer ∧
      q.finalizers = r.finalizers := forM_runHook_idle (by rwa [hfinalizers])
  have hall : (ScopeHook.finalize i :: hooks).forM runHook ({ p with scopes }.note .closed) =
      .ok () q := Run.forM_cons_eq_ok.2 ⟨r, hfire, hhooks⟩
  have hrun := hooksRun_of_forM hall
  have hqr : q.pos = r.pos := hrun.pos.trans hpos.symm
  refine ⟨q, closeScope_eq_ok.2 ⟨_, _, hscopes, hall⟩, hrun, ?_, ?_, ?_, hq.trans hfinalizers⟩
  · rw [Parser.unread, hbuffer, hqr]
    exact hunread
  · rw [hbuffer]
    exact htake
  · rw [hbuffer, hqr]
    exact hr

/-! ### The whole declaration -/

/-- A keyword that has nothing but a spelling stands at the position of a parser, and behind it a
head without a version and a brace; the head declares the package `name`. -/
structure BareAt (p : Parser) (feature : BlockFeature) (w name : String) (body : List Char) :
    Prop where
  free : IsFree w
  spelling : isSpelling w = true
  unqualified : Name.isQualified w = false
  live : p.namespaces.keyword? p.currentPackage w = some (.expand feature (.bare w))
  registered : Table.get? p.features feature.name = some (.block feature)
  named : IsWord feature.name.toList
  extra : feature.extra = []
  unread : ∃ after, p.unread = w.toList ++ after ∧ Lexeme.word? p.unread = some w.toList ∧
    Head.rest after = '\x7b' :: body ∧ (Head.read after).version = none ∧
    (Head.read after).target p.currentPackage = name
  name : IsWord name.toList

/-- The declaration was expanded, and all that was written behind its brace was read. -/
structure BodyEntered (p start : Parser) (feature : BlockFeature) (w name : String)
    (body : List Char) : Prop where
  unread : start.unread = body
  inside : start.pos ≤ start.buffer.text.length
  namespaces : start.namespaces = ((p.namespaces.declare name).declareKeyword name w
    (some (.expand feature (.bare w)))).installFunction name w (.trampoline feature.outcome)
  features : start.features = p.features
  scopes : start.scopes =
    ⟨name, [.finalize p.finalizers.length, p.restoring name w]⟩ :: p.scopes
  root : start.root = p.root
  finalizers : start.finalizers = p.finalizers ++ [{ armed := true }]
  journal : ∃ events declaration, start.journal = events ++
    .dispatched ⟨p.pos, w, p.currentPackage, feature, .bare w, declaration⟩ :: p.journal

/-- Reading goes from a form at `p` into a block, and there to `q`, between two statements. -/
def LeadsInto (n : Nat) (f : Form) (p : Parser) (m : Nat) (q : Parser) : Prop :=
  ∃ k b, Leads n f p k (.statements (some "\x7d")) b ∧ Proceeds k b m q

/-- The call that an expanded declaration is, from the statements of its block. -/
theorem nameWithin_called {fuel : Nat} {site : Site} {body rest : List Char} {closed : Parser}
    {inside : List Node} (c : Called site body p) (hqualified : Name.isQualified site.word = false)
    (hstatements : statementsWithin (some "\x7d") fuel (p.move c.inside).opened = .ok inside q)
    (hbrace : significant q.unread = '\x7d' :: rest)
    (hclose : closeScope (q.skip.move 1) = .ok () closed)
    (hclosed : closed.unread = ')' :: behind) :
    nameWithin site.word (fuel + 5) (p.move site.word.toList.length) =
      .ok (.call site.word closed.currentPackage
        [.literal (.text site.declaration.name), .doBlock inside]
        ((p.move site.word.toList.length).namespaces.function?
          (p.move site.word.toList.length).currentPackage site.word)) (closed.move 1) := by
  have hblock : blockWithin (fuel + 1) (p.move c.block) = .ok inside closed :=
    blockWithin_of_statements c.significant_block (by rwa [c.skip_block]) hbrace hclose
  obtain ⟨hclosing, hskip⟩ := Parser.at_mark hclosed (by decide) (by decide)
  have hcall := expressionsWithin_arguments c.atArguments (by rw [c.move_block]; exact hblock)
    hclosing
  rw [hskip] at hcall
  rw [nameWithin_parenthesis c.significant_name, c.skip_name]
  refine (Run.bind_of_ok hcall).trans ?_
  rw [Name.split_of_isQualified hqualified]
  rfl

/-- A keyword that has nothing but a spelling is expanded where it stands. -/
theorem BareAt.expands {body literal : List Char} (h : BareAt p feature w name body)
    (hliteral : Literal.write (KeywordOptions.bare w).toValue = .ok literal) :
    ∃ declaration q, declaration.name = name ∧
      let site : Site := ⟨p.pos, w, p.currentPackage, feature, .bare w, declaration⟩
      Expands site p q ∧ site.injected = injectedText feature name literal ∧
        Nonempty (Called site body q) := by
  obtain ⟨after, hp, hword, hrest, hversion, hname⟩ := h.unread
  have hinside : p.pos ≤ p.buffer.text.length := by
    by_contra hlt
    rw [Parser.unread, List.drop_eq_nil_of_le (by omega)] at hword
    cases hword
  have hgenerate := KeywordOptions.generate_bare name h.extra hliteral
  obtain ⟨⟨declaration, offset⟩, hexpand⟩ := (@expandAt_here feature (.bare w) w after p _ hp
    hinside).2 ⟨body, _, hrest, by rw [hname, hversion]; exact hgenerate, rfl⟩
  have hexpands : Expands ⟨p.pos, w, p.currentPackage, feature, .bare w, declaration⟩ p _ :=
    ⟨rfl, hword, rfl, h.live, offset, _, hexpand, rfl⟩
  obtain ⟨after', body', hrewritten, -⟩ := hexpands.rewritten
  obtain rfl : after = after' := List.append_cancel_left (hp.symm.trans hrewritten.unread)
  obtain ⟨-, rfl⟩ := List.cons.inj (hrest.symm.trans hrewritten.rest)
  have hdeclared : declaration.name = name := hrewritten.name.trans hname
  refine ⟨declaration, _, hdeclared, hexpands, ?_, hrewritten.called⟩
  rw [← hdeclared]
  exact Site.injected_bare h.extra rfl (by rw [hrewritten.version, hversion]; rfl) hliteral

/-- **A declaration cannot fail before its body.**  It is expanded, all that the expansion writes is
read, and where the statements of the body are read and their scope is closed, it is a call. -/
theorem expressionWithin_entered {body : List Char} (h : BareAt p feature w name body) :
    ∃ start, BodyEntered p start feature w name body ∧
      ∀ fuel ≥ 3, LeadsInto (fuel + 10) .expression p fuel start ∧
        ∀ nodes finish rest closed behind,
          statementsWithin (some "\x7d") fuel start = .ok nodes finish →
          significant finish.unread = '\x7d' :: rest →
          closeScope (finish.skip.move 1) = .ok () closed → closed.unread = ')' :: behind →
          expressionWithin (fuel + 10) p = .ok (.call w closed.currentPackage
            [.literal (.text name), .doBlock (.literal .null :: nodes)]
            (p.namespaces.function? p.currentPackage w)) (closed.move 1) := by
  obtain ⟨literal, hliteral⟩ := KeywordOptions.exists_write_bare w
  obtain ⟨declaration, q, hdeclared, hexpands, hinjected, ⟨c⟩⟩ := h.expands hliteral
  have hword : Lexeme.word? p.unread = some w.toList := hexpands.word
  have hdispatch := hexpands.dispatch_eq
  obtain ⟨_, _, hrewritten, -⟩ := hexpands.rewritten
  have hadvance := hrewritten.advance_word
  have hleads (n : Nat) := Expands.leads (p := p) (by rwa [skip_of_word? hword])
    (fun hdo => h.free.1 (by rw [show w = "do" from hdo]; simp [statementWords])) h.unqualified
    c n
  -- the parser in the scope of the block, which differs from `p` in its text and its scopes
  let inner : Parser := (q.move c.inside).opened
  have hunread : inner.unread = injectedText feature name literal ++ body := by
    rw [← hinjected]
    exact c.unread_inside
  obtain ⟨⟨buffer, rfl⟩, -⟩ := hexpands.frame
  have hinner {fuel : Nat} (hfuel : 3 ≤ fuel) := statementsWithin_entering (p := inner) h.name
    h.spelling h.named h.registered rfl rfl hliteral hunread hfuel
  refine ⟨inner.entering feature name w (injectedText feature name literal).length,
    ⟨Parser.unread_move_append hunread rfl, ?_, rfl, rfl, rfl, rfl, rfl,
      [.registered _, .registered _, .began _, .opened], declaration, rfl⟩,
    fun fuel hfuel => ⟨⟨fuel + 4, inner, hleads (fuel + 4), (hinner hfuel).1⟩,
      fun nodes finish rest closed behind hbody hbrace hclose hbehind => ?_⟩⟩
  · have hlengths := congrArg List.length hunread
    rw [Parser.unread, List.length_drop, List.length_append] at hlengths
    have hlength : (injectedText feature name literal).length = _ := length_four _ _ _ _
    change inner.pos + _ ≤ inner.buffer.text.length
    omega
  · have hstatements := (hinner hfuel).2.trans (Run.bind_of_ok hbody)
    have hcall := nameWithin_called c h.unqualified hstatements hbrace hclose hbehind
    rw [hdeclared] at hcall
    rw [expressionWithin_word hword, wordExpression_keyword h.free h.unqualified h.live,
      Run.bind_of_ok hdispatch, Run.bind_of_ok hadvance]
    exact hcall

/-! ### Scripts of one declaration -/

/-- A word that begins no statement of its own kind begins an expression. -/
theorem statementWithin_free (hword : Lexeme.word? p.unread = some w.toList)
    (hw : w ∉ statementWords) (fuel : Nat) :
    statementWithin (fuel + 1) p =
      (do return some (← expressionWithin fuel) : Parse (Option Node)) p := by
  have hskip := skip_of_word? hword
  have hs : significant p.unread = p.unread := by rw [← p.unread_skip, hskip]
  rw [statementWithin.eq_def]
  dsimp only
  rw [Run.bind_of_ok (read_peekWord p), hskip, hs, hword, Option.map_some, String.ofList_toList]
  simp only [statementWords, List.mem_cons, not_or] at hw
  -- the word is taken out of the match, so that the cases do not unfold it
  generalize hnext : some w = next
  split
  · exact absurd (Option.some.inj hnext) hw.1
  · exact absurd (Option.some.inj hnext) hw.2.1
  · exact absurd (Option.some.inj hnext) hw.2.2.1
  · exact absurd (Option.some.inj hnext) hw.2.2.2.1
  · exact absurd (Option.some.inj hnext) hw.2.2.2.2.1
  · rfl

/-- **A script of one declaration compiles as soon as its body is read**, if nothing stands behind
the closing brace. -/
theorem programWithin_entered {body : List Char} (scope : Scope)
    (h : BareAt p feature w name body)
    (hidle : ∀ hook ∈ scope.hooks, ∀ finalizers, hook.IdleIn finalizers) :
    ∃ start, BodyEntered p start feature w name body ∧
      ∀ fuel ≥ 3, LeadsInto (fuel + 12) (.statements none) p fuel start ∧
        ∀ nodes finish rest closed,
          statementsWithin (some "\x7d") fuel start = .ok nodes finish →
          significant finish.unread = '\x7d' :: rest →
          closeScope (finish.skip.move 1) = .ok () closed → closed.unread = [')'] →
          closed.scopes = [scope] →
          ∃ q, programWithin (fuel + 12) p = .ok [.call w scope.package
              [.literal (.text name), .doBlock (.literal .null :: nodes)]
              (p.namespaces.function? p.currentPackage w)] q ∧
            closed.journal <:+ q.journal := by
  obtain ⟨start, hentered, hcall⟩ := expressionWithin_entered h
  obtain ⟨after, hp, hword, -⟩ := h.unread
  have hskip := skip_of_word? hword
  have hs : significant p.unread = p.unread := by rw [← p.unread_skip, hskip]
  obtain ⟨c, tail, hcons, hc, -⟩ := (IsWord.of_word? hword).exists_cons
  have hfirst : significant p.unread = c :: (tail ++ after) := by
    rw [hs, hp, hcons, List.cons_append]
  have hsemicolon : c ≠ ';' := by rintro rfl; revert hc; decide
  refine ⟨start, hentered, fun fuel hfuel => ⟨?_, fun nodes finish rest closed hbody hbrace hclose
    hbehind hscopes => ?_⟩⟩
  · obtain ⟨⟨k, b, hleads, hproceeds⟩, -⟩ := hcall fuel hfuel
    have hstatement : Calls (fuel + 11) (.statements none) p .statement p := by
      have hcalls : Calls (fuel + 11) (.statements none) p .statement p.skip :=
        .statement hfirst rfl hsemicolon
      rwa [hskip] at hcalls
    have hexpression : Calls (fuel + 10) .statement p .expression p := by
      have hcalls : Calls (fuel + 10) .statement p .expression p.skip := by
        refine .expression fun w' hw' heq => h.free.1 ?_
        rw [hskip, hword] at heq
        rw [String.toList_inj.1 (Option.some.inj heq)]
        exact List.mem_append_left _ hw'
      rwa [hskip] at hcalls
    exact ⟨k, b, .first hstatement (.first hexpression hleads), hproceeds⟩
  have hcall := (hcall fuel hfuel).2 nodes finish rest closed [] hbody hbrace hclose hbehind
  generalize hdeclared : Node.call w _ _ _ = node at hcall
  have hcurrent : closed.currentPackage = scope.package := by rw [Parser.currentPackage, hscopes]
  rw [hcurrent] at hdeclared
  rw [hdeclared]
  -- nothing stands behind the declaration
  have hend : (closed.move 1).unread = [] := by rw [Parser.unread_move, hbehind]; rfl
  have hnothing : significant (closed.move 1).unread = [] := by rw [hend]; rfl
  have hskip' : (closed.move 1).skip = closed.move 1 :=
    Parser.skip_eq_move (hend.trans (List.nil_append []).symm) .nil rfl
  obtain ⟨q, hhooks, hbuffer, -⟩ := forM_runHook_idle
    (p := { closed.move 1 with scopes := [] }.note .closed) fun hook hhook => hidle hook hhook _
  have hran := hooksRun_of_forM hhooks
  have hq : q.unread = [] := by
    rw [Parser.unread, hbuffer, hran.pos]
    exact hend
  have hstatement : statementWithin (fuel + 11) p = .ok (some node) (closed.move 1) := by
    rw [statementWithin_free hword h.free.1, Run.bind_of_ok hcall]
    rfl
  have hstatements : statementsWithin none (fuel + 12) p = .ok [node] (closed.move 1) := by
    rw [statementsWithin_last hfirst rfl hsemicolon (by rwa [hskip]) (.none hnothing)
      (by rw [hnothing]; simp), hskip']
    rfl
  refine ⟨q.skip, ?_, (scope.hooks.map (.ran · (closed.pos + 1))).reverse ++ [.closed], ?_⟩
  · rw [programWithin, Run.bind_of_ok hstatements, Parse.finish,
      Run.bind_of_ok ((closeScope_eq_ok (p := closed.move 1)).2 ⟨scope, [], hscopes, hhooks⟩),
      Run.bind_of_ok (read_peek q), hq]
    rfl
  · rw [List.append_assoc]
    exact hran.journal.symm

end Parse

/-! ### Scripts that start with a keyword -/

/-- The parser at the start of a script into whose package a keyword has been installed. -/
def Setting.introducing (setting : Setting) (feature : BlockFeature) (options : KeywordOptions)
    (text : String) : Parser :=
  let p := setting.parser text
  Parser.hooked
    { p with
      namespaces := (p.namespaces.declareKeyword setting.package options.spelling
        (some (.expand feature options))).installFunction setting.package options.spelling
          (.trampoline feature.outcome) }
    { package := setting.package } [] (p.restoring setting.package options.spelling)

namespace Parse

variable {setting : Setting} {raw : Value} {options : KeywordOptions}

/-- A prelude of one block feature installs its keyword, if its options normalise. -/
theorem installPrelude_introducing (hprelude : setting.prelude = [(feature.name, raw)])
    (hfeature : Table.get? setting.features feature.name = some (.block feature))
    (hraw : Options.normalise feature raw = .ok options) (text : String) :
    installPrelude setting.package setting.prelude (setting.parser text) =
      .ok () (setting.introducing feature options text) := by
  rw [hprelude, installPrelude_singleton (p := setting.parser text) hfeature]
  exact install_of_normalise (p := setting.parser text) hraw hfeature rfl setting.package

theorem bareAt_introducing (after : List Char) {body : List Char}
    (hfeature : Table.get? setting.features feature.name = some (.block feature))
    (hnamed : IsWord feature.name.toList) (hextra : feature.extra = []) (hfree : IsFree w)
    (hspelling : isSpelling w = true) (hqualified : Name.isQualified w = false)
    (hw : IsWord w.toList) (hafter : EndsWord after) (hrest : Head.rest after = '\x7b' :: body)
    (hversion : (Head.read after).version = none)
    (hname : (Head.read after).target setting.package = name) (hword : IsWord name.toList) :
    BareAt (setting.introducing feature (.bare w) (w ++ String.ofList after)) feature w name
      body := by
  have hunread : (setting.introducing feature (.bare w) (w ++ String.ofList after)).unread =
      w.toList ++ after := by
    change (w ++ String.ofList after).toList = _
    rw [String.toList_append, String.toList_ofList]
  refine ⟨hfree, hspelling, hqualified, ?_, hfeature, hnamed, hextra, ⟨after, hunread, ?_, hrest,
    hversion, hname⟩, hword⟩
  · change Namespaces.keyword? _ setting.package w = _
    simp [Setting.introducing, KeywordOptions.bare, Namespaces.keyword?, Parser.hooked, Parser.note]
  · rw [hunread, Lexeme.word?_append hw hafter]

end Parse

end BraceScript
