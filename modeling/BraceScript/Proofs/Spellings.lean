import BraceScript.Proofs.Entering

/-!
# Which spellings a script can use

The options of a keyword may spell it with any word of letters, underscores and digits; case does
not matter there, so four letters outside ASCII are letters too.  A script reads words that begin
with an ASCII letter or an underscore.  So a spelling that begins with one of the four letters is
accepted, installed, and never dispatched; every other one is, if the grammar keeps it for nothing
else (`Parse.spelling_usable`).  That the first kind is accepted is a defect
(`Parse.accepted_spelling_unusable`).
-/

namespace BraceScript

open Lexeme (significant Insignificant IsWord EndsWord)
open Declaration (Head)
open Parse

variable {a : String} {options : KeywordOptions}

/-! ### Spellings -/

/-- The raw options that give a spelling. -/
def spelled (a : String) : Value := .mapping [(.text "as", .text a)]

/-- What the option `as` accepts. -/
theorem Options.normalise_spelled {feature : BlockFeature}
    (h : normalise feature (spelled a) = .ok options) :
    isSpelling a = true ∧ options = .bare a := by
  obtain ⟨⟨raw, hraw⟩, -⟩ := (normalise_eq_ok rfl).1 h
  obtain rfl : [(.text "as", .text a)] = raw := Except.ok.inj hraw.coerced
  obtain ⟨word, inner, preamble⟩ := options
  obtain rfl : [] = inner := Except.ok.inj hraw.inner
  obtain rfl : [] = preamble := Except.ok.inj hraw.preamble
  have hword : spelling.check feature a = .ok word := hraw.spelling
  rw [spelling.check] at hword
  split at hword
  · next haccepted =>
    obtain rfl := Except.ok.inj hword
    exact ⟨haccepted, rfl⟩
  · cases hword

/-- The characters of spellings: letters with the variants of their case, underscores, digits. -/
theorem forall_of_isSpelling {P : Char → Prop} (hchar : ∀ c, Text.isWordStart c = true → P c)
    (hdigit : ∀ c, c.isDigit = true → P c) (hvariant : ∀ c ∈ letterVariants, P c)
    (h : isSpelling a = true) : a.toList ≠ [] ∧ ∀ c ∈ a.toList, P c := by
  have hletter (c : Char)
      (hc : (c.isAlpha || c == '_' || letterVariants.contains c) = true) : P c := by
    rcases Bool.or_eq_true _ _ ▸ hc with hc | hc
    · exact hchar c hc
    · exact hvariant c (List.contains_iff_mem.1 hc)
  rw [isSpelling] at h
  split at h
  · cases h
  · next first rest ha =>
    rw [Bool.and_eq_true, List.all_eq_true] at h
    rw [ha]
    refine ⟨List.cons_ne_nil _ _, List.forall_mem_cons.2 ⟨hletter _ h.1, fun c hc => ?_⟩⟩
    rcases Bool.or_eq_true _ _ ▸ h.2 c hc with hc | hc
    · exact hletter c hc
    · exact hdigit c hc

theorem mem_letterVariants_of_isSpelling {c : Char} (h : isSpelling a = true)
    (hc : c ∈ a.toList.head?) (hstart : Text.isWordStart c = false) : c ∈ letterVariants := by
  obtain ⟨rest, ha⟩ := List.head?_eq_some_iff.1 hc
  rw [isSpelling, ha] at h
  rw [Text.isWordStart] at hstart
  simpa [hstart] using (Bool.and_eq_true_iff.1 h).1

/-- The variants begin no word and are in no other way special where a statement begins. -/
theorem begins_nothing_of_mem_letterVariants : ∀ c ∈ letterVariants,
    Text.isBlank c = false ∧ Text.isAnyDigit c = false ∧ c ∉ ['#', '"', '(', '[', '-', ';'] := by
  simp only [letterVariants, List.mem_cons, List.not_mem_nil, or_false, forall_eq_or_imp, forall_eq]
  decide

/-- A spelling is a word as soon as its first character can begin one. -/
theorem isWord_of_isSpelling (h : isSpelling a = true)
    (hfirst : a.toList.head?.any Text.isWordStart = true) : IsWord a.toList := by
  obtain ⟨-, hall⟩ := forall_of_isSpelling (P := fun c => Text.isWordChar c = true)
    (fun _ => Text.isWordChar_of_isWordStart)
    (fun c hc => by simp [Text.isWordChar, Char.isAlphanum, hc])
    (List.all_eq_true.1 (by decide +kernel)) h
  exact Lexeme.isWord_of_forall hfirst hall

theorem splitLast_of_forall {text : List Char} (h : ∀ c ∈ text, c ≠ ':') :
    Name.splitLast text = none := by
  induction text with
  | nil => rfl
  | cons c text ih =>
    rw [List.forall_mem_cons] at h
    rw [Name.splitLast, ih h.2]
    exact fun _ hc _ => absurd hc h.1

/-- A spelling names no package. -/
theorem isQualified_of_isSpelling (h : isSpelling a = true) : Name.isQualified a = false := by
  obtain ⟨-, hall⟩ := forall_of_isSpelling (P := (· ≠ ':')) (by rintro c hc rfl; cases hc)
    (by rintro c hc rfl; cases hc) (by rintro c hc rfl; exact absurd hc (by decide)) h
  rw [Name.isQualified, splitLast_of_forall hall]
  rfl

/-! ### A script that uses its spelling -/

section

variable (apply : Application) (ns : Namespaces)

theorem evalNode_literal (value : Value) :
    evalNode apply (.literal value) ns = .ok value ns := by
  rw [evalNode.eq_def]
  rfl

theorem evalBlock_literals (last : Value) (values : List Value) :
    evalBlock apply last (values.map .literal) ns = .ok (values.getLastD last) ns := by
  induction values generalizing last with
  | nil =>
    rw [List.map_nil, evalBlock.eq_def]
    rfl
  | cons value values ih =>
    rw [List.map_cons, evalBlock.eq_def]
    dsimp only
    rw [Run.bind_of_ok (evalNode_literal apply ns value), ih value, List.getLastD_cons]

/-- A declaration whose block holds nothing but literals. -/
theorem evalNode_declaration (keyword package name : String) (values : List Value) :
    evalNode apply (.call keyword package
      [.literal (.text name), .doBlock (values.map .literal)] (some (.trampoline .package))) ns =
        .ok (.text name) ns := by
  have hblock : evalNode apply (.doBlock (values.map .literal)) ns =
      .ok (values.getLastD .null) ns := by
    rw [evalNode.eq_def]
    exact evalBlock_literals apply ns .null values
  have hnone : evalNodes apply [] ns = .ok [] ns := by
    rw [evalNodes.eq_def]
    rfl
  have hrest : evalNodes apply [.doBlock (values.map .literal)] ns =
      .ok [values.getLastD .null] ns := by
    rw [evalNodes.eq_def]
    dsimp only
    rw [Run.bind_of_ok hblock, Run.bind_of_ok hnone]
    rfl
  have harguments : evalNodes apply [.literal (.text name), .doBlock (values.map .literal)] ns =
      .ok [.text name, values.getLastD .null] ns := by
    rw [evalNodes.eq_def]
    dsimp only
    rw [Run.bind_of_ok (evalNode_literal apply ns _), Run.bind_of_ok hrest]
    rfl
  rw [evalNode.eq_def]
  dsimp only
  rw [Run.bind_of_ok harguments, applyWith.eq_def]
  rfl

end

/-- What stands behind the keyword in a script that declares the package `Foo`. -/
def fooBlock : List Char := " Foo \x7b 1 \x7d".toList

/-- A script that declares the package `Foo` with a keyword of this spelling. -/
def declaringFoo (a : String) : String := a ++ String.ofList fooBlock

theorem declaringFoo_eq (a : String) : declaringFoo a = a ++ " Foo \x7b 1 \x7d" :=
  congrArg (a ++ ·) String.ofList_toList

namespace Parse

variable {p : Parser} {n : Nat}

/-- The body of the script is the number one. -/
theorem statementsWithin_one (hp : p.unread = [' ', '1', ' ', '\x7d']) (n : Nat) :
    statementsWithin (some "\x7d") (n + 3) p = .ok [.literal (.int 1)] (p.move 3) := by
  have hblank : Insignificant [' '] := .blank (by decide)
  have hfirst : significant [' ', '1', ' ', '\x7d'] = ['1', ' ', '\x7d'] := by decide
  have hdigit : significant ['1', ' ', '\x7d'] = ['1', ' ', '\x7d'] := by decide
  have hsecond : significant [' ', '\x7d'] = ['\x7d'] := by decide
  have hbrace : significant ['\x7d'] = ['\x7d'] := by decide
  have hskip : p.skip = p.move 1 := Parser.skip_eq_move hp hblank hdigit
  have hone : (p.move 1).unread = ['1', ' ', '\x7d'] :=
    Parser.unread_move_append (s := [' ']) hp rfl
  have hbehind : (p.move 2).unread = [' ', '\x7d'] :=
    Parser.unread_move_append (s := [' ', '1']) hp rfl
  have hlast : (p.move 3).unread = ['\x7d'] :=
    Parser.unread_move_append (s := [' ', '1', ' ']) hp rfl
  have hskipOne : (p.move 1).skip = p.move 1 :=
    Parser.skip_eq_self hone (hone ▸ hdigit)
  have hskipLast : (p.move 3).skip = p.move 3 :=
    Parser.skip_eq_self hlast (hlast ▸ hbrace)
  have hskipBehind : (p.move 2).skip = p.move 3 := Parser.skip_eq_move hbehind hblank hbrace
  have hunread : (p.move 1).unread = ['1'] ++ [' ', '\x7d'] := hone
  have hnumber : read Literal.number (p.move 1) = .ok (.int 1) (p.move 2) :=
    read_of_ok hunread (by rw [hone]; rfl)
  have hexpression : expressionWithin (n + 1) (p.move 1) = .ok (.literal (.int 1)) (p.move 2) := by
    rw [expressionWithin.eq_def]
    dsimp only
    rw [Run.bind_of_ok (read_peek _), hskipOne, hone, hdigit]
    generalize hnext : List.head? _ = next
    split
    · cases hnext
    · exact absurd (Option.some.inj hnext) (by decide)
    · exact absurd (Option.some.inj hnext) (by decide)
    · exact absurd (Option.some.inj hnext) (by decide)
    · obtain rfl := Option.some.inj hnext
      rw [Run.get_bind, if_pos (by simp [Text.isAnyDigit]), Run.bind_of_ok hnumber]
      rfl
  have hstatement : statementWithin (n + 2) (p.move 1) =
      .ok (some (.literal (.int 1))) (p.move 2) := by
    rw [statementWithin.eq_def]
    dsimp only
    rw [Run.bind_of_ok (read_peekWord _), hskipOne, hone, hdigit]
    exact Run.bind_of_ok hexpression
  have hclosed : statementsWithin (some "\x7d") (n + 2) (p.move 3) = .ok [] (p.move 3) := by
    rw [statementsWithin.eq_def]
    dsimp only
    rw [Run.bind_of_ok (read_peek _), hskipLast, hlast, hbrace]
    rfl
  rw [statementsWithin.eq_def]
  dsimp only
  rw [Run.bind_of_ok (read_peek p), hskip, hp, hfirst]
  dsimp only [List.head?_cons]
  rw [if_neg (by decide), if_neg (by decide), Run.bind_of_ok hstatement,
    Run.bind_of_ok (read_peek _), hskipBehind, hbehind, hsecond]
  dsimp only [List.head?_cons]
  rw [if_neg (by decide), if_neg (by decide), Run.bind_of_ok hclosed]
  rfl

/-- A character that begins nothing is an error. -/
theorem statementsWithin_unexpected {c : Char} {rest : List Char}
    (hp : p.unread = c :: rest) (hskip : p.skip = p) (hstart : Text.isWordStart c = false)
    (hnumber : Text.isAnyDigit c = false)
    (hc : c ∉ ['"', '(', '[', '-', ';']) (n : Nat) :
    statementsWithin none (n + 3) p =
      .error (.unreadable (.unexpected c) (p.buffer.place p.pos)) p := by
  simp only [List.mem_cons, List.not_mem_nil, or_false, not_or] at hc
  obtain ⟨hquote, hparenthesis, hbracket, hminus, hsemicolon⟩ := hc
  have hs : significant p.unread = c :: rest := by rw [← p.unread_skip, hskip, hp]
  have hword : Lexeme.word? (significant p.unread) = none := by
    rw [hs]
    exact Lexeme.word?_eq_none rest hstart
  have hexpression : expressionWithin (n + 1) p =
      .error (.unreadable (.unexpected c) (p.buffer.place p.pos)) p := by
    rw [expressionWithin.eq_def]
    dsimp only
    rw [Run.bind_of_ok (read_peek _), hskip, hs]
    generalize hnext : List.head? _ = next
    split
    · cases hnext
    · exact absurd (Option.some.inj hnext) hquote
    · exact absurd (Option.some.inj hnext) hparenthesis
    · exact absurd (Option.some.inj hnext) hbracket
    · obtain rfl := Option.some.inj hnext
      rw [Run.get_bind, if_neg (by simp [hnumber, hminus]), Run.bind_of_ok (read_peekWord _), hword,
        hskip]
      rfl
  have hstatement : statementWithin (n + 2) p =
      .error (.unreadable (.unexpected c) (p.buffer.place p.pos)) p := by
    rw [statementWithin.eq_def]
    dsimp only
    rw [Run.bind_of_ok (read_peekWord _), hword, hskip]
    exact Run.bind_eq_error.2 (.inl hexpression)
  rw [statementsWithin.eq_def]
  dsimp only
  rw [Run.bind_of_ok (read_peek _), hskip, hs]
  dsimp only [List.head?_cons]
  rw [if_neg (by simp [closes]), if_neg hsemicolon]
  exact Run.bind_eq_error.2 (.inl hstatement)

theorem le_fuelFor (p : Parser) : 15 ≤ fuelFor p := by
  rw [fuelFor]
  nlinarith [Nat.zero_le p.buffer.text.length, Nat.zero_le (growth p)]

/-- The script with a spelling that is a word is read, and the declaration is dispatched. -/
theorem program_declaringFoo (hspelling : isSpelling a = true) (hfree : IsFree a)
    (hword : IsWord a.toList) :
    ∃ q site, program (({} : Setting).introducing .standard (.bare a) (declaringFoo a)) =
        .ok [.call a "main" [.literal (.text "Foo"),
          .doBlock ([.null, .int 1].map .literal)] (some (.trampoline .package))] q ∧
      .dispatched site ∈ q.journal ∧ site.offset = 0 ∧ site.word = a ∧ site.package = "main" ∧
      site.feature = .standard ∧ site.options = .bare a := by
  let p : Parser := ({} : Setting).introducing .standard (.bare a) (declaringFoo a)
  have hbare : BareAt p .standard a "Foo" [' ', '1', ' ', '\x7d'] :=
    bareAt_introducing fooBlock rfl (Lexeme.isWord_of_plain (by decide) (by decide)) rfl hfree
      hspelling (isQualified_of_isSpelling hspelling) hword (Lexeme.endsWord_blank _)
      (by decide +kernel) (by decide +kernel) (by decide +kernel)
      (Lexeme.isWord_of_plain (by decide) (by decide))
  let scope : Scope :=
    ⟨"main", [(({} : Setting).parser (declaringFoo a)).restoring "main" a]⟩
  have hfunction : p.namespaces.function? p.currentPackage a = some (.trampoline .package) := by
    change Namespaces.function? _ "main" a = _
    simp [p, Setting.introducing, KeywordOptions.bare, Parser.hooked, Parser.note,
      BlockFeature.standard, Namespaces.startPackage]
  obtain ⟨start, hentered, hprogram⟩ := programWithin_entered scope hbare
    (by simp [scope, ScopeHook.IdleIn, Parser.restoring])
  -- the end of the block
  have hbrace : (start.move 3).unread = ['\x7d'] :=
    Parser.unread_move_append (s := [' ', '1', ' ']) hentered.unread rfl
  obtain ⟨hsignificant, hskip⟩ := Parser.at_mark hbrace (by decide) (by decide)
  have hend : (start.move 4).unread = [] :=
    Parser.unread_move_append (s := [' ', '1', ' ', '\x7d']) (by simpa using hentered.unread) rfl
  have hlength := congrArg List.length hentered.unread
  rw [Parser.unread, List.length_drop] at hlength
  obtain ⟨closed, hclose, hran, hunread, -⟩ := closeScope_of_idle (p := start.move 4)
    hentered.scopes (by change start.finalizers[_]? = _; rw [hentered.finalizers]; rfl)
    (by
      change start.pos + 4 ≤ start.buffer.text.length
      change _ = 4 at hlength
      omega)
    (by simp [ScopeHook.IdleIn, Parser.restoring])
  rw [hend] at hunread
  obtain ⟨events, declaration, hjournal⟩ := hentered.journal
  obtain ⟨n, hn⟩ := Nat.exists_eq_add_of_le' (le_fuelFor p)
  obtain ⟨q, hq, hsuffix⟩ := (hprogram (n + 3) (by omega)).2 _ _ _ closed
    (statementsWithin_one hentered.unread n) hsignificant (by rw [hskip]; exact hclose) hunread
    hran.scopes
  refine ⟨q, ⟨p.pos, a, p.currentPackage, .standard, .bare a, declaration⟩, ?_, ?_, rfl, rfl, rfl,
    rfl, rfl⟩
  · rw [program_eq, hn]
    rw [hfunction] at hq
    exact hq
  · refine hsuffix.subset ?_
    rw [hran.journal]
    change _ ∈ _ ++ .closed :: start.journal
    simp [hjournal]

/-- **Which spellings can be used.**  The options of the standard feature accept a spelling that the
grammar keeps for nothing else, and the keyword is installed with them in front of a script.  If the
first character of the spelling can begin a word, then the declaration `Foo` with this spelling
is dispatched and evaluates to its name.  If not, the script cannot be read: the first character of
the keyword is unexpected, and nothing has been dispatched. -/
theorem spelling_usable (h : Options.normalise .standard (spelled a) = .ok options)
    (hfree : IsFree a) :
    let setting : Setting := { prelude := [("module", spelled a)] }
    let text := a ++ " Foo \x7b 1 \x7d"
    (a.toList.head?.any Text.isWordStart = true →
      ∃ program p compiled ns, script setting (setting.parser text) = .ok program p ∧
        (∃ site, .dispatched site ∈ p.journal ∧ site.offset = 0 ∧ site.word = a ∧
          site.package = "main" ∧ site.feature = .standard ∧ site.options = options) ∧
        compile text setting = .ok compiled ∧ compiled.program = program ∧
        compiled.run = .ok (.text "Foo") ns) ∧
    ∀ c ∈ a.toList.head?, Text.isWordStart c = false →
      let start := setting.parser text
      let error : Error := .unreadable (.unexpected c) (start.buffer.place 0)
      ∃ p, script setting start = .error error p ∧ (∀ site, .dispatched site ∉ p.journal) ∧
        compile text setting = .error error := by
  intro setting text
  obtain ⟨hspelling, rfl⟩ := Options.normalise_spelled h
  have htext : text = declaringFoo a := (declaringFoo_eq a).symm
  let p : Parser := ({} : Setting).introducing .standard (.bare a) text
  have hprelude : installPrelude setting.package setting.prelude (setting.parser text) =
      .ok () p := installPrelude_introducing rfl rfl h text
  have hscript : script setting (setting.parser text) = program p := by
    rw [script, Run.bind_of_ok hprelude]
  refine ⟨fun hfirst => ?_, fun c hc hstart => ?_⟩
  · obtain ⟨q, site, hprogram, hsite⟩ :=
      program_declaringFoo hspelling hfree (isWord_of_isSpelling hspelling hfirst)
    rw [← htext] at hprogram
    have hread := hscript.trans hprogram
    have hcompile := (compile_eq_ofRun text setting).trans (congrArg Compiled.ofRun hread)
    refine ⟨_, q, _, q.namespaces, hread, ⟨site, hsite⟩, hcompile, rfl, ?_⟩
    rw [Compiled.run, Node.eval, evalNode.eq_def]
    dsimp only
    rw [evalBlock.eq_def]
    dsimp only
    rw [Run.bind_of_ok (evalNode_declaration ..), evalBlock.eq_def]
    rfl
  · have hvariant := mem_letterVariants_of_isSpelling hspelling hc hstart
    obtain ⟨hblank, hdigit, hnothing⟩ := begins_nothing_of_mem_letterVariants c hvariant
    rw [List.mem_cons, not_or] at hnothing
    obtain ⟨rest, hrest⟩ := List.head?_eq_some_iff.1 hc
    have hunread : p.unread = c :: (rest ++ " Foo \x7b 1 \x7d".toList) := by
      change text.toList = _
      rw [String.toList_append, hrest, List.cons_append]
    have hsignificant : significant p.unread = p.unread := by
      rw [hunread]
      exact Lexeme.significant_cons _ hblank hnothing.1
    have hskip : p.skip = p := Parser.skip_eq_self rfl hsignificant
    obtain ⟨n, hn⟩ := Nat.exists_eq_add_of_le' (le_fuelFor p)
    have hprogram : program p = .error (.unreadable (.unexpected c) (p.buffer.place 0)) p := by
      rw [program_eq, hn]
      exact Run.bind_eq_error.2 (.inl
        (statementsWithin_unexpected hunread hskip hstart hdigit hnothing.2 (n + 12)))
    have hread := hscript.trans hprogram
    exact ⟨p, hread, by simp [p, Setting.introducing, Parser.hooked, Parser.note, Setting.parser,
      Parser.start], (compile_eq_ofRun text setting).trans (congrArg Compiled.ofRun hread)⟩

/-- A spelling with a variant of a letter inside. -/
theorem spelling_usable_inside :
    let setting : Setting := { prelude := [("module", spelled "claſs")] }
    Options.normalise .standard (spelled "claſs") = .ok (.bare "claſs") ∧ IsFree "claſs" ∧
      ∃ compiled ns, compile ("claſs" ++ " Foo \x7b 1 \x7d") setting = .ok compiled ∧
        compiled.run = .ok (.text "Foo") ns := by
  intro setting
  have haccepted : Options.normalise .standard (spelled "claſs") = .ok (.bare "claſs") := by rfl
  have hfree : IsFree "claſs" := by decide +kernel
  obtain ⟨_, _, compiled, ns, -, -, hcompile, -, hrun⟩ :=
    (spelling_usable haccepted hfree).1 (by decide +kernel)
  exact ⟨haccepted, hfree, compiled, ns, hcompile, hrun⟩

/-- **A spelling that is accepted and cannot be used**: the long s. -/
theorem accepted_spelling_unusable :
    Options.normalise .standard (spelled "ſ") = .ok (.bare "ſ") ∧ IsFree "ſ" ∧
      compile ("ſ" ++ " Foo \x7b 1 \x7d") { prelude := [("module", spelled "ſ")] } =
        .error (.unreadable (.unexpected 'ſ') ⟨"<string>", 1, 1, some "ſ Foo \x7b 1 \x7d"⟩) := by
  let setting : Setting := { prelude := [("module", spelled "ſ")] }
  have hread : Run.fails (fun e _ => match e with
      | .unreadable fault place => fault == .unexpected 'ſ' &&
        place == ⟨"<string>", 1, 1, some "ſ Foo \x7b 1 \x7d"⟩
      | _ => false)
      (script setting (setting.parser ("ſ" ++ " Foo \x7b 1 \x7d"))) = true := by decide +kernel
  obtain ⟨e, p, hscript, he⟩ := Run.fails_iff.1 hread
  split at he
  · rw [Bool.and_eq_true, beq_iff_eq, beq_iff_eq] at he
    obtain ⟨rfl, rfl⟩ := he
    exact ⟨rfl, by decide +kernel,
      (compile_eq_ofRun _ setting).trans (congrArg Compiled.ofRun hscript)⟩
  · cases he

end Parse

end BraceScript
