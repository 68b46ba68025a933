import BraceScript.Proofs.Expansion
import BraceScript.Proofs.Statements

/-!
# The opening of a declared block

An expansion writes statements behind the brace of a block: the trigger, the opening of the
package, the version, the installation of the keyword and of the inner features, and the
placeholder.  `Preamble.generate_rows` lists them with the nodes that they leave, and
`Parse.opening` says what reading all of them does, whatever stands behind them.
-/

namespace BraceScript

open Lexeme (significant Insignificant IsWord EndsLexeme EndsWord)
open Parse

namespace Preamble

theorem intercalate_semicolon (s : List Char) (statements : List (List Char)) :
    [';', ' '].intercalate (s :: statements) ++ [';'] = s ++ ';' :: spaced statements := by
  induction statements generalizing s with
  | nil => simp [spaced]
  | cons t statements ih =>
    rw [List.intercalate_cons_cons, List.append_assoc, List.append_assoc, ih]
    simp [spaced]

/-- The rendered text is the first statement and, behind its semicolon, the others. -/
theorem render_eq {statements tail : List String} {s : String}
    (h : statements ++ [placeholder] = s :: tail) :
    (render statements).toList = s.toList ++ ';' :: spaced (tail.map String.toList) := by
  rw [render, h, String.toList_append, String.toList_intercalate, List.map_cons]
  exact intercalate_semicolon _ _

theorem render_cons (s : String) (statements : List String) :
    (render (s :: statements)).toList = s.toList ++ ';' :: ' ' :: (render statements).toList := by
  obtain ⟨t, tail, hcons⟩ : ∃ t tail, statements ++ [placeholder] = t :: tail :=
    List.exists_cons_of_ne_nil (by simp)
  rw [render_eq hcons, render_eq (List.cons_append.trans (congrArg (s :: ·) hcons))]
  simp [spaced]

/-- The injected text is a list of statements. -/
theorem trigger_append_render (feature : BlockFeature) (statements : List String) :
    feature.trigger.toList ++ (render statements).toList =
      "begin ".toList ++ (feature.name.toList ++ ".scope_end".toList) ++
        ';' :: spaced (statements.map String.toList ++ [placeholder.toList]) := by
  obtain ⟨s, tail, hcons⟩ : ∃ s tail, statements ++ [placeholder] = s :: tail :=
    List.exists_cons_of_ne_nil (by simp)
  have hmap : statements.map String.toList ++ [placeholder.toList] =
      s.toList :: tail.map String.toList := by
    simpa using congrArg (List.map String.toList) hcons
  rw [hmap, render_eq hcons, BlockFeature.trigger, BlockFeature.endHook]
  simp [spaced]

variable {feature : BlockFeature} {name : String} {version : Option String}
  {options : KeywordOptions} {statements : List String}

theorem isLiteral_quote (s : String) : IsLiteral (Literal.quote s) := ⟨.text s, rfl⟩

/-- The arguments of one inner feature are literals, of which there is one at least. -/
theorem innerArguments_eq_ok {entry : InnerFeature} {parts : List (List Char)}
    (h : innerArguments entry = .ok parts) : parts ≠ [] ∧ ∀ part ∈ parts, IsLiteral part := by
  rw [innerArguments] at h
  split at h
  · obtain rfl := Except.ok.inj h
    exact ⟨by simp, by simpa using isLiteral_quote _⟩
  · obtain ⟨part, hpart, h⟩ := Run.except_bind_eq_ok.1 h
    obtain rfl := Except.ok.inj h
    exact ⟨by simp, by simpa using ⟨isLiteral_quote entry.name, _, hpart⟩⟩

theorem mapM_innerArguments_eq_ok {inner : List InnerFeature}
    {arguments : List (List (List Char))} (h : inner.mapM innerArguments = .ok arguments) :
    (inner ≠ [] → arguments.flatten ≠ []) ∧ ∀ part ∈ arguments.flatten, IsLiteral part := by
  induction inner generalizing arguments with
  | nil =>
    obtain rfl := Except.ok.inj h
    simp
  | cons entry inner ih =>
    rw [List.mapM_cons] at h
    obtain ⟨parts, hparts, h⟩ := Run.except_bind_eq_ok.1 h
    obtain ⟨more, hmore, h⟩ := Run.except_bind_eq_ok.1 h
    obtain rfl := Except.ok.inj h
    obtain ⟨hne, hliterals⟩ := innerArguments_eq_ok hparts
    rw [List.flatten_cons, List.forall_mem_append]
    exact ⟨fun _ => List.append_ne_nil_of_left_ne_nil hne _, hliterals, (ih hmore).2⟩

/-- Statements that leave no node and are read quietly in any package. -/
def QuietUses (statements : List String) : Prop :=
  ∀ s ∈ statements, ∀ package, ReadQuietly package s.toList none

theorem useFeature_quiet (hfeature : IsWord feature.name.toList) {statement : String}
    (h : useFeature feature.name options = .ok statement) : QuietUses [statement] := by
  obtain ⟨literal, hliteral, rfl⟩ := useFeature_eq_ok.1 h
  intro s hs package
  obtain rfl := List.mem_singleton.1 hs
  have hquiet := readQuietly_use package hfeature ⟨_, hliteral⟩
    (fun _ h => absurd h List.not_mem_nil)
  simpa [Literal.commaList] using hquiet

theorem useInner_quiet {inner : List InnerFeature} (h : useInner inner = .ok statements) :
    QuietUses statements := by
  rcases useInner_eq_ok h with ⟨-, rfl⟩ | ⟨hne, arguments, harguments, rfl⟩
  · simp [QuietUses]
  · obtain ⟨hparts, hliterals⟩ := mapM_innerArguments_eq_ok harguments
    obtain ⟨part, parts, hcons⟩ := List.exists_cons_of_ne_nil (hparts hne)
    rw [hcons, List.forall_mem_cons] at hliterals
    intro s hs package
    obtain rfl := List.mem_singleton.1 hs
    have hquiet := readQuietly_use package
      (show IsWord "syntax".toList from Lexeme.isWord_of_plain (by decide) (by decide))
      hliterals.1 hliterals.2
    rw [hcons]
    simpa using hquiet

/-- Statements that do nothing, as they are read in a package. -/
theorem exists_rows (package : String) {extra : List String}
    (h : ∀ s ∈ extra, ∃ node, MovesOver s.toList node) :
    ∃ rows : List (List Char × Option Node), rows.map (·.1) = extra.map String.toList ∧
      ∀ row ∈ rows, ReadQuietly package row.1 row.2 := by
  induction extra with
  | nil => exact ⟨[], rfl, by simp⟩
  | cons s extra ih =>
    rw [List.forall_mem_cons] at h
    obtain ⟨⟨node, hnode⟩, hextra⟩ := h
    obtain ⟨rows, hmap, hrows⟩ := ih hextra
    exact ⟨(s.toList, node package) :: rows, by simp [hmap],
      List.forall_mem_cons.2 ⟨hnode.readQuietly package, hrows⟩⟩

/-- The statements for a block, with the nodes that they leave.  The first of them opens the
package; it is the only one that changes what the others are read in. -/
theorem generate_rows (hextra : ∀ s ∈ feature.extra, ∃ node, MovesOver s.toList node)
    (hpreamble : options.preamble = []) (hfeature : IsWord feature.name.toList)
    (hversion : ∀ v ∈ version, Lexeme.IsNumber v.toList)
    (h : generate feature name version options = .ok statements) :
    ∃ (rows : List (List Char × Option Node)) (extra : List Node),
      statements.map String.toList ++ [placeholder.toList] =
        ("package ".toList ++ name.toList) :: rows.map (·.1) ∧
      (∀ row ∈ rows, ReadQuietly name row.1 row.2) ∧
      rows.flatMap (·.2.toList) =
        (version.map (Node.version name)).toList ++ extra ++ [.literal .null] ∧
      (feature.extra = [] → extra = []) := by
  obtain ⟨use, uses, huse, huses, rfl⟩ := generate_eq_ok.1 h
  have hquiet : QuietUses (use :: uses) := by
    have hfirst := useFeature_quiet hfeature huse
    have hmore := useInner_quiet huses
    intro s hs
    rcases List.mem_cons.1 hs with rfl | hs
    · exact hfirst s List.mem_cons_self
    · exact hmore s hs
  -- the statements in four groups: version, keywords, those of the feature, and the placeholder
  let versionRows : List (List Char × Option Node) := version.toList.map fun v =>
    ("version ".toList ++ v.toList, some (.version name v))
  have hversionRows : ∀ row ∈ versionRows, ReadQuietly name row.1 row.2 := by
    intro row hrow
    obtain ⟨v, hv, rfl⟩ := List.mem_map.1 hrow
    simpa using (movesOver_version (hversion v (by simpa using hv))).readQuietly name
  obtain ⟨extraRows, hextraRows, hextraQuiet⟩ := exists_rows name hextra
  refine ⟨versionRows ++ ((use :: uses).map (fun s => (s.toList, none)) ++ (extraRows ++
    [(placeholder.toList, some (.literal .null))])), extraRows.flatMap (·.2.toList), ?_, ?_, ?_, ?_⟩
  · cases version <;>
      simp [versionRows, hextraRows, hpreamble, Preamble.package, Preamble.version]
  · intro row hrow
    simp only [List.mem_append, List.mem_singleton] at hrow
    rcases hrow with hrow | hrow | hrow | rfl
    · exact hversionRows row hrow
    · obtain ⟨s, hs, rfl⟩ := List.mem_map.1 hrow
      exact hquiet s hs name
    · exact hextraQuiet row hrow
    · exact movesOver_placeholder.readQuietly name
  · cases version <;> simp [versionRows]
  · intro hnil
    rw [hnil, List.map_nil, List.map_eq_nil_iff] at hextraRows
    rw [hextraRows, List.flatMap_nil]

end Preamble

namespace Parse

variable {fuel : Nat} {p q : Parser} {name : String} {rest : List Char} {node : Option Node}

/-- The trigger registers the finalizer of the declaration. -/
theorem trigger_eq_ok (hname : IsWord name.toList)
    (hp : p.unread = "begin ".toList ++ (name.toList ++ ".scope_end".toList) ++ ';' :: rest)
    (h : statementWithin fuel p = .ok node q) :
    node = none ∧ closeAtScopeEnd ((p.move ("begin ".toList ++
      (name.toList ++ ".scope_end".toList)).length).note (.began p.pos)) = .ok () q := by
  have hp' : p.unread = "begin".toList ++ ' ' :: (name.toList ++ ".scope_end".toList ++
      ';' :: rest) := by
    rw [hp]
    rfl
  obtain ⟨n, rfl⟩ := statementWithin_fuel h
  rw [statementWithin_beginWord hp'] at h
  obtain ⟨_, r, hbegin, hnode⟩ := Run.bind_eq_ok.1 h
  obtain ⟨rfl, rfl⟩ := Run.pure_eq_ok.1 hnode
  obtain ⟨name', hook, hfound, -, hhook, hclose⟩ := beginStatement_eq_ok hbegin
  have hmove : (p.move 5).unread =
      ' ' :: (name.toList ++ ('.' :: ("scope_end".toList ++ ';' :: rest))) := by
    rw [Parser.unread_move, hp']
    simp
  rw [hmove, word?_blank hname (.point _)] at hfound
  obtain rfl : name = name' := String.toList_inj.1 (Option.some.inj hfound)
  have hskip := skip_blank hmove hname
  -- the name of the feature, the point, and the name of the hook, one behind the other
  have hpoint : ((p.move 5).skip.move name.length).unread =
      '.' :: ("scope_end".toList ++ ';' :: rest) := by
    rw [hskip, Parser.move_move, Parser.unread_move, hmove, Nat.add_comm, List.drop_succ_cons,
      ← String.length_toList, List.drop_left]
  have hpointSignificant : significant ('.' :: ("scope_end".toList ++ ';' :: rest)) =
      '.' :: ("scope_end".toList ++ ';' :: rest) :=
    Lexeme.significant_cons _ (by decide) (by decide)
  have hend : (((p.move 5).skip.move name.length).move 1).unread =
      "scope_end".toList ++ ';' :: rest :=
    Parser.unread_move_append (s := ['.']) hpoint rfl
  have hendWord : IsWord "scope_end".toList := Lexeme.isWord_of_plain (by decide) (by decide)
  rw [Parser.skip_eq_self hpoint hpointSignificant] at hhook hclose
  rw [hend, hendWord.significant_append,
    Lexeme.word?_append hendWord (endsLexeme_semicolon rest).endsWord] at hhook
  obtain rfl : "scope_end" = hook := String.toList_inj.1 (Option.some.inj hhook)
  rw [Parser.skip_eq_self hend (hendWord.significant_append _), hskip,
    Parser.move_move, Parser.move_move, Parser.move_move, Parser.move_move] at hclose
  rw [show ("begin ".toList ++ (name.toList ++ ".scope_end".toList)).length =
      5 + (1 + (name.length + (1 + "scope_end".length))) by
    rw [List.length_append, List.length_append, String.length_toList, String.length_toList,
      String.length_toList, show "begin ".length = 6 from rfl,
      show ".scope_end".length = 10 from rfl, show "scope_end".length = 9 from rfl]
    omega]
  exact ⟨rfl, hclose⟩

/-- A `package` statement enters the package. -/
theorem package_eq_ok (hname : IsWord name.toList)
    (hp : p.unread = "package ".toList ++ name.toList ++ ';' :: rest)
    (h : statementWithin fuel p = .ok node q) :
    node = none ∧ enterPackage name { p.move ("package ".toList ++ name.toList).length with
      namespaces := p.namespaces.declare name } = .ok () q := by
  have hp' : p.unread = "package".toList ++ ' ' :: (name.toList ++ ';' :: rest) := by
    rw [hp]
    rfl
  obtain ⟨n, rfl⟩ := statementWithin_fuel h
  rw [statementWithin_packageWord hp'] at h
  obtain ⟨_, r, hpackage, hnode⟩ := Run.bind_eq_ok.1 h
  obtain ⟨rfl, rfl⟩ := Run.pure_eq_ok.1 hnode
  obtain ⟨name', hfound, henter⟩ := packageStatement_eq_ok hpackage
  have hmove : (p.move 7).unread = ' ' :: (name.toList ++ ';' :: rest) :=
    Parser.unread_move_append hp' rfl
  rw [hmove, word?_blank hname (endsLexeme_semicolon rest).endsWord] at hfound
  obtain rfl : name = name' := String.toList_inj.1 (Option.some.inj hfound)
  rw [skip_blank hmove hname, Parser.move_move, Parser.move_move] at henter
  rw [show ("package ".toList ++ name.toList).length = 7 + (1 + name.length) by
    rw [List.length_append, String.length_toList, String.length_toList,
      show "package ".length = 8 from rfl]
    omega]
  exact ⟨rfl, henter⟩

variable {nodes : List Node} {r : Parser}

theorem closeAtScopeEnd_keeps (h : closeAtScopeEnd p = .ok () q) :
    q.buffer = p.buffer ∧ q.pos = p.pos ∧
      q.finalizers = p.finalizers ++ [{ armed := true }] := by
  obtain ⟨scope, scopes, -, rfl⟩ := closeAtScopeEnd_eq_ok.1 h
  exact ⟨rfl, rfl, rfl⟩

theorem enterPackage_keeps (h : enterPackage name p = .ok () q) :
    q.buffer = p.buffer ∧ q.pos = p.pos ∧ q.finalizers = p.finalizers ∧
      q.currentPackage = name := by
  obtain ⟨scope, scopes, -, rfl⟩ := enterPackage_eq_ok.1 h
  exact ⟨rfl, rfl, rfl, rfl⟩

/-- What the trigger has done, and that its semicolon comes next. -/
theorem trigger_read (hname : IsWord name.toList)
    (hp : p.unread = "begin ".toList ++ (name.toList ++ ".scope_end".toList) ++ ';' :: rest)
    (h : statementWithin fuel p = .ok node q) :
    node = none ∧ Runs [.registered (.finalize p.finalizers.length), .began p.pos]
        [.finalize p.finalizers.length] p q ∧ q.buffer = p.buffer ∧
      q.pos = p.pos + ("begin ".toList ++ (name.toList ++ ".scope_end".toList)).length ∧
      q.finalizers = p.finalizers ++ [{ armed := true }] ∧ q.unread = ';' :: rest := by
  obtain ⟨rfl, hclose⟩ := trigger_eq_ok hname hp h
  obtain ⟨hbuffer, hpos, hfinalizers⟩ := closeAtScopeEnd_keeps hclose
  have hword : Lexeme.word? p.unread = some "begin".toList := by
    rw [hp]
    exact Lexeme.word?_append (isWord_of_mem_statementWords "begin" (by simp [statementWords]))
      (Lexeme.endsWord_blank _)
  exact ⟨rfl, .began hword (by simp) (by simp [hp]) hclose, hbuffer, hpos, hfinalizers,
    Parser.unread_of_pos (p := p) hbuffer hpos hp⟩

/-- What the opening of the package has done, and that its semicolon comes next. -/
theorem package_read (hname : IsWord name.toList)
    (hp : p.unread = "package ".toList ++ name.toList ++ ';' :: rest)
    (h : statementWithin fuel p = .ok node q) :
    node = none ∧ Runs [] [] p q ∧ q.buffer = p.buffer ∧
      q.pos = p.pos + ("package ".toList ++ name.toList).length ∧
      q.finalizers = p.finalizers ∧ q.currentPackage = name ∧ q.unread = ';' :: rest := by
  obtain ⟨rfl, henter⟩ := package_eq_ok hname hp h
  obtain ⟨hbuffer, hpos, hfinalizers, hpackage⟩ := enterPackage_keeps henter
  have hmove : Runs [] [] p (p.move ("package ".toList ++ name.toList).length) :=
    .move p (by simp [hp])
  exact ⟨rfl, hmove.seq (.entered hname henter), hbuffer, hpos, hfinalizers, hpackage,
    Parser.unread_of_pos (p := p) hbuffer hpos hp⟩

theorem startsStatement_trigger (name : String) :
    StartsStatement ("begin ".toList ++ (name.toList ++ ".scope_end".toList)) :=
  ⟨'b', _, rfl, by decide⟩

theorem startsStatement_package (name : String) :
    StartsStatement ("package ".toList ++ name.toList) := ⟨'p', _, rfl, by decide⟩

end Parse

/-- The trigger of a declared block and the opening of its package have been read, each with its
semicolon. -/
structure Entered (name : String) (p q : Parser) : Prop where
  runs : Runs [.registered (.finalize p.finalizers.length), .began p.pos]
    [.finalize p.finalizers.length] p q
  buffer : q.buffer = p.buffer
  finalizers : q.finalizers = p.finalizers ++ [{ armed := true }]
  package : q.currentPackage = name

/-- The statements behind the trigger and the package are quiet. -/
theorem Entered.injected {site : Site} {p q r : Parser} {count : Nat} {body : List Char}
    (h : Entered site.declaration.name p q) (hquiet : Quiet count q r)
    (hp : p.unread = site.injected ++ body) (hpos : p.pos = site.declaration.block)
    (hcount : q.pos + count = p.pos + site.injected.length) :
    ∃ e hooks, Runs e hooks p r ∧ Injected site e hooks p r ∧ r.unread = body := by
  obtain ⟨e, hooks, hruns, he, hhooks⟩ := hquiet.runs
  have hbuffer : r.buffer = p.buffer := hquiet.buffer.trans h.buffer
  have hend : r.pos = p.pos + site.injected.length := hquiet.pos.trans hcount
  refine ⟨_, _, h.runs.seq hruns, ⟨hbuffer, hend.trans (by rw [hpos]), ?_, ?_, ?_, ?_⟩,
    Parser.unread_of_pos hbuffer hend hp⟩
  · exact ⟨e, by rw [← hpos], he⟩
  · exact ⟨hooks, rfl, hhooks⟩
  · rw [hquiet.finalizers, h.finalizers]
  · rw [hquiet.package, h.package]

/-- The statements of a declared block, one by one. -/
theorem Site.injected_eq {site : Site} {statements : List String} {rows : List (List Char)}
    (hgenerate : Preamble.generate site.feature site.declaration.name site.declaration.version
      site.options = .ok statements)
    (hrows : statements.map String.toList ++ [Preamble.placeholder.toList] =
      ("package ".toList ++ site.declaration.name.toList) :: rows) :
    site.injected = "begin ".toList ++ (site.feature.name.toList ++ ".scope_end".toList) ++
      ';' :: (' ' :: ("package ".toList ++ site.declaration.name.toList ++ ';' ::
        spaced rows)) := by
  rw [Site.injected, hgenerate]
  dsimp only
  rw [Preamble.trigger_append_render, hrows]
  simp [spaced]

/-- What stands before a parser in front of the injected statements. -/
theorem Site.unread_injected {site : Site} {statements : List String} {rows : List (List Char)}
    {p : Parser} {body : List Char}
    (hgenerate : Preamble.generate site.feature site.declaration.name site.declaration.version
      site.options = .ok statements)
    (hrows : statements.map String.toList ++ [Preamble.placeholder.toList] =
      ("package ".toList ++ site.declaration.name.toList) :: rows)
    (hp : p.unread = site.injected ++ body) :
    p.unread = "begin ".toList ++ (site.feature.name.toList ++ ".scope_end".toList) ++ ';' ::
      (' ' :: ("package ".toList ++ site.declaration.name.toList ++ ';' ::
        (spaced rows ++ body))) := by
  rw [hp, Site.injected_eq hgenerate hrows]
  simp

namespace Parse

variable {fuel : Nat} {p q r : Parser} {name : String} {rest : List Char} {nodes : List Node}

/-- The trigger, the opening of the package, and the semicolons behind them. -/
theorem statementsWithin_entered {feature : String} (hfeature : IsWord feature.toList)
    (hname : IsWord name.toList)
    (hp : p.unread = "begin ".toList ++ (feature.toList ++ ".scope_end".toList) ++
      ';' :: (' ' :: ("package ".toList ++ name.toList ++ ';' :: rest)))
    (h : statementsWithin (some "\x7d") fuel p = .ok nodes r) :
    ∃ n ≤ fuel, ∃ q, Entered name p q ∧ q.unread = rest ∧
      q.pos + rest.length = p.pos + p.unread.length ∧
      statementsWithin (some "\x7d") n q = .ok nodes r := by
  obtain ⟨n, hn, node, q, nodes', hread, hmore, rfl⟩ := statementsWithin_cons (w := [])
    (startsStatement_trigger feature) .nil hp h fun hunread hread =>
      (trigger_read hfeature hunread hread).2.2.2.2.2
  obtain ⟨rfl, hruns, hbuffer, hpos, hfinalizers, hunread⟩ := trigger_read hfeature hp hread
  have hq : (q.move 1).unread =
      [' '] ++ ("package ".toList ++ name.toList ++ ';' :: rest) := by
    rw [Parser.unread_move, hunread]
    rfl
  obtain ⟨n', hn', node, q', nodes', hread', hmore', rfl⟩ := statementsWithin_cons (w := [' '])
    (startsStatement_package name) (.blank (by decide)) hq hmore fun hunread hread =>
      (package_read hname hunread hread).2.2.2.2.2.2
  rw [Parser.move_move] at hread'
  have hq' : (q.move 2).unread = "package ".toList ++ name.toList ++ ';' :: rest := by
    rw [Parser.unread_move, hunread]
    rfl
  obtain ⟨rfl, hruns', hbuffer', hpos', hfinalizers', hpackage, hunread'⟩ :=
    package_read hname hq' hread'
  refine ⟨n', by omega, q'.move 1, ⟨?_, hbuffer'.trans hbuffer, hfinalizers'.trans hfinalizers,
    hpackage⟩, ?_, ?_, hmore'⟩
  · exact ((hruns.seq (.move q (by simp [hunread]))).seq hruns').seq (.move q' (by simp [hunread']))
  · rw [Parser.unread_move, hunread']
    rfl
  · rw [Parser.move_pos, hpos', Parser.move_pos, hpos, hp]
    simp only [List.length_append, List.length_cons]
    omega

/-- **What the injected statements of a declaration do**, whatever stands behind them. -/
theorem opening {site : Site} {statements : List String} {nodes : List Node} {body : List Char}
    {r : Parser} (hsite : site.Plain) (hname : IsWord site.declaration.name.toList)
    (hversion : ∀ v ∈ site.declaration.version, Lexeme.IsNumber v.toList)
    (hgenerate : Preamble.generate site.feature site.declaration.name site.declaration.version
      site.options = .ok statements)
    (hp : p.unread = site.injected ++ body) (hpos : p.pos = site.declaration.block)
    (h : statementsWithin (some "\x7d") fuel p = .ok nodes r) :
    ∃ n ≤ fuel, ∃ q nodes' e hooks, Runs e hooks p q ∧ Injected site e hooks p q ∧
      q.unread = body ∧ statementsWithin (some "\x7d") n q = .ok nodes' r ∧
      ∃ extra, (site.feature.extra = [] → extra = []) ∧
        nodes = (site.declaration.version.map (Node.version site.declaration.name)).toList ++
          extra ++ [.literal .null] ++ nodes' := by
  obtain ⟨rows, extra, hrows, hquiet, hnodes, hextra⟩ := Preamble.generate_rows hsite.feature.extra
    hsite.preamble hsite.feature.name hversion hgenerate
  have hlength := congrArg List.length hp
  rw [List.length_append] at hlength
  -- the trigger and the package are read on their own, the other statements quietly
  have hp' := Site.unread_injected hgenerate hrows hp
  obtain ⟨n₁, hn₁, q₁, hentered, hunread, hpos₁, h⟩ :=
    statementsWithin_entered hsite.feature.name hname hp' h
  obtain ⟨n, hn, q, nodes', hrest, hmore, rfl⟩ :=
    statementsWithin_spaced hquiet hunread hentered.package h
  rw [List.length_append] at hpos₁
  obtain ⟨e, hooks, hruns, hinjected', hbody⟩ := hentered.injected hrest hp hpos (by omega)
  exact ⟨n, by omega, q, nodes', e, hooks, hruns, hinjected', hbody, hmore, extra, hextra,
    by rw [hnodes]⟩

end Parse

end BraceScript
