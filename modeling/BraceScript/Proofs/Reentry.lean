import BraceScript.Proofs.Braced
import BraceScript.Proofs.Entering

/-!
# Declarations without a name

A declaration without a name declares the package in which it stands.  In a script that starts in
the package `P`, with the keyword `module` installed there, the statements of a program are read
alike on their own and as the block of `module { ... }`: what the declaration writes at the top of
its block leaves packages and keywords as they are, since it enters `P` and installs the same
keyword again (`Parse.BodyEntered.apart`), and the two ways differ in what stands around the
statements only (`Around.block`).  So whatever compiles in `P` compiles as such a block too, and
the declaration evaluates to `P` (`package_reentered`).

All this holds of packages that are named by a word.  Any text is accepted as the package of a
script, and the declaration writes it behind `package` as it is (`package_not_reentered`).
-/

namespace BraceScript

open Lexeme (significant Insignificant IsWord Outside Braced)
open Declaration (Head)
open BraceScript.Parser (Apart ApartIn)
open Parse

/-! ### Installing again what is installed -/

theorem Table.put_get? {κ α : Type} [BEq κ] [LawfulBEq κ] {rows : Table κ α} {k : κ} {v : α}
    (h : get? rows k = some v) : put rows k v = rows := by
  induction rows with
  | nil => cases h
  | cons row rows ih =>
    obtain ⟨key, value⟩ := row
    rw [get?] at h
    rw [put]
    split at h
    · next heq => rw [if_pos heq, Option.some.inj h]
    · next hne => rw [if_neg hne, ih h]

namespace Namespaces

variable {ns : Namespaces} {package name : String}

theorem modify_eq_self {f : Package → Package} {found : Package}
    (h : Table.get? ns package = some found) (hf : f found = found) : ns.modify package f = ns := by
  rw [modify, h, Option.getD_some, hf, Table.put_get? h]

theorem installFunction_eq_self {f : Function} (h : ns.function? package name = some f) :
    ns.installFunction package name f = ns := by
  obtain ⟨found, hfound, hf⟩ := Option.bind_eq_some_iff.1 h
  exact modify_eq_self hfound (by rw [Table.put_get? hf])

theorem declareKeyword_eq_self {keyword : Keyword}
    (h : ns.declaredKeyword? package name = some keyword) :
    ns.declareKeyword package name (some keyword) = ns := by
  obtain ⟨found, hfound, hkeyword⟩ := Option.bind_eq_some_iff.1 h
  exact modify_eq_self hfound (by dsimp only; rw [Table.put_get? hkeyword])

theorem declare_eq_self {keyword : Keyword}
    (h : ns.declaredKeyword? package name = some keyword) : ns.declare package = ns := by
  obtain ⟨found, hfound, -⟩ := Option.bind_eq_some_iff.1 h
  exact modify_eq_self hfound rfl

end Namespaces

/-- Whatever the text of a script is, its prelude leaves `word` as a live keyword in the package of
the script, for a registered feature and with a spelling and nothing else. -/
def Setting.Offers (setting : Setting) (feature : BlockFeature) (word : String) : Prop :=
  ∀ text p, installPrelude setting.package setting.prelude (setting.parser text) = .ok () p →
    Table.get? p.features feature.name = some (.block feature) ∧
    p.namespaces.declaredKeyword? setting.package word = some (.expand feature (.bare word)) ∧
    p.namespaces.function? setting.package word = some (.trampoline feature.outcome)

variable {setting : Setting} {feature : BlockFeature} {word : String} {p q : Parser}

theorem Installs.registered {Given : Value → Prop} {name : String} {found : Feature}
    (h : Installs Given p q)
    (hfound : Table.get? p.features name = some found) :
    Table.get? q.features name = some found := by
  induction h with
  | refl => exact hfound
  | keyword _ _ _ h _ ih =>
    obtain ⟨features, scope, scopes, hprovide, -, rfl⟩ := installKeyword_eq_ok h
    exact ih (Registry.get?_provide hprovide hfound)

/-- A prelude offers the feature that it installs last. -/
theorem Setting.offers_last {rows : List (String × Value)} {raw : Value}
    (hprelude : setting.prelude = rows ++ [(feature.name, raw)])
    (hfeature : Table.get? setting.features feature.name = some (.block feature))
    (hraw : Options.normalise feature raw = .ok (.bare word)) : setting.Offers feature word := by
  intro text p h
  refine ⟨(installPrelude_installs h).registered hfeature, ?_⟩
  rw [hprelude, installPrelude, List.forM_eq_forM, List.forM_append] at h
  obtain ⟨_, r, hrows, hlast⟩ := Run.bind_eq_ok.1 h
  obtain ⟨_, hrow, hnil⟩ := Run.forM_cons_eq_ok.1 hlast
  obtain rfl := Run.forM_nil_eq_ok.1 hnil
  rw [Run.get_bind] at hrow
  obtain ⟨found, hfound, hinstall⟩ := require_bind_eq_ok hrow
  obtain rfl : .block feature = found :=
    Option.some.inj (((installPrelude_installs hrows).registered hfeature).symm.trans hfound)
  rw [install, installWithin, installBlock] at hinstall
  obtain ⟨options, _, hprepare, hinstall⟩ := Run.bind_eq_ok.1 hinstall
  obtain ⟨hoptions, rfl⟩ := prepare_eq_ok hprepare
  obtain rfl : .bare word = options := Except.ok.inj (hraw.symm.trans hoptions)
  obtain ⟨features, scope, scopes, -, -, rfl⟩ := installKeyword_eq_ok hinstall
  constructor <;> simp [KeywordOptions.bare, Parser.hooked, Parser.note]

/-- The script of one declaration without a name, with the statements of `body` in its block. -/
def unnamed (body : String) : String := "module \x7b " ++ body ++ "\n\x7d"

/-- What this declaration is in `package`, from the statements of its block. -/
def Node.reentering (package : String) (nodes : List Node) : Node :=
  .call "module" package [.literal (.text package), .doBlock (.literal .null :: nodes)]
    (some (.trampoline .package))

/-! ### Around a block -/

/-- The statements stand in a block.  At its end the hooks `hooks'` are run where the others have
`hooks`, and then those that the statements themselves have registered. -/
def Around.block (finalizers : List Finalizer) (hooks hooks' : List ScopeHook)
    (under : List Scope) : Around where
  finalizers := finalizers
  Floor scopes scopes' := ∃ package later, scopes = [⟨package, hooks ++ later⟩] ∧
    scopes' = ⟨package, hooks' ++ later.map (ScopeHook.shift finalizers.length)⟩ :: under
  package := by
    rintro _ _ ⟨package, later, rfl, rfl⟩
    rfl
  change := by
    rintro scope scopes _ ⟨_, later, heq, rfl⟩ package more
    obtain ⟨rfl, rfl⟩ := List.cons.inj heq
    exact ⟨_, _, rfl, package, later ++ more, by rw [List.append_assoc],
      by rw [List.map_append, List.append_assoc]⟩

theorem ScopeHook.IdleIn.shift {hook : ScopeHook} {finalizers : List Finalizer}
    (h : hook.IdleIn finalizers) (old : List Finalizer) :
    (hook.shift old.length).IdleIn (old ++ finalizers) := by
  cases hook with
  | restore => trivial
  | finalize i =>
    intro f hf
    rw [List.getElem?_append_right (Nat.le_add_left _ _), Nat.add_sub_cancel] at hf
    exact h f hf

namespace Parse

variable {a start r : Parser} {body rest : List Char} {package : String} {hooks : List ScopeHook}
  {scope : Scope} {hook : ScopeHook}

/-- What a declaration does before its body changes nothing for the statements of the body, if the
package and the keyword are the ones that were there already. -/
theorem BodyEntered.apart (happart : Apart (fun _ => True) (fun t _ => t = body) a p)
    (hscopes : a.scopes = [⟨package, hooks⟩]) (hfinalizers : a.finalizers = [])
    (hkeyword : p.namespaces.declaredKeyword? package word = some (.expand feature (.bare word)))
    (hfunction : p.namespaces.function? package word = some (.trampoline feature.outcome))
    (hentered : BodyEntered p start feature word package
      (' ' :: (body ++ '\n' :: '\x7d' :: rest))) :
    ApartIn (.block [{ armed := true }] hooks [.finalize 0, p.restoring package word]
        [⟨package, hooks⟩]) 0 (fun _ => True) (Braced rest) a (start.move 1) := by
  have hp : p.finalizers = [] := happart.finalizers.trans (by rw [hfinalizers]; rfl)
  have hscopes' : p.scopes = [⟨package, hooks⟩] := Eq.trans happart.scopes hscopes
  have hinside : (start.move 1).pos ≤ (start.move 1).buffer.text.length := by
    have hlength := congrArg List.length hentered.unread
    rw [Parser.unread, List.length_drop, List.length_cons] at hlength
    change start.pos + 1 ≤ start.buffer.text.length
    omega
  refine
    { text := ?_
      inside := happart.inside
      inside' := hinside
      namespaces := ?_
      features := hentered.features.trans happart.features
      scopes := ⟨package, [], by rw [hscopes, List.append_nil], ?_⟩
      root := hentered.root.trans happart.root
      finalizers := ?_
      plain := happart.plain
      packages := fun _ _ => trivial
      named := trivial }
  · rw [happart.text, Parser.unread_move, hentered.unread]
    exact Braced.line rest body
  · change start.namespaces = _
    rw [hentered.namespaces, Namespaces.declare_eq_self hkeyword,
      Namespaces.declareKeyword_eq_self hkeyword, Namespaces.installFunction_eq_self hfunction,
      happart.namespaces]
  · change start.scopes = _
    rw [hentered.scopes, hp, hscopes']
    rfl
  · change start.finalizers = _
    rw [hentered.finalizers, hp, hfinalizers]
    rfl

/-! ### The end of the block -/

/-- Hooks behind which nothing is left to be read are idle: the parenthesis that one of them inserts
would be left. -/
theorem idleIn_of_forM (h : hooks.forM runHook p = .ok () r) (hplain : ∀ f ∈ p.finalizers, f.Plain)
    (hend : significant r.unread = []) : ∀ hook ∈ hooks, hook.IdleIn p.finalizers := by
  induction hooks generalizing p with
  | nil => exact List.forall_mem_nil _
  | cons hook hooks ih =>
    obtain ⟨q, hhook, h⟩ := Run.forM_cons_eq_ok.1 h
    rw [List.forall_mem_cons]
    cases hook with
    | restore package name function keyword =>
      obtain rfl := runHook_restore_eq_ok.1 hhook
      have hmore := ih h hplain
      exact ⟨trivial, hmore⟩
    | finalize i =>
      rcases fire_eq_ok (runHook_finalize_eq_ok.1 hhook) with
        ⟨rfl, hquiet⟩ | ⟨f, buffer, hf, rfl, htext⟩
      · have hmore := ih h hplain
        exact ⟨hquiet, hmore⟩
      · -- the parenthesis is still there when the other hooks have run
        obtain ⟨hle, htext⟩ := htext (hplain f (List.mem_of_getElem? hf))
        have hlength : (p.buffer.text.take p.pos).length = p.pos := by
          rw [List.length_take]
          exact Nat.min_eq_left hle
        have hran : Ran hooks [] _ r := forM_runHook h rfl
          (forall_mem_modify hplain fun _ hf => hf) fun _ _ => Nat.zero_le _
        obtain ⟨n, -, hn, hr⟩ := hran.text
        obtain ⟨-, hunread⟩ := Ran.unread_eq hn hran.pos hr
        have hq : Parser.unread { p.note (.ran (.finalize i) p.pos) with
            finalizers := p.finalizers.modify i fun f => { f with fired := true }
            buffer } = ')' :: p.unread := by
          rw [Parser.unread, htext]
          exact List.drop_left' hlength
        rw [show r.unread = List.replicate n ')' ++ ')' :: p.unread from
          hunread.trans (congrArg _ hq)] at hend
        cases n with
        | zero =>
          rw [List.replicate_zero, List.nil_append,
            Lexeme.significant_cons _ (by decide) (by decide)] at hend
          cases hend
        | succ n =>
          rw [List.replicate_succ, List.cons_append,
            Lexeme.significant_cons _ (by decide) (by decide)] at hend
          cases hend

/-- The scope of the block is closed: only the declaration itself is closed there. -/
theorem closeScope_block
    (h : ApartIn (.block [{ armed := true }] hooks [.finalize 0, hook] [scope]) 0 (fun _ => True)
      (fun t t' => t = [] ∧ t' = ['\x7d']) p q)
    (hhook : ∀ finalizers, hook.IdleIn finalizers) (hclose : closeScope p = .ok () r)
    (hend : significant r.unread = []) :
    ∃ closed, closeScope (q.skip.move 1) = .ok () closed ∧ closed.unread = [')'] ∧
      closed.scopes = [scope] := by
  obtain ⟨own, scopes, hscopes, hhooks⟩ := closeScope_eq_ok.1 hclose
  obtain ⟨package, later, heq, hscopes'⟩ := h.scopes
  obtain ⟨rfl, rfl⟩ := List.cons.inj (hscopes.symm.trans heq)
  have hidle := idleIn_of_forM hhooks h.plain hend
  have hunread : q.unread = ['\x7d'] := h.text.2
  have hskip : q.skip = q := Parser.skip_eq_self hunread (by decide)
  have hfinalizers : q.finalizers = [{ armed := true }] ++ p.finalizers := h.finalizers
  have hinside : q.pos + 1 ≤ q.buffer.text.length := by
    have hlength := congrArg List.length hunread
    rw [Parser.unread, List.length_drop, List.length_singleton] at hlength
    omega
  replace hscopes' : q.scopes =
      [⟨package, .finalize 0 :: hook :: later.map (ScopeHook.shift 1)⟩, scope] := hscopes'
  obtain ⟨closed, hclosed, hran, hbehind, -⟩ := closeScope_of_idle (p := q.move 1) hscopes'
    (by change q.finalizers[0]? = _; rw [hfinalizers]; rfl) hinside (by
      change ∀ hook : ScopeHook, hook ∈ _ → hook.IdleIn (q.finalizers.modify 0 _)
      rw [hfinalizers, List.forall_mem_cons, List.forall_mem_map]
      exact ⟨hhook _, fun hook hlater =>
        (hidle hook (List.mem_append_right _ hlater)).shift [{ armed := true, fired := true }]⟩)
  rw [hskip]
  refine ⟨closed, hclosed, ?_, hran.scopes⟩
  rw [hbehind, Parser.unread_move, hunread]
  rfl

/-! ### The whole script -/

/-- What a prelude leaves behind at the start of a text. -/
theorem installPrelude_leaves {text : String}
    (h : installPrelude setting.package setting.prelude (setting.parser text) = .ok () p) :
    (∃ hooks, p.scopes = [⟨setting.package, hooks⟩] ∧
      ∀ hook ∈ hooks, ∀ finalizers, hook.IdleIn finalizers) ∧ p.finalizers = [] := by
  have hquiet := (installPrelude_installs h).quiet
  obtain ⟨e, hooks, hruns, -, hhooks⟩ := hquiet.runs
  refine ⟨⟨hooks, ?_, fun hook hhook finalizers => ?_⟩, hquiet.finalizers⟩
  · have hpackage := hquiet.package
    have hgrown := hruns.frame.scopes
    generalize hscopes : p.scopes = scopes at hgrown
    rw [Parser.currentPackage, hscopes] at hpackage
    cases hgrown with
    | @innermost _ scope' _ heq _ =>
      obtain ⟨package, own⟩ := scope'
      obtain rfl : package = setting.package := hpackage
      obtain rfl : own = hooks := heq
      rfl
  · cases hook with
    | restore => trivial
    | finalize i => cases hhooks _ hhook

/-- A prelude does the same in front of any other text. -/
theorem installPrelude_apart {text : String}
    (h : installPrelude setting.package setting.prelude (setting.parser text) = .ok () p)
    (text' : String) :
    ∃ q, installPrelude setting.package setting.prelude (setting.parser text') = .ok () q ∧
      Apart (fun _ => True) (fun t t' => t = text.toList ∧ t' = text'.toList) p q := by
  have hstart : Apart (fun _ => True) (fun t t' => t = text.toList ∧ t' = text'.toList)
      (setting.parser text) (setting.parser text') :=
    { text := ⟨rfl, rfl⟩
      inside := Nat.zero_le _
      inside' := Nat.zero_le _
      namespaces := rfl
      features := rfl
      scopes := rfl
      root := rfl
      finalizers := rfl
      plain := nofun
      packages := fun _ _ => trivial
      named := trivial }
  have hgood : p.Dispatches fun _ => True := fun _ _ => trivial
  exact (follows_installPrelude _ _).follows hstart h hgood

theorem toList_unnamed (body : String) : (unnamed body).toList =
    "module".toList ++ ' ' :: '\x7b' :: ' ' :: (body.toList ++ ['\n', '\x7d']) := by
  rw [unnamed, String.toList_append, String.toList_append, List.append_assoc]
  rfl

/-- A brace behind a blank is no head at all. -/
theorem head_brace (package : String) (rest : List Char) :
    Head.rest (' ' :: '\x7b' :: rest) = '\x7b' :: rest ∧
      (Head.read (' ' :: '\x7b' :: rest)).version = none ∧
      (Head.read (' ' :: '\x7b' :: rest)).target package = package := by
  have hblank : significant (' ' :: '\x7b' :: rest) = '\x7b' :: rest := by
    have happend := (Lexeme.Insignificant.blank (c := ' ') (by decide)).significant_append
      ('\x7b' :: rest)
    rw [Lexeme.significant_cons rest (by decide) (by decide)] at happend
    exact happend
  have hbrace : significant ('\x7b' :: rest) = '\x7b' :: rest :=
    Lexeme.significant_cons rest (by decide) (by decide)
  have hword : Lexeme.word? ('\x7b' :: rest) = none := Lexeme.word?_eq_none rest (by decide)
  have hliteral : Version.literal? ('\x7b' :: rest) = none := rfl
  have hname : Head.afterName (' ' :: '\x7b' :: rest) = '\x7b' :: rest := by
    rw [Head.afterName, hblank, hword]
    rfl
  have hversion : Head.afterVersion ('\x7b' :: rest) = '\x7b' :: rest := by
    rw [Head.afterVersion, hbrace, hliteral]
    rfl
  refine ⟨by rw [Head.rest, hname, hversion, hbrace], ?_, ?_⟩
  · rw [Head.read, hname, hbrace, hliteral]
  · rw [Head.read, hblank, hword]
    rfl

theorem bareAt_unnamed {body package : String} (hpackage : IsWord package.toList)
    (hunread : p.unread = (unnamed body).toList) (hcurrent : p.currentPackage = package)
    (hfeature : Table.get? p.features BlockFeature.standard.name = some (.block .standard))
    (hkeyword : p.namespaces.declaredKeyword? package "module" =
      some (.expand .standard (.bare "module")))
    (hfunction : p.namespaces.function? package "module" = some (.trampoline .package)) :
    BareAt p .standard "module" package (' ' :: (body.toList ++ ['\n', '\x7d'])) := by
  have hword : IsWord "module".toList := Lexeme.isWord_of_plain (by decide) (by decide)
  rw [toList_unnamed] at hunread
  obtain ⟨hrest, hversion, htarget⟩ :=
    head_brace p.currentPackage (' ' :: (body.toList ++ ['\n', '\x7d']))
  refine ⟨by decide, by decide, by decide, ?_, hfeature, hword,
    rfl, ⟨_, hunread, ?_, hrest, hversion, htarget.trans hcurrent⟩, hpackage⟩
  · rw [Namespaces.keyword?, hcurrent, hfunction, hkeyword]
    rfl
  · rw [hunread, Lexeme.word?_append hword (Lexeme.endsWord_blank _)]

theorem finish_eq_ok {nodes nodes' : List Node} (h : finish nodes p = .ok nodes' q) :
    nodes' = nodes ∧ ∃ r, closeScope p = .ok () r ∧ significant r.unread = [] := by
  obtain ⟨_, r, hclose, h⟩ := Run.bind_eq_ok.1 h
  rw [Run.bind_of_ok (read_peek r)] at h
  cases hs : significant r.unread with
  | nil =>
    rw [hs] at h
    exact ⟨(Run.pure_eq_ok.1 h).1.symm, r, hclose, hs⟩
  | cons c rest =>
    rw [hs] at h
    exact absurd h fail_eq_ok

/-- The statements of a script are read alike in the block of a declaration without a name, and the
declaration is read to its end. -/
theorem scriptWithin_unnamed {body : String} {nodes : List Node} {n : Nat}
    (hpackage : IsWord setting.package.toList) (hoffers : setting.Offers .standard "module")
    (h : scriptWithin setting n (setting.parser body) = .ok nodes r) :
    ∃ p start finish q,
      installPrelude setting.package setting.prelude (setting.parser (unnamed body)) = .ok () p ∧
      LeadsInto (n + 15) (.statements none) p (n + 3) start ∧
      start.unread = ' ' :: (body.toList ++ ['\n', '\x7d']) ∧
      start.currentPackage = setting.package ∧
      statementsWithin (some "\x7d") (n + 3) start = .ok nodes finish ∧
      scriptWithin setting (n + 15) (setting.parser (unnamed body)) =
        .ok [.reentering setting.package nodes] q := by
  obtain ⟨_, a, ha, hprogram⟩ := Run.bind_eq_ok.1 h
  obtain ⟨p, hp, happart⟩ := installPrelude_apart ha (unnamed body)
  obtain ⟨⟨hooks, hscopes, hidle⟩, hfinalizers⟩ := installPrelude_leaves ha
  obtain ⟨hfeature, hkeyword, hfunction⟩ := hoffers _ p hp
  have hcurrent : p.currentPackage = setting.package := by
    rw [happart.currentPackage, Parser.currentPackage, hscopes]
  obtain ⟨start, hentered, hdeclared⟩ := programWithin_entered ⟨setting.package, hooks⟩
    (bareAt_unnamed hpackage happart.text.2 hcurrent hfeature hkeyword hfunction) hidle
  have hbody := hentered.apart (happart.mono fun _ _ h => h.1) hscopes hfinalizers
    hkeyword hfunction
  -- the body, with more fuel and from the blank in front of it on
  obtain ⟨nodes', q, hstatements, hfinish⟩ := Run.bind_eq_ok.1 hprogram
  obtain ⟨rfl, r', hclose, hs⟩ := finish_eq_ok hfinish
  obtain ⟨finish, hread, hend⟩ := statementsWithin_braced hbody hstatements
  replace hread : statementsWithin (some "\x7d") (n + 3) start = .ok nodes finish :=
    (statementsWithin_insignificant _ (n + 2) (.blank (by decide)) hentered.unread).trans
      (((allMore (Nat.le_add_right n 3)).statements _).eq_ok hread)
  obtain ⟨closed, hclosed, hbehind, hunder⟩ :=
    closeScope_block hend (fun _ => trivial) hclose hs
  have hbrace : significant finish.unread = ['\x7d'] := by
    rw [hend.text.2]
    decide
  obtain ⟨hleads, hcall⟩ := hdeclared (n + 3) (Nat.le_add_left _ _)
  obtain ⟨q', hcompiled, -⟩ := hcall nodes finish [] closed hread hbrace hclosed hbehind hunder
  refine ⟨p, start, finish, q', hp, hleads, hentered.unread, ?_, hread, ?_⟩
  · rw [Parser.currentPackage, hentered.scopes]
  · rw [scriptWithin, Run.bind_of_ok hp, hcompiled, hcurrent, hfunction]
    rfl

/-- A script has more fuel than its statements have as a script of their own. -/
theorem fuelFor_unnamed {body : String}
    (hp : installPrelude setting.package setting.prelude (setting.parser body) = .ok () p)
    (hq : installPrelude setting.package setting.prelude (setting.parser (unnamed body)) =
      .ok () q) : fuelFor p + 15 ≤ fuelFor q := by
  obtain ⟨q', hq', happart⟩ := installPrelude_apart hp (unnamed body)
  obtain rfl : q = q' := by
    rw [hq] at hq'
    cases hq'
    rfl
  have hbuffer (text : String) {r : Parser}
      (h : installPrelude setting.package setting.prelude (setting.parser text) = .ok () r) :
      r.buffer.text = text.toList := by
    rw [(installPrelude_installs h).quiet.buffer]
    rfl
  have hlength : q.buffer.text.length = p.buffer.text.length + 11 := by
    rw [hbuffer _ hq, hbuffer _ hp, toList_unnamed, List.length_append, List.length_cons,
      List.length_cons, List.length_cons, List.length_append]
    change 6 + _ = _
    simp only [List.length_cons, List.length_nil]
    omega
  have hgrowth : growth q = growth p + 11 := by
    rw [growth, growth, hlength, happart.namespaces, happart.root]
    omega
  rw [fuelFor, fuelFor, hlength, hgrowth]
  nlinarith

/-- The fuel of `compile`, where the prelude has been installed. -/
theorem compile_eq_compileWithin {text : String}
    (h : installPrelude setting.package setting.prelude (setting.parser text) = .ok () p) :
    compile text setting = compileWithin text setting (fuelFor p) := by
  rw [compile_eq_ofRun, compileWithin, script, Run.bind_of_ok h, program_eq, scriptWithin,
    Run.bind_of_ok h]

theorem scriptWithin_of_compileWithin {text : String} {n : Nat} {c : Compiled}
    (h : compileWithin text setting n = .ok c) :
    ∃ p, scriptWithin setting n (setting.parser text) = .ok c.program p := by
  rw [compileWithin] at h
  cases hrun : scriptWithin setting n (setting.parser text) with
  | error e p =>
    rw [hrun] at h
    cases h
  | ok nodes p =>
    rw [hrun] at h
    obtain rfl := Except.ok.inj h
    exact ⟨p, rfl⟩

end Parse

/-- A script that has one statement evaluates to it. -/
theorem Compiled.run_singleton {compiled : Compiled} {node : Node} {v : Value} {ns : Namespaces}
    (h : compiled.program = [node]) (hrun : compiled.run = .ok v ns) :
    node.eval compiled.namespaces = .ok v ns := by
  rw [Compiled.run, h, Node.eval, evalNode.eq_def] at hrun
  dsimp only at hrun
  rw [evalBlock.eq_def] at hrun
  obtain ⟨value, t, hvalue, hrun⟩ := Run.bind_eq_ok.1 hrun
  rw [evalBlock.eq_def] at hrun
  obtain ⟨rfl, rfl⟩ := Run.pure_eq_ok.1 hrun
  exact hvalue

/-- **A declaration without a name re-enters its package.**  A script starts in a package that a
word names, and its prelude offers the keyword `module`.  Whatever compiles there compiles as the
block of a declaration without a name too, and `compile` has the fuel for it if it has the fuel for
the statements.  The statements of the block are read from right behind its brace, in the same
package, and they are the same nodes.  If the compiled script runs to its end, its value is the
package.  The closing brace stands on a line of its own, behind a comment in which the statements
may have ended; where they leave nothing open, a blank in front of it does as well. -/
theorem package_reentered {setting : Setting} {body : String} {c : Compiled}
    (hpackage : IsWord setting.package.toList) (hoffers : setting.Offers .standard "module")
    (hbody : Compiles body setting c) :
    ∃ compiled, Compiles (unnamed body) setting compiled ∧
      (compile body setting = .ok c → compile (unnamed body) setting = .ok compiled) ∧
      compiled.program = [.reentering setting.package c.program] ∧
      (∃ p m n start finish,
        installPrelude setting.package setting.prelude (setting.parser (unnamed body)) = .ok () p ∧
        LeadsInto m (.statements none) p n start ∧
        start.unread = ' ' :: (body.toList ++ ['\n', '\x7d']) ∧
        start.currentPackage = setting.package ∧
        statementsWithin (some "\x7d") n start = .ok c.program finish) ∧
      (∀ v ns, compiled.run = .ok v ns → v = .text setting.package) ∧
      (Outside body.toList → InjectsClosed setting (unnamed body) →
        ∃ source, Compiles ("module \x7b " ++ body ++ " \x7d") setting
          ⟨compiled.program, compiled.namespaces, source⟩) := by
  obtain ⟨n, hn⟩ := hbody
  obtain ⟨r, hrun⟩ := scriptWithin_of_compileWithin hn
  obtain ⟨p, start, finish, q, hp, hleads, hunread, hcurrent, hread, hscript⟩ :=
    scriptWithin_unnamed hpackage hoffers hrun
  let compiled : Compiled :=
    ⟨[.reentering setting.package c.program], q.namespaces, String.ofList q.buffer.text⟩
  have hcompiles : Compiles (unnamed body) setting compiled :=
    ⟨n + 15, by rw [compileWithin, hscript, Compiled.ofRun]⟩
  refine ⟨compiled, hcompiles, fun hbody => ?_, rfl,
    ⟨p, _, _, start, finish, hp, hleads, hunread, hcurrent, hread⟩, fun v ns hrun => ?_,
    fun houtside hclosed => ?_⟩
  · obtain ⟨_, a, ha, -⟩ := Run.bind_eq_ok.1 hrun
    rw [compile_eq_compileWithin ha] at hbody
    obtain ⟨r', hrun'⟩ := scriptWithin_of_compileWithin hbody
    obtain ⟨_, _, _, q', -, -, -, -, -, hscript'⟩ := scriptWithin_unnamed hpackage hoffers hrun'
    have hcompiled' : compileWithin (unnamed body) setting (fuelFor p) = .ok _ :=
      compileWithin_mono (fuelFor_unnamed ha hp) (by rw [compileWithin, hscript', Compiled.ofRun])
    rw [compile_eq_compileWithin hp, hcompiled', hcompiles.unique ⟨_, hcompiled'⟩]
  · exact evalNode_declared (Compiled.run_singleton rfl hrun)
  · have hbefore : Outside ("module \x7b " ++ body).toList := by
      rw [String.toList_append]
      exact Outside.append (by decide) houtside
    have hline : Lexeme.IsGap ['\n'] := ⟨.blank (by decide) .nil, by decide⟩
    have hblank : Lexeme.IsGap [' '] := ⟨.blank (by decide) .nil, by decide⟩
    have hrespaced : Lexeme.Respaced (unnamed body).toList
        ("module \x7b " ++ body ++ " \x7d").toList := by
      rw [unnamed, String.toList_append (t := "\n\x7d"),
        String.toList_append (t := " \x7d")]
      exact .gap ['\x7d'] hbefore hline hblank
    exact hcompiles.respaced hpackage hrespaced hclosed

theorem Compiles.of_compile {text : String} {setting : Setting} {c : Compiled}
    (h : compile text setting = .ok c) : Compiles text setting c := by
  obtain ⟨fuel, hfuel⟩ := exists_compile_eq text setting
  exact ⟨fuel, hfuel.symm.trans h⟩

theorem exists_compile {text : String} {setting : Setting}
    (h : Run.passes (fun _ _ => true) (script setting (setting.parser text)) = true) :
    ∃ c, compile text setting = .ok c := by
  obtain ⟨nodes, p, hscript, -⟩ := Run.passes_iff.1 h
  exact ⟨_, (compile_eq_ofRun text setting).trans (congrArg Compiled.ofRun hscript)⟩

/-- A prelude of `module` without options. -/
theorem Setting.offers_module {package : String} :
    Setting.Offers { package, prelude := [("module", .null)] } .standard "module" :=
  Setting.offers_last (List.nil_append [("module", Value.null)]).symm rfl (by rfl)

/-- A qualified package, and statements that end in a comment. -/
theorem package_reentered_qualified :
    let setting : Setting := { package := "My::App", prelude := [("module", .null)] }
    IsWord setting.package.toList ∧ setting.Offers .standard "module" ∧
      ∃ c compiled, Compiles "1 # one" setting c ∧
        compile (unnamed "1 # one") setting = .ok compiled ∧
        compiled.program = [.reentering "My::App" c.program] := by
  intro setting
  have hword : IsWord setting.package.toList := by decide +kernel
  obtain ⟨c, hc⟩ : ∃ c, compile "1 # one" setting = .ok c := exists_compile (by decide +kernel)
  obtain ⟨compiled, -, hcompiled, hprogram, -⟩ :=
    package_reentered hword Setting.offers_module (.of_compile hc)
  exact ⟨hword, Setting.offers_module, c, compiled, .of_compile hc, hcompiled hc, hprogram⟩

/-- **A package that is accepted and cannot be re-entered**: it is no word, and the declaration
writes it behind `package` as it is. -/
theorem package_not_reentered :
    let setting : Setting := { package := "my-app", prelude := [("module", .null)] }
    setting.Offers .standard "module" ∧ (∃ c, Compiles "1" setting c) ∧
      ∃ place, compile "module \x7b 1 \x7d" setting =
        .error (.unreadable (.expectedSeparator '-') place) := by
  intro setting
  obtain ⟨c, hc⟩ : ∃ c, compile "1" setting = .ok c := exists_compile (by decide +kernel)
  refine ⟨Setting.offers_module, ⟨c, .of_compile hc⟩, ?_⟩
  have hfails : Run.fails (fun e _ => match e with
      | .unreadable fault _ => fault == .expectedSeparator '-'
      | _ => false) (script setting (setting.parser "module \x7b 1 \x7d")) = true := by
    decide +kernel
  obtain ⟨e, q, hscript, he⟩ := Run.fails_iff.1 hfails
  split at he
  · next fault place =>
    obtain rfl := eq_of_beq he
    exact ⟨place, (compile_eq_ofRun _ setting).trans (congrArg Compiled.ofRun hscript)⟩
  · cases he

end BraceScript
