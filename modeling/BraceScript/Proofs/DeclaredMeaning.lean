import BraceScript.Proofs.Parsing
import BraceScript.Evaluation

/-!
# What a declaration means

`Parse.expressionWithin_declared` gives the node of a declaration: the call of the keyword's
function with the name of the package and a block of the version, the placeholder and the body.
The keyword must be an unqualified word that the grammar does not take for something else, and
the feature must be named by a word, since its name is written into statements; without either
the text means something else (`Parse.not_every_keyword_declares`).
-/

namespace BraceScript

open Lexeme (significant IsWord)
open Declaration (Head)

/-- A call of a keyword's function gives the name of the declared package. -/
theorem evalNode_declared {apply : Application} {keyword package name : String}
    {statements : List Node} {ns ns' : Namespaces} {v : Value}
    (h : evalNode apply (.call keyword package [.literal (.text name), .doBlock statements]
      (some (.trampoline .package))) ns = .ok v ns') : v = .text name := by
  rw [evalNode.eq_def] at h
  dsimp only at h
  obtain ⟨values, t, hvalues, h⟩ := Run.bind_eq_ok.1 h
  rw [evalNodes.eq_def] at hvalues
  dsimp only at hvalues
  obtain ⟨first, s, hfirst, hvalues⟩ := Run.bind_eq_ok.1 hvalues
  rw [evalNode.eq_def] at hfirst
  obtain ⟨rfl, rfl⟩ := Run.pure_eq_ok.1 hfirst
  obtain ⟨more, s', hmore, hvalues⟩ := Run.bind_eq_ok.1 hvalues
  obtain ⟨rfl, rfl⟩ := Run.pure_eq_ok.1 hvalues
  rw [evalNodes.eq_def] at hmore
  obtain ⟨result, r, -, hmore⟩ := Run.bind_eq_ok.1 hmore
  obtain ⟨none, r', hnone, hmore⟩ := Run.bind_eq_ok.1 hmore
  rw [evalNodes.eq_def] at hnone
  obtain ⟨rfl, rfl⟩ := Run.pure_eq_ok.1 hnone
  obtain ⟨rfl, rfl⟩ := Run.pure_eq_ok.1 hmore
  rw [applyWith.eq_def] at h
  exact (Run.pure_eq_ok.1 h).1.symm

/-- An unqualified name stands for itself. -/
theorem Name.split_of_isQualified {name package : String} (h : isQualified name = false) :
    split name package = (package, name) := by
  rw [isQualified, Option.isSome_eq_false_iff, Option.isNone_iff_eq_none] at h
  rw [split, h]

namespace Node

/-- The statements of the block that a call is given behind one other argument. -/
def givenBlock? : Node → Option (List Node)
  | call _ _ [_, doBlock statements] _ => some statements
  | _ => none

/-- The node is the literal of nothing. -/
def isNull : Node → Bool
  | literal .null => true
  | _ => false

end Node

/-- At the position of a parser stands an unqualified word that is a live keyword of a registered
feature, in a package that a word names, and only the default statements will be injected. -/
structure DeclaresAt (p : Parser) (keyword : String) (feature : BlockFeature)
    (options : KeywordOptions) : Prop where
  word : Lexeme.word? p.unread = some keyword.toList
  unqualified : Name.isQualified keyword = false
  live : p.namespaces.keyword? p.currentPackage keyword = some (.expand feature options)
  registered : Table.get? p.features feature.name = some (.block feature)
  package : IsWord p.currentPackage.toList
  preamble : options.preamble = []
  extra : feature.extra = []

/-- The feature and the options of the keyword at the position of a parser. -/
def declaresAt? (p : Parser) (keyword : String) : Option (BlockFeature × KeywordOptions) :=
  match p.namespaces.keyword? p.currentPackage keyword with
  | some (.expand feature options) =>
    if Lexeme.word? p.unread = some keyword.toList ∧ Name.isQualified keyword = false ∧
        Table.get? p.features feature.name = some (.block feature) ∧
        IsWord p.currentPackage.toList ∧ options.preamble = [] ∧ feature.extra = [] then
      some (feature, options)
    else none
  | _ => none

theorem declaresAt?_eq_some {p : Parser} {keyword : String} {feature : BlockFeature}
    {options : KeywordOptions} :
    declaresAt? p keyword = some (feature, options) ↔ DeclaresAt p keyword feature options := by
  rw [declaresAt?]
  constructor
  · intro h
    split at h
    · next hlive =>
      split at h
      · next hall =>
        obtain ⟨rfl, rfl⟩ := Prod.mk.inj (Option.some.inj h)
        obtain ⟨hword, hqualified, hregistered, hpackage, hpreamble, hextra⟩ := hall
        exact ⟨hword, hqualified, hlive, hregistered, hpackage, hpreamble, hextra⟩
      · cases h
    · cases h
  · rintro ⟨hword, hqualified, hlive, hregistered, hpackage, hpreamble, hextra⟩
    rw [hlive]
    exact if_pos ⟨hword, hqualified, hregistered, hpackage, hpreamble, hextra⟩

/-- A declaration was read.  The text is the keyword, a head and a block.  It was expanded, and
the block was read (`DeclaredRead`): in its scope, the body was read in the declared package and
left the statements `nodes`.  The node calls what the keyword meant, with the name of the package
and a block of the version, the placeholder and `nodes`.  The package is the same as before. -/
def ReadAsDeclaration (p : Parser) (keyword : String) (node : Node) (p' : Parser) : Prop :=
  ∃ (site : Site) (after body : List Char) (expanded : Parser) (nodes : List Node)
    (d : DeclaredRead site body expanded nodes p'),
    let head := Head.read after
    let name := head.target p.currentPackage
    site.word = keyword ∧ Expands site p expanded ∧
    p.unread = keyword.toList ++ after ∧ after = head.text ++ '\x7b' :: body ∧
    node = .call keyword p.currentPackage
      [.literal (.text name), .doBlock
        ((head.version.map fun v => Node.version name (String.ofList v)).toList ++
          [.literal .null] ++ nodes)]
      (p.namespaces.function? p.currentPackage keyword) ∧
    d.start.currentPackage = name ∧ p'.currentPackage = p.currentPackage ∧
    (p.namespaces.function? p.currentPackage keyword = some (.trampoline .package) →
      ∀ apply ns v ns', evalNode apply node ns = .ok v ns' → v = .text name)

/-- A declaration is read as a call with a block, in which the placeholder is. -/
theorem ReadAsDeclaration.givenBlock? {p p' : Parser} {keyword : String} {node : Node}
    (h : ReadAsDeclaration p keyword node p') :
    ∃ statements, node.givenBlock? = some statements ∧ .literal .null ∈ statements := by
  obtain ⟨_, _, _, _, _, _, _, _, _, _, rfl, -⟩ := h
  exact ⟨_, rfl, by simp⟩

namespace Parse

variable {fuel : Nat} {p p' : Parser} {keyword : String} {feature : BlockFeature}
  {options : KeywordOptions} {node : Node}

/-- **What a declaration is read as.** -/
theorem expressionWithin_declared (hp : DeclaresAt p keyword feature options)
    (hdo : keyword ≠ "do") (hvalue : ¬ IsValueWord keyword)
    (hfeature : IsWord feature.name.toList)
    (h : expressionWithin fuel p = .ok node p') : ReadAsDeclaration p keyword node p' := by
  obtain ⟨hword, hqualified, hkeyword, -, hpackage, hpreamble, hextra⟩ := hp
  obtain ⟨m, rfl⟩ := expressionWithin_fuel h
  have hskip := skip_of_word? hword
  have hsame : ∀ {w : String}, Lexeme.word? p.unread = some w.toList → w = keyword :=
    fun hw => String.toList_inj.1 (Option.some.inj (hw.symm.trans hword))
  have hread := expressionWithin_eq_ok h
  rw [hskip] at hread
  cases hread with
  | literal _ hw => exact absurd (hw keyword hword) hvalue
  | parentheses hopen => rw [hopen] at hword; cases hword
  | brackets hopen => rw [hopen] at hword; cases hword
  | doBlock hw => exact absurd (hsame hw).symm hdo
  | name hw _ hnone =>
    obtain rfl := hsame hw
    rw [hnone hqualified] at hkeyword
    cases hkeyword
  | keyword hw _ _ hfound hdispatch hadvance h =>
    obtain rfl := hsame hw
    obtain rfl := Option.some.inj (hfound.symm.trans hkeyword)
    rcases dispatch_eq_ok hword hfound hdispatch with ⟨hidle, -⟩ | ⟨site, hsite, rfl, hexpand⟩
    · cases hidle
    obtain ⟨rfl, rfl⟩ := Keyword.expand.inj hsite
    have hplain : site.Plain :=
      ⟨hpreamble, ⟨hfeature, by simp [hextra]⟩, hexpand.package ▸ hpackage⟩
    obtain ⟨after, body, hrewritten, statements, hgenerate⟩ := hexpand.rewritten
    rw [hrewritten.read_word hadvance] at h
    obtain ⟨extra, nodes, d, -, hnil, hnode⟩ := nameWithin_declared hplain hrewritten hgenerate h
      fun n _ => statementsWithin_isRun
    have hcurrent : p'.currentPackage = p.currentPackage := by
      obtain ⟨⟨buffer, rfl⟩, -⟩ := hexpand.frame
      exact d.currentPackage_eq
    have hname : site.declaration.name = (Head.read after).target p.currentPackage := by
      rw [hrewritten.name, hexpand.package]
    have hnode' : node = .call site.word p.currentPackage
        [.literal (.text ((Head.read after).target p.currentPackage)), .doBlock
          (((Head.read after).version.map fun v => Node.version
              ((Head.read after).target p.currentPackage) (String.ofList v)).toList ++
            [.literal .null] ++ nodes)]
        (p.namespaces.function? p.currentPackage site.word) := by
      obtain ⟨⟨buffer, rfl⟩, -⟩ := hexpand.frame
      rw [Name.split_of_isQualified hqualified, hcurrent, hrewritten.version, Option.map_map,
        hname, hnil hextra, List.append_nil] at hnode
      exact hnode
    refine ⟨site, after, body, _, nodes, d, rfl, hexpand, hrewritten.unread, ?_, hnode',
      d.injected.package.trans hname, hcurrent, fun htarget apply ns v ns' heval => ?_⟩
    · rw [← hrewritten.rest, Head.text_append_rest]
    · rw [hnode', htarget] at heval
      exact evalNode_declared heval

/-- A declaration with a version, read as such. -/
theorem module_declares :
    ∃ p feature options node p', DeclaresAt p "module" feature options ∧
      p.unread = "module Foo 1.5 \x7b 2 \x7d".toList ∧
      expression p = .ok node p' ∧ ReadAsDeclaration p "module" node p' := by
  have hread : Run.passes (fun _ p => decide (p.unread = "module Foo 1.5 \x7b 2 \x7d".toList) &&
      (declaresAt? p "module").any fun found =>
        decide (IsWord found.1.name.toList) && Run.passes (fun _ _ => true) (expression p))
      (installPrelude "main" [("module", .null)]
        (({} : Setting).parser "module Foo 1.5 \x7b 2 \x7d")) = true := by decide +kernel
  obtain ⟨_, p, -, hread⟩ := Run.passes_iff.1 hread
  simp only [Bool.and_eq_true, decide_eq_true_iff, Option.any_eq_true] at hread
  obtain ⟨hunread, ⟨feature, options⟩, hdeclares, hname, hread⟩ := hread
  obtain ⟨node, p', hexpression, -⟩ := Run.passes_iff.1 hread
  have hdeclares' := declaresAt?_eq_some.1 hdeclares
  refine ⟨p, feature, options, node, p', hdeclares', hunread, hexpression, ?_⟩
  rw [expression, withFuel_apply] at hexpression
  exact expressionWithin_declared hdeclares' (by decide) (by decide) hname hexpression

/-- A feature whose name ends in a comment sign. -/
def hashedFeature : BlockFeature where
  kind := "Hashed"
  name := "module #"
  keyword := "hashed"

/-- A setting in which the keyword of that feature is installed. -/
def hashedSetting : Setting where
  features := Registry.standard.register (.block hashedFeature)
  prelude := [("module #", .null)]

/-- A keyword `do` is never reached, and a feature whose name holds a comment sign has its
statements commented out: neither is read as a declaration. -/
theorem not_every_keyword_declares :
    (∃ p feature options node p', DeclaresAt p "do" feature options ∧
      p.unread = "do \x7b 1 \x7d".toList ∧ expression p = .ok node p' ∧
      ¬ ReadAsDeclaration p "do" node p') ∧
    ∃ p feature options node p', DeclaresAt p "hashed" feature options ∧
      feature.name = "module #" ∧ expression p = .ok node p' ∧
      ¬ ReadAsDeclaration p "hashed" node p' := by
  constructor
  · have hread : Run.passes (fun _ p => decide ((p.move 2).unread = "do \x7b 1 \x7d".toList) &&
        ((declaresAt? (p.move 2) "do").isSome &&
          Run.passes (fun node _ => node.givenBlock?.isNone) (expression (p.move 2))))
        (statement (({} : Setting).parser
          "use module \x7b\"as\" => \"do\"\x7d; do \x7b 1 \x7d")) = true := by decide +kernel
    obtain ⟨_, p, -, hread⟩ := Run.passes_iff.1 hread
    simp only [Bool.and_eq_true, decide_eq_true_iff, Option.isSome_iff_exists] at hread
    obtain ⟨hunread, ⟨⟨feature, options⟩, hdeclares⟩, hread⟩ := hread
    obtain ⟨node, p', hexpression, hnone⟩ := Run.passes_iff.1 hread
    refine ⟨p.move 2, feature, options, node, p', declaresAt?_eq_some.1 hdeclares, hunread,
      hexpression, fun hdeclaration => ?_⟩
    obtain ⟨statements, hblock, -⟩ := hdeclaration.givenBlock?
    rw [hblock] at hnone
    cases hnone
  · have hread : Run.passes (fun _ p => (declaresAt? p "hashed").any fun found =>
          decide (found.1.name = "module #") &&
            Run.passes (fun node _ => node.givenBlock?.all (·.all (!·.isNull))) (expression p))
        (installPrelude hashedSetting.package hashedSetting.prelude
          (hashedSetting.parser "hashed Foo \x7b\n.scope_end; 5 \x7d")) = true := by
      decide +kernel
    obtain ⟨_, p, -, hread⟩ := Run.passes_iff.1 hread
    simp only [Bool.and_eq_true, decide_eq_true_iff, Option.any_eq_true] at hread
    obtain ⟨⟨feature, options⟩, hdeclares, hname, hread⟩ := hread
    obtain ⟨node, p', hexpression, hnull⟩ := Run.passes_iff.1 hread
    refine ⟨p, feature, options, node, p', declaresAt?_eq_some.1 hdeclares, hname, hexpression,
      fun hdeclaration => ?_⟩
    obtain ⟨statements, hblock, hmem⟩ := hdeclaration.givenBlock?
    rw [hblock, Option.all_some, List.all_eq_true] at hnull
    exact absurd (hnull _ hmem) (by decide)

end Parse

end BraceScript
