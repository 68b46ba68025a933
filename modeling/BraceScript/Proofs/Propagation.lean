import BraceScript.Proofs.Normalisation
import BraceScript.Proofs.Uses

/-!
# What a preamble installs again

A declared block starts with `use` statements that are printed from the options of its keyword:
one that installs the keyword again and, if there are inner features, one that installs these by
the feature `syntax`.  Here the statements are printed, read, and taken apart again.

* The keyword comes back with the options it had (`KeywordOptions.propagates`), its inner features
  included, whatever their options are nested in.
* The names and options after `use syntax` stand in one list, in which a text is always a name.
  So the inner features come back as they were given, in order, unless one has a text as its
  options: that text is then taken for the name of a further feature
  (`Preamble.propagation_pairs`).
-/

namespace BraceScript

open Lexeme (IsWord)
open Literal (Writable)

variable {feature : BlockFeature} {raw : Value} {options : KeywordOptions} {entry : InnerFeature}

theorem Value.properItems_iff {items : List Value} :
    Value.ProperItems items ↔ ∀ item ∈ items, item.Proper := by
  induction items with
  | nil => simp [Value.ProperItems]
  | cons item items ih => rw [Value.ProperItems, List.forall_mem_cons, ih]

namespace Literal

theorem exists_writeItems_of_writable {items : List Value} (h : ∀ item ∈ items, Writable item) :
    ∃ parts, writeItems items = .ok parts := by
  induction items with
  | nil => exact ⟨[], rfl⟩
  | cons item items ih =>
    rw [List.forall_mem_cons] at h
    obtain ⟨⟨part, hpart⟩, h⟩ := h
    obtain ⟨parts, hparts⟩ := ih h
    exact ⟨part :: parts, by rw [writeItems, hpart, hparts]; rfl⟩

theorem writable_list {items : List Value} (h : ∀ item ∈ items, Writable item) :
    Writable (.list items) := by
  obtain ⟨parts, hparts⟩ := exists_writeItems_of_writable h
  exact ⟨'[' :: commaList parts ++ [']'], by rw [write, hparts]; rfl⟩

theorem writable_texts (statements : List String) : Writable (.list (statements.map .text)) := by
  refine writable_list fun item hitem => ?_
  obtain ⟨s, -, rfl⟩ := List.mem_map.1 hitem
  exact ⟨quote s, rfl⟩

theorem writeItems_append {items items' : List Value} {parts parts' : List (List Char)}
    (h : writeItems items = .ok parts) (h' : writeItems items' = .ok parts') :
    writeItems (items ++ items') = .ok (parts ++ parts') := by
  induction items generalizing parts with
  | nil =>
    obtain rfl := Except.ok.inj h
    exact h'
  | cons item items ih =>
    obtain ⟨part, parts, hpart, hparts, rfl⟩ := writeItems_cons_eq_ok.1 h
    exact writeItems_cons_eq_ok.2 ⟨part, _, hpart, ih hparts, rfl⟩

end Literal

/-! ### The keyword -/

namespace KeywordOptions

theorem writable_toValue (h : ∀ entry ∈ options.inner, Writable entry.toValue) :
    Writable options.toValue := by
  have hitems : ∀ item ∈ options.inner.map InnerFeature.toValue, Writable item := by simpa using h
  obtain ⟨inner, hinner⟩ := Literal.writable_list hitems
  obtain ⟨preamble, hpreamble⟩ := Literal.writable_texts options.preamble
  rw [Writable, toValue, Literal.write]
  simp only [Literal.writeRows, hinner, hpreamble]
  exact ⟨_, rfl⟩

theorem writable_inner (h : Writable options.toValue) :
    ∀ entry ∈ options.inner, Writable entry.toValue := by
  have hinner : Writable (.list (options.inner.map InnerFeature.toValue)) :=
    h.of_mapping (.text "inner", _) (by simp)
  simpa using hinner.of_items? rfl

theorem proper_toValue (h : ∀ entry ∈ options.inner, entry.options.Proper) :
    options.toValue.Proper := by
  have hinner : Value.ProperItems (options.inner.map InnerFeature.toValue) := by
    refine Value.properItems_iff.2 fun item hitem => ?_
    obtain ⟨⟨name, inner⟩, hentry, rfl⟩ := List.mem_map.1 hitem
    have hproper := h _ hentry
    cases inner <;> trivial
  have hpreamble : Value.ProperItems (options.preamble.map .text) := by
    refine Value.properItems_iff.2 fun item hitem => ?_
    obtain ⟨s, -, rfl⟩ := List.mem_map.1 hitem
    trivial
  exact ⟨by simp, trivial, hinner, hpreamble, trivial⟩

/-- A record that was normalised, and not given, has a literal. -/
theorem writable_of_normalise (hraw : raw.record? = none)
    (h : Options.normalise feature raw = .ok options) : Writable options.toValue :=
  writable_toValue fun entry hentry => (Options.accepts_of_normalise hraw h entry hentry).written

/-- The statement that installs a keyword again is read as the installation of its feature with the
mapping of the record, tuples made lists. -/
theorem statementWithin_useFeature {s : String} {p : Parser} {rest : List Char}
    (hname : IsWord feature.name.toList) (hproper : ∀ entry ∈ options.inner, entry.options.Proper)
    (hs : Preamble.useFeature feature.name options = .ok s)
    (hp : p.unread = s.toList ++ ';' :: rest)
    (hfeature : Table.get? p.features feature.name = some (.block feature)) (fuel : Nat) :
    Parse.statementWithin (fuel + 1) p =
      (do Parse.install (.block feature) p.currentPackage options.listed.toValue
          return none : Parse (Option Node)) (p.move s.length) := by
  obtain ⟨literal, hliteral, rfl⟩ := Preamble.useFeature_eq_ok.1 hs
  have harguments := Parse.IsArguments.literal hliteral (proper_toValue hproper)
  rw [toValue_listed] at harguments
  have hunread : p.unread = "use ".toList ++
      (feature.name.toList ++ (' ' :: literal ++ ';' :: rest)) := by rw [hp]; simp
  have huse := Parse.statementWithin_use hname harguments (by rwa [String.ofList_toList])
    hunread fuel
  rw [huse, ← String.length_toList]
  simp

/-- **Options survive propagation.**  The mapping of a record that was normalised, and not given,
normalises to the record.  The statement that installs the keyword again can be printed, and
reading it, wherever the feature is registered under its name and the name is a word, is the
installation of the feature with a mapping that normalises to the record, with the tuples in the
options of inner features made lists. -/
theorem propagates (hraw : raw.record? = none) (h : Options.normalise feature raw = .ok options) :
    Options.normalise feature options.toValue = .ok options ∧
      (IsWord feature.name.toList → (∀ entry ∈ options.inner, entry.options.Proper) →
        ∃ s, Preamble.useFeature feature.name options = .ok s ∧
          (∀ (fuel : Nat) {p : Parser} {rest : List Char}, p.unread = s.toList ++ ';' :: rest →
            Table.get? p.features feature.name = some (.block feature) →
            Parse.statementWithin (fuel + 1) p =
              (do Parse.install (.block feature) p.currentPackage options.listed.toValue
                  return none : Parse (Option Node)) (p.move s.length)) ∧
          Options.normalise feature options.listed.toValue = .ok options.listed) := by
  have hagain := Options.normalise_toValue hraw h
  refine ⟨hagain, fun hname hproper => ?_⟩
  obtain ⟨literal, hliteral⟩ : Writable options.toValue := writable_of_normalise hraw h
  obtain ⟨s, hs⟩ : ∃ s, Preamble.useFeature feature.name options = .ok s :=
    ⟨_, Preamble.useFeature_eq_ok.2 ⟨literal, hliteral, rfl⟩⟩
  refine ⟨s, hs, fun fuel p rest hp hfeature =>
    statementWithin_useFeature hname hproper hs hp hfeature fuel, ?_⟩
  rw [← toValue_listed]
  exact Options.normalise_listed ⟨literal, hliteral⟩ hagain

/-- A keyword with an inner feature of its own kind, whose options hold a tuple. -/
theorem propagates_nested :
    ∃ raw options s, raw.record? = none ∧ Options.normalise .standard raw = .ok options ∧
      options.inner = [⟨"module", .tuple [.text "syntax"]⟩] ∧
      IsWord BlockFeature.standard.name.toList ∧
      (∀ entry ∈ options.inner, entry.options.Proper) ∧
      Options.normalise .standard options.toValue = .ok options ∧
      Preamble.useFeature "module" options = .ok s ∧
      (Setting.parser {} (s ++ ";")).unread = s.toList ++ [';'] ∧
      Table.get? (Setting.parser {} (s ++ ";")).features "module" = some (.block .standard) ∧
      Parse.statementWithin 1 (Setting.parser {} (s ++ ";")) =
        (do Parse.install (.block .standard) "main" options.listed.toValue
            return none : Parse (Option Node)) ((Setting.parser {} (s ++ ";")).move s.length) ∧
      Options.normalise .standard options.listed.toValue = .ok options.listed := by
  have hnormal : Options.normalise .standard
      (.list [.tuple [.text "module", .tuple [.text "syntax"]]]) =
        .ok ⟨"module", [⟨"module", .tuple [.text "syntax"]⟩], []⟩ := by rfl
  have hname : IsWord BlockFeature.standard.name.toList :=
    Lexeme.isWord_of_plain (by decide) (by decide)
  have hproper : ∀ entry ∈ [(⟨"module", .tuple [.text "syntax"]⟩ : InnerFeature)],
      entry.options.Proper := by simp [Value.Proper, Value.ProperItems]
  obtain ⟨hagain, hread⟩ := propagates rfl hnormal
  obtain ⟨s, hs, huse, hlisted⟩ := hread hname hproper
  have hunread : (Setting.parser {} (s ++ ";")).unread = s.toList ++ [';'] := by
    simp [Setting.parser, Parser.start, Parser.unread]
  exact ⟨_, _, s, rfl, hnormal, rfl, hname, hproper, hagain, hs, hunread, rfl,
    huse 0 hunread rfl, hlisted⟩

/-- **Not every record comes back**: a record that is given is returned as it is, though what it
holds may be refused from a mapping, and a feature whose name is no word is not found by the
statement. -/
theorem not_every_record_propagates :
    (∃ raw options, raw.record? = some options ∧ Options.normalise .standard raw = .ok options ∧
      ∀ again, Options.normalise .standard options.toValue ≠ .ok again) ∧
    ∃ (feature : BlockFeature) (options : KeywordOptions) (s : String),
      Options.normalise feature .null = .ok options ∧
      Preamble.useFeature feature.name options = .ok s ∧
      Table.get? ((Setting.offering feature).parser (s ++ ";")).features feature.name =
        some (.block feature) ∧
      ∃ e q, Parse.statement ((Setting.offering feature).parser (s ++ ";")) = .error e q := by
  constructor
  · refine ⟨.record "1x" [] [], ⟨"1x", [], []⟩, rfl, rfl, fun again h => ?_⟩
    have hrefused : (Options.normalise .standard
        (KeywordOptions.toValue ⟨"1x", [], []⟩)).toOption = none := by decide +kernel
    rw [h] at hrefused
    cases hrefused
  · have hfails : Run.fails (fun _ _ => true) (Parse.statement
        ((Setting.offering Parse.dashedFeature).parser
          ("use my-module \x7b\"as\" => \"dashed\", \"inner\" => [], \"preamble\" => []\x7d" ++
            ";"))) = true := by decide +kernel
    obtain ⟨e, q, hstatement, -⟩ := Run.fails_iff.1 hfails
    exact ⟨Parse.dashedFeature, ⟨"dashed", [], []⟩, _, rfl, rfl, rfl, e, q, hstatement⟩

end KeywordOptions

/-! ### The inner features -/

namespace InnerFeature

/-- The arguments of `use syntax` that an inner feature becomes. -/
def arguments (entry : InnerFeature) : List Value :=
  match entry.options with
  | .null => [.text entry.name]
  | options => [.text entry.name, options]

/-- What the feature `syntax` installs for these arguments, since it takes every text for a name. -/
def installed (entry : InnerFeature) : List (String × Value) :=
  match entry.options with
  | .text s => [(entry.name, .null), (s, .null)]
  | options => [(entry.name, options.listed)]

/-- The inner feature is installed as it was given. -/
theorem installed_eq_singleton :
    entry.installed = [(entry.name, entry.options.listed)] ↔ ∀ s, entry.options ≠ .text s := by
  obtain ⟨name, options⟩ := entry
  cases options <;> simp [installed]

theorem length_installed (entry : InnerFeature) : 1 ≤ entry.installed.length := by
  rw [installed]
  split <;> simp

theorem arguments_of_ne_null (h : entry.options ≠ .null) :
    entry.arguments = [.text entry.name, entry.options] := by
  rw [arguments]
  split
  · exact absurd ‹_› h
  · rfl

theorem proper_arguments (h : entry.options.Proper) :
    ∀ item ∈ entry.arguments, item.Proper := by
  obtain ⟨name, options⟩ := entry
  cases options <;> simp_all [arguments, Value.Proper]

end InnerFeature

namespace Preamble

variable {entries : List InnerFeature}

theorem exists_innerArguments (h : Writable entry.toValue) :
    ∃ parts, innerArguments entry = .ok parts ∧ Literal.writeItems entry.arguments = .ok parts := by
  by_cases hnull : entry.options = .null
  · rw [innerArguments, InnerFeature.arguments, hnull]
    exact ⟨_, rfl, rfl⟩
  · rw [Options.toValue_of_ne_null hnull] at h
    obtain ⟨part, hpart⟩ := h.of_items? rfl entry.options (by simp)
    refine ⟨[Literal.quote entry.name, part], ?_, ?_⟩
    · rw [innerArguments]
      split
      · exact absurd ‹_› hnull
      · rw [hpart]
        rfl
    · rw [entry.arguments_of_ne_null hnull, Literal.writeItems, Literal.writeItems, hpart]
      rfl

/-- The statement that installs the inner features, and the values of its arguments. -/
theorem exists_useInner_eq_ok (hne : entries ≠ []) (h : ∀ entry ∈ entries, Writable entry.toValue) :
    ∃ parts, useInner entries = .ok ["use syntax " ++ String.ofList (Literal.commaList parts)] ∧
      Literal.writeItems (entries.flatMap InnerFeature.arguments) = .ok parts := by
  obtain ⟨rows, hrows, hwrite⟩ : ∃ rows, entries.mapM innerArguments = .ok rows ∧
      Literal.writeItems (entries.flatMap InnerFeature.arguments) = .ok rows.flatten := by
    clear hne
    induction entries with
    | nil => exact ⟨[], rfl, rfl⟩
    | cons entry entries ih =>
      rw [List.forall_mem_cons] at h
      obtain ⟨parts, hparts, hwrite⟩ := exists_innerArguments h.1
      obtain ⟨rows, hrows, hwrites⟩ := ih h.2
      refine ⟨parts :: rows, ?_, ?_⟩
      · rw [List.mapM_cons, hparts, hrows]
        rfl
      · rw [List.flatMap_cons, List.flatten_cons]
        exact Literal.writeItems_append hwrite hwrites
  refine ⟨rows.flatten, ?_, hwrite⟩
  rw [useInner, if_neg (by simpa using hne), hrows]
  rfl

/-- Options that have a literal give statements for every block. -/
theorem exists_generate (h : Writable options.toValue) (feature : BlockFeature) (name : String)
    (version : Option String) :
    ∃ statements, generate feature name version options = .ok statements := by
  obtain ⟨literal, hliteral⟩ := id h
  obtain ⟨uses, huses⟩ : ∃ uses, useInner options.inner = .ok uses := by
    by_cases hinner : options.inner = []
    · exact ⟨[], by rw [hinner]; rfl⟩
    · obtain ⟨parts, huses, -⟩ := exists_useInner_eq_ok hinner (KeywordOptions.writable_inner h)
      exact ⟨_, huses⟩
  exact ⟨_, generate_eq_ok.2 ⟨_, uses, useFeature_eq_ok.2 ⟨literal, hliteral, rfl⟩, huses, rfl⟩⟩

/-- The feature `syntax` pairs names and options as the inner features were given, but that it
takes a text for a name in any place. -/
theorem pairItems_arguments (named : List (String × Value)) (entries : List InnerFeature) :
    pairItems named (Value.listedItems (entries.flatMap InnerFeature.arguments)) =
      .ok (named.reverse ++ entries.flatMap InnerFeature.installed) := by
  induction entries generalizing named with
  | nil => simp [pairItems, Value.listedItems]
  | cons entry entries ih =>
    obtain ⟨name, options⟩ := entry
    rw [List.flatMap_cons, List.flatMap_cons, Value.listedItems_eq_map, List.map_append,
      ← Value.listedItems_eq_map, ← Value.listedItems_eq_map]
    cases options <;>
      simp [InnerFeature.arguments, InnerFeature.installed, Value.listedItems, Value.listed,
        pairItems, ih]

theorem featurePairs_ofArguments {name : String} {items : List Value} :
    featurePairs (Parse.ofArguments (.text name :: items)) =
      pairItems [] (.text name :: items) := by
  cases items <;> rfl

/-- Only a text among the options makes a difference. -/
theorem flatMap_installed_eq_map : entries.flatMap InnerFeature.installed =
      entries.map (fun entry => (entry.name, entry.options.listed)) ↔
    ∀ entry ∈ entries, ∀ s, entry.options ≠ .text s := by
  have hlength : ∀ entries : List InnerFeature,
      entries.length ≤ (entries.flatMap InnerFeature.installed).length := by
    intro entries
    induction entries with
    | nil => simp
    | cons entry entries ih =>
      have := entry.length_installed
      rw [List.flatMap_cons, List.length_append, List.length_cons]
      omega
  induction entries with
  | nil => simp
  | cons entry entries ih =>
    rw [List.forall_mem_cons, List.flatMap_cons, List.map_cons]
    refine Iff.trans ?_ (and_congr InnerFeature.installed_eq_singleton ih)
    constructor
    · intro h
      -- a text among the options gives one pair too many, which nothing behind it makes up for
      have hone : entry.installed.length = 1 := by
        have hsum := congrArg List.length h
        rw [List.length_append, List.length_cons, List.length_map] at hsum
        have := hlength entries
        have := entry.length_installed
        omega
      obtain ⟨pair, hpair⟩ := List.length_eq_one_iff.1 hone
      rw [hpair, List.singleton_append, List.cons.injEq] at h
      exact ⟨by rw [hpair, h.1], h.2⟩
    · rintro ⟨hentry, hentries⟩
      rw [hentry, hentries, List.singleton_append]

/-- The statement for the inner features installs what `syntax` takes from its arguments. -/
theorem exists_useInner (hne : entries ≠ []) (h : ∀ entry ∈ entries, Writable entry.toValue)
    (hproper : ∀ entry ∈ entries, entry.options.Proper) :
    ∃ s handed, useInner entries = .ok [s] ∧
      (∀ (fuel : Nat) {p : Parser} {rest : List Char}, p.unread = s.toList ++ ';' :: rest →
        Table.get? p.features "syntax" = some .dispatcher →
        Parse.statementWithin (fuel + 1) p =
          (do Parse.install .dispatcher p.currentPackage handed
              return none : Parse (Option Node)) (p.move s.length)) ∧
      featurePairs handed = .ok (entries.flatMap InnerFeature.installed) := by
  obtain ⟨parts, hstatement, hparts⟩ := exists_useInner_eq_ok hne h
  have hvalues : Value.ProperItems (entries.flatMap InnerFeature.arguments) := by
    refine Value.properItems_iff.2 fun item hitem => ?_
    obtain ⟨entry, hentry, hitem⟩ := List.mem_flatMap.1 hitem
    exact InnerFeature.proper_arguments (hproper entry hentry) item hitem
  refine ⟨_, Parse.ofArguments (Value.listedItems (entries.flatMap InnerFeature.arguments)),
    hstatement, fun fuel p rest hp hfeature => ?_, ?_⟩
  · have hsyntax : IsWord "syntax".toList := Lexeme.isWord_of_plain (by decide) (by decide)
    have hunread : p.unread = "use ".toList ++
        ("syntax".toList ++ (' ' :: Literal.commaList parts ++ ';' :: rest)) := by rw [hp]; simp
    have huse := Parse.statementWithin_use hsyntax (Parse.IsArguments.literals hparts hvalues)
      (by rwa [String.ofList_toList]) hunread fuel
    rw [huse, ← String.length_toList]
    simp
  · obtain ⟨first, others, rfl⟩ := List.exists_cons_of_ne_nil hne
    have hpairs := pairItems_arguments [] (first :: others)
    obtain ⟨items, hitems⟩ : ∃ items, first.arguments = .text first.name :: items := by
      rw [InnerFeature.arguments]
      split <;> exact ⟨_, rfl⟩
    rw [List.flatMap_cons, hitems, List.cons_append, Value.listedItems] at hpairs ⊢
    exact featurePairs_ofArguments.trans hpairs

/-- **What inner features are propagated as.**  The second statement that the preamble of a keyword
with inner features holds is printed and read, wherever `syntax` is registered, as the
installation of `syntax` with arguments that pair the names with the options as they were given,
in order, exactly if no inner feature has a text as its options.  A text is always taken for the
name of one more feature.  A record that is given, and not normalised, must have a literal. -/
theorem propagation_pairs (h : Options.normalise feature raw = .ok options)
    (hraw : raw.record? = none ∨ Writable options.toValue) (hne : options.inner ≠ [])
    (hproper : ∀ entry ∈ options.inner, entry.options.Proper) :
    ∃ t s handed, propagation feature.name options = .ok [t, s] ∧
      (∀ (fuel : Nat) {p : Parser} {rest : List Char}, p.unread = s.toList ++ ';' :: rest →
        Table.get? p.features "syntax" = some .dispatcher →
        Parse.statementWithin (fuel + 1) p =
          (do Parse.install .dispatcher p.currentPackage handed
              return none : Parse (Option Node)) (p.move s.length)) ∧
      featurePairs handed = .ok (options.inner.flatMap InnerFeature.installed) ∧
      (featurePairs handed =
          .ok (options.inner.map fun entry => (entry.name, entry.options.listed)) ↔
        ∀ entry ∈ options.inner, ∀ s, entry.options ≠ .text s) := by
  have hwritable : Writable options.toValue :=
    hraw.elim (fun hraw => KeywordOptions.writable_of_normalise hraw h) id
  obtain ⟨literal, hliteral⟩ := id hwritable
  obtain ⟨s, handed, hstatement, hread, hpairs⟩ :=
    exists_useInner hne (KeywordOptions.writable_inner hwritable) hproper
  have hkeyword : useFeature feature.name options = _ := useFeature_eq_ok.2 ⟨_, hliteral, rfl⟩
  refine ⟨"use " ++ feature.name ++ " " ++ String.ofList literal, s, handed, ?_, hread, hpairs, ?_⟩
  · rw [propagation, hkeyword, hstatement]
    rfl
  · rw [hpairs, Except.ok.injEq, flatMap_installed_eq_map]

/-- An inner feature without options, one with a mapping and one with a tuple come back. -/
theorem propagation_pairs_mixed :
    ∃ raw options t s handed, raw.record? = none ∧
      Options.normalise .standard raw = .ok options ∧
      options.inner ≠ [] ∧ (∀ entry ∈ options.inner, entry.options.Proper) ∧
      options.inner = [⟨"a", .null⟩, ⟨"module", .mapping [(.text "as", .text "ns")]⟩,
        ⟨"b", .tuple [.text "c"]⟩] ∧
      propagation "module" options = .ok [t, s] ∧
      (Setting.parser {} (s ++ ";")).unread = s.toList ++ [';'] ∧
      Table.get? (Setting.parser {} (s ++ ";")).features "syntax" = some .dispatcher ∧
      Parse.statementWithin 1 (Setting.parser {} (s ++ ";")) =
        (do Parse.install .dispatcher "main" handed
            return none : Parse (Option Node)) ((Setting.parser {} (s ++ ";")).move s.length) ∧
      featurePairs handed = .ok [("a", .null), ("module", .mapping [(.text "as", .text "ns")]),
        ("b", .list [.text "c"])] := by
  have hnormal : Options.normalise .standard (.list [.text "a",
      .list [.text "module", .mapping [(.text "as", .text "ns")]],
      .inner "b" (.tuple [.text "c"])]) =
        .ok ⟨"module", [⟨"a", .null⟩, ⟨"module", .mapping [(.text "as", .text "ns")]⟩,
          ⟨"b", .tuple [.text "c"]⟩], []⟩ := by rfl
  have hproper : ∀ entry ∈ [(⟨"a", .null⟩ : InnerFeature),
      ⟨"module", .mapping [(.text "as", .text "ns")]⟩, ⟨"b", .tuple [.text "c"]⟩],
      entry.options.Proper := by simp [Value.Proper, Value.ProperItems, Value.ProperRows]
  obtain ⟨t, s, handed, hstatements, hread, hpairs, -⟩ :=
    propagation_pairs hnormal (.inl rfl) (by simp) hproper
  have hunread : (Setting.parser {} (s ++ ";")).unread = s.toList ++ [';'] := by
    simp [Setting.parser, Parser.start, Parser.unread]
  exact ⟨_, _, t, s, handed, rfl, hnormal, by simp, hproper, rfl, hstatements, hunread, rfl,
    hread 0 hunread rfl, hpairs⟩

/-- An inner feature `result_module` with the text `module` as its options is accepted, and comes
back as two features without options. -/
theorem text_option_becomes_name :
    ∃ raw options t s handed, Options.normalise .standard raw = .ok options ∧
      options.inner = [⟨"result_module", .text "module"⟩] ∧
      propagation "module" options = .ok [t, s] ∧
      s = "use syntax \"result_module\", \"module\"" ∧
      Parse.statementWithin 1 (Setting.parser {} (s ++ ";")) =
        (do Parse.install .dispatcher "main" handed
            return none : Parse (Option Node)) ((Setting.parser {} (s ++ ";")).move s.length) ∧
      featurePairs handed = .ok [("result_module", .null), ("module", .null)] ∧
      featurePairs handed ≠
        .ok (options.inner.map fun entry => (entry.name, entry.options.listed)) := by
  have hnormal : Options.normalise .standard (.list [.list [.text "result_module",
      .text "module"]]) = .ok ⟨"module", [⟨"result_module", .text "module"⟩], []⟩ := by rfl
  have hstatements : propagation "module"
      ⟨"module", [⟨"result_module", .text "module"⟩], []⟩ =
        .ok ["use module \x7b\"as\" => \"module\", \"inner\" => [[\"result_module\", " ++
          "\"module\"]], \"preamble\" => []\x7d",
          "use syntax \"result_module\", \"module\""] := by rfl
  have hne : [(⟨"result_module", .text "module"⟩ : InnerFeature)] ≠ [] := by simp
  obtain ⟨s, handed, hstatement, hread, hpairs⟩ := exists_useInner hne
    (by simpa using ⟨_, rfl⟩) (by simp [Value.Proper])
  obtain rfl : s = "use syntax \"result_module\", \"module\"" :=
    (List.cons.inj (Except.ok.inj (hstatement.symm.trans rfl))).1
  have hunread : (Setting.parser {} ("use syntax \"result_module\", \"module\"" ++ ";")).unread =
      "use syntax \"result_module\", \"module\"".toList ++ [';'] := rfl
  refine ⟨_, _, _, _, handed, hnormal, rfl, hstatements, rfl, hread 0 hunread rfl, hpairs, ?_⟩
  rw [hpairs]
  simp [InnerFeature.installed, Value.listed]

end Preamble

end BraceScript
