import BraceScript.Proofs.Meaning
import BraceScript.Proofs.Sufficiency

/-!
# Installing is all or nothing

The options of all keywords are checked before the first keyword is installed, and the registry
can refuse a feature before the first of its keywords only.  So installing the keyword of a block
feature, or one keyword for every row of a mapping, either leaves the parser as it is or installs
every keyword and changes nothing else (`Parse.installs_all_or_nothing`, with `Installed` for what
has changed then).

The feature `syntax` looks up and installs one feature after the other.  Where it is refused, the
entries before the refused one have been installed, each of them completely, and nothing else has
happened (`Parse.install_syntax_refused`).  Something may have been installed, then
(`Parse.syntax_installs_before_refusal`).
-/

namespace BraceScript

open Parse

variable {α β : Type} {p q r : Parser} {feature : BlockFeature} {target : String}

/-! ### Checks -/

namespace Options

theorem option_put (raw : Raw) (key : String) (v : Value) :
    Raw.option (Table.put raw (.text key) v) key = some v := by
  rw [Raw.option]
  induction raw with
  | nil => simp [Table.put, Table.get?, same_text_iff]
  | cons row raw ih =>
    rw [Table.put]
    split
    · next heq => simp [Table.get?, heq]
    · next hne => simp [Table.get?, hne, ih]

end Options

namespace Parse

/-- The computation reads the parser at most: it leaves it as it is, in success and in error. -/
def Inert (x : Parse α) : Prop := ∀ p, Run.final (x p) = p

theorem inert_pure (a : α) : Inert (pure a : Parse α) := fun _ => rfl

theorem inert_throw (e : Error) : Inert (throw e : Parse α) := fun _ => rfl

theorem Inert.bind {x : Parse α} {f : α → Parse β} (hx : Inert x) (hf : ∀ a, Inert (f a)) :
    Inert (x >>= f) := by
  intro p
  have hxp := hx p
  cases h : x p with
  | ok a q =>
    rw [h] at hxp
    rw [Run.final_bind_of_ok h]
    exact (hf a q).trans hxp
  | error e q =>
    rw [h] at hxp
    rwa [Run.final_bind_of_error h]

theorem Inert.mapM {f : α → Parse β} (hf : ∀ a, Inert (f a)) (as : List α) :
    Inert (as.mapM f) := by
  induction as with
  | nil => exact inert_pure []
  | cons a as ih =>
    rw [List.mapM_cons]
    exact (hf a).bind fun b => ih.bind fun bs => inert_pure (b :: bs)

theorem Inert.eq_of_ok {x : Parse α} {a : α} (hx : Inert x) (h : x p = .ok a q) : q = p := by
  simpa [h, Run.final] using hx p

theorem Inert.eq_of_error {x : Parse α} {e : Error} (hx : Inert x) (h : x p = .error e q) :
    q = p := by
  simpa [h, Run.final] using hx p

theorem inert_orMisconfigured (x : Except Misconfiguration α) : Inert (orMisconfigured x) := by
  cases x with
  | ok a => exact inert_pure a
  | error cause => exact inert_throw _

theorem inert_prepare (feature : BlockFeature) (options : Value) :
    Inert (prepare feature options) := by
  unfold prepare
  split
  · exact inert_pure _
  · exact inert_throw _

theorem inert_prepareRow (feature : BlockFeature) (shared : Value) (row : Value × Value) :
    Inert (prepareRow feature shared row) :=
  (inert_orMisconfigured _).bind fun _ => inert_prepare _ _

/-- What an inert computation finds for the items of a list, one by one. -/
theorem Inert.mapM_eq_ok {f : α → Parse β} (hf : ∀ a, Inert (f a)) {as : List α} {bs : List β}
    (h : as.mapM f p = .ok bs q) : List.Forall₂ (fun a b => f a p = .ok b p) as bs := by
  induction as generalizing bs with
  | nil =>
    obtain ⟨rfl, -⟩ := Run.pure_eq_ok.1 h
    exact .nil
  | cons a as ih =>
    rw [List.mapM_cons] at h
    obtain ⟨b, r, hb, hmore⟩ := Run.bind_eq_ok.1 h
    obtain rfl := (hf a).eq_of_ok hb
    obtain ⟨cs, t, hcs, hpure⟩ := Run.bind_eq_ok.1 hmore
    obtain ⟨rfl, rfl⟩ := Run.pure_eq_ok.1 hpure
    exact .cons hb (ih hcs)

end Parse

namespace Options

/-- The record of a keyword that is installed together with others: the shared options combined
with the options of its row, and spelled as the row says. -/
structure Merged (feature : BlockFeature) (shared : Value) (row : String × Value)
    (record : KeywordOptions) : Prop where
  spelling : record.spelling = row.1
  normalised : ∃ merged, merge feature.kind shared row.2 = .ok merged ∧
    normalise feature (.mapping (Table.put merged (.text "as") (.text row.1))) = .ok record

/-- The spelling of a record is the `as` option, if that is a text. -/
theorem spelling_of_normalise {rows : Raw} {spelling : String} {record : KeywordOptions}
    (h : normalise feature (.mapping rows) = .ok record)
    (has : rows.option "as" = some (.text spelling)) : record.spelling = spelling := by
  obtain ⟨⟨raw, hreads⟩, -⟩ := (normalise_eq_ok rfl).1 h
  have hraw : raw = rows := by
    have hcoerced := hreads.coerced
    rw [coerce] at hcoerced
    split at hcoerced
    · exact (Except.ok.inj hcoerced).symm
    · rw [has, Option.isSome_some, if_pos rfl] at hcoerced
      cases hcoerced
  have hspelling := hreads.spelling
  rw [hraw, Options.spelling, has, Option.getD_some] at hspelling
  simp only [Options.spelling.check] at hspelling
  split at hspelling
  · exact (Except.ok.inj hspelling).symm
  · cases hspelling

end Options

namespace Parse

theorem prepareRow_eq_ok {shared : Value} {row : String × Value} {record : KeywordOptions}
    (h : prepareRow feature shared (.text row.1, row.2) p = .ok record q) :
    Options.Merged feature shared row record := by
  obtain ⟨merged, r, hmerge, h⟩ := Run.bind_eq_ok.1 h
  obtain ⟨hmerged, -⟩ := orMisconfigured_eq_ok hmerge
  obtain ⟨hnormalise, -⟩ := prepare_eq_ok h
  exact ⟨Options.spelling_of_normalise hnormalise (Options.option_put _ _ _), merged, hmerged,
    hnormalise⟩

end Parse

/-! ### Installations -/

/-- A registry that has provided a feature provides it again without a change. -/
theorem Registry.provide_provide {registry registry' : Registry} {feature : Feature}
    (h : registry.provide feature = .ok registry') : registry'.provide feature = .ok registry' := by
  rw [provide] at h
  split at h
  · obtain rfl := Except.ok.inj h
    rw [provide, register, Table.get?_put]
    simp
  · next registered hget =>
    split at h
    · next hkind =>
      obtain rfl := Except.ok.inj h
      rw [provide, hget]
      exact if_pos hkind
    · cases h

/-- The keywords of some records have been installed for a feature in a package, and nothing else
has changed: their names are bound to the function of the feature, and one hook for each of them,
in this order, puts back at the end of the innermost scope what its name meant before. -/
structure Installed (feature : BlockFeature) (target : String) (records : List KeywordOptions)
    (p q : Parser) : Prop where
  keyword : ∀ record ∈ records,
    q.namespaces.declaredKeyword? target record.spelling = some (.expand feature record)
  function : ∀ record ∈ records,
    q.namespaces.function? target record.spelling = some (.trampoline feature.outcome)
  others : ∀ package name, (package = target → name ∉ records.map KeywordOptions.spelling) →
    q.namespaces.declaredKeyword? package name = p.namespaces.declaredKeyword? package name ∧
      q.namespaces.function? package name = p.namespaces.function? package name
  hooks : ∃ scope scopes, p.scopes = scope :: scopes ∧ q.scopes = { scope with
    hooks := scope.hooks ++ records.map fun record => p.restoring target record.spelling } :: scopes
  buffer : q.buffer = p.buffer
  pos : q.pos = p.pos
  finalizers : q.finalizers = p.finalizers

namespace Installed

variable {record : KeywordOptions} {records : List KeywordOptions}

theorem nil (h : p.scopes ≠ []) : Installed feature target [] p p := by
  obtain ⟨scope, scopes, hscopes⟩ := List.exists_cons_of_ne_nil h
  exact ⟨by simp, by simp, fun _ _ _ => ⟨rfl, rfl⟩, ⟨scope, scopes, hscopes, by simp [hscopes]⟩,
    rfl, rfl, rfl⟩

/-- A keyword is installed, and then others of other names. -/
theorem cons (h : installKeyword feature target record p = .ok () q)
    (hrecords : Installed feature target records q r)
    (hnew : record.spelling ∉ records.map KeywordOptions.spelling) :
    Installed feature target (record :: records) p r := by
  obtain ⟨features, scope, scopes, -, hscopes, hq⟩ := installKeyword_eq_ok h
  have hkeyword : ∀ package name, q.namespaces.declaredKeyword? package name =
      if target = package ∧ record.spelling = name then some (.expand feature record)
      else p.namespaces.declaredKeyword? package name := by
    simp [hq, Parser.hooked, Parser.note]
  have hfunction : ∀ package name, q.namespaces.function? package name =
      if target = package ∧ record.spelling = name then some (.trampoline feature.outcome)
      else p.namespaces.function? package name := by
    simp [hq, Parser.hooked, Parser.note]
  refine ⟨?_, ?_, fun package name hname => ?_, ⟨scope, scopes, hscopes, ?_⟩, ?_, ?_, ?_⟩
  · refine List.forall_mem_cons.2 ⟨?_, hrecords.keyword⟩
    rw [(hrecords.others target record.spelling fun _ => hnew).1, hkeyword, if_pos ⟨rfl, rfl⟩]
  · refine List.forall_mem_cons.2 ⟨?_, hrecords.function⟩
    rw [(hrecords.others target record.spelling fun _ => hnew).2, hfunction, if_pos ⟨rfl, rfl⟩]
  · simp only [List.map_cons, List.mem_cons, not_or] at hname
    have hne : ¬ (target = package ∧ record.spelling = name) :=
      fun h => (hname h.1.symm).1 h.2.symm
    obtain ⟨hk, hf⟩ := hrecords.others package name fun h => (hname h).2
    exact ⟨by rw [hk, hkeyword, if_neg hne], by rw [hf, hfunction, if_neg hne]⟩
  · obtain ⟨scope', scopes', hscopes', hr⟩ := hrecords.hooks
    -- what the other names mean is the same before and after the first keyword is installed
    have hrestoring : records.map (fun record => q.restoring target record.spelling) =
        records.map fun record => p.restoring target record.spelling := by
      refine List.map_congr_left fun other hother => ?_
      have hne : ¬ (target = target ∧ record.spelling = other.spelling) :=
        fun h => hnew (h.2 ▸ List.mem_map_of_mem hother)
      rw [Parser.restoring, Parser.restoring, hkeyword, hfunction, if_neg hne, if_neg hne]
    rw [hrestoring] at hr
    rw [hq] at hscopes'
    obtain ⟨rfl, rfl⟩ := List.cons.inj hscopes'
    simpa using hr
  · rw [hrecords.buffer, hq]; rfl
  · rw [hrecords.pos, hq]; rfl
  · rw [hrecords.finalizers, hq]; rfl

end Installed

namespace Parse

variable {record : KeywordOptions} {records : List KeywordOptions} {features : Registry}

theorem installKeyword_of_provide (hscopes : p.scopes ≠ [])
    (hprovide : p.features.provide (.block feature) = .ok features) :
    ∃ q, installKeyword feature target record p = .ok () q ∧ q.features = features ∧
      q.scopes ≠ [] := by
  obtain ⟨scope, scopes, hscopes⟩ := List.exists_cons_of_ne_nil hscopes
  have hprovided : provide (.block feature) p = .ok () { p with features } := by
    rw [provide, Run.get_bind, hprovide]
    rfl
  rw [installKeyword, Run.bind_of_ok hprovided, Run.get_bind]
  exact ⟨_, onScopeEnd_eq_ok.2 ⟨scope, scopes, hscopes, rfl⟩, rfl, List.cons_ne_nil _ _⟩

theorem installKeyword_of_taken {cause : Misconfiguration}
    (hprovide : p.features.provide (.block feature) = .error cause) :
    installKeyword feature target record p = .error (.misconfigured cause) p := by
  obtain ⟨kind, rfl⟩ : ∃ kind, cause = .nameTaken feature.name kind := by
    unfold Registry.provide at hprovide
    split at hprovide
    · cases hprovide
    · split at hprovide
      · cases hprovide
      · exact ⟨_, (Except.error.inj hprovide).symm⟩
  have hrefused : provide (.block feature) p =
      .error (.misconfigured (.nameTaken feature.name kind)) p := by
    rw [provide, Run.get_bind, hprovide]
    rfl
  simp only [installKeyword, bind, EStateM.bind, hrefused]

/-- Once the registry has the feature, nothing can refuse a keyword of it. -/
theorem forM_installKeyword_of_provide (hscopes : p.scopes ≠ [])
    (hprovide : p.features.provide (.block feature) = .ok features)
    (hrecords : (records.map KeywordOptions.spelling).Nodup) :
    ∃ q, records.forM (installKeyword feature target) p = .ok () q ∧
      Installed feature target records p q := by
  induction records generalizing p with
  | nil => exact ⟨p, rfl, .nil hscopes⟩
  | cons record records ih =>
    rw [List.map_cons, List.nodup_cons] at hrecords
    obtain ⟨q, hq, rfl, hscopes⟩ := installKeyword_of_provide hscopes hprovide
    obtain ⟨r, hr, hinstalled⟩ := ih hscopes (Registry.provide_provide hprovide) hrecords.2
    exact ⟨r, Run.forM_cons_eq_ok.2 ⟨q, hq, hr⟩, .cons hq hinstalled hrecords.1⟩

/-- Installing keywords of one feature is all or nothing. -/
theorem forM_installKeyword (hscopes : p.scopes ≠ [])
    (hrecords : (records.map KeywordOptions.spelling).Nodup) :
    (∃ e, records.forM (installKeyword feature target) p = .error e p) ∨
      ∃ q, records.forM (installKeyword feature target) p = .ok () q ∧
        Installed feature target records p q := by
  cases hprovide : p.features.provide (.block feature) with
  | ok features => exact .inr (forM_installKeyword_of_provide hscopes hprovide hrecords)
  | error cause =>
    cases records with
    | nil => exact .inr ⟨p, rfl, .nil hscopes⟩
    | cons record records =>
      refine .inl ⟨.misconfigured cause, ?_⟩
      rw [List.forM_eq_forM, List.forM_cons]
      simp only [bind, EStateM.bind, installKeyword_of_taken hprovide]

/-- Installing the keyword of a feature is all or nothing. -/
theorem installBlock_all_or_nothing (hscopes : p.scopes ≠ []) (options : Value) :
    (∃ e, installBlock feature target options p = .error e p) ∨
      ∃ record q, installBlock feature target options p = .ok () q ∧
        Options.normalise feature options = .ok record ∧
        Installed feature target [record] p q := by
  cases hprepare : prepare feature options p with
  | error e r =>
    obtain rfl := (inert_prepare feature options).eq_of_error hprepare
    exact .inl ⟨e, by simp only [installBlock, bind, EStateM.bind, hprepare]⟩
  | ok record r =>
    obtain ⟨hnormalise, rfl⟩ := prepare_eq_ok hprepare
    rw [installBlock, Run.bind_of_ok hprepare]
    cases hprovide : r.features.provide (.block feature) with
    | error cause => exact .inl ⟨_, installKeyword_of_taken hprovide⟩
    | ok features =>
      obtain ⟨q, hq, -, hscopes'⟩ := installKeyword_of_provide hscopes hprovide
      exact .inr ⟨record, q, hq, hnormalise, .cons hq (.nil hscopes') (by simp)⟩

/-- Installing a keyword for every row of a mapping is all or nothing. -/
theorem installMultiple_all_or_nothing (hscopes : p.scopes ≠ []) (rows : List (String × Value))
    (hrows : (rows.map Prod.fst).Nodup) (shared : Value) :
    (∃ e, installMultiple feature target
        (.mapping (rows.map fun row => (.text row.1, row.2))) shared p = .error e p) ∨
      ∃ records q, installMultiple feature target
          (.mapping (rows.map fun row => (.text row.1, row.2))) shared p = .ok () q ∧
        List.Forall₂ (Options.Merged feature shared) rows records ∧
        Installed feature target records p q := by
  have hinert := inert_prepareRow feature shared
  cases hprepare : (rows.map fun row => (Value.text row.1, row.2)).mapM
      (prepareRow feature shared) p with
  | error e r =>
    obtain rfl := (Inert.mapM hinert _).eq_of_error hprepare
    exact .inl ⟨e, by simp only [installMultiple, bind, EStateM.bind, hprepare]⟩
  | ok records r =>
    obtain rfl := (Inert.mapM hinert _).eq_of_ok hprepare
    have hmerged : List.Forall₂ (Options.Merged feature shared) rows records :=
      (List.forall₂_map_left_iff.1 (Inert.mapM_eq_ok hinert hprepare)).imp
        fun _ _ => prepareRow_eq_ok
    have hspellings : records.map KeywordOptions.spelling = rows.map Prod.fst := by
      clear hprepare hrows
      induction hmerged with
      | nil => rfl
      | cons h _ ih => rw [List.map_cons, List.map_cons, ih, h.spelling]
    rw [installMultiple, Run.bind_of_ok hprepare]
    rcases forM_installKeyword hscopes (hspellings ▸ hrows) with ⟨e, h⟩ | ⟨q, h, hinstalled⟩
    · exact .inl ⟨e, h⟩
    · exact .inr ⟨records, q, h, hmerged, hinstalled⟩

/-- Installing a block feature is all or nothing, for the rows of a mapping and for a single
keyword: the parser is exactly as it was, or every row has its keyword, in the order of the rows,
with the options of the row normalised, and nothing else has changed. -/
theorem installs_all_or_nothing (feature : BlockFeature) (target : String) {p : Parser}
    (hscopes : p.scopes ≠ []) (rows : List (String × Value)) (hrows : (rows.map Prod.fst).Nodup)
    (shared options : Value) :
    ((∃ e, installMultiple feature target
        (.mapping (rows.map fun row => (.text row.1, row.2))) shared p = .error e p) ∨
      ∃ records q, installMultiple feature target
          (.mapping (rows.map fun row => (.text row.1, row.2))) shared p = .ok () q ∧
        List.Forall₂ (Options.Merged feature shared) rows records ∧
        Installed feature target records p q) ∧
    ((∃ e, install (.block feature) target options p = .error e p) ∨
      ∃ record q, install (.block feature) target options p = .ok () q ∧
        Options.normalise feature options = .ok record ∧
        Installed feature target [record] p q) :=
  ⟨installMultiple_all_or_nothing hscopes rows hrows shared,
    installBlock_all_or_nothing hscopes options⟩

/-- Two keywords, one of which has a preamble. -/
theorem installs_box_and_bag : ∃ records q,
    installMultiple .standard "main" (.mapping [(.text "box", .null),
        (.text "bag", .mapping [(.text "preamble", .list [.text "version 2"])])]) .null
      (.start { text := [] } .initial .standard "main") = .ok () q ∧
    records.map KeywordOptions.spelling = ["box", "bag"] ∧
    Installed .standard "main" records (.start { text := [] } .initial .standard "main") q := by
  have h := (installs_all_or_nothing .standard "main"
    (p := .start { text := [] } .initial .standard "main") (List.cons_ne_nil _ _)
    [("box", .null), ("bag", .mapping [(.text "preamble", .list [.text "version 2"])])]
    (by decide) .null .null).1
  rcases h with ⟨e, h⟩ | ⟨records, q, h, hmerged, hinstalled⟩
  · cases h
  · refine ⟨records, q, h, ?_, hinstalled⟩
    cases hmerged with
    | cons hbox hmerged =>
      cases hmerged with
      | cons hbag hmerged =>
        cases hmerged
        simp [hbox.spelling, hbag.spelling]

end Parse

/-- Installing keywords leaves the scopes open. -/
theorem Installs.scopes {Given : Value → Prop} (h : Installs Given p q)
    (hscopes : p.scopes ≠ []) : q.scopes ≠ [] := by
  induction h with
  | refl => exact hscopes
  | keyword _ _ _ h _ ih =>
    obtain ⟨_, _, _, -, -, rfl⟩ := installKeyword_eq_ok h
    exact ih (List.cons_ne_nil _ _)

namespace Parse

/-! ### The feature `syntax` -/

/-- Looks up a feature and installs it. -/
def installNamed (target : String) (entry : String × Value) : Parse Unit := do
  let feature ← orMisconfigured ((← get).features.require entry.1)
  install feature target entry.2

theorem forM_congr {f g : α → Parse Unit} {as : List α} (h : ∀ a ∈ as, f a = g a) :
    as.forM f = as.forM g := by
  induction as with
  | nil => rfl
  | cons a as ih =>
    rw [List.forall_mem_cons] at h
    rw [List.forM, List.forM, h.1, ih h.2]

/-- All fuel that suffices is equally good. -/
theorem installWithin_congr {m n : Nat} {feature : Feature} {options : Value}
    (hm : Suffices m options) (hn : Suffices n options) :
    installWithin m feature target options = installWithin n feature target options := by
  induction m generalizing n feature options with
  | zero => simp [Suffices] at hm
  | succ m ih =>
    obtain ⟨n, rfl⟩ : ∃ k, n = k + 1 := ⟨n - 1, by unfold Suffices at hn; omega⟩
    cases feature with
    | block => rfl
    | bare => rfl
    | dispatcher =>
      rw [installWithin, installWithin]
      cases hpairs : featurePairs options with
      | error cause => rfl
      | ok pairs =>
        refine forM_congr (f := fun pair => _) fun pair hpair => ?_
        have heq : ∀ feature, installWithin m feature target pair.2 =
            installWithin n feature target pair.2 := fun feature =>
          ih (hm.of_featurePairs hpairs pair hpair) (hn.of_featurePairs hpairs pair hpair)
        simp only [heq]

/-- The feature `syntax` installs the features of its entries one after the other. -/
theorem install_dispatcher (target : String) (options : Value) :
    install .dispatcher target options =
      (do (← orMisconfigured (featurePairs options)).forM (installNamed target)) := by
  rw [install, installWithin]
  cases hpairs : featurePairs options with
  | error cause => rfl
  | ok pairs =>
    refine forM_congr (f := fun pair => _) fun pair hpair => ?_
    have hfuel : Suffices (options.depth + 2) options := .inr (Nat.lt_succ_self _)
    have heq : ∀ feature, installWithin (options.depth + 1) feature target pair.2 =
        install feature target pair.2 := fun feature =>
      installWithin_congr (hfuel.of_featurePairs hpairs pair hpair) (.inr (Nat.lt_succ_self _))
    simp only [heq, installNamed]

/-- `refused` stands among the entries of these options of `syntax`, or among the entries of a
`syntax` there, and `before` are the entries before it. -/
inductive Precedes : Value → List (String × Value) → String × Value → Prop
  | entry {options : Value} {before after : List (String × Value)} {refused : String × Value}
      (h : featurePairs options = .ok (before ++ refused :: after)) :
      Precedes options before refused
  | within {options inner : Value} {before before' after : List (String × Value)} {name : String}
      {refused : String × Value}
      (h : featurePairs options = .ok (before ++ (name, inner) :: after))
      (hinner : Precedes inner before' refused) : Precedes options (before ++ before') refused

theorem installNamed_installs {entry : String × Value}
    (h : installNamed target entry p = .ok () q) : Installs (fun _ => True) p q := by
  rw [installNamed, Run.get_bind] at h
  obtain ⟨feature, hregistered, hinstall⟩ := require_bind_eq_ok h
  exact installWithin_installs .any trivial hregistered hinstall

/-- Where `syntax` is refused, some entry is refused without a trace, and the parser is as the
entries before it have left it, each of which is installed completely. -/
theorem syntax_refused {options : Value} {e : Error} (hscopes : p.scopes ≠ [])
    (h : install .dispatcher target options p = .error e q) :
    (q = p ∧ ∃ cause, featurePairs options = .error cause) ∨
      ∃ before refused, Precedes options before refused ∧
        before.forM (installNamed target) p = .ok () q ∧
        installNamed target refused q = .error e q := by
  -- by the depth of the options: the refused entry may be a `syntax` with entries of its own
  induction hn : options.depth using Nat.strong_induction_on generalizing options p with
  | h n ih =>
  rw [install_dispatcher] at h
  rcases Run.bind_eq_error.1 h with hpairs | ⟨pairs, r, horPairs, hentries⟩
  · obtain rfl := (inert_orMisconfigured _).eq_of_error hpairs
    refine .inl ⟨rfl, ?_⟩
    cases hread : featurePairs options with
    | error cause => exact ⟨cause, rfl⟩
    | ok pairs =>
      rw [hread] at hpairs
      exact absurd hpairs Run.pure_eq_error
  · obtain ⟨hpairs, rfl⟩ := orMisconfigured_eq_ok horPairs
    obtain ⟨before, refused, after, t, rfl, hbefore, hrefused⟩ := Run.forM_eq_error hentries
    -- an entry that is refused without a trace is the one that is looked for
    have hleaf : q = t → ∃ before refused, Precedes options before refused ∧
        before.forM (installNamed target) r = .ok () q ∧
        installNamed target refused q = .error e q := by
      rintro rfl
      exact ⟨before, refused, .entry hpairs, hbefore, hrefused⟩
    have hscopes' : t.scopes ≠ [] :=
      (forM_installs (fun _ _ => installNamed_installs) hbefore).scopes hscopes
    refine .inr ?_
    have hinstall := hrefused
    rw [installNamed, Run.get_bind] at hinstall
    rcases Run.bind_eq_error.1 hinstall with hunknown | ⟨feature, u, hrequire, hinstall⟩
    · exact hleaf ((inert_orMisconfigured _).eq_of_error hunknown)
    · obtain ⟨-, rfl⟩ := orMisconfigured_eq_ok hrequire
      cases feature with
      | block feature =>
        rcases installBlock_all_or_nothing hscopes' refused.2 with ⟨e', h'⟩ | ⟨_, _, h', -⟩
        · exact hleaf (EStateM.Result.error.inj (hinstall.symm.trans h')).2
        · cases h'.symm.trans hinstall
      | bare kind name => exact hleaf (Run.throw_eq_error.1 hinstall).2.symm
      | dispatcher =>
        rcases depth_lt_of_featurePairs hpairs refused (by simp) with hnull | hlt
        · rw [hnull] at hinstall
          exact absurd hinstall Run.pure_eq_error
        · rcases ih _ (hn ▸ hlt) hscopes' hinstall rfl with
            ⟨rfl, -⟩ | ⟨before', refused', hprecedes, hbefore', hrefused'⟩
          · exact hleaf rfl
          · exact ⟨before ++ before', refused', .within hpairs hprecedes,
              Run.forM_append_eq_ok hbefore hbefore', hrefused'⟩

/-- Where `syntax` is refused, the parser is as it was, unless entries stand before the refused one:
those have been installed, each of them completely, and nothing else has happened. -/
theorem install_syntax_refused {p q : Parser} {target : String} {options : Value} {e : Error}
    (hscopes : p.scopes ≠ []) (h : install .dispatcher target options p = .error e q) :
    q = p ∨ ∃ before refused, before ≠ [] ∧ Precedes options before refused ∧
      before.forM (installNamed target) p = .ok () q ∧
      installNamed target refused q = .error e q := by
  rcases syntax_refused hscopes h with ⟨rfl, -⟩ | ⟨before, refused, hprecedes, hbefore, hrefused⟩
  · exact .inl rfl
  · by_cases hnone : before = []
    · rw [hnone] at hbefore
      exact .inl (Run.forM_nil_eq_ok.1 hbefore).symm
    · exact .inr ⟨before, refused, hnone, hprecedes, hbefore, hrefused⟩

/-- The second name is unknown, and the keyword of the first has been installed. -/
theorem install_module_and_unknown : ∃ e q,
    install .dispatcher "main" (.list [.text "module", .text "tools"])
      (.start { text := [] } .initial .standard "main") = .error e q ∧
    ∃ before refused, before ≠ [] ∧
      Precedes (.list [.text "module", .text "tools"]) before refused ∧
      before.forM (installNamed "main") (.start { text := [] } .initial .standard "main") =
        .ok () q ∧
      installNamed "main" refused q = .error e q := by
  refine ⟨_, _, rfl, (install_syntax_refused (List.cons_ne_nil _ _) rfl).resolve_left fun h => ?_⟩
  have hkeyword := congrArg
    (fun q => (q.namespaces.declaredKeyword? "main" "module").isSome) h
  cases hkeyword

/-- Options of `syntax` can be refused after a keyword has been installed. -/
theorem syntax_installs_before_refusal :
    ¬ ∀ (p q : Parser) (target : String) (options : Value) (cause : Misconfiguration),
      p.scopes ≠ [] → install .dispatcher target options p = .error (.misconfigured cause) q →
        q.namespaces = p.namespaces ∧ q.scopes = p.scopes := by
  intro h
  obtain ⟨hnamespaces, -⟩ := h (.start { text := [] } .initial .standard "main") _ "main"
    (.list [.text "module", .text "tools"]) (.unknownFeature "tools") (List.cons_ne_nil _ _) rfl
  have hkeyword := congrArg
    (fun ns => (Namespaces.declaredKeyword? ns "main" "module").isSome) hnamespaces
  cases hkeyword

end Parse

end BraceScript
