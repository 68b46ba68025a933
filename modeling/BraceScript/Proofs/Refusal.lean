import BraceScript.Proofs.Normalisation

/-!
# Which options are refused, and why

Options go through six checks (`Options.Check`), one after the other.  Normalisation gives the
record if they pass all of them, and otherwise blames the option of the first check that they fail
(`Options.normalise_verdict`).  Only a record goes through none of them: it is the answer, whatever
it holds.

Two kinds of values are refused without a cause that could be reported: an unknown option whose
key is no text, and an integer of too many digits in an inner feature.  Where neither occurs every
refusal has its cause (`Options.invalid_of_showable`).
-/

namespace BraceScript

/-! ### Values that can be shown -/

namespace Value

theorem areShowable_iff {items : List Value} :
    areShowable items = true ↔ ∀ item ∈ items, item.isShowable = true := by
  induction items with
  | nil => simp [areShowable]
  | cons item items ih => rw [areShowable, Bool.and_eq_true, ih, List.forall_mem_cons]

theorem areShowableRows_iff {rows : List (Value × Value)} :
    areShowableRows rows = true ↔
      ∀ row ∈ rows, row.1.isShowable = true ∧ row.2.isShowable = true := by
  induction rows with
  | nil => simp [areShowableRows]
  | cons row rows ih =>
    rw [areShowableRows, Bool.and_eq_true, Bool.and_eq_true, ih, List.forall_mem_cons]

theorem isShowable_of_items? {v : Value} {items : List Value} (h : v.items? = some items) :
    v.isShowable = areShowable items := by
  cases v <;> simp_all [items?, isShowable]

end Value

namespace Literal

open Value (isShowable areShowable areShowableRows)

mutual

/-- A value whose integers can all be shown is not refused for an integer. -/
theorem write_ne_integerTooLong {v : Value} (h : v.isShowable = true) :
    write v ≠ .error .integerTooLong := by
  match v with
  | .null | .text _ | .inner _ _ | .record _ _ _ | .foreign _ _ => exact nofun
  | .bool b => cases b <;> exact nofun
  | .int n =>
    rw [write, if_pos (by simpa [isShowable] using h)]
    exact nofun
  | .float x =>
    rw [write]
    split <;> exact nofun
  | .list items | .tuple items =>
    rw [isShowable] at h
    rw [write, Ne, Run.except_bind_eq_error, not_or]
    exact ⟨writeItems_ne_integerTooLong h, nofun⟩
  | .mapping rows =>
    rw [isShowable] at h
    rw [write, Ne, Run.except_bind_eq_error, not_or]
    exact ⟨writeRows_ne_integerTooLong h, nofun⟩

theorem writeItems_ne_integerTooLong {items : List Value} (h : areShowable items = true) :
    writeItems items ≠ .error .integerTooLong := by
  match items with
  | [] => exact nofun
  | item :: items =>
    rw [areShowable, Bool.and_eq_true] at h
    rw [writeItems, Ne, Run.except_bind_eq_error, not_or]
    refine ⟨write_ne_integerTooLong h.1, ?_⟩
    rintro ⟨part, -, hitems⟩
    rcases Run.except_bind_eq_error.1 hitems with hitems | ⟨parts, -, hparts⟩
    · exact writeItems_ne_integerTooLong h.2 hitems
    · cases hparts

theorem writeRows_ne_integerTooLong {rows : List (Value × Value)}
    (h : areShowableRows rows = true) : writeRows rows ≠ .error .integerTooLong := by
  match rows with
  | [] => exact nofun
  | (key, value) :: rows =>
    rw [areShowableRows, Bool.and_eq_true, Bool.and_eq_true] at h
    cases key with
    | text s =>
      rw [writeRows, Ne, Run.except_bind_eq_error, not_or]
      refine ⟨write_ne_integerTooLong h.1.2, ?_⟩
      rintro ⟨part, -, hrows⟩
      rcases Run.except_bind_eq_error.1 hrows with hrows | ⟨parts, -, hparts⟩
      · exact writeRows_ne_integerTooLong h.2 hrows
      · cases hparts
    | _ =>
      rw [writeRows, if_pos h.1.1]
      · exact nofun
      · exact nofun

end

mutual

/-- A value that has a literal can be shown. -/
theorem isShowable_of_write {v : Value} {literal : List Char} (h : write v = .ok literal) :
    v.isShowable = true := by
  match v with
  | .null | .bool _ | .float _ | .text _ | .foreign _ _ => rfl
  | .inner _ _ | .record _ _ _ => cases h
  | .int n =>
    rw [write] at h
    split at h
    · next hdigits => simpa [isShowable] using hdigits
    · cases h
  | .list items | .tuple items =>
    rw [write] at h
    obtain ⟨parts, hparts, -⟩ := Run.except_bind_eq_ok.1 h
    exact areShowable_of_writeItems hparts
  | .mapping rows =>
    rw [write] at h
    obtain ⟨parts, hparts, -⟩ := Run.except_bind_eq_ok.1 h
    exact areShowableRows_of_writeRows hparts

theorem areShowable_of_writeItems {items : List Value} {parts : List (List Char)}
    (h : writeItems items = .ok parts) : areShowable items = true := by
  match items with
  | [] => rfl
  | item :: items =>
    obtain ⟨part, parts, hpart, hparts, -⟩ := writeItems_cons_eq_ok.1 h
    rw [areShowable, isShowable_of_write hpart, areShowable_of_writeItems hparts]
    rfl

theorem areShowableRows_of_writeRows {rows : List (Value × Value)} {parts : List (List Char)}
    (h : writeRows rows = .ok parts) : areShowableRows rows = true := by
  match rows with
  | [] => rfl
  | (key, value) :: rows =>
    obtain ⟨s, part, parts, rfl, hpart, hparts, -⟩ := writeRows_cons_eq_ok.1 h
    rw [areShowableRows, isShowable_of_write hpart, areShowableRows_of_writeRows hparts]
    rfl

end

end Literal

namespace Options

open Literal (Writable)

variable {feature : BlockFeature} {v : Value} {raw : Raw} {α β : Type}

/-! ### What each check refuses -/

/-- The value given for an option, or `null`. -/
def Raw.given (raw : Raw) (key : String) : Value := (raw.option key).getD .null

/-- The options are absent, a mapping or a list. -/
def HasShape (v : Value) : Prop :=
  v = .null ∨ (∃ rows, v = .mapping rows) ∨ ∃ items, v.items? = some items

/-- The spelling is given under both of its keys. -/
def SpelledTwice (v : Value) : Prop :=
  ∃ rows, v = .mapping rows ∧ (Raw.option rows "as").isSome = true ∧
    (Raw.option rows "alias_name").isSome = true

/-- An item of the `inner` option stands for an inner feature. -/
inductive Denotes : Value → InnerFeature → Prop where
  | record (name : String) (options : Value) : Denotes (.inner name options) ⟨name, options⟩
  | name (name : String) : Denotes (.text name) ⟨name, .null⟩
  | pair {item : Value} {name : String} {options : Value}
      (h : item.items? = some [.text name, options]) : Denotes item ⟨name, options⟩

theorem coerce_eq_ok {label : String} (h : coerce label v = .ok raw) :
    HasShape v ∧ ¬SpelledTwice v := by
  cases v with
  | null => exact ⟨.inl rfl, fun ⟨_, h, _⟩ => nomatch h⟩
  | list items | tuple items =>
    exact ⟨.inr (.inr ⟨items, rfl⟩), fun ⟨_, h, _⟩ => nomatch h⟩
  | mapping rows =>
    refine ⟨.inr (.inl ⟨rows, rfl⟩), ?_⟩
    rintro ⟨_, heq, has, halias⟩
    obtain rfl := Value.mapping.inj heq
    obtain ⟨spelling, hspelling⟩ := Option.isSome_iff_exists.1 halias
    simp only [coerce, hspelling, if_pos has] at h
    cases h
  | _ => cases h

theorem coerce_eq_error {label : String} {cause : Misconfiguration}
    (h : coerce label v = .error cause) :
    ¬HasShape v ∧ cause = .notOptions label ∨
      HasShape v ∧ SpelledTwice v ∧ cause = .spelledTwice label := by
  cases v with
  | null | list _ | tuple _ => cases h
  | mapping rows =>
    rw [coerce] at h
    split at h
    · cases h
    · next spelling hspelling =>
      split at h
      · next has =>
        obtain rfl := Except.error.inj h
        refine .inr ⟨.inr (.inl ⟨rows, rfl⟩), ⟨rows, rfl, has, ?_⟩, rfl⟩
        rw [hspelling, Option.isSome_some]
      · cases h
  | _ =>
    obtain rfl := Except.error.inj h
    refine .inl ⟨?_, rfl⟩
    rintro (h | ⟨_, h⟩ | ⟨_, h⟩) <;> cases h

theorem checkKeys_eq_ok {label : String} (h : checkKeys label raw = .ok ()) :
    ∀ key ∈ Table.keys raw, isKnownKey key = true := by
  rw [checkKeys] at h
  split at h
  · next hnone =>
    intro key hkey
    simpa using List.filter_eq_nil_iff.1 hnone key hkey
  · split at h <;> cases h

/-- Unknown options are named if all their keys are texts. -/
theorem checkKeys_eq_error {label : String} {refusal : Refusal}
    (h : checkKeys label raw = .error refusal) :
    (∃ key ∈ Table.keys raw, isKnownKey key = false) ∧
      ((∃ names, refusal = .invalid (.unknownOptions label names)) ∧
          (∀ key ∈ Table.keys raw, isKnownKey key = false → ∃ s, key = .text s) ∨
        refusal = .keyNotText ∧
          ∃ key ∈ Table.keys raw, isKnownKey key = false ∧ ∀ s, key ≠ .text s) := by
  have hunknown : ∀ key, key ∈ (Table.keys raw).filter (!isKnownKey ·) ↔
      key ∈ Table.keys raw ∧ isKnownKey key = false := by simp
  rw [checkKeys] at h
  split at h
  · cases h
  · next unknown hne =>
    obtain ⟨key, hkey⟩ := List.exists_mem_of_ne_nil _ hne
    refine ⟨⟨key, (hunknown key).1 hkey⟩, ?_⟩
    split at h
    · next names hnames =>
      obtain rfl := Except.error.inj h
      refine .inl ⟨⟨_, rfl⟩, fun key hkey hnot => ?_⟩
      have hmem := (hunknown key).2 ⟨hkey, hnot⟩
      rw [mapM_text?_eq_some.1 hnames] at hmem
      obtain ⟨s, -, rfl⟩ := List.mem_map.1 hmem
      exact ⟨s, rfl⟩
    · next hnames =>
      obtain rfl := Except.error.inj h
      refine .inr ⟨rfl, ?_⟩
      by_contra hall
      push Not at hall
      have hrange : (Table.keys raw).filter (!isKnownKey ·) ∈ Set.range (List.map Value.text) := by
        rw [Set.range_list_map]
        intro key hkey
        obtain ⟨hmem, hnot⟩ := (hunknown key).1 hkey
        obtain ⟨s, hs⟩ := hall key hmem hnot
        exact ⟨s, hs.symm⟩
      obtain ⟨names, heq⟩ := hrange
      rw [← heq, mapM_text?_eq_some.2 rfl] at hnames
      cases hnames

theorem innerEntry_eq_ok {item : Value} {entry : InnerFeature} :
    innerEntry item = .ok entry ↔ Denotes item entry := by
  constructor
  · intro h
    unfold innerEntry at h
    split at h
    · obtain rfl := Except.ok.inj h
      exact .record _ _
    · obtain rfl := Except.ok.inj h
      exact .name _
    · obtain rfl := Except.ok.inj h
      exact .pair rfl
    · obtain rfl := Except.ok.inj h
      exact .pair rfl
    · cases h
  · rintro (_ | _ | h)
    · rfl
    · rfl
    · cases item <;> cases h <;> rfl

theorem innerEntry_eq_error {item : Value} {cause : Misconfiguration}
    (h : innerEntry item = .error cause) : cause = .innerEntry item := by
  unfold innerEntry at h
  split at h <;> first | cases h; done | exact (Except.error.inj h).symm

/-- The items of the `inner` option, if there are any, and what they stand for. -/
def Lists (raw : Raw) (entries : List InnerFeature) : Prop :=
  raw.given "inner" = .null ∧ entries = [] ∨
    ∃ items, (raw.given "inner").items? = some items ∧ List.Forall₂ Denotes items entries

theorem lists_iff {entries : List InnerFeature} :
    Lists raw entries ↔ innerEntries raw = .ok entries := by
  simp only [innerEntries_eq_ok, innerEntry_eq_ok]
  rfl

theorem innerEntries_eq_error {cause : Misconfiguration} (h : innerEntries raw = .error cause) :
    cause = .innerNotList ∨ ∃ items item, (raw.given "inner").items? = some items ∧
      item ∈ items ∧ cause = .innerEntry item := by
  have hitems : ∀ items : List Value, items.mapM innerEntry = .error cause →
      ∃ item ∈ items, cause = .innerEntry item := by
    intro items
    induction items with
    | nil => exact nofun
    | cons item items ih =>
      intro hmap
      rw [List.mapM_cons] at hmap
      rcases Run.except_bind_eq_error.1 hmap with hitem | ⟨entry, -, hmap⟩
      · exact ⟨item, List.mem_cons_self, innerEntry_eq_error hitem⟩
      · rcases Run.except_bind_eq_error.1 hmap with hmap | ⟨entries, -, hmap⟩
        · obtain ⟨found, hfound, hcause⟩ := ih hmap
          exact ⟨found, List.mem_cons_of_mem _ hfound, hcause⟩
        · cases hmap
  rw [Raw.given]
  rw [innerEntries] at h
  generalize (raw.option "inner").getD .null = given at h ⊢
  cases given with
  | null => cases h
  | list items | tuple items =>
    obtain ⟨item, hitem, hcause⟩ := hitems items h
    exact .inr ⟨items, item, rfl, hitem, hcause⟩
  | _ => exact .inl (Except.error.inj h).symm

/-- The word is the spelling that is given or, if none is, the one of the feature. -/
def Spells (feature : BlockFeature) (raw : Raw) (word : String) : Prop :=
  raw.given "as" = .text word ∨ raw.given "as" = .null ∧ word = feature.keyword

theorem spelling_eq_ok {word : String} :
    spelling feature raw = .ok word ↔ Spells feature raw word ∧ isSpelling word = true := by
  have hcheck : ∀ given, spelling.check feature given = .ok word ↔
      word = given ∧ isSpelling word = true := by
    intro given
    rw [spelling.check]
    split
    · next hspelling =>
      constructor
      · intro h
        obtain rfl := Except.ok.inj h
        exact ⟨rfl, hspelling⟩
      · rintro ⟨rfl, -⟩
        rfl
    · next hnot =>
      constructor
      · intro h
        cases h
      · rintro ⟨rfl, hspelling⟩
        exact absurd hspelling hnot
  rw [Spells, Raw.given, spelling]
  generalize (raw.option "as").getD .null = given
  cases given with
  | null => simp [hcheck]
  | text given =>
    simp only [hcheck, Value.text.injEq, reduceCtorEq, false_and, or_false]
    exact and_congr_left fun _ => eq_comm
  | _ => simp

theorem spelling_eq_error {cause : Misconfiguration} (h : spelling feature raw = .error cause) :
    cause = .spellingNotText ∨ ∃ word, cause = .spelling word feature.kind := by
  have hcheck : ∀ word, spelling.check feature word = .error cause →
      cause = .spelling word feature.kind := by
    intro word hword
    rw [spelling.check] at hword
    split at hword
    · cases hword
    · exact (Except.error.inj hword).symm
  rw [spelling] at h
  split at h
  · exact .inr ⟨_, hcheck _ h⟩
  · exact .inr ⟨_, hcheck _ h⟩
  · exact .inl (Except.error.inj h).symm

theorem preamble_eq_error {cause : Misconfiguration} (h : preamble raw = .error cause) :
    cause = .preambleNotTexts := by
  unfold preamble at h
  split at h
  · cases h
  · split at h
    · cases h
    · exact (Except.error.inj h).symm
  · split at h
    · cases h
    · exact (Except.error.inj h).symm
  · exact (Except.error.inj h).symm

/-! ### Refusals -/

/-- What can go wrong with an inner feature. -/
inductive InnerRefused (validate : Value → Except Refusal KeywordOptions) (entry : InnerFeature) :
    Refusal → Prop where
  | integerTooLong (h : Literal.write entry.toValue = .error .integerTooLong) :
      InnerRefused validate entry .integerTooLong
  | unwritable {cause : Literal.Unwritable} (h : Literal.write entry.toValue = .error cause) :
      InnerRefused validate entry (.invalid (.innerUnwritable entry.name cause))
  | invalid {cause : Misconfiguration} (h : validate entry.options = .error (.invalid cause)) :
      InnerRefused validate entry (.invalid (.innerInvalid entry.name cause))
  | refused {refusal : Refusal} (hwritable : Writable entry.toValue)
      (hne : entry.options ≠ .null) (h : validate entry.options = .error refusal)
      (hnot : ∀ cause, refusal ≠ .invalid cause) : InnerRefused validate entry refusal

theorem checkInner_eq_error {validate : Value → Except Refusal KeywordOptions}
    {entry : InnerFeature} {refusal : Refusal}
    (h : checkInner feature validate entry = .error refusal) :
    InnerRefused validate entry refusal := by
  unfold checkInner at h
  split at h
  · next htooLong =>
    obtain rfl := Except.error.inj h
    exact .integerTooLong htooLong
  · next cause hcause =>
    obtain rfl := Except.error.inj h
    exact .unwritable hcause
  · next literal hliteral =>
    split at h
    · cases h
    · split at h
      · cases h
      · next hne =>
        split at h
        · cases h
        · next cause hcause =>
          obtain rfl := Except.error.inj h
          exact .invalid hcause
        · next hnot hrefused =>
          obtain rfl := Except.error.inj h
          exact .refused ⟨literal, hliteral⟩ hne hrefused hnot

theorem orRefuse_eq_error {x : Except Misconfiguration α} {refusal : Refusal} :
    orRefuse x = .error refusal ↔ ∃ cause, x = .error cause ∧ refusal = .of cause := by
  cases x <;> simp [orRefuse, eq_comm]

/-- What can go wrong with options, in the order in which it is looked for. -/
inductive Refused (feature : BlockFeature) (fuel : Nat) (v : Value) : Refusal → Prop where
  | shape {cause : Misconfiguration} (h : coerce feature.kind v = .error cause) :
      Refused feature fuel v (.of cause)
  | keys {raw : Raw} {refusal : Refusal} (hraw : coerce feature.kind v = .ok raw)
      (h : checkKeys feature.kind raw = .error refusal) : Refused feature fuel v refusal
  | items {raw : Raw} {cause : Misconfiguration} (hraw : coerce feature.kind v = .ok raw)
      (hkeys : checkKeys feature.kind raw = .ok ()) (h : innerEntries raw = .error cause) :
      Refused feature fuel v (.of cause)
  | inner {raw : Raw} {entries : List InnerFeature} {entry : InnerFeature} {refusal : Refusal}
      (hraw : coerce feature.kind v = .ok raw) (hkeys : checkKeys feature.kind raw = .ok ())
      (hentries : innerEntries raw = .ok entries) (hentry : entry ∈ entries)
      (h : checkInner feature (normaliseWithin feature fuel) entry = .error refusal) :
      Refused feature fuel v refusal
  | spelling {raw : Raw} {entries : List InnerFeature} {cause : Misconfiguration}
      (hraw : coerce feature.kind v = .ok raw) (hkeys : checkKeys feature.kind raw = .ok ())
      (hentries : innerEntries raw = .ok entries)
      (haccepts : ∀ entry ∈ entries, Accepts feature (normaliseWithin feature fuel) entry)
      (h : Options.spelling feature raw = .error cause) : Refused feature fuel v (.of cause)
  | preamble {raw : Raw} {entries : List InnerFeature} {word : String} {cause : Misconfiguration}
      (hraw : coerce feature.kind v = .ok raw) (hkeys : checkKeys feature.kind raw = .ok ())
      (hentries : innerEntries raw = .ok entries)
      (haccepts : ∀ entry ∈ entries, Accepts feature (normaliseWithin feature fuel) entry)
      (hword : Options.spelling feature raw = .ok word) (h : Options.preamble raw = .error cause) :
      Refused feature fuel v (.of cause)

/-- A record is never refused. -/
theorem record?_eq_none_of_refused {fuel : Nat} {refusal : Refusal}
    (h : normaliseWithin feature (fuel + 1) v = .error refusal) : v.record? = none := by
  cases hv : v.record? with
  | none => rfl
  | some options =>
    rw [normaliseWithin_record hv] at h
    cases h

/-- The first thing that goes wrong decides the refusal. -/
theorem refused_of_normaliseWithin {fuel : Nat} {refusal : Refusal}
    (h : normaliseWithin feature (fuel + 1) v = .error refusal) :
    Refused feature fuel v refusal := by
  rw [normaliseWithin_succ (record?_eq_none_of_refused h), build] at h
  rcases Run.except_bind_eq_error.1 h with h | ⟨raw, hraw, h⟩
  · obtain ⟨cause, hcause, rfl⟩ := orRefuse_eq_error.1 h
    exact .shape hcause
  have hraw := orRefuse_eq_ok.1 hraw
  rcases Run.except_bind_eq_error.1 h with h | ⟨_, hkeys, h⟩
  · exact .keys hraw h
  rcases Run.except_bind_eq_error.1 h with h | ⟨entries, hentries, h⟩
  · obtain ⟨cause, hcause, rfl⟩ := orRefuse_eq_error.1 h
    exact .items hraw hkeys hcause
  have hentries := orRefuse_eq_ok.1 hentries
  rcases Run.except_bind_eq_error.1 h with h | ⟨_, haccepts, h⟩
  · obtain ⟨entry, hentry, h⟩ := Run.exists_of_except_forM_eq_error h
    exact .inner hraw hkeys hentries hentry h
  have haccepts : ∀ entry ∈ entries, Accepts feature (normaliseWithin feature fuel) entry :=
    fun entry hentry => checkInner_eq_ok.1 (Run.except_forM_eq_ok.1 haccepts entry hentry)
  rcases Run.except_bind_eq_error.1 h with h | ⟨word, hword, h⟩
  · obtain ⟨cause, hcause, rfl⟩ := orRefuse_eq_error.1 h
    exact .spelling hraw hkeys hentries haccepts hcause
  rcases Run.except_bind_eq_error.1 h with h | ⟨statements, -, h⟩
  · obtain ⟨cause, hcause, rfl⟩ := orRefuse_eq_error.1 h
    exact .preamble hraw hkeys hentries haccepts (orRefuse_eq_ok.1 hword) hcause
  · cases h

theorem Refusal.of_showable {cause : Misconfiguration} (h : cause.isShowable = true) :
    Refusal.of cause = .invalid cause := if_pos h

theorem Refusal.of_ne_exhausted (cause : Misconfiguration) : Refusal.of cause ≠ .exhausted := by
  unfold Refusal.of
  split <;> exact nofun

/-- More fuel than the depth of the options always suffices. -/
theorem normaliseWithin_ne_exhausted {n : Nat} (hn : v.depth < n) :
    normaliseWithin feature n v ≠ .error .exhausted := by
  intro h
  induction n generalizing v with
  | zero => omega
  | succ n ih =>
    generalize hrefusal : Refusal.exhausted = refusal at h
    cases refused_of_normaliseWithin h with
    | shape | items | spelling | preamble => exact Refusal.of_ne_exhausted _ hrefusal.symm
    | keys _ hkeys =>
      rcases (checkKeys_eq_error hkeys).2 with ⟨⟨names, rfl⟩, -⟩ | ⟨rfl, -⟩ <;> cases hrefusal
    | inner hraw _ hentries hentry hinner =>
      cases checkInner_eq_error hinner with
      | integerTooLong | unwritable | invalid => cases hrefusal
      | refused _ hne hvalidate =>
        have hdepth := depth_lt_of_innerEntries hraw hentries hentry hne
        exact ih (by omega) (hrefusal ▸ hvalidate)

/-! ### Options whose refusal has a cause -/

theorem showable_of_coerce {label : String} (h : coerce label v = .ok raw)
    (hv : v.isShowable = true) {row : Value × Value} (hrow : row ∈ raw) :
    row.2.isShowable = true := by
  rcases mem_of_coerce h hrow with ⟨rows, key, rfl, hmem⟩ | ⟨items, hitems, hrow⟩
  · exact (Value.areShowableRows_iff.1 hv _ hmem).2
  · rw [hrow]
    rwa [Value.isShowable_of_items? hitems] at hv

theorem showable_of_given {label key : String} {items : List Value}
    (h : coerce label v = .ok raw) (hv : v.isShowable = true)
    (hitems : (raw.given key).items? = some items) : ∀ item ∈ items, item.isShowable = true := by
  obtain ⟨_, list, hmem, hlist⟩ := mem_of_option_items? hitems
  have hshowable := showable_of_coerce h hv hmem
  rw [Value.isShowable_of_items? hlist] at hshowable
  exact Value.areShowable_iff.1 hshowable

theorem showable_of_denotes {item : Value} {entry : InnerFeature} (h : Denotes item entry)
    (hitem : item.isShowable = true) : entry.toValue.isShowable = true := by
  have htoValue (name : String) (options : Value) (h : options.isShowable = true) :
      (InnerFeature.toValue ⟨name, options⟩).isShowable = true := by
    unfold InnerFeature.toValue
    split
    · rfl
    · simpa [Value.isShowable, Value.areShowable] using h
  cases h with
  | record name options => exact htoValue name options hitem
  | name => rfl
  | @pair _ name options hitems =>
    rw [Value.isShowable_of_items? hitems] at hitem
    exact htoValue name options (Value.areShowable_iff.1 hitem _ (by simp))

/-- The inner features of options that can be shown are not refused for an integer. -/
theorem showable_of_innerEntries {label : String} {entries : List InnerFeature}
    {entry : InnerFeature} (hraw : coerce label v = .ok raw) (hv : v.isShowable = true)
    (hentries : innerEntries raw = .ok entries) (hentry : entry ∈ entries) :
    entry.toValue.isShowable = true := by
  obtain ⟨_, list, items, item, hlist, hitems, hitem, hdenotes⟩ :=
    mem_of_innerEntries hentries hentry
  have hshowable := showable_of_coerce hraw hv hlist
  rw [Value.isShowable_of_items? hitems] at hshowable
  exact showable_of_denotes (innerEntry_eq_ok.1 hdenotes)
    (Value.areShowable_iff.1 hshowable item hitem)

theorem showable_of_spelling {cause : Misconfiguration} (h : spelling feature raw = .error cause) :
    cause.isShowable = true := by
  rcases spelling_eq_error h with rfl | ⟨word, rfl⟩ <;> rfl

theorem showable_of_preamble {cause : Misconfiguration} (h : preamble raw = .error cause) :
    cause.isShowable = true := by
  rw [preamble_eq_error h]
  rfl

theorem showable_of_shape {label : String} {cause : Misconfiguration}
    (h : coerce label v = .error cause) : cause.isShowable = true := by
  rcases coerce_eq_error h with ⟨-, rfl⟩ | ⟨-, -, rfl⟩ <;> rfl

theorem showable_of_items {label : String} {cause : Misconfiguration}
    (hraw : coerce label v = .ok raw) (hv : v.isShowable = true)
    (h : innerEntries raw = .error cause) : cause.isShowable = true := by
  rcases innerEntries_eq_error h with rfl | ⟨items, item, hitems, hitem, rfl⟩
  · rfl
  · exact showable_of_given hraw hv hitems item hitem

/-- The table of options has no keys but those that are given and those of options. -/
theorem text_of_mem_keys {label : String} {key : Value} (hraw : coerce label v = .ok raw)
    (htexts : ∀ rows, v = .mapping rows → ∀ key ∈ rows.map Prod.fst, ∃ s, key = .text s)
    (hkey : key ∈ Table.keys raw) : ∃ s, key = .text s := by
  cases v with
  | mapping rows =>
    rw [coerce] at hraw
    split at hraw
    · obtain rfl := Except.ok.inj hraw
      exact htexts rows rfl key hkey
    · split at hraw
      · cases hraw
      · obtain rfl := Except.ok.inj hraw
        rcases mem_keys_put hkey with hkey | rfl
        · obtain ⟨row, hrow, rfl⟩ := List.mem_map.1 hkey
          exact htexts rows rfl _ (List.mem_map_of_mem (List.mem_of_mem_filter hrow))
        · exact ⟨_, rfl⟩
  | list items | tuple items =>
    obtain rfl := Except.ok.inj hraw
    obtain rfl := List.mem_singleton.1 hkey
    exact ⟨_, rfl⟩
  | null =>
    obtain rfl := Except.ok.inj hraw
    cases hkey
  | _ => cases hraw

/-- In a value that has a literal all integers can be shown and all keys are texts. -/
theorem showable_of_writable (h : Writable v) : v.isShowable = true ∧
    ∀ rows, v = .mapping rows → ∀ key ∈ rows.map Prod.fst, ∃ s, key = .text s := by
  obtain ⟨literal, hliteral⟩ := h
  refine ⟨Literal.isShowable_of_write hliteral, ?_⟩
  rintro rows rfl
  rw [Literal.write] at hliteral
  obtain ⟨parts, hparts, -⟩ := Run.except_bind_eq_ok.1 hliteral
  exact Literal.exists_text_of_writeRows hparts

/-- **Options whose keys are texts and whose integers can be shown are refused for a cause.** -/
theorem invalid_of_showable {n : Nat} {refusal : Refusal} (hv : v.isShowable = true)
    (htexts : ∀ rows, v = .mapping rows → ∀ key ∈ rows.map Prod.fst, ∃ s, key = .text s)
    (hn : v.depth < n) (h : normaliseWithin feature n v = .error refusal) :
    ∃ cause, refusal = .invalid cause := by
  induction n generalizing v refusal with
  | zero => omega
  | succ n ih =>
    cases refused_of_normaliseWithin h with
    | shape hshape => exact ⟨_, Refusal.of_showable (showable_of_shape hshape)⟩
    | keys hraw hkeys =>
      rcases (checkKeys_eq_error hkeys).2 with ⟨⟨names, rfl⟩, -⟩ | ⟨-, key, hkey, -, hnot⟩
      · exact ⟨_, rfl⟩
      · obtain ⟨s, hs⟩ := text_of_mem_keys hraw htexts hkey
        exact absurd hs (hnot s)
    | items hraw _ hitems => exact ⟨_, Refusal.of_showable (showable_of_items hraw hv hitems)⟩
    | inner hraw _ hentries hentry hinner =>
      cases checkInner_eq_error hinner with
      | unwritable | invalid => exact ⟨_, rfl⟩
      | integerTooLong hwrite =>
        have hshowable := showable_of_innerEntries hraw hv hentries hentry
        exact absurd hwrite (Literal.write_ne_integerTooLong hshowable)
      | refused hwritable hne hvalidate =>
        obtain ⟨hshowable, htexts⟩ := showable_of_writable (writable_options hwritable hne)
        have hdepth := depth_lt_of_innerEntries hraw hentries hentry hne
        exact ih hshowable htexts (by omega) hvalidate
    | spelling _ _ _ _ hspelling =>
      exact ⟨_, Refusal.of_showable (showable_of_spelling hspelling)⟩
    | preamble _ _ _ _ _ hpreamble =>
      exact ⟨_, Refusal.of_showable (showable_of_preamble hpreamble)⟩

/-! ### The checks -/

/-- The checks that options go through. -/
inductive Check where
  | shape
  | spelledOnce
  | keys
  | inner
  | spelling
  | preamble

namespace Check

/-- The checks in the order in which they are made. -/
def order : List Check := [shape, spelledOnce, keys, inner, spelling, preamble]

/-- The option to blame when a check fails. -/
def option : Check → OptionName
  | shape | keys => .whole
  | inner => .inner
  | spelledOnce | spelling => .spelling
  | preamble => .preamble

/-- What options have to be to pass a check. -/
def Passed (feature : BlockFeature) (v : Value) : Check → Prop
  | shape => HasShape v
  | spelledOnce => ¬SpelledTwice v
  | keys => ∀ raw, coerce feature.kind v = .ok raw → ∀ key ∈ Table.keys raw, isKnownKey key = true
  | inner => ∀ raw, coerce feature.kind v = .ok raw →
      ∃ entries, Lists raw entries ∧ ∀ entry ∈ entries, Accepts feature (normalise feature) entry
  | spelling => ∀ raw, coerce feature.kind v = .ok raw →
      ∃ word, Spells feature raw word ∧ isSpelling word = true
  | preamble => ∀ raw, coerce feature.kind v = .ok raw → raw.given "preamble" = .null ∨
      ∃ statements : List String, (raw.given "preamble").items? = some (statements.map Value.text)

/-- The check is the first that the options fail. -/
def FailedFirst (feature : BlockFeature) (v : Value) (check : Check) : Prop :=
  ∃ before after, order = before ++ check :: after ∧ (∀ other ∈ before, other.Passed feature v) ∧
    ¬check.Passed feature v

end Check

/-- All unknown options can be named. -/
def UnknownNamed (feature : BlockFeature) (v : Value) : Prop :=
  ∀ raw, coerce feature.kind v = .ok raw →
    ∀ key ∈ Table.keys raw, isKnownKey key = false → ∃ s, key = .text s

/-- What normalisation tells of options that are no record yet.  A record is the answer to options
that pass every check: its spelling is one, and its inner features have literals and, if they are
the feature itself, can be normalised in turn.  A cause blames the option of the first check that
fails.  Otherwise that check has found an unknown key that is no text, or an integer of too many
digits. -/
def Verdict (feature : BlockFeature) (v : Value) : Except Refusal KeywordOptions → Prop
  | .ok options => (∀ check ∈ Check.order, check.Passed feature v) ∧
      BraceScript.isSpelling options.spelling = true ∧
      ∀ entry ∈ options.inner, Writable entry.toValue ∧
        (entry.name = feature.name →
          (entry.options = .null → BraceScript.isSpelling feature.keyword = true) →
          ∃ inner, normalise feature entry.options = .ok inner)
  | .error (.invalid cause) => ∃ check, Check.FailedFirst feature v check ∧
      cause.option = check.option ∧ (check = .keys → UnknownNamed feature v)
  | .error .keyNotText => Check.FailedFirst feature v .keys ∧ ¬UnknownNamed feature v
  | .error .integerTooLong => Check.FailedFirst feature v .inner ∧ v.isShowable = false
  | .error .exhausted => False

namespace Check

theorem failedFirst_shape (h : ¬HasShape v) : FailedFirst feature v shape :=
  ⟨[], order.tail, rfl, by simp, h⟩

theorem failedFirst_spelledOnce (hshape : HasShape v) (h : SpelledTwice v) :
    FailedFirst feature v spelledOnce :=
  ⟨[shape], order.drop 2, rfl, by simpa [Passed] using hshape, fun hnot => hnot h⟩

theorem failedFirst_keys (hraw : coerce feature.kind v = .ok raw)
    (h : ∃ key ∈ Table.keys raw, isKnownKey key = false) : FailedFirst feature v keys := by
  obtain ⟨hshape, hspelled⟩ := coerce_eq_ok hraw
  refine ⟨[shape, spelledOnce], [inner, spelling, preamble], rfl, ?_, fun hpassed => ?_⟩
  · simpa [Passed] using ⟨hshape, hspelled⟩
  · obtain ⟨key, hkey, hnot⟩ := h
    rw [hpassed raw hraw key hkey] at hnot
    cases hnot

theorem passed_keys (hraw : coerce feature.kind v = .ok raw)
    (hkeys : checkKeys feature.kind raw = .ok ()) : keys.Passed feature v := by
  intro raw' hraw'
  obtain rfl := Except.ok.inj (hraw.symm.trans hraw')
  exact checkKeys_eq_ok hkeys

theorem failedFirst_inner (hraw : coerce feature.kind v = .ok raw)
    (hkeys : checkKeys feature.kind raw = .ok ())
    (h : ∀ entries, innerEntries raw = .ok entries →
      ∃ entry ∈ entries, ¬Accepts feature (normalise feature) entry) :
    FailedFirst feature v inner := by
  obtain ⟨hshape, hspelled⟩ := coerce_eq_ok hraw
  refine ⟨[shape, spelledOnce, keys], [spelling, preamble], rfl, ?_, fun hpassed => ?_⟩
  · simpa [Passed] using ⟨hshape, hspelled, passed_keys hraw hkeys⟩
  · obtain ⟨entries, hlists, haccepts⟩ := hpassed raw hraw
    obtain ⟨entry, hentry, hnot⟩ := h entries (lists_iff.1 hlists)
    exact hnot (haccepts entry hentry)

theorem passed_inner {entries : List InnerFeature} (hraw : coerce feature.kind v = .ok raw)
    (hentries : innerEntries raw = .ok entries)
    (haccepts : ∀ entry ∈ entries, Accepts feature (normalise feature) entry) :
    inner.Passed feature v := by
  intro raw' hraw'
  obtain rfl := Except.ok.inj (hraw.symm.trans hraw')
  exact ⟨entries, lists_iff.2 hentries, haccepts⟩

theorem passed_innerWithin {entries : List InnerFeature} (hraw : coerce feature.kind v = .ok raw)
    (hentries : innerEntries raw = .ok entries)
    (haccepts : ∀ entry ∈ entries, Accepts feature (normaliseWithin feature v.depth) entry) :
    inner.Passed feature v := by
  refine passed_inner hraw hentries fun entry hentry => ?_
  have hdepth := depth_lt_of_innerEntries hraw hentries hentry
  exact (accepts_normaliseWithin hdepth).1 (haccepts entry hentry)

theorem failedFirst_spelling (hraw : coerce feature.kind v = .ok raw)
    (hkeys : checkKeys feature.kind raw = .ok ()) (hinner : inner.Passed feature v)
    {cause : Misconfiguration} (h : Options.spelling feature raw = .error cause) :
    FailedFirst feature v spelling := by
  obtain ⟨hshape, hspelled⟩ := coerce_eq_ok hraw
  refine ⟨[shape, spelledOnce, keys, inner], [preamble], rfl, ?_, fun hpassed => ?_⟩
  · simpa [Passed] using ⟨hshape, hspelled, passed_keys hraw hkeys, hinner⟩
  · obtain ⟨word, hword⟩ := hpassed raw hraw
    rw [spelling_eq_ok.2 hword] at h
    cases h

theorem passed_spelling {word : String} (hraw : coerce feature.kind v = .ok raw)
    (h : Options.spelling feature raw = .ok word) : spelling.Passed feature v := by
  intro raw' hraw'
  obtain rfl := Except.ok.inj (hraw.symm.trans hraw')
  exact ⟨word, spelling_eq_ok.1 h⟩

theorem failedFirst_preamble {word : String} (hraw : coerce feature.kind v = .ok raw)
    (hkeys : checkKeys feature.kind raw = .ok ()) (hinner : inner.Passed feature v)
    (hword : Options.spelling feature raw = .ok word)
    {cause : Misconfiguration} (h : Options.preamble raw = .error cause) :
    FailedFirst feature v preamble := by
  obtain ⟨hshape, hspelled⟩ := coerce_eq_ok hraw
  refine ⟨[shape, spelledOnce, keys, inner, spelling], [], rfl, ?_, fun hpassed => ?_⟩
  · simpa [Passed] using ⟨hshape, hspelled, passed_keys hraw hkeys, hinner,
      passed_spelling hraw hword⟩
  · rcases hpassed raw hraw with hnull | ⟨statements, hitems⟩
    · rw [preamble_eq_ok.2 (.inl ⟨hnull, rfl⟩)] at h
      cases h
    · rw [preamble_eq_ok.2 (.inr hitems)] at h
      cases h

/-- Options that give a record have passed every check. -/
theorem passed_of_normalise {options : KeywordOptions} (hv : v.record? = none)
    (h : normalise feature v = .ok options) : ∀ check ∈ order, check.Passed feature v := by
  obtain ⟨⟨raw, hreads⟩, haccepts⟩ := (normalise_eq_ok hv).1 h
  obtain ⟨hshape, hspelled⟩ := coerce_eq_ok hreads.coerced
  have hpreamble : preamble.Passed feature v := by
    intro raw' hraw'
    obtain rfl := Except.ok.inj (hreads.coerced.symm.trans hraw')
    exact (preamble_eq_ok.1 hreads.preamble).imp And.left fun hitems => ⟨_, hitems⟩
  simpa [order, Passed] using ⟨hshape, hspelled, passed_keys hreads.coerced hreads.keys,
    passed_inner hreads.coerced hreads.inner haccepts,
    passed_spelling hreads.coerced hreads.spelling, hpreamble⟩

end Check

/-- No options at all give the record of the defaults, if the feature has a keyword. -/
theorem normalise_null (h : BraceScript.isSpelling feature.keyword = true) :
    normalise feature .null = .ok ⟨feature.keyword, [], []⟩ :=
  (normalise_eq_ok rfl).2 ⟨⟨[], rfl, rfl, rfl, spelling_eq_ok.2 ⟨.inr ⟨rfl, rfl⟩, h⟩, rfl⟩, by simp⟩

/-! ### What normalisation tells of the options -/

theorem Check.FailedFirst.verdict {check : Check} {cause : Misconfiguration}
    (h : check.FailedFirst feature v) (hoption : cause.option = check.option)
    (hshowable : cause.isShowable = true) (hne : check ≠ .keys) :
    Verdict feature v (.error (.of cause)) := by
  rw [Refusal.of_showable hshowable]
  exact ⟨check, h, hoption, fun hkeys => absurd hkeys hne⟩

theorem verdict_of_ok {options : KeywordOptions} (hv : v.record? = none)
    (h : normalise feature v = .ok options) : Verdict feature v (.ok options) := by
  obtain ⟨⟨raw, hreads⟩, haccepts⟩ := (normalise_eq_ok hv).1 h
  refine ⟨Check.passed_of_normalise hv h, hreads.isSpelling, fun entry hentry => ?_⟩
  have haccepted := haccepts entry hentry
  refine ⟨haccepted.written, fun hname hkeyword => ?_⟩
  by_cases hnull : entry.options = .null
  · exact ⟨_, hnull ▸ normalise_null (hkeyword hnull)⟩
  · exact haccepted.valid hname hnull

theorem verdict_of_shape {cause : Misconfiguration}
    (h : coerce feature.kind v = .error cause) : Verdict feature v (.error (.of cause)) := by
  rcases coerce_eq_error h with ⟨hnot, rfl⟩ | ⟨hshape, htwice, rfl⟩
  · exact (Check.failedFirst_shape hnot).verdict rfl rfl nofun
  · exact (Check.failedFirst_spelledOnce hshape htwice).verdict rfl rfl nofun

theorem verdict_of_keys {refusal : Refusal} (hraw : coerce feature.kind v = .ok raw)
    (h : checkKeys feature.kind raw = .error refusal) : Verdict feature v (.error refusal) := by
  obtain ⟨hunknown, ⟨⟨names, rfl⟩, hnamed⟩ | ⟨rfl, key, hkey, hnot, hnone⟩⟩ := checkKeys_eq_error h
  · refine ⟨.keys, Check.failedFirst_keys hraw hunknown, rfl, fun _ raw' hraw' => ?_⟩
    obtain rfl := Except.ok.inj (hraw.symm.trans hraw')
    exact hnamed
  · refine ⟨Check.failedFirst_keys hraw hunknown, fun hnamed => ?_⟩
    obtain ⟨s, hs⟩ := hnamed _ hraw key hkey hnot
    exact hnone s hs

theorem verdict_of_items {cause : Misconfiguration} (hraw : coerce feature.kind v = .ok raw)
    (hkeys : checkKeys feature.kind raw = .ok ()) (h : innerEntries raw = .error cause) :
    Verdict feature v (.error (.of cause)) := by
  have hfailed : Check.FailedFirst feature v .inner :=
    Check.failedFirst_inner hraw hkeys fun entries hentries => by
      rw [h] at hentries
      cases hentries
  cases hshowable : cause.isShowable with
  | true =>
    refine hfailed.verdict ?_ hshowable nofun
    rcases innerEntries_eq_error h with rfl | ⟨_, _, -, -, rfl⟩ <;> rfl
  | false =>
    rw [Refusal.of, if_neg (by simp [hshowable])]
    refine ⟨hfailed, Bool.eq_false_iff.2 fun hv => ?_⟩
    rw [showable_of_items hraw hv h] at hshowable
    cases hshowable

/-- An inner feature that is refused is not one that normalisation accepts, and what is wrong with
it is reported unless one of its integers has too many digits. -/
theorem verdict_of_inner {entries : List InnerFeature} {entry : InnerFeature} {refusal : Refusal}
    (hraw : coerce feature.kind v = .ok raw) (hkeys : checkKeys feature.kind raw = .ok ())
    (hentries : innerEntries raw = .ok entries) (hentry : entry ∈ entries)
    (h : checkInner feature (normaliseWithin feature v.depth) entry = .error refusal) :
    Verdict feature v (.error refusal) := by
  have hdepth := depth_lt_of_innerEntries hraw hentries hentry
  have hfailed : Check.FailedFirst feature v .inner := by
    refine Check.failedFirst_inner hraw hkeys fun entries' hentries' => ?_
    obtain rfl := Except.ok.inj (hentries.symm.trans hentries')
    refine ⟨entry, hentry, fun haccepts => ?_⟩
    rw [checkInner_eq_ok.2 ((accepts_normaliseWithin hdepth).2 haccepts)] at h
    cases h
  cases checkInner_eq_error h with
  | integerTooLong hwrite =>
    refine ⟨hfailed, Bool.eq_false_iff.2 fun hv => ?_⟩
    have hshowable := showable_of_innerEntries hraw hv hentries hentry
    exact Literal.write_ne_integerTooLong hshowable hwrite
  | unwritable | invalid => exact ⟨.inner, hfailed, rfl, nofun⟩
  | refused hwritable hne hvalidate hnot =>
    -- options that have a literal are never refused without a cause
    obtain ⟨hshowable, htexts⟩ := showable_of_writable (writable_options hwritable hne)
    obtain ⟨cause, rfl⟩ := invalid_of_showable hshowable htexts (hdepth hne) hvalidate
    exact absurd rfl (hnot cause)

theorem verdict_of_error {refusal : Refusal} (h : normalise feature v = .error refusal) :
    Verdict feature v (.error refusal) := by
  cases refused_of_normaliseWithin h with
  | shape hshape => exact verdict_of_shape hshape
  | keys hraw hkeys => exact verdict_of_keys hraw hkeys
  | items hraw hkeys hitems => exact verdict_of_items hraw hkeys hitems
  | inner hraw hkeys hentries hentry hinner =>
    exact verdict_of_inner hraw hkeys hentries hentry hinner
  | spelling hraw hkeys hentries haccepts hspelling =>
    have hinner := Check.passed_innerWithin hraw hentries haccepts
    refine (Check.failedFirst_spelling hraw hkeys hinner hspelling).verdict ?_
      (showable_of_spelling hspelling) nofun
    rcases spelling_eq_error hspelling with rfl | ⟨word, rfl⟩ <;> rfl
  | preamble hraw hkeys hentries haccepts hword hpreamble =>
    have hinner := Check.passed_innerWithin hraw hentries haccepts
    refine (Check.failedFirst_preamble hraw hkeys hinner hword hpreamble).verdict ?_
      (showable_of_preamble hpreamble) nofun
    rw [preamble_eq_error hpreamble]
    rfl

/-- **Normalisation gives a record or blames the first check that fails**; a record is taken as
it is. -/
theorem normalise_verdict (feature : BlockFeature) (v : Value) :
    (∃ options, v.record? = some options ∧ normalise feature v = .ok options) ∨
      v.record? = none ∧ Verdict feature v (normalise feature v) := by
  cases hv : v.record? with
  | some options => exact .inl ⟨options, rfl, normalise_record hv⟩
  | none =>
    refine .inr ⟨rfl, ?_⟩
    cases h : normalise feature v with
    | ok options => exact verdict_of_ok hv h
    | error refusal => exact verdict_of_error h

/-- An unknown option whose key is no text is refused without a cause. -/
theorem normalise_keyNotText :
    ¬∀ (feature : BlockFeature) (v : Value), (∃ options, normalise feature v = .ok options) ∨
      ∃ cause, normalise feature v = .error (.invalid cause) := by
  intro h
  have hrefused : normalise .standard (.mapping [(.int 1, .int 2)]) = .error .keyNotText := rfl
  rcases h .standard (.mapping [(.int 1, .int 2)]) with ⟨options, hoptions⟩ | ⟨cause, hcause⟩
  · cases hrefused.symm.trans hoptions
  · cases hrefused.symm.trans hcause

end Options

end BraceScript
