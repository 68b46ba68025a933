import BraceScript.Proofs.AllOrNothing
import BraceScript.Proofs.Refusal

/-!
# Merged options normalise to merged records

Options that several keywords share are merged with the options of one keyword before anything is
checked.  If both of them can be normalised, so can what they are merged into, and its record is
the one of the two records: the lists are appended, the shared one first, and the spelling is the
keyword's own if it gives one (`Options.normalise_merge`).

Merging goes by what keys are present and normalising by what values are `null`.  So a keyword
that gives `null` for one of its lists loses the shared list with it, although its own list is
empty (`Options.merge_null_discards`).
-/

namespace BraceScript

namespace Options

variable {feature : BlockFeature} {label : String} {v : Value} {base own raw merged : Raw}
  {s o : KeywordOptions} {α : Type}

/-! ### Looking options up -/

theorem option_cons_self (raw : Raw) (key : String) (v : Value) :
    Raw.option ((.text key, v) :: raw) key = some v := by
  rw [Raw.option, Table.get?, if_pos (same_text_iff.2 rfl)]

theorem option_cons_of_ne {key : String} {row : Value × Value} (h : row.1 ≠ .text key) (raw : Raw) :
    Raw.option (row :: raw) key = raw.option key := by
  rw [Raw.option, Table.get?, if_neg (mt same_text_iff.1 h), Raw.option]

theorem option_put_of_ne {s key : String} (h : s ≠ key) (raw : Raw) (v : Value) :
    Raw.option (Table.put raw (.text s) v) key = raw.option key := by
  have hne : Value.text s ≠ .text key := fun heq => h (Value.text.inj heq)
  induction raw with
  | nil => exact option_cons_of_ne hne []
  | cons row raw ih =>
    rw [Table.put]
    split
    · next heq =>
      have hrow : row.1 = .text s := same_text_iff.1 heq
      rw [option_cons_of_ne (hrow ▸ hne), option_cons_of_ne (hrow ▸ hne)]
    · by_cases hrow : row.1 = .text key
      · obtain ⟨k, value⟩ := row
        obtain rfl := hrow
        rw [option_cons_self, option_cons_self]
      · rw [option_cons_of_ne hrow, option_cons_of_ne hrow, ih]

theorem option_erase_self (raw : Raw) (key : String) :
    Raw.option (Table.erase raw (.text key)) key = none := by
  induction raw with
  | nil => rfl
  | cons row raw ih =>
    rw [Table.erase] at ih ⊢
    rw [List.filter_cons]
    split
    · next hkept =>
      rw [option_cons_of_ne _, ih]
      rintro hrow
      simp [same_text_iff.2 hrow] at hkept
    · exact ih

theorem option_erase_of_ne {s key : String} (h : s ≠ key) (raw : Raw) :
    Raw.option (Table.erase raw (.text s)) key = raw.option key := by
  induction raw with
  | nil => rfl
  | cons row raw ih =>
    rw [Table.erase] at ih ⊢
    rw [List.filter_cons]
    split
    · by_cases hrow : row.1 = .text key
      · obtain ⟨k, value⟩ := row
        obtain rfl := hrow
        rw [option_cons_self, option_cons_self]
      · rw [option_cons_of_ne hrow, option_cons_of_ne hrow, ih]
    · next hdropped =>
      have hrow : row.1 = .text s := same_text_iff.1 (by simpa using hdropped)
      rw [option_cons_of_ne _, ih]
      rw [hrow]
      exact fun heq => h (Value.text.inj heq)

/-- A key without a row has no value. -/
theorem option_eq_none {key : String} (h : Value.text key ∉ Table.keys raw) :
    raw.option key = none := by
  induction raw with
  | nil => rfl
  | cons row raw ih =>
    rw [Table.keys, List.map_cons, List.mem_cons, not_or] at h
    rw [option_cons_of_ne (Ne.symm h.1), ih h.2]

/-- After an update the new value of a key stands for the old one. -/
theorem option_update (base : Raw) {more : Raw} (htexts : ∀ k ∈ Table.keys more, ∃ s, k = .text s)
    (hnodup : (Table.keys more).Nodup) (key : String) :
    Raw.option (Table.update base more) key = (more.option key).or (base.option key) := by
  induction more generalizing base with
  | nil => rfl
  | cons row more ih =>
    obtain ⟨k, value⟩ := row
    rw [Table.keys, List.map_cons, List.forall_mem_cons] at htexts
    rw [Table.keys, List.map_cons, List.nodup_cons] at hnodup
    obtain ⟨⟨s, rfl⟩, htexts⟩ := htexts
    have hupdate : Table.update base ((.text s, value) :: more) =
        Table.update (Table.put base (.text s) value) more := rfl
    rw [hupdate, ih _ htexts hnodup.2]
    by_cases heq : s = key
    · obtain rfl := heq
      rw [option_eq_none hnodup.1, option_cons_self, option_put, Option.none_or, Option.some_or]
    · rw [option_put_of_ne heq, option_cons_of_ne fun h => heq (Value.text.inj h)]

/-! ### Which keys a table has -/

theorem mem_keys_update {more : Raw} {key : Value}
    (h : key ∈ Table.keys (Table.update base more)) :
    key ∈ Table.keys base ∨ key ∈ Table.keys more := by
  induction more generalizing base with
  | nil => exact .inl h
  | cons row more ih =>
    have hupdate : Table.update base (row :: more) =
        Table.update (Table.put base row.1 row.2) more := rfl
    rw [hupdate] at h
    rcases ih h with h | h
    · rcases mem_keys_put h with h | rfl
      · exact .inl h
      · exact .inr List.mem_cons_self
    · exact .inr (List.mem_cons_of_mem _ h)

theorem exists_text_of_isKnownKey {key : Value} (h : isKnownKey key = true) :
    ∃ s, key = .text s := by
  obtain ⟨s, -, hs⟩ := List.any_eq_true.1 h
  cases key with
  | text s => exact ⟨s, rfl⟩
  | _ => cases hs

theorem checkKeys_of_known (h : ∀ key ∈ Table.keys raw, isKnownKey key = true) :
    checkKeys label raw = .ok () := by
  have hnone : (Table.keys raw).filter (!isKnownKey ·) = [] := by
    simpa [List.filter_eq_nil_iff] using h
  rw [checkKeys, hnone]

/-! ### What the table of raw options holds -/

/-- The value that raw options give under a key; the spelling is also given by `alias_name`. -/
def given? (key : String) : Value → Option Value
  | .mapping rows =>
    (Raw.option rows key).or (if key = "as" then Raw.option rows "alias_name" else none)
  | .list items | .tuple items => if key = "inner" then some (.list items) else none
  | _ => none

/-- The cause of a refusal apart, the label does not matter. -/
theorem coerce_relabel {label' : String} (h : coerce label v = .ok raw) :
    coerce label' v = .ok raw := by
  cases v with
  | mapping rows =>
    rw [coerce] at h ⊢
    split at h
    · exact h
    · next halias =>
      split at h
      · cases h
      · next has => rwa [if_neg has]
  | null | list _ | tuple _ => exact h
  | _ => cases h

/-- The options of a table are those that the raw options give. -/
theorem option_of_coerce (h : coerce label v = .ok raw) (key : String)
    (hkey : key ≠ "alias_name") : raw.option key = given? key v := by
  cases v with
  | mapping rows =>
    rw [coerce] at h
    rw [given?]
    split at h
    · next halias =>
      obtain rfl := Except.ok.inj h
      rw [halias, ite_self, Option.or_none]
    · next spelling halias =>
      split at h
      · cases h
      · next has =>
        obtain rfl := Except.ok.inj h
        by_cases heq : key = "as"
        · obtain rfl := heq
          rw [option_put, if_pos rfl, halias, Option.not_isSome_iff_eq_none.1 has, Option.none_or]
        · rw [option_put_of_ne (Ne.symm heq), option_erase_of_ne (Ne.symm hkey), if_neg heq,
            Option.or_none]
  | list items | tuple items =>
    obtain rfl := Except.ok.inj h
    rw [given?]
    split
    · next heq =>
      obtain rfl := heq
      exact option_cons_self _ _ _
    · next hne => exact option_cons_of_ne (fun heq => hne (Value.text.inj heq).symm) []
  | null =>
    obtain rfl := Except.ok.inj h
    rfl
  | _ => cases h

/-- In a table of options the spelling stands under one key. -/
theorem option_alias_of_coerce (h : coerce label v = .ok raw) : raw.option "alias_name" = none := by
  cases v with
  | mapping rows =>
    rw [coerce] at h
    split at h
    · next halias =>
      obtain rfl := Except.ok.inj h
      exact halias
    · split at h
      · cases h
      · obtain rfl := Except.ok.inj h
        rw [option_put_of_ne (by decide), option_erase_self]
  | list items | tuple items =>
    obtain rfl := Except.ok.inj h
    exact option_cons_of_ne (fun heq => absurd (Value.text.inj heq) (by decide)) []
  | null =>
    obtain rfl := Except.ok.inj h
    rfl
  | _ => cases h

/-- The rows of a mapping have different keys. -/
def DistinctKeys (v : Value) : Prop := ∀ rows, v = .mapping rows → (Table.keys rows).Nodup

theorem nodup_of_coerce (h : coerce label v = .ok raw) (hv : DistinctKeys v) :
    (Table.keys raw).Nodup := by
  cases v with
  | mapping rows =>
    have hrows := hv rows rfl
    rw [coerce] at h
    split at h
    · obtain rfl := Except.ok.inj h
      exact hrows
    · split at h
      · cases h
      · obtain rfl := Except.ok.inj h
        exact nodup_keys_put (hrows.sublist (List.filter_sublist.map _))
  | list items | tuple items =>
    obtain rfl := Except.ok.inj h
    exact List.nodup_singleton _
  | null =>
    obtain rfl := Except.ok.inj h
    exact List.nodup_nil
  | _ => cases h

/-! ### What merging gives -/

/-- The options of both tables are appended where both are lists, and otherwise the second table
decides. -/
def joined (first second : Option Value) : Option Value :=
  match first.bind Value.items?, second.bind Value.items? with
  | some items, some more => some (.list (items ++ more))
  | _, _ => second.or first

theorem option_appendOption_self (base own merged : Raw) (key : String)
    (h : merged.option key = (own.option key).or (base.option key)) :
    (appendOption base own merged key).option key =
      joined (base.option key) (own.option key) := by
  rw [appendOption, joined]
  cases (base.option key).bind Value.items? with
  | none => exact h
  | some items =>
    cases (own.option key).bind Value.items? with
    | none => exact h
    | some more => exact option_put _ _ _

theorem option_appendOption_of_ne {key other : String} (h : key ≠ other) (base own merged : Raw) :
    (appendOption base own merged key).option other = merged.option other := by
  rw [appendOption]
  split
  · rw [option_put_of_ne h]
  · rfl

/-- The table that two tables are merged into. -/
def join (base own : Raw) : Raw :=
  ["inner", "preamble"].foldl (appendOption base own) (Table.update base own)

theorem merge_eq {shared delta : Value} (hshared : coerce label shared = .ok base)
    (hown : coerce label delta = .ok own) : merge label shared delta = .ok (join base own) := by
  simp only [merge, hshared, hown]
  rfl

theorem mem_keys_appendOption {key : String} {k : Value}
    (h : k ∈ Table.keys (appendOption base own merged key)) :
    k ∈ Table.keys merged ∨ k = .text key := by
  rw [appendOption] at h
  split at h
  · exact mem_keys_put h
  · exact .inl h

/-- Every option of the joined table is one of the two tables. -/
theorem isKnownKey_join (hbase : ∀ key ∈ Table.keys base, isKnownKey key = true)
    (hown : ∀ key ∈ Table.keys own, isKnownKey key = true) :
    ∀ key ∈ Table.keys (join base own), isKnownKey key = true := by
  intro key hkey
  rcases mem_keys_appendOption hkey with hkey | rfl
  · rcases mem_keys_appendOption hkey with hkey | rfl
    · exact (mem_keys_update hkey).elim (hbase key) (hown key)
    · rfl
  · rfl

section

variable (hown : ∀ key ∈ Table.keys own, isKnownKey key = true) (hnodup : (Table.keys own).Nodup)
include hown hnodup

theorem option_update_of_known (key : String) :
    Raw.option (Table.update base own) key = (own.option key).or (base.option key) :=
  option_update base (fun k hk => exists_text_of_isKnownKey (hown k hk)) hnodup key

theorem option_join_inner :
    (join base own).option "inner" = joined (base.option "inner") (own.option "inner") := by
  rw [join, List.foldl_cons, List.foldl_cons, List.foldl_nil,
    option_appendOption_of_ne (by decide)]
  exact option_appendOption_self _ _ _ _ (option_update_of_known hown hnodup _)

theorem option_join_preamble :
    (join base own).option "preamble" =
      joined (base.option "preamble") (own.option "preamble") := by
  refine option_appendOption_self _ _ _ _ ?_
  rw [option_appendOption_of_ne (by decide), option_update_of_known hown hnodup]

theorem option_join_of_ne (key : String) (hinner : "inner" ≠ key) (hpreamble : "preamble" ≠ key) :
    (join base own).option key = (own.option key).or (base.option key) := by
  rw [join, List.foldl_cons, List.foldl_cons, List.foldl_nil, option_appendOption_of_ne hpreamble,
    option_appendOption_of_ne hinner, option_update_of_known hown hnodup]

end

/-! ### What is read from the joined table -/

/-- The items of a list option, if it has any, and what they stand for one by one. -/
def ReadsItems (R : Value → α → Prop) (given : Option Value) (read : List α) : Prop :=
  given.getD .null = .null ∧ read = [] ∨
    ∃ items, (given.getD .null).items? = some items ∧ List.Forall₂ R items read

/-- The option is given, and as `null`. -/
def isNull : Option Value → Bool
  | some .null => true
  | _ => false

theorem readsItems_null {R : Value → α → Prop} {read : List α} :
    ReadsItems R (some .null) read ↔ read = [] := by
  simp [ReadsItems, Value.items?]

theorem readsItems_none {R : Value → α → Prop} {read : List α} :
    ReadsItems R none read ↔ read = [] := by
  simp [ReadsItems, Value.items?]

theorem joined_none (first : Option Value) : joined first none = first := by
  rw [joined]
  cases first.bind Value.items? <;> exact Option.none_or

theorem joined_null (first : Option Value) : joined first (some .null) = some .null := by
  rw [joined]
  cases first.bind Value.items? <;> rfl

theorem joined_of_not_list {first : Option Value} {second : Value}
    (hfirst : first.bind Value.items? = none) : joined first (some second) = some second := by
  rw [joined, hfirst, Option.some_or]

theorem joined_of_list {first second : Value} {items more : List Value}
    (hfirst : first.items? = some items) (hsecond : second.items? = some more) :
    joined (some first) (some second) = some (.list (items ++ more)) := by
  rw [joined, Option.bind_some, Option.bind_some, hfirst, hsecond]

theorem readsItems_joined_list {R : Value → α → Prop} {first : Option Value} {second : Value}
    {more : List Value} {xs ys : List α} (hfirst : ReadsItems R first xs)
    (hmore : second.items? = some more) (hread : List.Forall₂ R more ys) :
    ReadsItems R (joined first (some second)) (xs ++ ys) := by
  rcases hfirst with ⟨hnull, rfl⟩ | ⟨items, hitems, hxs⟩
  · have hnot : first.bind Value.items? = none := by
      rcases first with _ | first
      · rfl
      · rw [Option.getD_some] at hnull
        rw [hnull]
        rfl
    rw [joined_of_not_list hnot]
    exact .inr ⟨more, hmore, hread⟩
  · rcases first with _ | first
    · cases hitems
    · rw [Option.getD_some] at hitems
      rw [joined_of_list hitems hmore]
      exact .inr ⟨items ++ more, rfl, List.rel_append hxs hread⟩

/-- What is read from joined lists is what is read from both, unless the second is `null`. -/
theorem readsItems_joined {R : Value → α → Prop} {first second : Option Value} {xs ys : List α}
    (hfirst : ReadsItems R first xs) (hsecond : ReadsItems R second ys) :
    ReadsItems R (joined first second) (if isNull second then [] else xs ++ ys) := by
  match second with
  | none =>
    obtain rfl := readsItems_none.1 hsecond
    rw [joined_none, if_neg nofun, List.append_nil]
    exact hfirst
  | some given =>
    rcases hsecond with ⟨hnull, rfl⟩ | ⟨more, hmore, hys⟩
    · obtain rfl : given = .null := hnull
      rw [joined_null, readsItems_null]
      rfl
    · have hlist : isNull (some given) = false := by
        cases given <;> first | rfl | cases hmore
      rw [hlist, if_neg nofun]
      exact readsItems_joined_list hfirst hmore hys

/-- The spelling that options give, or the default. -/
def spellingGiven (feature : BlockFeature) (given : Option Value) : String :=
  (given.bind Value.text?).getD feature.keyword

/-- The record that two records are merged into, where `shared` and `own` are the options that
they are the records of. -/
def mergedRecord (feature : BlockFeature) (shared own : Value) (s o : KeywordOptions) :
    KeywordOptions where
  spelling := spellingGiven feature ((given? "as" own).or (given? "as" shared))
  inner := if isNull (given? "inner" own) then [] else s.inner ++ o.inner
  preamble := if isNull (given? "preamble" own) then [] else s.preamble ++ o.preamble

theorem Spells.eq_spellingGiven {word : String} (h : Spells feature raw word) :
    word = spellingGiven feature (raw.option "as") := by
  rw [Spells, Raw.given] at h
  rw [spellingGiven]
  cases hgiven : raw.option "as" with
  | none =>
    rw [hgiven] at h
    rcases h with h | h
    · cases h
    · exact h.2
  | some given =>
    rw [hgiven, Option.getD_some] at h
    rcases h with rfl | ⟨rfl, rfl⟩ <;> rfl

/-- The spelling of the joined table is the one of a table that gives it. -/
theorem spelling_join {word own' : String} (hword : spelling feature base = .ok word)
    (hown : spelling feature own = .ok own')
    (h : merged.option "as" = (own.option "as").or (base.option "as")) :
    spelling feature merged = .ok (spellingGiven feature (merged.option "as")) := by
  rw [h]
  rcases hgiven : own.option "as" with _ | given
  · have heq : spelling feature merged = spelling feature base := by
      rw [spelling, spelling, h, hgiven, Option.none_or]
    rw [heq, Option.none_or, ← (spelling_eq_ok.1 hword).1.eq_spellingGiven, hword]
  · have heq : spelling feature merged = spelling feature own := by
      rw [spelling, spelling, h, hgiven, Option.some_or]
    rw [heq, Option.some_or, ← hgiven, ← (spelling_eq_ok.1 hown).1.eq_spellingGiven, hown]

theorem innerEntries_eq_ok_iff {entries : List InnerFeature} :
    innerEntries raw = .ok entries ↔ ReadsItems Denotes (raw.option "inner") entries :=
  lists_iff.symm

theorem preamble_eq_ok_iff {statements : List String} :
    preamble raw = .ok statements ↔
      ReadsItems (fun item s => item = .text s) (raw.option "preamble") statements := by
  have hall (items : List Value) :
      List.Forall₂ (fun item s => item = .text s) items statements ↔
        items = statements.map .text := by
    rw [← List.forall₂_map_right_iff (R := Eq), List.forall₂_eq_eq_eq]
  simp only [preamble_eq_ok, ReadsItems, hall, exists_eq_right]

/-- What is read from the table that two tables are joined into. -/
theorem Reads.join {shared : Value} (hbase : Reads feature shared base s)
    (hown : Reads feature v own o) (hdistinct : DistinctKeys v) :
    Reads feature (.mapping (join base own)) (join base own)
      (mergedRecord feature shared v s o) := by
  have hkeys := checkKeys_eq_ok hown.keys
  have hnodup := nodup_of_coerce hown.coerced hdistinct
  have hother : ∀ key, "inner" ≠ key → "preamble" ≠ key →
      (Options.join base own).option key = (own.option key).or (base.option key) :=
    option_join_of_ne hkeys hnodup
  have halias : (Options.join base own).option "alias_name" = none := by
    rw [hother _ (by decide) (by decide), option_alias_of_coerce hbase.coerced,
      option_alias_of_coerce hown.coerced, Option.or_none]
  have has := hother "as" (by decide) (by decide)
  refine ⟨?_, checkKeys_of_known (isKnownKey_join (checkKeys_eq_ok hbase.keys) hkeys), ?_, ?_, ?_⟩
  · rw [coerce, halias]
  · rw [innerEntries_eq_ok_iff, option_join_inner hkeys hnodup, mergedRecord,
      ← option_of_coerce hown.coerced "inner" (by decide)]
    exact readsItems_joined (innerEntries_eq_ok_iff.1 hbase.inner)
      (innerEntries_eq_ok_iff.1 hown.inner)
  · rw [spelling_join hbase.spelling hown.spelling has, has, mergedRecord,
      option_of_coerce hown.coerced "as" (by decide),
      option_of_coerce hbase.coerced "as" (by decide)]
  · rw [preamble_eq_ok_iff, option_join_preamble hkeys hnodup, mergedRecord,
      ← option_of_coerce hown.coerced "preamble" (by decide)]
    exact readsItems_joined (preamble_eq_ok_iff.1 hbase.preamble)
      (preamble_eq_ok_iff.1 hown.preamble)

theorem mem_inner_mergedRecord {shared : Value} {entry : InnerFeature}
    (h : entry ∈ (mergedRecord feature shared v s o).inner) :
    entry ∈ s.inner ∨ entry ∈ o.inner := by
  rw [mergedRecord] at h
  split at h
  · cases h
  · exact List.mem_append.1 h

/-- **Options that can be normalised, merged: the record has the lists of both records, and the
spelling that the second options give or else the first.**  A record has no options to merge. -/
theorem normalise_merge (feature : BlockFeature) (label : String) (shared own : Value)
    (s o : KeywordOptions) (hraw : shared.record? = none ∧ own.record? = none)
    (hown : DistinctKeys own) (hs : normalise feature shared = .ok s)
    (ho : normalise feature own = .ok o) :
    ∃ merged, merge label shared own = .ok merged ∧
      normalise feature (.mapping merged) = .ok (mergedRecord feature shared own s o) := by
  obtain ⟨⟨base, hbase⟩, hsaccepts⟩ := (normalise_eq_ok hraw.1).1 hs
  obtain ⟨⟨raw, hreads⟩, hoaccepts⟩ := (normalise_eq_ok hraw.2).1 ho
  refine ⟨join base raw, merge_eq (coerce_relabel hbase.coerced) (coerce_relabel hreads.coerced),
    (normalise_eq_ok rfl).2 ⟨⟨join base raw, hbase.join hreads hown⟩, fun entry hentry => ?_⟩⟩
  exact (mem_inner_mergedRecord hentry).elim (hsaccepts entry) (hoaccepts entry)

/-- Both sides give an inner feature and a statement, and only the shared options a spelling. -/
theorem normalise_merge_lists :
    let shared : Value := .mapping [(.text "alias_name", .text "unit"),
      (.text "inner", .list [.text "module"]), (.text "preamble", .list [.text "1"])]
    let own : Value := .mapping [(.text "inner", .tuple [.text "syntax"]),
      (.text "preamble", .list [.text "2"])]
    ∃ merged, merge "ModuleFeature" shared own = .ok merged ∧
      normalise .standard (.mapping merged) =
        .ok ⟨"unit", [⟨"module", .null⟩, ⟨"syntax", .null⟩], ["1", "2"]⟩ := by
  refine normalise_merge .standard "ModuleFeature" _ _ ⟨"unit", [⟨"module", .null⟩], ["1"]⟩
    ⟨"module", [⟨"syntax", .null⟩], ["2"]⟩ ⟨rfl, rfl⟩ ?_ rfl rfl
  rintro rows ⟨⟩
  exact List.nodup_cons.2 ⟨by simp, List.nodup_singleton _⟩

/-- A shared list is lost if the keyword's own list is `null`. -/
theorem merge_null_discards :
    ¬∀ (feature : BlockFeature) (label : String) (shared own : Value) (s o record : KeywordOptions)
      (merged : Raw), DistinctKeys own → normalise feature shared = .ok s →
      normalise feature own = .ok o → merge label shared own = .ok merged →
      normalise feature (.mapping merged) = .ok record → record.inner = s.inner ++ o.inner := by
  intro h
  have hdistinct : DistinctKeys (.mapping [(.text "inner", .null)]) := by
    rintro rows ⟨⟩
    exact List.nodup_singleton _
  have hinner := h .standard "ModuleFeature" (.mapping [(.text "inner", .list [.text "module"])])
    (.mapping [(.text "inner", .null)]) ⟨"module", [⟨"module", .null⟩], []⟩ ⟨"module", [], []⟩
    ⟨"module", [], []⟩ [(.text "inner", .null)] hdistinct rfl rfl rfl rfl
  cases hinner

end Options

end BraceScript
