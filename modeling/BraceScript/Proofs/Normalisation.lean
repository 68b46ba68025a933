import BraceScript.Proofs.Literal

/-!
# Normalised options normalise again

A record of options can be turned into a mapping (`KeywordOptions.toValue`), and that mapping
normalises to the record (`Options.normalise_toValue`).  The mapping may also go through a source
text, where its tuples become lists: then it normalises to the record with the tuples in the
options of its inner features made lists (`Options.normalise_listed`).

Inner features of the feature itself have options that are normalised in their turn.  They are
nested less deeply than the options they stand in, so the fuel of `Options.normalise` is always
enough and what it does can be said without fuel (`Options.normalise_eq_ok`).
-/

namespace BraceScript

/-! ### Parts of a value -/

namespace Value

theorem depth_le_of_mem {item : Value} {items : List Value} (h : item ∈ items) :
    item.depth ≤ depthItems items := by
  induction items with
  | nil => cases h
  | cons next items ih =>
    rw [depthItems]
    rcases List.mem_cons.1 h with rfl | h
    · exact Nat.le_max_left _ _
    · exact (ih h).trans (Nat.le_max_right _ _)

theorem depth_le_of_mem_rows {key value : Value} {rows : List (Value × Value)}
    (h : (key, value) ∈ rows) : value.depth ≤ depthRows rows := by
  induction rows with
  | nil => cases h
  | cons row rows ih =>
    rw [depthRows]
    rcases List.mem_cons.1 h with rfl | h
    · exact (Nat.le_max_right _ _).trans (Nat.le_max_left _ _)
    · exact (ih h).trans (Nat.le_max_right _ _)

theorem depth_of_items? {v : Value} {items : List Value} (h : v.items? = some items) :
    v.depth = depthItems items + 1 := by
  cases v <;> simp only [items?, reduceCtorEq, Option.some.injEq] at h <;> rw [← h, depth]

theorem items?_listed (v : Value) : v.listed.items? = v.items?.map listedItems := by
  cases v <;> rfl

theorem listedItems_eq_map (items : List Value) : listedItems items = items.map listed := by
  induction items with
  | nil => rfl
  | cons item items ih => rw [listedItems, List.map_cons, ih]

end Value

namespace Literal

/-- The value has a literal. -/
def Writable (v : Value) : Prop := ∃ literal, write v = .ok literal

mutual

/-- A literal does not tell tuples from lists. -/
theorem write_listed (v : Value) : write v.listed = write v := by
  match v with
  | .list items | .tuple items => rw [Value.listed, write, write, writeItems_listedItems]
  | .mapping rows => rw [Value.listed, write, write, writeRows_listedRows]
  | .null | .bool _ | .int _ | .float _ | .text _ | .inner _ _ | .record _ _ _ | .foreign _ _ => rfl

theorem writeItems_listedItems (items : List Value) :
    writeItems (Value.listedItems items) = writeItems items := by
  match items with
  | [] => rfl
  | item :: items =>
    rw [Value.listedItems, writeItems, writeItems, write_listed item, writeItems_listedItems items]

theorem writeRows_listedRows (rows : List (Value × Value)) :
    writeRows (Value.listedRows rows) = writeRows rows := by
  match rows with
  | [] => rfl
  | (key, value) :: rows =>
    cases key with
    | text s =>
      rw [Value.listedRows, writeRows, writeRows, write_listed value, writeRows_listedRows rows]
    | _ => rfl

end

theorem Writable.listed {v : Value} (h : Writable v) : Writable v.listed := by
  rwa [Writable, write_listed]

theorem writable_of_mem_items {items : List Value} {parts : List (List Char)}
    (h : writeItems items = .ok parts) : ∀ item ∈ items, Writable item := by
  induction items generalizing parts with
  | nil => simp
  | cons item items ih =>
    obtain ⟨part, parts, hpart, hparts, -⟩ := writeItems_cons_eq_ok.1 h
    exact List.forall_mem_cons.2 ⟨⟨part, hpart⟩, ih hparts⟩

theorem writable_of_mem_rows {rows : List (Value × Value)} {parts : List (List Char)}
    (h : writeRows rows = .ok parts) : ∀ row ∈ rows, Writable row.2 := by
  induction rows generalizing parts with
  | nil => simp
  | cons row rows ih =>
    obtain ⟨s, part, parts, -, hpart, hparts, -⟩ := writeRows_cons_eq_ok.1 h
    exact List.forall_mem_cons.2 ⟨⟨part, hpart⟩, ih hparts⟩

theorem Writable.of_items? {v : Value} {items : List Value} (h : Writable v)
    (hitems : v.items? = some items) : ∀ item ∈ items, Writable item := by
  obtain ⟨literal, h⟩ := h
  cases v <;> simp only [Value.items?, reduceCtorEq, Option.some.injEq] at hitems <;>
    subst hitems <;>
    (rw [write] at h
     obtain ⟨parts, hparts, -⟩ := Run.except_bind_eq_ok.1 h
     exact writable_of_mem_items hparts)

theorem Writable.of_mapping {rows : List (Value × Value)} (h : Writable (.mapping rows)) :
    ∀ row ∈ rows, Writable row.2 := by
  obtain ⟨literal, h⟩ := h
  rw [write] at h
  obtain ⟨parts, hparts, -⟩ := Run.except_bind_eq_ok.1 h
  exact writable_of_mem_rows hparts

end Literal

/-! ### Tables of options -/

namespace Table

variable {κ α : Type} [BEq κ] {rows : Table κ α} {k : κ} {v : α}

theorem mem_of_get? (h : get? rows k = some v) : ∃ key, (key, v) ∈ rows := by
  induction rows with
  | nil => cases h
  | cons row rows ih =>
    obtain ⟨key, value⟩ := row
    rw [get?] at h
    split at h
    · obtain rfl := Option.some.inj h
      exact ⟨key, List.mem_cons_self⟩
    · obtain ⟨key', hmem⟩ := ih h
      exact ⟨key', List.mem_cons_of_mem _ hmem⟩

theorem mem_put {row : κ × α} (h : row ∈ put rows k v) : row ∈ rows ∨ row.2 = v := by
  induction rows with
  | nil =>
    obtain rfl := List.mem_singleton.1 h
    exact .inr rfl
  | cons next rows ih =>
    obtain ⟨key, value⟩ := next
    rw [put] at h
    split at h
    · rcases List.mem_cons.1 h with rfl | h
      · exact .inr rfl
      · exact .inl (List.mem_cons_of_mem _ h)
    · rcases List.mem_cons.1 h with rfl | h
      · exact .inl List.mem_cons_self
      · exact (ih h).imp_left (List.mem_cons_of_mem _)

end Table

namespace Options

open Value (listed listedRows listedItems)
open Literal (Writable)

theorem get?_listedRows (rows : List (Value × Value)) (k : Value) :
    Table.get? (listedRows rows) k = (Table.get? rows k).map listed := by
  induction rows with
  | nil => rfl
  | cons row rows ih =>
    rw [listedRows, Table.get?, Table.get?, ih]
    split <;> rfl

theorem put_listedRows (rows : List (Value × Value)) (k v : Value) :
    Table.put (listedRows rows) k v.listed = listedRows (Table.put rows k v) := by
  induction rows with
  | nil => rfl
  | cons row rows ih =>
    rw [listedRows, Table.put, Table.put, ih]
    split <;> rfl

theorem erase_listedRows (rows : List (Value × Value)) (k : Value) :
    Table.erase (listedRows rows) k = listedRows (Table.erase rows k) := by
  induction rows with
  | nil => rfl
  | cons row rows ih =>
    unfold Table.erase at ih ⊢
    rw [listedRows, List.filter_cons, List.filter_cons, ih]
    split <;> rfl

theorem option_listedRows (raw : Raw) (key : String) :
    Raw.option (listedRows raw) key = (raw.option key).map listed := get?_listedRows raw _

theorem option_getD_listedRows (raw : Raw) (key : String) :
    (Raw.option (listedRows raw) key).getD .null = ((raw.option key).getD .null).listed := by
  rw [option_listedRows]
  cases raw.option key <;> rfl

theorem same_text_iff {v : Value} {s : String} : (v == .text s) = true ↔ v = .text s := by
  change Value.same v (.text s) = true ↔ _
  cases v <;> simp [Value.same, Value.sameNumber, Value.int?]

theorem mem_keys_put {rows : Raw} {k value key : Value}
    (h : key ∈ Table.keys (Table.put rows k value)) : key ∈ Table.keys rows ∨ key = k := by
  induction rows with
  | nil => exact .inr (List.mem_singleton.1 h)
  | cons row rows ih =>
    rw [Table.put] at h
    split at h
    · exact .inl h
    · rcases List.mem_cons.1 h with rfl | h
      · exact .inl List.mem_cons_self
      · exact (ih h).imp_left (List.mem_cons_of_mem _)

/-- A new key gets a row of its own, a known one does not. -/
theorem nodup_keys_put {raw : Raw} {s : String} {v : Value} (h : (Table.keys raw).Nodup) :
    (Table.keys (Table.put raw (.text s) v)).Nodup := by
  induction raw with
  | nil => exact List.nodup_singleton _
  | cons row raw ih =>
    rw [Table.keys, List.map_cons, List.nodup_cons] at h
    rw [Table.put]
    split
    · exact List.nodup_cons.2 h
    · next hne =>
      refine List.nodup_cons.2 ⟨fun hmem => ?_, ih h.2⟩
      rcases mem_keys_put hmem with hmem | heq
      · exact h.1 hmem
      · exact hne (same_text_iff.2 heq)

/-- Where the values of a table of options come from. -/
theorem mem_of_coerce {label : String} {v : Value} {raw : Raw} (h : coerce label v = .ok raw)
    {row : Value × Value} (hrow : row ∈ raw) :
    (∃ rows key, v = .mapping rows ∧ (key, row.2) ∈ rows) ∨
      ∃ items, v.items? = some items ∧ row.2 = .list items := by
  cases v with
  | mapping rows =>
    refine .inl ⟨rows, ?_⟩
    rw [coerce] at h
    split at h
    · obtain rfl := Except.ok.inj h
      exact ⟨row.1, rfl, hrow⟩
    · next spelling hspelling =>
      split at h
      · cases h
      · obtain rfl := Except.ok.inj h
        rcases Table.mem_put hrow with hrow | hrow
        · exact ⟨row.1, rfl, List.mem_of_mem_filter hrow⟩
        · obtain ⟨key, hmem⟩ := Table.mem_of_get? hspelling
          exact ⟨key, rfl, hrow ▸ hmem⟩
  | list items | tuple items =>
    obtain rfl := Except.ok.inj h
    obtain rfl := List.mem_singleton.1 hrow
    exact .inr ⟨items, rfl, rfl⟩
  | null =>
    obtain rfl := Except.ok.inj h
    cases hrow
  | _ => cases h

theorem depth_le_of_coerce {label : String} {v : Value} {raw : Raw} (h : coerce label v = .ok raw)
    {row : Value × Value} (hrow : row ∈ raw) : row.2.depth ≤ v.depth := by
  rcases mem_of_coerce h hrow with ⟨rows, key, rfl, hmem⟩ | ⟨items, hitems, hrow⟩
  · exact (Value.depth_le_of_mem_rows hmem).trans (Nat.le_succ _)
  · rw [hrow, Value.depth, Value.depth_of_items? hitems]

theorem writable_of_coerce {label : String} {v : Value} {raw : Raw} (h : coerce label v = .ok raw)
    (hv : Writable v) {row : Value × Value} (hrow : row ∈ raw) : Writable row.2 := by
  rcases mem_of_coerce h hrow with ⟨rows, key, rfl, hmem⟩ | ⟨items, hitems, hrow⟩
  · exact hv.of_mapping (key, row.2) hmem
  · rw [hrow]
    obtain ⟨literal, hv⟩ := hv
    cases v <;> simp only [Value.items?, reduceCtorEq, Option.some.injEq] at hitems <;>
      exact ⟨literal, hitems ▸ hv⟩

theorem coerce_listed {label : String} {v : Value} {raw : Raw} (h : coerce label v = .ok raw) :
    coerce label v.listed = .ok (listedRows raw) := by
  cases v with
  | mapping rows =>
    rw [coerce] at h
    rw [listed, coerce, option_listedRows, option_listedRows]
    cases hspelling : Raw.option rows "alias_name" with
    | none =>
      rw [hspelling] at h
      obtain rfl := Except.ok.inj h
      rfl
    | some spelling =>
      simp only [hspelling] at h
      simp only [Option.map_some, Option.isSome_map]
      split at h
      · cases h
      · next has =>
        obtain rfl := Except.ok.inj h
        rw [if_neg has, erase_listedRows, put_listedRows]
  | list items | tuple items =>
    obtain rfl := Except.ok.inj h
    rfl
  | null =>
    obtain rfl := Except.ok.inj h
    rfl
  | _ => cases h

/-! ### One level of options -/

variable {feature : BlockFeature} {v : Value} {raw : Raw} {options : KeywordOptions}
  {entry : InnerFeature}

/-- The value is read as the table `raw` and gives the record, whatever its inner features hold. -/
structure Reads (feature : BlockFeature) (v : Value) (raw : Raw) (options : KeywordOptions) :
    Prop where
  coerced : coerce feature.kind v = .ok raw
  keys : checkKeys feature.kind raw = .ok ()
  inner : innerEntries raw = .ok options.inner
  spelling : Options.spelling feature raw = .ok options.spelling
  preamble : Options.preamble raw = .ok options.preamble

/-- The inner feature has a literal and, if it is the feature itself, options that are valid. -/
structure Accepts (feature : BlockFeature) (validate : Value → Except Refusal KeywordOptions)
    (entry : InnerFeature) : Prop where
  written : Writable entry.toValue
  valid : entry.name = feature.name → entry.options ≠ .null →
    ∃ options, validate entry.options = .ok options

theorem checkInner_eq_ok {validate : Value → Except Refusal KeywordOptions} :
    checkInner feature validate entry = .ok () ↔ Accepts feature validate entry := by
  rw [checkInner]
  cases hwrite : Literal.write entry.toValue with
  | error cause =>
    refine ⟨fun h => ?_, fun h => ?_⟩
    · cases cause <;> cases h
    · obtain ⟨literal, hliteral⟩ := h.written
      rw [hwrite] at hliteral
      cases hliteral
  | ok literal =>
    dsimp only
    by_cases hname : entry.name = feature.name
    · rw [if_neg (not_not.2 hname)]
      split
      · next hnull => exact ⟨fun _ => ⟨⟨literal, hwrite⟩, fun _ h => absurd hnull h⟩, fun _ => rfl⟩
      · next hsome =>
        cases hvalid : validate entry.options with
        | ok options =>
          exact ⟨fun _ => ⟨⟨literal, hwrite⟩, fun _ _ => ⟨options, hvalid⟩⟩, fun _ => rfl⟩
        | error refusal =>
          refine ⟨fun h => ?_, fun h => ?_⟩
          · cases refusal <;> cases h
          · obtain ⟨options, hoptions⟩ := h.valid hname hsome
            rw [hvalid] at hoptions
            cases hoptions
    · rw [if_pos hname]
      exact ⟨fun _ => ⟨⟨literal, hwrite⟩, fun h => absurd h hname⟩, fun _ => rfl⟩

theorem orRefuse_eq_ok {α : Type} {x : Except Misconfiguration α} {a : α} :
    orRefuse x = .ok a ↔ x = .ok a := by
  cases x <;> simp [orRefuse]

theorem build_eq_ok {validate : Value → Except Refusal KeywordOptions} :
    build feature validate v = .ok options ↔ (∃ raw, Reads feature v raw options) ∧
      ∀ entry ∈ options.inner, Accepts feature validate entry := by
  simp only [build, Run.except_bind_eq_ok, orRefuse_eq_ok, Run.except_forM_eq_ok,
    checkInner_eq_ok]
  constructor
  · rintro ⟨raw, hraw, ⟨⟩, hkeys, inner, hinner, ⟨⟩, haccepts, spelling, hspelling, preamble,
      hpreamble, h⟩
    obtain rfl := Except.ok.inj h
    exact ⟨⟨raw, hraw, hkeys, hinner, hspelling, hpreamble⟩, haccepts⟩
  · rintro ⟨⟨raw, h⟩, haccepts⟩
    exact ⟨raw, h.coerced, (), h.keys, _, h.inner, (), haccepts, _, h.spelling, _, h.preamble, rfl⟩

/-- A record is no table, and has no literal. -/
theorem Reads.record?_eq_none (h : Reads feature v raw options) : v.record? = none := by
  have hcoerced := h.coerced
  cases v with
  | record => cases hcoerced
  | _ => rfl

theorem record?_eq_none_of_writable (h : Writable v) : v.record? = none := by
  obtain ⟨literal, h⟩ := h
  cases v with
  | record => cases h
  | _ => rfl

theorem normaliseWithin_succ {fuel : Nat} (hv : v.record? = none) :
    normaliseWithin feature (fuel + 1) v = build feature (normaliseWithin feature fuel) v := by
  rw [normaliseWithin, hv]

theorem normaliseWithin_record {fuel : Nat} (hv : v.record? = some options) :
    normaliseWithin feature (fuel + 1) v = .ok options := by
  rw [normaliseWithin, hv]

/-- A record normalises to itself. -/
theorem normalise_record (hv : v.record? = some options) :
    normalise feature v = .ok options :=
  normaliseWithin_record hv

/-- The items of an option stand in the table. -/
theorem mem_of_option_items? {name : String} {items : List Value}
    (h : ((raw.option name).getD .null).items? = some items) :
    ∃ key list, (key, list) ∈ raw ∧ list.items? = some items := by
  cases hoption : raw.option name with
  | none =>
    rw [hoption] at h
    cases h
  | some list =>
    rw [hoption, Option.getD_some] at h
    obtain ⟨key, hmem⟩ := Table.mem_of_get? hoption
    exact ⟨key, list, hmem, h⟩

/-- The entries of the `inner` option are read from a list or a tuple, one by one. -/
theorem innerEntries_eq_ok {entries : List InnerFeature} :
    innerEntries raw = .ok entries ↔
      ((raw.option "inner").getD .null = .null ∧ entries = []) ∨
        ∃ items, ((raw.option "inner").getD .null).items? = some items ∧
          List.Forall₂ (fun item entry => innerEntry item = .ok entry) items entries := by
  rw [innerEntries]
  generalize (raw.option "inner").getD .null = value
  cases value with
  | list items | tuple items => simp [Value.items?, Run.except_mapM_eq_ok]
  | _ => simp [Value.items?, eq_comm]

/-- Where the entries of the `inner` option come from. -/
theorem mem_of_innerEntries {entries : List InnerFeature} (h : innerEntries raw = .ok entries)
    (hentry : entry ∈ entries) : ∃ key list items item, (key, list) ∈ raw ∧
      list.items? = some items ∧ item ∈ items ∧ innerEntry item = .ok entry := by
  rcases innerEntries_eq_ok.1 h with ⟨-, rfl⟩ | ⟨items, hitems, hread⟩
  · cases hentry
  · obtain ⟨key, list, hmem, hlist⟩ := mem_of_option_items? hitems
    obtain ⟨item, hitem, hentry⟩ :=
      Run.exists_of_mem_except_mapM (Run.except_mapM_eq_ok.2 hread) hentry
    exact ⟨key, list, items, item, hmem, hlist, hitem, hentry⟩

theorem depth_lt_of_innerEntry {item : Value} (h : innerEntry item = .ok entry)
    (hne : entry.options ≠ .null) : entry.options.depth < item.depth := by
  unfold innerEntry at h
  split at h
  · obtain rfl := Except.ok.inj h
    exact Nat.lt_succ_self _
  · obtain rfl := Except.ok.inj h
    exact absurd rfl hne
  · obtain rfl := Except.ok.inj h
    simp [Value.depth, Value.depthItems]
  · obtain rfl := Except.ok.inj h
    simp [Value.depth, Value.depthItems]
  · cases h

/-- Inner features are nested less deeply than the options they stand in. -/
theorem depth_lt_of_innerEntries {label : String} {entries : List InnerFeature}
    (hraw : coerce label v = .ok raw) (h : innerEntries raw = .ok entries)
    (hentry : entry ∈ entries) (hne : entry.options ≠ .null) : entry.options.depth < v.depth := by
  obtain ⟨key, list, items, item, hlist, hitems, hitem, hitemEntry⟩ :=
    mem_of_innerEntries h hentry
  calc entry.options.depth < item.depth := depth_lt_of_innerEntry hitemEntry hne
    _ ≤ Value.depthItems items := Value.depth_le_of_mem hitem
    _ ≤ list.depth := by rw [Value.depth_of_items? hitems]; exact Nat.le_succ _
    _ ≤ v.depth := depth_le_of_coerce hraw hlist

theorem Reads.depth_lt (h : Reads feature v raw options) (hentry : entry ∈ options.inner)
    (hne : entry.options ≠ .null) : entry.options.depth < v.depth :=
  depth_lt_of_innerEntries h.coerced h.inner hentry hne

/-- More fuel than the depth of the options is always enough. -/
theorem normaliseWithin_of_lt {n m : Nat} (h : normaliseWithin feature n v = .ok options)
    (hm : v.depth < m) : normaliseWithin feature m v = .ok options := by
  induction n generalizing m v options with
  | zero => cases h
  | succ n ih =>
    obtain ⟨m, rfl⟩ : ∃ k, m = k + 1 := ⟨m - 1, by omega⟩
    cases hv : v.record? with
    | some record =>
      rw [normaliseWithin_record hv] at h ⊢
      exact h
    | none =>
      rw [normaliseWithin_succ hv] at h ⊢
      obtain ⟨⟨raw, hraw⟩, haccepts⟩ := build_eq_ok.1 h
      refine build_eq_ok.2 ⟨⟨raw, hraw⟩, fun entry hentry => ?_⟩
      obtain ⟨hwritten, hvalid⟩ := haccepts entry hentry
      refine ⟨hwritten, fun hname hne => ?_⟩
      obtain ⟨options', hoptions'⟩ := hvalid hname hne
      have hdepth := hraw.depth_lt hentry hne
      exact ⟨options', ih hoptions' (by omega)⟩

/-- What an inner feature is accepted with does not depend on fuel that suffices. -/
theorem accepts_normaliseWithin {fuel : Nat}
    (hfuel : entry.options ≠ .null → entry.options.depth < fuel) :
    Accepts feature (normaliseWithin feature fuel) entry ↔
      Accepts feature (normalise feature) entry := by
  refine ⟨fun h => ⟨h.written, fun hname hne => ?_⟩, fun h => ⟨h.written, fun hname hne => ?_⟩⟩
  · obtain ⟨options', h'⟩ := h.valid hname hne
    exact ⟨options', normaliseWithin_of_lt h' (Nat.lt_succ_self _)⟩
  · obtain ⟨options', h'⟩ := h.valid hname hne
    exact ⟨options', normaliseWithin_of_lt h' (hfuel hne)⟩

/-- What it means that options other than a record normalise, without fuel. -/
theorem normalise_eq_ok (hv : v.record? = none) : normalise feature v = .ok options ↔
    (∃ raw, Reads feature v raw options) ∧
      ∀ entry ∈ options.inner, Accepts feature (normalise feature) entry := by
  rw [normalise, normaliseWithin_succ hv, build_eq_ok]
  -- the fuel for the options of an entry is the depth of `v` on one side, its own on the other
  exact and_congr_right fun ⟨raw, hraw⟩ => forall₂_congr fun entry hentry =>
    accepts_normaliseWithin (hraw.depth_lt hentry)

/-! ### The record as a mapping -/

theorem toValue_of_ne_null (h : entry.options ≠ .null) :
    entry.toValue = .list [.text entry.name, entry.options] := by
  rw [InnerFeature.toValue]
  split
  · exact absurd ‹_› h
  · rfl

theorem innerEntry_toValue (entry : InnerFeature) : innerEntry entry.toValue = .ok entry := by
  obtain ⟨name, options⟩ := entry
  cases options <;> rfl

theorem text?_eq_some {item : Value} {s : String} (h : item.text? = some s) : item = .text s := by
  cases item <;> simp_all [Value.text?]

theorem mapM_text?_eq_some {items : List Value} {statements : List String} :
    items.mapM Value.text? = some statements ↔ items = statements.map .text := by
  constructor
  · intro h
    induction items generalizing statements with
    | nil =>
      obtain rfl := Option.some.inj h
      rfl
    | cons item items ih =>
      rw [List.mapM_cons] at h
      obtain ⟨s, hs, h⟩ := Option.bind_eq_some_iff.1 h
      obtain ⟨rest, hrest, h⟩ := Option.bind_eq_some_iff.1 h
      obtain rfl := Option.some.inj h
      rw [List.map_cons, ← ih hrest, text?_eq_some hs]
  · rintro rfl
    induction statements with
    | nil => rfl
    | cons statement statements ih =>
      rw [List.map_cons, List.mapM_cons, ih]
      rfl

/-- The statements of the `preamble` option are the texts of a list or a tuple. -/
theorem preamble_eq_ok {statements : List String} :
    preamble raw = .ok statements ↔
      ((raw.option "preamble").getD .null = .null ∧ statements = []) ∨
        ((raw.option "preamble").getD .null).items? = some (statements.map .text) := by
  rw [preamble]
  generalize (raw.option "preamble").getD .null = value
  cases value with
  | list items | tuple items =>
    simp only [Value.items?, reduceCtorEq, false_and, false_or, Option.some.injEq,
      ← mapM_text?_eq_some]
    cases items.mapM Value.text? <;> simp
  | _ => simp [Value.items?, eq_comm]

theorem Reads.isSpelling (h : Reads feature v raw options) :
    isSpelling options.spelling = true := by
  have hcheck : ∀ word, spelling.check feature word = .ok options.spelling →
      BraceScript.isSpelling options.spelling = true := by
    intro word hword
    rw [spelling.check] at hword
    split at hword
    · next hspelling =>
      obtain rfl := Except.ok.inj hword
      exact hspelling
    · cases hword
  have hspelling := h.spelling
  rw [Options.spelling] at hspelling
  split at hspelling
  · exact hcheck _ hspelling
  · exact hcheck _ hspelling
  · cases hspelling

/-- A record whose spelling can be a keyword is read from its mapping. -/
theorem reads_toValue (h : isSpelling options.spelling = true) :
    ∃ raw, Reads feature options.toValue raw options := by
  have hentries : List.Forall₂ (fun item entry => innerEntry item = .ok entry)
      (options.inner.map InnerFeature.toValue) options.inner := by
    rw [List.forall₂_map_left_iff]
    exact List.forall₂_same.2 fun entry _ => innerEntry_toValue entry
  refine ⟨[(.text "as", .text options.spelling),
    (.text "inner", .list (options.inner.map InnerFeature.toValue)),
    (.text "preamble", .list (options.preamble.map .text))], rfl, rfl, ?_, ?_, ?_⟩
  · exact innerEntries_eq_ok.2 (.inr ⟨_, rfl, hentries⟩)
  · exact if_pos h
  · exact preamble_eq_ok.2 (.inr rfl)

/-- No two records are read from one value. -/
theorem Reads.unique {raw' : Raw} {options' : KeywordOptions} (h : Reads feature v raw options)
    (h' : Reads feature v raw' options') : options = options' := by
  obtain rfl := Except.ok.inj (h.coerced.symm.trans h'.coerced)
  have hspelling := Except.ok.inj (h.spelling.symm.trans h'.spelling)
  have hinner := Except.ok.inj (h.inner.symm.trans h'.inner)
  have hpreamble := Except.ok.inj (h.preamble.symm.trans h'.preamble)
  cases options
  cases options'
  simp_all

/-- The mapping of a record normalises to no other record, whether or not it was normalised. -/
theorem eq_of_normalise_toValue {again : KeywordOptions}
    (h : normalise feature options.toValue = .ok again) : again = options := by
  obtain ⟨⟨raw, hraw⟩, -⟩ := (normalise_eq_ok rfl).1 h
  have hspelling : isSpelling options.spelling = true := by
    obtain rfl := Except.ok.inj hraw.coerced
    by_contra hnot
    cases hraw.spelling.symm.trans (if_neg hnot)
  obtain ⟨raw', hraw'⟩ := reads_toValue hspelling
  exact hraw.unique hraw'

theorem accepts_of_normalise (hv : v.record? = none) (h : normalise feature v = .ok options) :
    ∀ entry ∈ options.inner, Accepts feature (normalise feature) entry :=
  ((normalise_eq_ok hv).1 h).2

/-- The mapping of a normalised record normalises to the record. -/
theorem normalise_toValue (hv : v.record? = none) (h : normalise feature v = .ok options) :
    normalise feature options.toValue = .ok options := by
  obtain ⟨⟨raw, hraw⟩, haccepts⟩ := (normalise_eq_ok hv).1 h
  exact (normalise_eq_ok rfl).2 ⟨reads_toValue hraw.isSpelling, haccepts⟩

end Options

/-! ### Tuples made lists -/

namespace Value

mutual

/-- What has no tuples stays as it is. -/
theorem listed_listed (v : Value) : v.listed.listed = v.listed := by
  cases v with
  | list items | tuple items => rw [listed, listed, listedItems_listedItems]
  | mapping rows => rw [listed, listed, listedRows_listedRows]
  | _ => rfl
termination_by sizeOf v

theorem listedItems_listedItems (items : List Value) :
    listedItems (listedItems items) = listedItems items := by
  cases items with
  | nil => rfl
  | cons item items =>
    rw [listedItems, listedItems, listed_listed, listedItems_listedItems]
termination_by sizeOf items

theorem listedRows_listedRows (rows : List (Value × Value)) :
    listedRows (listedRows rows) = listedRows rows := by
  match rows with
  | [] => rfl
  | (key, value) :: rows =>
    rw [listedRows, listedRows, listed_listed, listedRows_listedRows]
termination_by sizeOf rows

end

end Value

/-- The inner feature with the tuples in its options made lists. -/
def InnerFeature.listed (entry : InnerFeature) : InnerFeature :=
  { entry with options := entry.options.listed }

/-- The record with the tuples in the options of its inner features made lists. -/
def KeywordOptions.listed (options : KeywordOptions) : KeywordOptions :=
  { options with inner := options.inner.map InnerFeature.listed }

theorem InnerFeature.toValue_listed (entry : InnerFeature) :
    entry.toValue.listed = entry.listed.toValue := by
  obtain ⟨name, options⟩ := entry
  cases options <;> rfl

theorem listedItems_map_text (statements : List String) :
    Value.listedItems (statements.map .text) = statements.map .text := by
  rw [Value.listedItems_eq_map, List.map_map]
  rfl

theorem KeywordOptions.toValue_listed (options : KeywordOptions) :
    options.toValue.listed = options.listed.toValue := by
  have hinner : Value.listedItems (options.inner.map InnerFeature.toValue) =
      options.listed.inner.map InnerFeature.toValue := by
    rw [Value.listedItems_eq_map, listed, List.map_map, List.map_map]
    exact List.map_congr_left fun entry _ => entry.toValue_listed
  simp only [toValue, Value.listed, Value.listedRows, hinner, listedItems_map_text]
  rfl

theorem KeywordOptions.listed_listed (options : KeywordOptions) :
    options.listed.listed = options.listed := by
  have hentry (entry : InnerFeature) : entry.listed.listed = entry.listed := by
    simp only [InnerFeature.listed, Value.listed_listed]
  simp only [listed, List.map_map, Function.comp_def, hentry]

namespace Options

open Value (listedRows listedItems)
open Literal (Writable)

variable {feature : BlockFeature} {v : Value} {raw : Raw} {options : KeywordOptions}
  {entry : InnerFeature}

theorem innerEntry_listed {item : Value} (hitem : Writable item)
    (h : innerEntry item = .ok entry) : innerEntry item.listed = .ok entry.listed := by
  unfold innerEntry at h
  split at h
  · obtain ⟨literal, hitem⟩ := hitem
    cases hitem
  · obtain rfl := Except.ok.inj h
    rfl
  · obtain rfl := Except.ok.inj h
    rfl
  · obtain rfl := Except.ok.inj h
    rfl
  · cases h

theorem innerEntries_listed {items : List Value} {entries : List InnerFeature}
    (hitems : ∀ item ∈ items, Writable item)
    (h : List.Forall₂ (fun item entry => innerEntry item = .ok entry) items entries) :
    List.Forall₂ (fun item entry => innerEntry item = .ok entry) (listedItems items)
      (entries.map InnerFeature.listed) := by
  rw [Value.listedItems_eq_map, List.forall₂_map_left_iff, List.forall₂_map_right_iff]
  exact ((List.forall₂_and_left _ _).2 ⟨hitems, h⟩).imp fun item entry h =>
    innerEntry_listed h.1 h.2

/-- A value that has a literal is read like the value of its literal. -/
theorem Reads.listed (hv : Writable v) (h : Reads feature v raw options) :
    Reads feature v.listed (listedRows raw) options.listed where
  coerced := coerce_listed h.coerced
  keys := by
    have hkeys : Table.keys (listedRows raw) = Table.keys raw := Value.keys_listedRows raw
    rw [checkKeys, hkeys]
    exact h.keys
  inner := by
    rw [innerEntries_eq_ok, option_getD_listedRows]
    rcases innerEntries_eq_ok.1 h.inner with ⟨hnull, hnone⟩ | ⟨items, hitems, hread⟩
    · refine .inl ⟨by rw [hnull]; rfl, ?_⟩
      rw [KeywordOptions.listed, hnone]
      rfl
    · obtain ⟨key, list, hmem, hlist⟩ := mem_of_option_items? hitems
      have hwritable := (writable_of_coerce h.coerced hv hmem).of_items? hlist
      refine .inr ⟨listedItems items, by rw [Value.items?_listed, hitems]; rfl, ?_⟩
      exact innerEntries_listed hwritable hread
  spelling := by
    have hspelling := h.spelling
    rw [Options.spelling] at hspelling ⊢
    rw [option_getD_listedRows]
    generalize (raw.option "as").getD .null = value at hspelling ⊢
    split at hspelling
    · exact hspelling
    · exact hspelling
    · cases hspelling
  preamble := by
    rw [preamble_eq_ok, option_getD_listedRows]
    rcases preamble_eq_ok.1 h.preamble with ⟨hnull, hnone⟩ | htexts
    · exact .inl ⟨by rw [hnull]; rfl, hnone⟩
    · rw [Value.items?_listed, htexts, Option.map_some, listedItems_map_text]
      exact .inr rfl

theorem writable_options (h : Writable entry.toValue) (hne : entry.options ≠ .null) :
    Writable entry.options := by
  rw [toValue_of_ne_null hne] at h
  exact h.of_items? rfl entry.options (by simp)

/-- Options that have a literal normalise alike when the literal is read back. -/
theorem normalise_listed (hv : Writable v) (h : normalise feature v = .ok options) :
    normalise feature v.listed = .ok options.listed := by
  induction hdepth : v.depth using Nat.strongRecOn generalizing v options with
  | ind depth ih =>
    subst hdepth
    obtain ⟨⟨raw, hraw⟩, haccepts⟩ := (normalise_eq_ok (record?_eq_none_of_writable hv)).1 h
    have hread := hraw.listed hv
    refine (normalise_eq_ok hread.record?_eq_none).2 ⟨⟨_, hread⟩, fun _ hlisted => ?_⟩
    obtain ⟨entry, hentry, rfl⟩ := List.mem_map.1 hlisted
    have haccepted := haccepts entry hentry
    refine ⟨?_, fun hname hne => ?_⟩
    · rw [← InnerFeature.toValue_listed]
      exact haccepted.written.listed
    · have hne' : entry.options ≠ .null := fun hnull =>
        hne (congrArg Value.listed hnull)
      obtain ⟨options', hoptions'⟩ := haccepted.valid hname hne'
      have hwritten := writable_options haccepted.written hne'
      exact ⟨_, ih _ (hraw.depth_lt hentry hne') hwritten hoptions' rfl⟩

end Options

end BraceScript
