import BraceScript.Proofs.AllOrNothing
import BraceScript.Proofs.Consumption
import BraceScript.Proofs.Propagation
import BraceScript.Proofs.Provenance
import BraceScript.Proofs.Reached

/-!
# Parsers in good order

A parser is in good order if it stands inside its text, a scope is open, and every keyword that it
knows has options that can be written (`Parser.Orderly`).  Options that were normalised can be, and
a text gives no others: only a record that is handed to a parser as it is was never checked
(`Options.writable_toValue_of_normalise`).  So reading keeps the order (`Parser.Orderly.tracks`),
along every call that it makes (`Leads.orderly`).

In good order the edits of the text cannot fail: a scope is closed (`Parser.Orderly.closes`), the
statements for the top of a block can be written (`Keyword.Accepted.generate`), and a declaration
is expanded unless its block is missing (`Parser.Orderly.expands`).
-/

namespace BraceScript

open Lexeme (significant IsWord)
open Parse

variable {p q r : Parser} {feature : BlockFeature} {options : KeywordOptions}

/-! ### Accepted options -/

/-- The options of the keyword have a literal. -/
def Keyword.Accepted : Keyword → Prop
  | expand _ options => Literal.Writable options.toValue
  | idle => True

/-- The statements for the top of a block can be written, whatever the block declares. -/
theorem Keyword.Accepted.generate (h : (Keyword.expand feature options).Accepted) (name : String)
    (version : Option String) :
    ∃ statements, Preamble.generate feature name version options = .ok statements :=
  Preamble.exists_generate h _ _ _

namespace Value

mutual

/-- The records that stand among the raw options, and that `syntax` may hand on. -/
def records : Value → List KeywordOptions
  | list items | tuple items => recordsOfItems items
  | v => v.record?.toList

/-- The records that stand in the items. -/
def recordsOfItems : List Value → List KeywordOptions
  | [] => []
  | item :: items => records item ++ recordsOfItems items

end

theorem mem_recordsOfItems {items : List Value} :
    options ∈ recordsOfItems items ↔ ∃ item ∈ items, options ∈ item.records := by
  induction items with
  | nil => simp [recordsOfItems]
  | cons item items ih => simp [recordsOfItems, ih]

theorem records_of_items? {v : Value} {items : List Value} (h : v.items? = some items) :
    v.records = recordsOfItems items := by
  cases v <;> simp_all [items?, records]

theorem mem_records_of_record? {v : Value} (h : v.record? = some options) :
    options ∈ v.records := by
  cases v <;> simp_all [record?, records]

/-- All records among the raw options have literals. -/
def RecordsWritable (v : Value) : Prop :=
  ∀ options ∈ v.records, Literal.Writable options.toValue

theorem RecordsWritable.handsOn : HandsOn RecordsWritable := by
  refine .of_items? (by simp [RecordsWritable, records, record?]) ?_
  intro _ _ h hitems item hitem options hmem
  refine h options ?_
  rw [records_of_items? hitems]
  exact mem_recordsOfItems.2 ⟨item, hitem, hmem⟩

/-- No record is read from a text. -/
theorem Readable.recordsWritable {v : Value} (h : v.Readable) : v.RecordsWritable := by
  induction h with
  | list _ ih =>
    intro options hmem
    obtain ⟨item, hitem, hmem⟩ := mem_recordsOfItems.1 hmem
    exact ih item hitem options hmem
  | _ => simp [RecordsWritable, records, record?]

end Value

/-- What raw options normalise to has a literal, if the records among them have. -/
theorem Options.writable_toValue_of_normalise {value : Value} (hvalue : value.RecordsWritable)
    (h : Options.normalise feature value = .ok options) : Literal.Writable options.toValue := by
  cases hrecord : value.record? with
  | some record =>
    rw [Options.normalise_record hrecord] at h
    obtain rfl := Except.ok.inj h
    exact hvalue record (Value.mem_records_of_record? hrecord)
  | none => exact KeywordOptions.writable_of_normalise hrecord h

/-! ### Hooks -/

namespace Parse

variable {chars : List Char}

theorem editHere_inject (hp : p.pos ≤ p.buffer.text.length) (chars : List Char) :
    ∃ q, editHere (fun c => c.inject chars) p = .ok () q ∧ q.pos ≤ q.buffer.text.length := by
  refine ⟨_, editHere_eq_ok.2 ⟨_, inject_eq_ok.2 ⟨hp, rfl⟩, rfl⟩, ?_⟩
  simp only [List.length_append, List.length_take]
  omega

theorem editHere_strip (hp : p.pos ≤ p.buffer.text.length) (length : Int) :
    ∃ q, editHere (fun c => do return (← c.strip length).2) p = .ok () q ∧
      q.pos ≤ q.buffer.text.length := by
  have hposition : p.buffer.position? (p.pos : Nat) = .ok p.pos := by
    rw [Buffer.position?, if_pos ⟨by omega, by rw [Buffer.length]; omega⟩]
    rfl
  have hstrip : (do return (← (⟨p.buffer, p.pos⟩ : Cursor).strip length).2 : Except _ Cursor) =
      .ok ⟨⟨p.buffer.text.take p.pos ++ p.buffer.text.drop (p.buffer.resolve (p.pos + length)),
        p.buffer.file⟩, p.pos⟩ := by
    simp only [Cursor.strip, Buffer.delete, hposition]
    rfl
  refine ⟨_, editHere_eq_ok.2 ⟨_, hstrip, rfl⟩, ?_⟩
  simp only [List.length_append, List.length_take]
  omega

/-- Inside the text a finalizer fires. -/
theorem exists_fire (hp : p.pos ≤ p.buffer.text.length) (i : Nat) :
    ∃ q, fire i p = .ok () q ∧ q.pos ≤ q.buffer.text.length := by
  rw [fire, Run.get_bind]
  cases p.finalizers[i]? with
  | none => exact ⟨p, rfl, hp⟩
  | some f =>
    dsimp only
    by_cases hquiet : (!f.armed || f.fired) = true
    · rw [if_pos hquiet]
      exact ⟨p, rfl, hp⟩
    · rw [if_neg hquiet]
      -- marking the finalizer moves nothing
      let marked := { p with finalizers := p.finalizers.modify i fun f => { f with fired := true } }
      have hmodify : modifyFinalizer i (fun f => { f with fired := true }) p = .ok () marked := rfl
      have hmarked : marked.pos ≤ marked.buffer.text.length := hp
      rw [Run.bind_of_ok hmodify]
      by_cases hdrop : f.drop = 0
      · rw [if_neg (by simpa using hdrop)]
        exact editHere_inject hmarked f.closing
      · obtain ⟨q, hstrip, hq⟩ := editHere_strip hmarked f.drop
        rw [if_pos hdrop, Run.bind_of_ok hstrip]
        exact editHere_inject hq f.closing

theorem exists_runHook (hp : p.pos ≤ p.buffer.text.length) (hook : ScopeHook) :
    ∃ q, runHook hook p = .ok () q ∧ q.pos ≤ q.buffer.text.length := by
  cases hook with
  | restore package name function keyword => exact ⟨_, runHook_restore_eq_ok.2 rfl, hp⟩
  | finalize i =>
    obtain ⟨q, hfire, hinside⟩ := exists_fire (p := p.note (.ran (.finalize i) p.pos)) hp i
    exact ⟨q, runHook_finalize_eq_ok.2 hfire, hinside⟩

/-- Inside the text all hooks can be run. -/
theorem exists_forM_runHook (hp : p.pos ≤ p.buffer.text.length) (hooks : List ScopeHook) :
    ∃ q, hooks.forM runHook p = .ok () q ∧ q.pos ≤ q.buffer.text.length := by
  induction hooks generalizing p with
  | nil => exact ⟨p, rfl, hp⟩
  | cons hook hooks ih =>
    obtain ⟨q, hhook, hq⟩ := exists_runHook hp hook
    obtain ⟨r, hhooks, hr⟩ := ih hq
    exact ⟨r, Run.forM_cons_eq_ok.2 ⟨q, hhook, hhooks⟩, hr⟩

end Parse

/-! ### The order -/

/-- The parser is inside its text and has an open scope, and all keywords, those that hooks will
put back included, have options with a literal. -/
structure Parser.Orderly (p : Parser) : Prop where
  inside : p.pos ≤ p.buffer.text.length
  scopes : p.scopes ≠ []
  keywords : p.namespaces.Each Keyword.Accepted
  hooks : ∀ scope ∈ p.scopes, ∀ hook ∈ scope.hooks, hook.Each Keyword.Accepted

/-- Every registered feature can be used. -/
def Registry.Usable (features : Registry) : Prop :=
  ∀ name kind other, Table.get? features name ≠ some (.bare kind other)

/-- The second parser is in good order too, with as many open scopes. -/
structure Parser.Orderly.Kept (p q : Parser) : Prop where
  orderly : q.Orderly
  length : q.scopes.length = p.scopes.length
  usable : p.features.Usable → q.features.Usable

theorem Registry.Usable.provide {features features' : Registry} (h : features.Usable)
    (hprovide : features.provide (.block feature) = .ok features') : features'.Usable := by
  rw [Registry.provide] at hprovide
  split at hprovide
  · obtain rfl := Except.ok.inj hprovide
    intro name kind other
    rw [register, Table.get?_put]
    split
    · simp
    · exact h name kind other
  · split at hprovide
    · exact Except.ok.inj hprovide ▸ h
    · cases hprovide

namespace Parser.Orderly

theorem Kept.refl (hp : p.Orderly) : Kept p p := ⟨hp, rfl, id⟩

theorem Kept.trans (h : Kept p q) (h' : Kept q r) : Kept p r :=
  ⟨h'.orderly, h'.length.trans h.length, fun hp => h'.usable (h.usable hp)⟩

theorem move (hp : p.Orderly) (h : IsMove p q) : Kept p q := by
  obtain ⟨count, hcount, rfl⟩ := h
  refine ⟨⟨?_, hp.scopes, hp.keywords, hp.hooks⟩, rfl, id⟩
  rw [Parser.unread, List.length_drop] at hcount
  have hinside := hp.inside
  change p.pos + count ≤ p.buffer.text.length
  omega

theorem opened (hp : p.Orderly) : p.opened.Orderly :=
  ⟨hp.inside, List.cons_ne_nil _ _, hp.keywords, List.forall_mem_cons.2 ⟨by simp, hp.hooks⟩⟩

/-- A hook is registered with the innermost scope. -/
theorem hooked {scope : Scope} {scopes : List Scope} {hook : ScopeHook} (hp : p.Orderly)
    (hscopes : p.scopes = scope :: scopes) (hhook : hook.Each Keyword.Accepted) :
    Kept p (p.hooked scope scopes hook) := by
  have hhooks := hp.hooks
  rw [hscopes, List.forall_mem_cons] at hhooks
  refine ⟨⟨hp.inside, List.cons_ne_nil _ _, hp.keywords, List.forall_mem_cons.2
    ⟨List.forall_mem_append.2 ⟨hhooks.1, by simpa using hhook⟩, hhooks.2⟩⟩, ?_, id⟩
  rw [hscopes]
  rfl

theorem entered {name : String} (hp : p.Orderly)
    (h : enterPackage name { p with namespaces := p.namespaces.declare name } = .ok () q) :
    Kept p q := by
  obtain ⟨scope, scopes, hscopes, rfl⟩ := enterPackage_eq_ok.1 h
  have hhooks := hp.hooks
  rw [show p.scopes = scope :: scopes from hscopes, List.forall_mem_cons] at hhooks
  refine ⟨⟨hp.inside, List.cons_ne_nil _ _, hp.keywords.declare name,
    List.forall_mem_cons.2 hhooks⟩, ?_, id⟩
  rw [show p.scopes = scope :: scopes from hscopes]
  rfl

theorem keyword {target : String} (hp : p.Orderly)
    (hoptions : Literal.Writable options.toValue)
    (h : installKeyword feature target options p = .ok () q) : Kept p q := by
  obtain ⟨features, scope, scopes, hprovide, hscopes, rfl⟩ := installKeyword_eq_ok h
  have haccepted : ∀ keyword ∈ some (Keyword.expand feature options), keyword.Accepted := by
    rintro _ ⟨⟩
    exact hoptions
  have hinstalled : Kept p { p with
      features
      namespaces := (p.namespaces.declareKeyword target options.spelling
        (some (.expand feature options))).installFunction target options.spelling
        (.trampoline feature.outcome) } :=
    ⟨⟨hp.inside, hp.scopes, (hp.keywords.declareKeyword _ _ haccepted).installFunction _ _ _,
      hp.hooks⟩, rfl, fun h => h.provide hprovide⟩
  exact hinstalled.trans
    (hinstalled.orderly.hooked hscopes (hp.keywords target options.spelling))

theorem installs (hp : p.Orderly) (h : Installs Value.RecordsWritable p q) : Kept p q := by
  induction h with
  | refl => exact .refl hp
  | keyword _ hvalue hoptions h _ ih =>
    have hkeyword := hp.keyword (Options.writable_toValue_of_normalise hvalue hoptions) h
    exact hkeyword.trans (ih hkeyword.orderly)

theorem waiting (hp : p.Orderly) (h : closeAtScopeEnd p = .ok () q) : Kept p q := by
  obtain ⟨scope, scopes, hscopes, rfl⟩ := closeAtScopeEnd_eq_ok.1 h
  have hadded : Kept p { p with finalizers := p.finalizers ++ [{ armed := true }] } :=
    ⟨⟨hp.inside, hp.scopes, hp.keywords, hp.hooks⟩, rfl, id⟩
  exact hadded.trans (hadded.orderly.hooked hscopes trivial)

/-- **The innermost scope can be closed.** -/
theorem closes (hp : p.Orderly) : ∃ q, closeScope p = .ok () q ∧
    q.scopes = p.scopes.tail ∧ q.pos ≤ q.buffer.text.length ∧ q.features = p.features ∧
    q.namespaces.Each Keyword.Accepted := by
  obtain ⟨scope, scopes, hscopes⟩ := List.exists_cons_of_ne_nil hp.scopes
  have hhooks := hp.hooks
  rw [hscopes, List.forall_mem_cons] at hhooks
  obtain ⟨q, hrun, hinside⟩ :=
    exists_forM_runHook (p := { p with scopes }.note .closed) hp.inside scope.hooks
  have hq := hooksRun_of_forM hrun
  refine ⟨q, closeScope_eq_ok.2 ⟨scope, scopes, hscopes, hrun⟩, ?_, hinside, hq.features, ?_⟩
  · rw [hq.scopes, hscopes]
    rfl
  · rw [hq.namespaces]
    exact hp.keywords.foldl_apply hhooks.1

/-- The options of a live keyword have a literal. -/
theorem accepted {word : String} {keyword : Keyword} (hp : p.Orderly)
    (hlive : p.namespaces.keyword? p.currentPackage word = some keyword) : keyword.Accepted := by
  rw [Namespaces.keyword?] at hlive
  split at hlive
  · exact hp.keywords _ _ _ hlive
  · cases hlive

/-- **A declaration is expanded, unless its block is missing.** -/
theorem expands {word : String} (hp : p.Orderly)
    (hword : Lexeme.word? p.unread = some word.toList)
    (hlive : p.namespaces.keyword? p.currentPackage word = some (.expand feature options)) :
    (∃ d c, Declaration.expand feature options p.currentPackage word ⟨p.buffer, p.pos⟩ =
      .ok d c) ∨
      ∃ cause c, Declaration.expand feature options p.currentPackage word ⟨p.buffer, p.pos⟩ =
        .error (.missingBlock cause) c := by
  obtain ⟨after, hafter⟩ := Lexeme.word?_prefix hword
  have hcursor : (⟨p.buffer, p.pos⟩ : Cursor) =
      ⟨⟨p.buffer.text.take p.pos ++ (word.toList ++ after), p.buffer.file⟩,
        (p.buffer.text.take p.pos).length⟩ := by
    rw [hafter, Parser.unread, List.take_append_drop, List.length_take,
      Nat.min_eq_left hp.inside]
  obtain ⟨c, hcases⟩ := Declaration.expand_cases feature options p.currentPackage word
    p.buffer.file (p.buffer.text.take p.pos) after
  obtain ⟨statements, hstatements⟩ := (hp.accepted hlive).generate
    ((Declaration.Head.read after).target p.currentPackage)
    ((Declaration.Head.read after).version.map String.ofList)
  rw [hstatements] at hcases
  rw [hcursor]
  rcases hcases with ⟨body, -, hexpand, -⟩ | ⟨-, hexpand, -⟩
  · exact .inl ⟨_, c, hexpand⟩
  · exact .inr ⟨_, c, hexpand⟩

/-- An expansion stays inside the text. -/
theorem dispatched {word : String} {keyword : Keyword} (hp : p.Orderly)
    (hword : Lexeme.word? p.unread = some word.toList)
    (hlive : p.namespaces.keyword? p.currentPackage word = some keyword)
    (h : dispatch keyword p.pos word p = .ok () q) : Kept p q := by
  have hinside : q.pos ≤ q.buffer.text.length := by
    obtain ⟨ms, hms⟩ := visited_dispatch keyword word p
    have hlast := (Moments.trace hms).last
    rw [h] at hlast
    exact Moments.inside hms hp.inside q (List.mem_of_getLast? hlast)
  rcases dispatch_eq_ok hword hlive h with ⟨-, rfl⟩ | ⟨site, -, -, hexpands⟩
  · exact .refl hp
  · obtain ⟨⟨buffer, rfl⟩, -⟩ := hexpands.frame
    exact ⟨⟨hinside, hp.scopes, hp.keywords, hp.hooks⟩, rfl, id⟩

/-- Reading keeps the order. -/
theorem tracks : Tracks fun p q => p.Orderly → Kept p q where
  trans hpq hqr hp := (hpq hp).trans (hqr (hpq hp).orderly)
  move h hp := hp.move h
  entered _ h hp := hp.entered h
  installed h hp := hp.installs (h.mono fun _ => Value.Readable.recordsWritable)
  began {p q count} _ _ hle h hp := by
    have hmoved := hp.move ⟨count, hle, rfl⟩
    have hnoted : Kept p ((p.move count).note (.began p.pos)) :=
      ⟨⟨hmoved.orderly.inside, hp.scopes, hp.keywords, hp.hooks⟩, rfl, id⟩
    exact hnoted.trans (hnoted.orderly.waiting h)
  defined p package name function hp :=
    ⟨⟨hp.inside, hp.scopes, hp.keywords.installFunction _ _ _, hp.hooks⟩, rfl, id⟩
  block {p q r rest} hbody hbrace hclose hp := by
    have hq := hbody hp.opened
    have hmoved := hq.orderly.move ⟨1, by simp [hbrace], rfl⟩
    obtain ⟨s, hs, hscopes, hinside, hfeatures, hkeywords⟩ := hmoved.orderly.closes
    obtain rfl : s = r := (EStateM.Result.ok.inj (hs.symm.trans hclose)).2
    -- the scope that is closed is the one that was opened
    have hlength : s.scopes.length = p.scopes.length := by
      have hopened : q.scopes.length = p.scopes.length + 1 := hq.length
      rw [hscopes, List.length_tail, hmoved.length, hopened, Nat.add_sub_cancel]
    refine ⟨⟨hinside, ?_, hkeywords, fun scope hscope => ?_⟩, hlength, fun h => ?_⟩
    · exact fun hnil => hp.scopes (List.length_eq_zero_iff.1 (by rw [← hlength, hnil]; rfl))
    · exact hq.orderly.hooks scope (List.mem_of_mem_tail (hscopes ▸ hscope))
    · rw [hfeatures]
      exact hq.usable h

/-- A keyword and what follows it keep the order. -/
theorem tracksKeywords : TracksKeywords fun p q => p.Orderly → Kept p q := by
  intro fuel p q r p' written keyword node ih hword _ hlive hdispatch hadvance hname hp
  have hq := hp.dispatched hword hlive hdispatch
  have hr := hq.orderly.move (.read (Reader.drops_advance _) hadvance)
  exact (hq.trans hr).trans ((ih fuel (Nat.le_refl _)).name hname hr.orderly)

end Parser.Orderly

/-- The parsers of the calls that a call makes are in good order. -/
theorem Calls.orderly {fuel : Nat} {f g : Form} (h : Calls fuel f p g q) (hp : p.Orderly) :
    q.Orderly ∧ (p.features.Usable → q.features.Usable) := by
  have htracked := Parser.Orderly.tracks.all Parser.Orderly.tracksKeywords fuel
  rcases h.tracked Parser.Orderly.tracks htracked with
    hq | ⟨s, hs, rfl⟩ | ⟨written, keyword, s, -, hword, hlive, hdispatch, hadvance⟩
  · exact ⟨(hq hp).orderly, (hq hp).usable⟩
  · exact ⟨(hs hp).orderly.opened, (hs hp).usable⟩
  · have hskip := hp.move (.skip p)
    have hs := hskip.orderly.dispatched hword hlive hdispatch
    have hq := hskip.trans (hs.trans (hs.orderly.move (.read (Reader.drops_advance _) hadvance)))
    exact ⟨hq.orderly, hq.usable⟩

/-- **All parsers that a call leads to are in good order**, if the first one is. -/
theorem Leads.orderly {n m : Nat} {f g : Form} (h : Leads n f p m g q) (hp : p.Orderly) :
    q.Orderly ∧ (p.features.Usable → q.features.Usable) := by
  induction h with
  | here => exact ⟨hp, id⟩
  | call _ hlast ih =>
    obtain ⟨hq, husable⟩ := ih hp
    obtain ⟨hr, husable'⟩ := hlast.orderly hq
    exact ⟨hr, fun h => husable' (husable h)⟩

end BraceScript
