import BraceScript.Proofs.History

/-!
# What is recorded of a name

What a turn does to the record of one name is said once (`Turn.change`): the name has no part in
it, is given to a subroutine or a keyword, or is put back when a scope is closed.  From it, along
any history:

* while the name is given to nothing, its function is the one that was put back last
  (`Later.function?_eq`);
* what is put back is what has waited, in scopes that were closed since (`Later.ends`);
* while nothing waits and no keyword is installed, the keyword that is declared stays, and the name
  gets a function only from a subroutine (`Later.idle`);
* if nothing waits at first, nothing waits for a name without a function (`Later.covered`);
* a keyword that was installed stays declared, live or not, as long as the name is given to no
  subroutine (`Later.declared`).

So a subroutine stays what it is until a scope is closed that was open when it was defined and that
waits to put its name back (`Parse.subroutine_kept`).  That such a scope discards the subroutine
is a defect.
-/

namespace BraceScript

open Parse

variable {package name : String}

namespace Event

/-- A keyword is installed for the name: what the name was before waits to be put back. -/
def Installs (package name : String) (event : Event) : Prop :=
  ∃ hook, event = .registered hook ∧ (hook.restored? package name).isSome

instance (package name : String) (event : Event) : Decidable (event.Installs package name) :=
  decidable_of_iff (event.registered?.any fun hook => (hook.restored? package name).isSome) (by
    cases event <;> simp [Installs, registered?])

/-- The name is given to a subroutine or to a keyword. -/
def Binds (package name : String) (event : Event) : Prop :=
  event = .defined package name ∨ event.Installs package name

end Event

/-! ### Hooks -/

/-- The keyword that is declared when a meaning is put back: without a function, the keyword is
left as it is. -/
def Meaning.declared? (m : Meaning) : Option (Option Keyword) :=
  if m.1.isSome then some m.2 else none

theorem ScopeHook.declaredKeyword?_apply (hook : ScopeHook) (ns : Namespaces) :
    (hook.apply ns).declaredKeyword? package name =
      ((hook.restored? package name).bind Meaning.declared?).getD
        (ns.declaredKeyword? package name) := by
  cases hook with
  | finalize i => rfl
  | restore package' name' function keyword =>
    cases function <;> by_cases h : package' = package ∧ name' = name <;>
      simp [apply, restored?, Namespaces.putBack, Meaning.declared?, h]

/-- The last hook that puts back a function decides which keyword is declared. -/
theorem Namespaces.declaredKeyword?_foldl (hooks : List ScopeHook) (ns : Namespaces) :
    (hooks.foldl (fun ns hook => hook.apply ns) ns).declaredKeyword? package name =
      ((hooks.filterMap (·.restored? package name)).filterMap Meaning.declared?).getLast?.getD
        (ns.declaredKeyword? package name) := by
  rw [List.filterMap_filterMap]
  exact view_foldl (v := fun ns => ns.declaredKeyword? package name)
    (fun ns hook => hook.declaredKeyword?_apply ns) hooks ns

/-! ### What waits -/

namespace Parser

variable {p q : Parser}

/-- What waits to be put back for a name, that of the outermost scope first. -/
def pending (p : Parser) (package name : String) : List Meaning :=
  p.scopes.reverse.flatMap fun scope => scope.hooks.filterMap (·.restored? package name)

theorem pending_of_hooks (h : q.scopes.map Scope.hooks = p.scopes.map Scope.hooks) :
    q.pending package name = p.pending package name := by
  have hpending (r : Parser) : r.pending package name =
      (r.scopes.map Scope.hooks).reverse.flatMap fun hooks =>
        hooks.filterMap (·.restored? package name) := by
    rw [← List.map_reverse, List.flatMap_map]
    rfl
  rw [hpending, hpending, h]

@[simp] theorem pending_opened (p : Parser) :
    p.opened.pending package name = p.pending package name := by
  simp [pending, opened, note]

theorem pending_hooked {scope : Scope} {scopes : List Scope} (hscopes : p.scopes = scope :: scopes)
    (hook : ScopeHook) (q : Parser) : (q.hooked scope scopes hook).pending package name =
      p.pending package name ++ [hook].filterMap (·.restored? package name) := by
  simp only [pending, hooked, note, hscopes, List.reverse_cons, List.flatMap_append,
    List.flatMap_singleton, List.filterMap_append, List.append_assoc]

theorem pending_of_cons {scope : Scope} (hscopes : p.scopes = scope :: q.scopes) :
    p.pending package name =
      q.pending package name ++ scope.hooks.filterMap (·.restored? package name) := by
  simp only [pending, hscopes, List.reverse_cons, List.flatMap_append, List.flatMap_singleton]

end Parser

/-! ### One turn -/

/-- What a turn does to the record of a name. -/
inductive Change (package name : String) (p q : Parser) : List Event → Prop
  /-- The name has no part in it. -/
  | other {events : List Event}
      (hevents : ∀ event ∈ events,
        event.restored? package name = none ∧ ¬ event.Binds package name)
      (hfunction : q.namespaces.function? package name = p.namespaces.function? package name)
      (hkeyword :
        q.namespaces.declaredKeyword? package name = p.namespaces.declaredKeyword? package name)
      (hpending : q.pending package name = p.pending package name) : Change package name p q events
  | defined (body : List Node)
      (hfunction : q.namespaces.function? package name = some (.subroutine name package body))
      (hkeyword :
        q.namespaces.declaredKeyword? package name = p.namespaces.declaredKeyword? package name)
      (hpending : q.pending package name = p.pending package name) :
      Change package name p q [.defined package name]
  /-- A keyword is installed, and what the name means waits to be put back. -/
  | installed {hook : ScopeHook}
      (hhook : hook.restored? package name = some (p.namespaces.meaning package name))
      (hfunction : (q.namespaces.function? package name).isSome)
      (hkeyword : (q.namespaces.declaredKeyword? package name).isSome)
      (hpending : q.pending package name =
        p.pending package name ++ [p.namespaces.meaning package name]) :
      Change package name p q [.registered hook]
  /-- The hooks of the innermost scope have run. -/
  | closed {hooks : List ScopeHook} (pos : Nat)
      (hnamespaces :
        q.namespaces = hooks.foldl (fun ns hook => hook.apply ns) p.namespaces)
      (hpending : p.pending package name =
        q.pending package name ++ hooks.filterMap (·.restored? package name)) :
      Change package name p q ((hooks.map (.ran · pos)).reverse ++ [.closed])

variable {before events : List Event} {p q r : Parser}

/-- **What each turn does to the record of a name.** -/
theorem Turn.change (h : Turn events p q) (package name : String) :
    Change package name p q events := by
  have hsilent {event : Event} (hrestored : event.restored? package name = none)
      (hbinds : ¬ event.Binds package name) : ∀ event' ∈ [event],
      event'.restored? package name = none ∧ ¬ event'.Binds package name :=
    List.forall_mem_singleton.2 ⟨hrestored, hbinds⟩
  cases h with
  | quiet hfunction hkeyword hhooks _ =>
    exact .other (List.forall_mem_nil _) (hfunction _ _) (hkeyword _ _)
      (Parser.pending_of_hooks hhooks)
  | began => exact .other (hsilent rfl (by simp [Event.Binds, Event.Installs])) rfl rfl rfl
  | dispatched => exact .other (hsilent rfl (by simp [Event.Binds, Event.Installs])) rfl rfl rfl
  | opened =>
    exact .other (hsilent rfl (by simp [Event.Binds, Event.Installs])) rfl rfl
      (Parser.pending_opened p)
  | waits h =>
    obtain ⟨scope, scopes, hscopes, rfl⟩ := closeAtScopeEnd_eq_ok.1 h
    refine .other (hsilent rfl ?_) rfl rfl ?_
    · simp [Event.Binds, Event.Installs, ScopeHook.restored?]
    · rw [Parser.pending_hooked hscopes]
      simp [ScopeHook.restored?]
  | defined package' name' body =>
    by_cases heq : package' = package ∧ name' = name
    · obtain ⟨rfl, rfl⟩ := heq
      exact .defined body (by simp [Parser.defining, Parser.note])
        (by simp [Parser.defining, Parser.note]) rfl
    · refine .other (hsilent rfl ?_) ?_ ?_ rfl
      · simpa [Event.Binds, Event.Installs] using heq
      · simp [Parser.defining, Parser.note, heq]
      · simp [Parser.defining, Parser.note]
  | @installed feature target options _ _ h =>
    obtain ⟨features, scope, scopes, -, hscopes, rfl⟩ := installKeyword_eq_ok h
    by_cases heq : target = package ∧ options.spelling = name
    · obtain ⟨rfl, rfl⟩ := heq
      have hhook : (p.restoring target options.spelling).restored? target options.spelling =
          some (p.namespaces.meaning target options.spelling) := by
        simp [Parser.restoring, ScopeHook.restored?, Namespaces.meaning, Namespaces.keyword?]
      refine .installed hhook ?_ ?_ ?_
      · simp [Parser.hooked, Parser.note]
      · simp [Parser.hooked, Parser.note]
      · rw [Parser.pending_hooked hscopes, List.filterMap_cons_some hhook]
        rfl
    · have hhook : (p.restoring target options.spelling).restored? package name = none := by
        simp [Parser.restoring, ScopeHook.restored?, heq]
      refine .other (hsilent rfl ?_) ?_ ?_ ?_
      · simp [Event.Binds, Event.Installs, hhook]
      · simp [Parser.hooked, Parser.note, heq]
      · simp [Parser.hooked, Parser.note, heq]
      · rw [Parser.pending_hooked hscopes, List.filterMap_cons_none hhook]
        simp
  | @closed scope _ _ hscopes h =>
    obtain ⟨_, _, hscopes', hhooks⟩ := closeScope_eq_ok.1 h
    obtain ⟨rfl, rfl⟩ := List.cons.inj (hscopes.symm.trans hscopes')
    have hnamespaces := (hooksRun_of_forM hhooks).namespaces
    exact .closed p.pos hnamespaces (Parser.pending_of_cons hscopes)

/-! ### Invariants of turns -/

/-- What has a function has a live keyword. -/
def Meaning.Sound (m : Meaning) : Prop := m.1.isSome → m.2.isSome

namespace Parser

/-- Without a function nothing waits, and only the first that waits may put back none. -/
def Covered (package name : String) (p : Parser) : Prop :=
  p.pending package name = [] ∨ (p.namespaces.function? package name).isSome ∧
    ∀ m ∈ (p.pending package name).tail, m.1.isSome

/-- The name is sound, and so is all that waits to be put back for it. -/
structure Sound (package name : String) (p : Parser) : Prop where
  now : (p.namespaces.meaning package name).Sound
  pending : ∀ m ∈ p.pending package name, m.Sound

end Parser

namespace Change

variable {e : List Event}

theorem filterMap_closed (hooks : List ScopeHook) (pos : Nat) :
    ((hooks.map (Event.ran · pos)).reverse ++ [Event.closed]).filterMap
      (·.restored? package name) = (hooks.filterMap (·.restored? package name)).reverse := by
  rw [List.filterMap_append, filterMap_restored?_ran, List.filterMap_cons_none rfl,
    List.filterMap_nil, List.append_nil]

theorem function?_closed {hooks : List ScopeHook}
    (hnamespaces : q.namespaces = hooks.foldl (fun ns hook => hook.apply ns) p.namespaces) :
    q.namespaces.function? package name =
      ((hooks.filterMap (·.restored? package name)).getLast?.map Prod.fst).getD
        (p.namespaces.function? package name) := by
  have hmeaning : q.namespaces.meaning package name =
      (hooks.filterMap (·.restored? package name)).getLast?.getD
        (p.namespaces.meaning package name) := by
    rw [hnamespaces]
    exact Namespaces.meaning_foldl hooks _
  have hfunction := congrArg Prod.fst hmeaning
  cases hlast : (hooks.filterMap (·.restored? package name)).getLast? <;>
    (rw [hlast] at hfunction; exact hfunction)

theorem installs_of_restored? {hook : ScopeHook} {m : Meaning}
    (h : hook.restored? package name = some m) : (Event.registered hook).Installs package name :=
  ⟨hook, rfl, Option.isSome_of_eq_some h⟩

theorem function?_eq (h : Change package name p q e)
    (he : ∀ event ∈ e, ¬ event.Binds package name) :
    q.namespaces.function? package name =
      ((e.filterMap (·.restored? package name)).head?.map Prod.fst).getD
        (p.namespaces.function? package name) := by
  cases h with
  | other hevents hfunction _ _ =>
    rw [hfunction, List.filterMap_eq_nil_iff.2 fun event hevent => (hevents event hevent).1]
    rfl
  | defined => exact absurd (.inl rfl) (he _ List.mem_cons_self)
  | installed hhook => exact absurd (.inr (installs_of_restored? hhook)) (he _ List.mem_cons_self)
  | closed pos hnamespaces _ =>
    rw [function?_closed hnamespaces, filterMap_closed, List.head?_reverse]

theorem covered (h : Change package name p q e) (hp : p.Covered package name) :
    q.Covered package name := by
  rw [Parser.Covered] at hp ⊢
  cases h with
  | other _ hfunction _ hpending => rwa [hfunction, hpending]
  | defined body hfunction _ hpending =>
    rw [hpending, hfunction]
    exact hp.imp id fun h => ⟨rfl, h.2⟩
  | installed hhook hfunction _ hpending =>
    refine .inr ⟨hfunction, ?_⟩
    rw [hpending]
    rcases hp with hnil | ⟨hp, htail⟩
    · simp [hnil]
    · -- what now waits is the function that there was
      cases hcons : p.pending package name with
      | nil => simp
      | cons first rest =>
        rw [hcons] at htail
        exact List.forall_mem_append.2 ⟨htail, List.forall_mem_singleton.2 hp⟩
  | @closed hooks pos hnamespaces hpending =>
    rcases hp with hnil | ⟨hp, htail⟩
    · exact .inl (List.append_eq_nil_iff.1 (hpending.symm.trans hnil)).1
    · cases hcons : q.pending package name with
      | nil => exact .inl rfl
      | cons first rest =>
        rw [hpending, hcons, List.cons_append, List.tail_cons, List.forall_mem_append] at htail
        refine .inr ⟨?_, htail.1⟩
        rw [function?_closed hnamespaces]
        cases hlast : (hooks.filterMap (·.restored? package name)).getLast? with
        | none => exact hp
        | some m => exact htail.2 m (List.mem_of_getLast? hlast)

/-- Without a new subroutine, soundness is kept, and a keyword that is declared or installed is
declared ever after. -/
theorem sound (h : Change package name p q e) (he : .defined package name ∉ e)
    (hp : p.Sound package name) :
    q.Sound package name ∧
      ((p.namespaces.declaredKeyword? package name).isSome ∨
          (∃ event ∈ e, event.Installs package name) →
        (q.namespaces.declaredKeyword? package name).isSome) := by
  cases h with
  | other hevents hfunction hkeyword hpending =>
    have hmeaning : q.namespaces.meaning package name = p.namespaces.meaning package name := by
      rw [Namespaces.meaning, Namespaces.keyword?, hfunction, hkeyword]
      rfl
    refine ⟨⟨hmeaning ▸ hp.now, hpending ▸ hp.pending⟩, ?_⟩
    rw [hkeyword]
    rintro (h | ⟨event, hevent, hinstalls⟩)
    · exact h
    · exact absurd (.inr hinstalls) (hevents event hevent).2
  | defined => exact absurd List.mem_cons_self he
  | installed hhook hfunction hkeyword hpending =>
    refine ⟨⟨fun _ => ?_, ?_⟩, fun _ => hkeyword⟩
    · simpa [Namespaces.meaning, Namespaces.keyword?, hfunction] using hkeyword
    · rw [hpending, List.forall_mem_append]
      exact ⟨hp.pending, List.forall_mem_singleton.2 hp.now⟩
  | @closed hooks pos hnamespaces hpending =>
    have hsound := hp.pending
    rw [hpending, List.forall_mem_append] at hsound
    refine ⟨⟨?_, hsound.1⟩, fun h => ?_⟩
    · rw [hnamespaces, Namespaces.meaning_foldl]
      cases hlast : (hooks.filterMap (·.restored? package name)).getLast? with
      | none => exact hp.now
      | some m => exact hsound.2 m (List.mem_of_getLast? hlast)
    · have hdeclared : (p.namespaces.declaredKeyword? package name).isSome :=
        h.resolve_right (by simp [Event.Installs])
      rw [hnamespaces, Namespaces.declaredKeyword?_foldl]
      cases hlast : ((hooks.filterMap (·.restored? package name)).filterMap
          Meaning.declared?).getLast? with
      | none => exact hdeclared
      | some keyword =>
        -- a hook that puts back a function puts back its keyword
        obtain ⟨m, hm, hkeyword⟩ := List.mem_filterMap.1 (List.mem_of_getLast? hlast)
        rw [Meaning.declared?] at hkeyword
        split at hkeyword
        · next hfunction =>
          obtain rfl := Option.some.inj hkeyword
          exact hsound.2 m hm hfunction
        · cases hkeyword

/-- What is put back no longer waits, and only an installation lets something wait. -/
theorem ends (h : Change package name p q e) (he : ∀ event ∈ e, ¬ event.Installs package name) :
    ∃ ended, p.pending package name = q.pending package name ++ ended ∧
      (e.filterMap (·.restored? package name)).Perm ended := by
  cases h with
  | other hevents _ _ hpending =>
    refine ⟨[], by rw [hpending, List.append_nil], ?_⟩
    rw [List.filterMap_eq_nil_iff.2 fun event hevent => (hevents event hevent).1]
  | defined _ _ _ hpending => exact ⟨[], by rw [hpending, List.append_nil], .nil⟩
  | installed hhook => exact absurd (installs_of_restored? hhook) (he _ List.mem_cons_self)
  | closed pos _ hpending => exact ⟨_, hpending, filterMap_closed _ pos ▸ List.reverse_perm _⟩

/-- If nothing waits and no keyword is installed, the keyword that is declared stays, and the name
gets a function only from a subroutine. -/
theorem idle (h : Change package name p q e) (hp : p.pending package name = [])
    (he : ∀ event ∈ e, ¬ event.Installs package name) :
    q.namespaces.declaredKeyword? package name = p.namespaces.declaredKeyword? package name ∧
      ((q.namespaces.function? package name).isSome ↔
        (p.namespaces.function? package name).isSome ∨ .defined package name ∈ e) := by
  cases h with
  | other hevents hfunction hkeyword _ =>
    refine ⟨hkeyword, ?_⟩
    rw [hfunction]
    exact (or_iff_left fun hmem => (hevents _ hmem).2 (.inl rfl)).symm
  | defined body hfunction hkeyword _ => exact ⟨hkeyword, by simp [hfunction]⟩
  | installed hhook => exact absurd (installs_of_restored? hhook) (he _ List.mem_cons_self)
  | @closed hooks pos hnamespaces hpending =>
    obtain ⟨-, hhooks⟩ := List.append_eq_nil_iff.1 (hpending.symm.trans hp)
    constructor
    · rw [hnamespaces, Namespaces.declaredKeyword?_foldl, hhooks]
      rfl
    · rw [function?_closed hnamespaces, hhooks]
      simp

/-- The turn at which a subroutine is installed. -/
theorem exists_subroutine (h : Change package name p q [.defined package name]) :
    ∃ body, q.namespaces.function? package name = some (.subroutine name package body) := by
  generalize hall : [Event.defined package name] = all at h
  cases h with
  | other hevents =>
    have hmem : .defined package name ∈ all := hall ▸ List.mem_cons_self
    exact absurd (.inl rfl) (hevents _ hmem).2
  | defined body hfunction => exact ⟨body, hfunction⟩
  | installed => cases hall
  | closed => simpa using congrArg List.getLast? hall

end Change

/-! ### Histories -/

namespace Later

/-- **While a name is given to nothing, its function is the one that was put back last.** -/
theorem function?_eq (h : Later events p q) (he : ∀ event ∈ events, ¬ event.Binds package name) :
    q.namespaces.function? package name =
      ((events.filterMap (·.restored? package name)).head?.map Prod.fst).getD
        (p.namespaces.function? package name) := by
  induction h with
  | refl => rfl
  | @turn before events _ _ _ _ hturn ih =>
    rw [List.forall_mem_append] at he
    rw [(hturn.change package name).function?_eq he.1, ih he.2, List.filterMap_append,
      List.head?_append]
    cases (events.filterMap (·.restored? package name)).head? <;> rfl

theorem covered (h : Later events p q) (hp : p.Covered package name) : q.Covered package name := by
  induction h with
  | refl => exact hp
  | turn _ hturn ih => exact (hturn.change package name).covered (ih hp)

/-- **While the name is given to no subroutine, a keyword that is installed stays declared.** -/
theorem declared (h : Later events p q) (he : .defined package name ∉ events)
    (hp : p.Sound package name) :
    q.Sound package name ∧
      ((p.namespaces.declaredKeyword? package name).isSome ∨
          (∃ event ∈ events, event.Installs package name) →
        (q.namespaces.declaredKeyword? package name).isSome) := by
  induction h with
  | refl => exact ⟨hp, by simp⟩
  | turn _ hturn ih =>
    rw [List.mem_append, not_or] at he
    obtain ⟨hmiddle, hbefore⟩ := ih he.2 hp
    obtain ⟨hsound, hevents⟩ := (hturn.change package name).sound he.1 hmiddle
    refine ⟨hsound, ?_⟩
    rintro (h | ⟨event, hevent, hinstalls⟩)
    · exact hevents (.inl (hbefore (.inl h)))
    · rcases List.mem_append.1 hevent with hevent | hevent
      · exact hevents (.inr ⟨event, hevent, hinstalls⟩)
      · exact hevents (.inl (hbefore (.inr ⟨event, hevent, hinstalls⟩)))

/-- **What is put back is what has waited, in the scopes that were closed since.** -/
theorem ends (h : Later events p q) (he : ∀ event ∈ events, ¬ event.Installs package name) :
    ∃ ended, p.pending package name = q.pending package name ++ ended ∧
      (events.filterMap (·.restored? package name)).Perm ended := by
  induction h with
  | refl => exact ⟨[], (List.append_nil _).symm, .nil⟩
  | turn _ hturn ih =>
    rw [List.forall_mem_append] at he
    obtain ⟨ended, hpending, hended⟩ := ih he.2
    obtain ⟨ended', hpending', hended'⟩ := (hturn.change package name).ends he.1
    refine ⟨ended' ++ ended, by rw [hpending, hpending', List.append_assoc], ?_⟩
    rw [List.filterMap_append]
    exact hended'.append hended

theorem pending_eq_nil (h : Later events p q) (hp : p.pending package name = [])
    (he : ∀ event ∈ events, ¬ event.Installs package name) : q.pending package name = [] := by
  obtain ⟨ended, hpending, -⟩ := h.ends he
  exact (List.append_eq_nil_iff.1 (hpending.symm.trans hp)).1

/-- **While nothing waits to be put back and no keyword is installed**, the keyword that is declared
stays, and the name gets a function only from a subroutine. -/
theorem idle (h : Later events p q) (hp : p.pending package name = [])
    (he : ∀ event ∈ events, ¬ event.Installs package name) :
    q.namespaces.declaredKeyword? package name = p.namespaces.declaredKeyword? package name ∧
      ((q.namespaces.function? package name).isSome ↔
        (p.namespaces.function? package name).isSome ∨ .defined package name ∈ events) := by
  induction h with
  | refl => exact ⟨rfl, by simp⟩
  | turn h hturn ih =>
    rw [List.forall_mem_append] at he
    obtain ⟨hkeyword, hfunction⟩ := ih hp he.2
    obtain ⟨hkeyword', hfunction'⟩ :=
      (hturn.change package name).idle (h.pending_eq_nil hp he.2) he.1
    refine ⟨hkeyword'.trans hkeyword, ?_⟩
    rw [hfunction', hfunction, List.mem_append, or_assoc, or_comm (a := _ ∈ _)]

end Later

/-! ### Subroutines -/

namespace Parse

variable {α : Type} {x : Parse α}

/-- **How long a subroutine is kept.**  Every run has moments, of which any two are one later than
the other.  Let a subroutine be defined before the moment `t`, and its name not be given to anything
else since, up to `t`.  Then its function is that subroutine until something is put back for the
name, and afterwards what was put back last.  What is put back has waited when the subroutine was
defined, in scopes that have been closed since; without such a scope the subroutine is kept. -/
theorem subroutine_kept (hx : EntryPoint α x) (p : Parser) :
    (∃ ms, Turns x p ms) ∧ ∀ ms, Turns x p ms →
      ms.head? = some p ∧ (∀ a q, x p = .ok a q → ms.getLast? = some q) ∧
      (ms.Pairwise fun r s => ∃ events, Later events r s) ∧
      ∀ t ∈ ms, ∃ events, Later events p t ∧ ∀ package name before after,
        events = after ++ .defined package name :: before →
        (∀ event ∈ after, ¬ event.Binds package name) →
        ∃ body s ended, Later (.defined package name :: before) p s ∧ Later after s t ∧
          s.namespaces.function? package name = some (.subroutine name package body) ∧
          t.namespaces.function? package name =
            ((after.filterMap (·.restored? package name)).head?.map Prod.fst).getD
              (some (.subroutine name package body)) ∧
          s.pending package name = t.pending package name ++ ended ∧
          (after.filterMap (·.restored? package name)).Perm ended ∧
          (ended = [] → t.namespaces.function? package name =
            some (.subroutine name package body)) := by
  obtain ⟨hmoments, hruns⟩ := hx.turns p
  refine ⟨hmoments, fun ms hms => ?_⟩
  obtain ⟨hfirst, hlast, hpairwise⟩ := hruns ms hms
  refine ⟨hfirst, hlast, hpairwise, fun t ht => ?_⟩
  obtain ⟨events, hevents⟩ := Turns.later hms ht
  refine ⟨events, hevents, fun package name before after hsplit hafter => ?_⟩
  subst hsplit
  obtain ⟨r, s, hbefore, hturn, hlater⟩ := hevents.split rfl rfl
  obtain ⟨body, hs⟩ := (hturn.change package name).exists_subroutine
  have hfunction := hlater.function?_eq hafter
  rw [hs] at hfunction
  obtain ⟨ended, hpending, hended⟩ := hlater.ends fun event hevent hinstalls =>
    hafter event hevent (.inr hinstalls)
  refine ⟨body, s, ended, hbefore.turn hturn, hlater, hs, hfunction, hpending, hended,
    fun hnil => ?_⟩
  have hnone : after.filterMap (·.restored? package name) = [] := List.perm_nil.1 (hnil ▸ hended)
  rw [hfunction, hnone]
  rfl

/-- A subroutine of the package `main` was defined, and so many events have happened since, none of
which gives a name to something. -/
def definedBefore (name : String) (count : Nat) (t : Parser) : Bool :=
  (t.journal.take count).all (fun event => !event.isDefined && event.registered?.isNone) &&
    match t.journal.drop count with
    | .defined package name' :: _ => package == "main" && name' == name
    | _ => false

theorem later_of_definedBefore {name : String} {count : Nat} {p t : Parser} {nodes : List Node}
    (hjournal : p.journal = []) (hread : block p = .ok nodes t)
    (h : definedBefore name count t = true) : ∃ before,
      Later (t.journal.take count ++ .defined "main" name :: before) p t ∧
      ∀ event ∈ t.journal.take count, ¬ event.Binds "main" name := by
  obtain ⟨events, hlater⟩ := later_of_visited (compositional_turns.entryPoint .block p) hread
  have hevents := hlater.journal
  rw [hjournal, List.append_nil] at hevents
  rw [definedBefore, Bool.and_eq_true, List.all_eq_true] at h
  obtain ⟨hsilent, h⟩ := h
  split at h
  · next package name' before heq =>
    obtain ⟨rfl, rfl⟩ : package = "main" ∧ name' = name := by simpa using h
    refine ⟨before, by rwa [← heq, List.take_append_drop, hevents], fun event hevent hbinds => ?_⟩
    have hother := hsilent event hevent
    rcases hbinds with rfl | ⟨hook, rfl, -⟩ <;> simp [Event.isDefined, Event.registered?] at hother
  · cases h

/-- A subroutine that is defined in a block is still there behind the block. -/
theorem subroutine_kept_block :
    let p := ({} : Setting).parser "\x7b sub f \x7b 1 \x7d; 2 \x7d"
    ∃ nodes t ms before after body s ended, block p = .ok nodes t ∧ Turns block p ms ∧ t ∈ ms ∧
      Later (after ++ .defined "main" "f" :: before) p t ∧
      (∀ event ∈ after, ¬ event.Binds "main" "f") ∧ Later after s t ∧
      s.namespaces.function? "main" "f" = some (.subroutine "f" "main" body) ∧
      s.pending "main" "f" = t.pending "main" "f" ++ ended ∧ ended = [] ∧
      t.namespaces.function? "main" "f" = some (.subroutine "f" "main" body) := by
  intro p
  have hread : Run.passes (fun _ t => definedBefore "f" 1 t &&
      (t.journal.take 1).all (fun event => (event.restored? "main" "f").isNone)) (block p) =
        true := by decide +kernel
  obtain ⟨nodes, t, hblock, hread⟩ := Run.passes_iff.1 hread
  rw [Bool.and_eq_true, List.all_eq_true] at hread
  obtain ⟨before, hlater, hafter⟩ := later_of_definedBefore rfl hblock hread.1
  obtain ⟨⟨ms, hms⟩, hmoments⟩ := subroutine_kept .block p
  obtain ⟨-, hlast, -, hkept⟩ := hmoments ms hms
  have ht : t ∈ ms := List.mem_of_getLast? (hlast _ _ hblock)
  obtain ⟨events, hevents, hkept⟩ := hkept t ht
  have hsplit : events = t.journal.take 1 ++ .defined "main" "f" :: before :=
    List.append_cancel_right (hevents.journal.symm.trans hlater.journal)
  obtain ⟨body, s, ended, -, hs, hfunction, -, hpending, hended, hsame⟩ :=
    hkept _ _ _ _ hsplit hafter
  have hnone : (t.journal.take 1).filterMap (·.restored? "main" "f") = [] := by
    rw [List.filterMap_eq_nil_iff]
    exact fun event hevent => Option.isNone_iff_eq_none.1 (hread.2 event hevent)
  rw [hnone] at hended
  have hnil : ended = [] := List.perm_nil.1 hended.symm
  exact ⟨nodes, t, ms, before, _, body, s, ended, hblock, hms, ht, hlater, hafter, hs, hfunction,
    hpending, hnil, hsame hnil⟩

/-- **A block that has installed a keyword discards the subroutine that took the keyword's place.**
Nothing was given the name after the subroutine was read. -/
theorem closing_discards_subroutine :
    let p := ({} : Setting).parser "\x7b use module; sub module \x7b 1 \x7d; 2 \x7d"
    ∃ nodes t before after, block p = .ok nodes t ∧
      Later (after ++ .defined "main" "module" :: before) p t ∧
      (∀ event ∈ after, ¬ event.Binds "main" "module") ∧
      t.namespaces.function? "main" "module" = none := by
  intro p
  have hread : Run.passes (fun _ t => definedBefore "module" 2 t &&
      (t.namespaces.function? "main" "module").isNone) (block p) = true := by decide +kernel
  obtain ⟨nodes, t, hblock, hread⟩ := Run.passes_iff.1 hread
  rw [Bool.and_eq_true] at hread
  obtain ⟨before, hlater, hafter⟩ := later_of_definedBefore rfl hblock hread.1
  exact ⟨nodes, t, before, _, hblock, hlater, hafter, Option.isNone_iff_eq_none.1 hread.2⟩

end Parse

end BraceScript
