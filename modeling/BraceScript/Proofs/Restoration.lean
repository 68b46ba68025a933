import BraceScript.Proofs.Meaning
import BraceScript.Proofs.Parsing

/-!
# What a scope leaves of the keywords that it installs

Installing a keyword registers a hook that puts back what its name meant before.  The hooks of a
scope run in the order in which they were registered, so the last of them decides
(`Namespaces.meaning_foldl`).  For every name that no subroutine was given in the scope:

* the name means after the scope what the last hook for it puts back, and what it meant before the
  scope if no hook for it was run;
* it means what it meant before when no scope registers two hooks for it (`RestoresOnce`);
* a scope that itself registers two hooks for it leaves it a live keyword.

The last case is a defect: a name that was nothing before the scope, and that is installed twice
in it, is a keyword ever after.
-/

namespace BraceScript

open Parse

variable {package name : String}

/-! ### Restorations -/

/-- The meaning that a hook puts back for a name, if it does. -/
def ScopeHook.restored? (package name : String) : ScopeHook → Option Meaning
  | restore package' name' function keyword =>
    if package' = package ∧ name' = name then
      some (function, if function.isSome then keyword else none)
    else none
  | finalize _ => none

namespace Event

/-- The meaning that was put back for a name. -/
def restored? (package name : String) : Event → Option Meaning
  | ran hook _ => hook.restored? package name
  | _ => none

/-- A subroutine was installed. -/
def isDefined : Event → Bool
  | defined .. => true
  | _ => false

/-- A scope was closed. -/
def isClosed : Event → Bool
  | closed => true
  | _ => false

end Event

/-- No scope has put the name back twice: between two restorations a scope was closed. -/
def RestoresOnce (package name : String) : List Event → Prop
  | [] => True
  | e :: events =>
    ((e.restored? package name).isSome →
      ∀ e' ∈ events.takeWhile (!·.isClosed), e'.restored? package name = none) ∧
    RestoresOnce package name events

theorem RestoresOnce.of_append {events earlier : List Event}
    (h : RestoresOnce package name (events ++ earlier)) :
    RestoresOnce package name events ∧ RestoresOnce package name earlier := by
  induction events with
  | nil => exact ⟨trivial, h⟩
  | cons e events ih =>
    obtain ⟨hevents, hearlier⟩ := ih h.2
    refine ⟨⟨fun he e' he' => h.1 he e' ?_, hevents⟩, hearlier⟩
    change e' ∈ (events ++ earlier).takeWhile _
    rw [List.takeWhile_append]
    split
    · exact List.mem_append_left _ ((List.takeWhile_prefix _).subset he')
    · exact he'

theorem ScopeHook.meaning_apply (hook : ScopeHook) (ns : Namespaces) :
    (hook.apply ns).meaning package name =
      (hook.restored? package name).getD (ns.meaning package name) := by
  cases hook with
  | finalize i => rfl
  | restore package' name' function keyword =>
    by_cases h : package' = package ∧ name' = name <;>
      simp [apply, restored?, Namespaces.meaning_putBack, h]

/-- The last item of a list that sets what is seen of a state decides it. -/
theorem view_foldl {α σ γ : Type} {step : σ → α → σ} {v : σ → γ} {set? : α → Option γ}
    (h : ∀ s a, v (step s a) = (set? a).getD (v s)) (as : List α) (s : σ) :
    v (as.foldl step s) = (as.filterMap set?).getLast?.getD (v s) := by
  induction as generalizing s with
  | nil => rfl
  | cons a as ih =>
    rw [List.foldl_cons, ih, h]
    cases ha : set? a with
    | none => rw [List.filterMap_cons_none ha, Option.getD_none]
    | some c =>
      rw [List.filterMap_cons_some ha, List.getLast?_cons, Option.getD_some, Option.getD_some]

/-- The last hook for a name decides what the name means after all of them. -/
theorem Namespaces.meaning_foldl (hooks : List ScopeHook) (ns : Namespaces) :
    (hooks.foldl (fun ns hook => hook.apply ns) ns).meaning package name =
      (hooks.filterMap (·.restored? package name)).getLast?.getD (ns.meaning package name) :=
  view_foldl (v := fun ns => ns.meaning package name)
    (fun ns hook => hook.meaning_apply ns) hooks ns

theorem filterMap_restored?_ran (hooks : List ScopeHook) (pos : Nat) :
    (hooks.map (Event.ran · pos)).reverse.filterMap (·.restored? package name) =
      (hooks.filterMap (·.restored? package name)).reverse := by
  rw [List.filterMap_reverse, List.filterMap_map]
  rfl

/-- What the same scope has run after a restoration is no other one. -/
theorem RestoresOnce.restored?_eq_none {events earlier : List Event} {e : Event}
    (h : RestoresOnce package name (events ++ e :: earlier))
    (he : (e.restored? package name).isSome) (hopen : ∀ e' ∈ events, e'.isClosed = false) :
    ∀ e' ∈ events, e'.restored? package name = none := by
  induction events with
  | nil => simp
  | cons d events ih =>
    rw [List.forall_mem_cons] at hopen ⊢
    refine ⟨?_, ih h.2 hopen.2⟩
    by_contra hd
    have hmem : e ∈ (events ++ e :: earlier).takeWhile (!·.isClosed) := by
      have hclosed : e.isClosed = false := by cases e <;> first | rfl | cases he
      rw [List.takeWhile_append_of_pos fun e' he' => by simp [hopen.2 e' he'],
        List.takeWhile_cons_of_pos (by simp [hclosed])]
      exact List.mem_append_right _ List.mem_cons_self
    rw [h.1 (Option.isSome_iff_ne_none.2 hd) e hmem] at he
    cases he

/-- The hooks that a scope has run for a name, when no scope has run two, are one at most. -/
theorem RestoresOnce.length_le_one {hooks : List ScopeHook} {pos : Nat} {earlier : List Event}
    (h : RestoresOnce package name ((hooks.map (.ran · pos)).reverse ++ earlier)) :
    (hooks.filterMap (·.restored? package name)).length ≤ 1 := by
  induction hooks generalizing earlier with
  | nil => simp
  | cons hook hooks ih =>
    rw [List.map_cons, List.reverse_cons, List.append_assoc] at h
    cases hhook : hook.restored? package name with
    | none => rw [List.filterMap_cons_none hhook]; exact ih h
    | some m =>
      have hnone : hooks.filterMap (·.restored? package name) = [] := by
        rw [List.filterMap_eq_nil_iff]
        intro hook' hmem
        exact h.restored?_eq_none (by simp [Event.restored?, hhook])
          (by simp [Event.isClosed]) (.ran hook' pos) (by simpa using hmem)
      rw [List.filterMap_cons_some hhook, hnone]
      simp

/-! ### Every run keeps what it will put back -/

/-- The name is a live keyword. -/
def Meaning.Live (m : Meaning) : Prop := m.2.isSome

/-- What a run knows of a name that meant `m` before it and means `m'` after it, when no
subroutine was given the name.  `hooks` are those that still wait for the end of the scope. -/
structure Keeps (package name : String) (events : List Event) (hooks : List ScopeHook)
    (m m' : Meaning) : Prop where
  /-- Without a waiting hook, the last restoration gave the meaning. -/
  last : hooks.filterMap (·.restored? package name) ≠ [] ∨
    m' = (events.filterMap (·.restored? package name)).head?.getD m
  /-- If no scope has restored the name twice, the first waiting hook will put `m` back. -/
  once : RestoresOnce package name events →
    hooks.filterMap (·.restored? package name) = [] ∧ m' = m ∨
      (hooks.filterMap (·.restored? package name)).head? = some m
  /-- A live keyword stays one, and each waiting hook will put one back. -/
  live : m.Live → m'.Live ∧ ∀ k ∈ hooks.filterMap (·.restored? package name), k.Live
  /-- While a hook waits, the name is a live keyword, and every hook but the first will put one
  back. -/
  waiting : hooks.filterMap (·.restored? package name) ≠ [] →
    m'.Live ∧ ∀ k ∈ (hooks.filterMap (·.restored? package name)).tail, k.Live

variable {events events' : List Event} {hooks hooks' : List ScopeHook} {m m' m'' : Meaning}

theorem Keeps.trans (h : Keeps package name events hooks m m')
    (h' : Keeps package name events' hooks' m' m'') :
    Keeps package name (events' ++ events) (hooks ++ hooks') m m'' := by
  constructor
  · rw [List.filterMap_append, List.filterMap_append, List.head?_append]
    -- a waiting hook of either part waits for the whole
    rcases h.last with hne | heq
    · exact .inl (by simp [hne])
    · rcases h'.last with hne' | heq'
      · exact .inl (by simp [hne'])
      · rw [heq', heq]
        cases (events'.filterMap (·.restored? package name)).head? <;> simp
  · intro honce
    obtain ⟨honce', honce⟩ := honce.of_append
    rw [List.filterMap_append, List.head?_append]
    rcases h.once honce with ⟨hnil, rfl⟩ | hfirst
    · rw [hnil, List.nil_append, List.head?_nil, Option.none_or]
      exact h'.once honce'
    · exact .inr (by rw [hfirst, Option.some_or])
  · intro hm
    obtain ⟨hm', hhooks⟩ := h.live hm
    obtain ⟨hm'', hhooks'⟩ := h'.live hm'
    refine ⟨hm'', fun k hk => ?_⟩
    rw [List.filterMap_append, List.mem_append] at hk
    exact hk.elim (hhooks k) (hhooks' k)
  · rw [List.filterMap_append]
    intro hne
    cases hfirst : hooks.filterMap (·.restored? package name) with
    | nil =>
      rw [hfirst, List.nil_append] at hne
      exact h'.waiting hne
    | cons k ks =>
      obtain ⟨hm', hks⟩ := h.waiting (by simp [hfirst])
      obtain ⟨hm'', hhooks'⟩ := h'.live hm'
      refine ⟨hm'', fun k' hk' => ?_⟩
      rw [hfirst, List.tail_cons] at hks
      rw [List.cons_append, List.tail_cons, List.mem_append] at hk'
      exact hk'.elim (hks k') (hhooks' k')

/-- Steps that have nothing to do with the name. -/
theorem Keeps.of_eq (hevents : events.filterMap (·.restored? package name) = [])
    (hhooks : hooks.filterMap (·.restored? package name) = []) (hm : m' = m) :
    Keeps package name events hooks m m' := by
  subst hm
  exact ⟨.inr (by rw [hevents]; rfl), fun _ => .inl ⟨hhooks, rfl⟩,
    fun h => ⟨h, by rw [hhooks]; simp⟩, fun h => absurd hhooks h⟩

/-- What is kept over the end of a scope, from what is kept inside it. -/
theorem Keeps.close (pos : Nat) (h : Keeps package name events hooks m m')
    (hm : m'' = (hooks.filterMap (·.restored? package name)).getLast?.getD m') :
    Keeps package name ((hooks.map (.ran · pos)).reverse ++ .closed :: events) [] m m'' := by
  constructor
  · right
    rw [List.filterMap_append, filterMap_restored?_ran, List.filterMap_cons_none rfl,
      List.head?_append, List.head?_reverse, hm]
    cases hlast : (hooks.filterMap (·.restored? package name)).getLast? with
    | none =>
      rw [Option.getD_none, Option.none_or]
      exact h.last.resolve_left fun hne => hne (List.getLast?_eq_none_iff.1 hlast)
    | some k => rfl
  · intro honce
    left
    refine ⟨rfl, ?_⟩
    -- the scope runs at most one hook for the name, which is the first and the last
    have hone := honce.length_le_one
    rcases h.once honce.of_append.2.2 with ⟨hnil, rfl⟩ | hfirst
    · rw [hm, hnil]
      rfl
    · rw [hm]
      cases hhooks : hooks.filterMap (·.restored? package name) with
      | nil => rw [hhooks] at hfirst; cases hfirst
      | cons k ks =>
        rw [hhooks] at hfirst hone
        obtain rfl : ks = [] := List.length_eq_zero_iff.1 (by simpa using hone)
        simpa using hfirst
  · intro hlive
    obtain ⟨hm', hhooks⟩ := h.live hlive
    refine ⟨?_, by simp⟩
    rw [hm]
    cases hlast : (hooks.filterMap (·.restored? package name)).getLast? with
    | none => exact hm'
    | some k => exact hhooks k (List.mem_of_getLast? hlast)
  · exact fun hne => absurd rfl hne

/-- An installed keyword is kept with the hook that it registers. -/
theorem Keeps.installed {p p' : Parser} {feature : BlockFeature} {target : String}
    {options : KeywordOptions} (h : installKeyword feature target options p = .ok () p') :
    Keeps package name [.registered (p.restoring target options.spelling)]
      [p.restoring target options.spelling] (p.namespaces.meaning package name)
      (p'.namespaces.meaning package name) := by
  obtain ⟨features, scope, scopes, -, -, rfl⟩ := installKeyword_eq_ok h
  have hmeaning := p.namespaces.meaning_install target package options.spelling name
    (.expand feature options) (.trampoline feature.outcome)
  by_cases heq : target = package ∧ options.spelling = name
  · have hhook : [p.restoring target options.spelling].filterMap (·.restored? package name) =
        [p.namespaces.meaning package name] := by
      simp [Parser.restoring, ScopeHook.restored?, heq, Namespaces.meaning, Namespaces.keyword?]
    rw [if_pos heq] at hmeaning
    have hlive : Meaning.Live ((p.namespaces.declareKeyword target options.spelling
        (some (.expand feature options))).installFunction target options.spelling
          (.trampoline feature.outcome) |>.meaning package name) := by
      rw [hmeaning]
      rfl
    exact ⟨.inl (by simp [hhook]), fun _ => .inr (by rw [hhook]; rfl),
      fun h => ⟨hlive, by rw [hhook]; simpa using h⟩, fun _ => ⟨hlive, by simp [hhook]⟩⟩
  · have hhook : [p.restoring target options.spelling].filterMap (·.restored? package name) =
        [] := by
      simp [Parser.restoring, ScopeHook.restored?, heq]
    rw [if_neg heq] at hmeaning
    exact ⟨.inr hmeaning, fun _ => .inl ⟨hhook, hmeaning⟩,
      fun h => ⟨by rw [← hmeaning] at h; exact h, by simp [hhook]⟩, fun h => absurd hhook h⟩

/-- The meaning of a name after the end of a scope. -/
theorem meaning_closed (package name : String) {p q p' : Parser} {outer : String}
    {scopes : List Scope} (hframe : Frame events hooks p q)
    (hscopes : p.scopes = { package := outer } :: scopes) (hclose : closeScope q = .ok () p') :
    p'.namespaces.meaning package name =
      (hooks.filterMap (·.restored? package name)).getLast?.getD
        (q.namespaces.meaning package name) := by
  rw [(hframe.closes hscopes hclose).namespaces, Namespaces.meaning_foldl]
  rfl

/-- What is kept over a block, from what is kept inside it. -/
theorem Keeps.block (pos : Nat) (h : Keeps package name events hooks m m')
    (hm : m'' = (hooks.filterMap (·.restored? package name)).getLast?.getD m') :
    Keeps package name ((hooks.map (.ran · pos)).reverse ++ .closed :: (events ++ [.opened])) []
      m m'' := by
  have hopened : Keeps package name [.opened] [] m m := .of_eq rfl rfl rfl
  simpa using hopened.trans (h.close pos hm)

/-- **Every run keeps what it will put back.** -/
theorem Runs.keeps {p p' : Parser} (hrun : Runs events hooks p p')
    (hsub : .defined package name ∉ events) :
    Keeps package name events hooks (p.namespaces.meaning package name)
      (p'.namespaces.meaning package name) := by
  induction hrun with
  | stay p => exact .of_eq rfl rfl rfl
  | seq _ _ ih₁ ih₂ =>
    rw [List.mem_append, not_or] at hsub
    exact (ih₁ hsub.2).trans (ih₂ hsub.1)
  | move p _ => exact .of_eq rfl rfl rfl
  | entered _ h =>
    obtain ⟨scope, scopes, -, rfl⟩ := enterPackage_eq_ok.1 h
    exact .of_eq rfl rfl (Namespaces.meaning_declare _ _ _ _)
  | installed _ h => exact .installed h
  | began _ _ _ h =>
    obtain ⟨scope, scopes, -, rfl⟩ := closeAtScopeEnd_eq_ok.1 h
    exact .of_eq rfl rfl rfl
  | defined p package' name' function =>
    refine .of_eq rfl rfl (Namespaces.meaning_installFunction_of_ne _ _ _ _ _ _ ?_)
    rintro ⟨rfl, rfl⟩
    exact hsub List.mem_cons_self
  | expanded _ h =>
    obtain ⟨⟨buffer, rfl⟩, -⟩ := h.frame
    exact .of_eq rfl rfl rfl
  | block hbody hclose ih =>
    exact (ih fun hmem => hsub (by simp [hmem])).block _
      (meaning_closed package name hbody.frame rfl hclose)
  | @declared _ _ _ _ q' _ _ _ _ _ _ _ _ hexpand _ hopen _ hbody _ hclose ih₁ ih₂ =>
    obtain ⟨⟨buffer, rfl⟩, -⟩ := hexpand.frame
    have hkeeps := (ih₁ fun hmem => hsub (by simp [hmem])).trans
      (ih₂ fun hmem => hsub (by simp [hmem]))
    have hmeaning := meaning_closed package name (hopen.frame.trans hbody.frame).pass rfl hclose
    have hblock := hkeeps.block (q'.skip.move 1).pos hmeaning
    simpa [Parser.opened, Parser.note] using
      (Keeps.of_eq rfl rfl rfl : Keeps package name [.dispatched _] [] _ _).trans hblock

/-! ### Scopes that are read to their end -/

/-- A scope is read to its end: a block, or a whole script together with its prelude.  `events`
is what is done from before the scope is opened until after it is closed, latest first. -/
inductive ScopeRead : Namespaces → List Event → Namespaces → Prop
  | block {fuel : Nat} {p p' : Parser} {nodes : List Node} {events : List Event}
      (h : blockWithin fuel p = .ok nodes p') (hjournal : p'.journal = events ++ p.journal) :
      ScopeRead p.namespaces events p'.namespaces
  | script {setting : Setting} {text : String} {program : List Node} {p' : Parser}
      (h : script setting (setting.parser text) = .ok program p') :
      ScopeRead setting.namespaces p'.journal p'.namespaces

/-- The hooks that the scope itself has run: those since it was closed. -/
def ownRestorations (package name : String) (events : List Event) : List Meaning :=
  (events.takeWhile (!·.isClosed)).filterMap (·.restored? package name)

theorem ownRestorations_ran (hooks : List ScopeHook) (pos : Nat) (earlier : List Event) :
    ownRestorations package name ((hooks.map (.ran · pos)).reverse ++ .closed :: earlier) =
      (hooks.filterMap (·.restored? package name)).reverse := by
  have hopen : ∀ e ∈ (hooks.map (Event.ran · pos)).reverse, (!e.isClosed) = true := by
    intro e he
    obtain ⟨hook, -, rfl⟩ := List.mem_map.1 (List.mem_reverse.1 he)
    rfl
  rw [ownRestorations, List.takeWhile_append_of_pos hopen,
    List.takeWhile_cons_of_neg (by simp [Event.isClosed]),
    List.append_nil, filterMap_restored?_ran]

/-- A scope that has registered two hooks for the name leaves it a live keyword. -/
theorem Keeps.live_of_two (h : Keeps package name events hooks m m')
    (hm : m'' = (hooks.filterMap (·.restored? package name)).getLast?.getD m')
    (htwo : 1 < (hooks.filterMap (·.restored? package name)).length) : m''.Live := by
  obtain ⟨k, ks, hcons⟩ := List.exists_cons_of_length_pos (Nat.lt_trans Nat.zero_lt_one htwo)
  have hlive := (h.waiting (by simp [hcons])).2
  rw [hcons, List.length_cons] at htwo
  obtain ⟨k', ks', rfl⟩ := List.exists_cons_of_length_pos (Nat.lt_of_succ_lt_succ htwo)
  rw [hm, hcons, List.getLast?_cons_cons,
    List.getLast?_eq_getLast_of_ne_nil (List.cons_ne_nil _ _), Option.getD_some]
  rw [hcons, List.tail_cons] at hlive
  exact hlive _ (List.getLast_mem _)

/-- What is kept over a scope that is read to its end. -/
theorem ScopeRead.keeps {before after : Namespaces} (h : ScopeRead before events after)
    (hsub : .defined package name ∉ events) :
    Keeps package name events [] (before.meaning package name) (after.meaning package name) ∧
      (1 < (ownRestorations package name events).length → (after.meaning package name).Live) := by
  cases h with
  | block h hjournal =>
    obtain ⟨n, rfl⟩ := blockWithin_fuel h
    obtain ⟨_, q, _, -, hstatements, hbrace, hclose⟩ := blockWithin_eq_ok h
    obtain ⟨e, hooks, hrun⟩ := (statementsWithin_isRun hstatements).trans (IsMove.pass hbrace).isRun
    obtain rfl := List.append_cancel_right (hjournal.symm.trans (hrun.frame.block hclose).journal)
    have hkeeps : Keeps package name e hooks _ _ := hrun.keeps fun hmem => hsub (by simp [hmem])
    have hm := meaning_closed package name hrun.frame rfl hclose
    refine ⟨hkeeps.block _ hm, fun htwo => hkeeps.live_of_two hm ?_⟩
    rwa [ownRestorations_ran, List.length_reverse] at htwo
  | @script setting text program p' h =>
    obtain ⟨q, r, ⟨e, hooks, hrun⟩, hclose, -, rfl⟩ := script_eq_ok h
    have hjournal : r.journal = (hooks.map (.ran · q.pos)).reverse ++ .closed :: e := by
      have hstart : q.journal = e ++ [] := hrun.frame.journal
      rw [(hrun.frame.closes rfl hclose).journal]
      change _ ++ .closed :: q.journal = _
      rw [hstart, List.append_nil]
      rfl
    have hjournal' : r.skip.journal = _ := hjournal
    rw [hjournal'] at hsub ⊢
    have hkeeps : Keeps package name e hooks _ _ := hrun.keeps fun hmem => hsub (by simp [hmem])
    have hm := meaning_closed package name hrun.frame rfl hclose
    rw [show (setting.parser text).namespaces = setting.namespaces.declare setting.package from rfl,
      Namespaces.meaning_declare] at hkeeps
    refine ⟨hkeeps.close _ hm, fun htwo => hkeeps.live_of_two hm ?_⟩
    rwa [ownRestorations_ran, List.length_reverse] at htwo

/-- **What a scope leaves of a name** that no subroutine was given in it.  The name means what
the last restoration put back, and what it meant before if there was none.  So it means what it
meant before exactly when that restoration put the same back; this holds when no scope restores
the name twice, and fails when the scope itself does and the name was no keyword before. -/
theorem ScopeRead.meaning_after {before after : Namespaces} (h : ScopeRead before events after)
    (hsub : .defined package name ∉ events) :
    after.meaning package name =
        (events.filterMap (·.restored? package name)).head?.getD (before.meaning package name) ∧
      (after.meaning package name = before.meaning package name ↔
        ∀ m, (events.filterMap (·.restored? package name)).head? = some m →
          m = before.meaning package name) ∧
      (RestoresOnce package name events →
        after.meaning package name = before.meaning package name) ∧
      (1 < (ownRestorations package name events).length →
        (after.keyword? package name).isSome ∧ (before.keyword? package name = none →
          after.meaning package name ≠ before.meaning package name)) := by
  obtain ⟨hkeeps, htwo⟩ := h.keeps hsub
  have hlast := hkeeps.last.resolve_left fun hne => hne rfl
  refine ⟨hlast, ?_, fun honce => ?_, fun hown => ⟨htwo hown, fun hnone heq => ?_⟩⟩
  · rw [hlast]
    cases (events.filterMap (·.restored? package name)).head? with
    | none => simp
    | some m => simp
  · rcases hkeeps.once honce with ⟨-, heq⟩ | hfirst
    · exact heq
    · cases hfirst
  · have hlive : Meaning.Live (before.meaning package name) := heq ▸ htwo hown
    rw [Meaning.Live, Namespaces.meaning, hnone] at hlive
    cases hlive

/-- A parser in front of a block that installs a keyword twice. -/
def twiceInstalled : Parser :=
  ({} : Setting).parser "\x7b use module; use module; 1 \x7d module Foo \x7b 2 \x7d"

/-- The hooks of the block are run for the name twice, so it is not what it was before. -/
theorem meaning_after_twice_installed :
    ∃ nodes p', block twiceInstalled = .ok nodes p' ∧
      .defined "main" "module" ∉ p'.journal ∧
      1 < (ownRestorations "main" "module" p'.journal).length ∧
      p'.namespaces.meaning "main" "module" ≠
        twiceInstalled.namespaces.meaning "main" "module" := by
  have hread : Run.passes (fun _ p' => p'.journal.all (!·.isDefined) &&
      decide (1 < (ownRestorations "main" "module" p'.journal).length)) (block twiceInstalled) =
        true := by decide +kernel
  obtain ⟨nodes, p', hblock, hread⟩ := Run.passes_iff.1 hread
  rw [Bool.and_eq_true, List.all_eq_true, decide_eq_true_iff] at hread
  have hsub : .defined "main" "module" ∉ p'.journal := fun hmem => by
    simpa [Event.isDefined] using hread.1 _ hmem
  have hwithin := hblock
  rw [block, withFuel_apply] at hwithin
  have hscope : ScopeRead twiceInstalled.namespaces p'.journal p'.namespaces :=
    .block hwithin (by rw [show twiceInstalled.journal = [] from rfl, List.append_nil])
  exact ⟨nodes, p', hblock, hsub, hread.2,
    ((hscope.meaning_after hsub).2.2.2 hread.2).2 (by decide +kernel)⟩

/-- Two `use` statements in a block leave a keyword where there was nothing before. -/
theorem keyword_outlives_block :
    twiceInstalled.namespaces.function? "main" "module" = none ∧
      twiceInstalled.namespaces.keyword? "main" "module" = none ∧
      ∃ nodes p', block twiceInstalled = .ok nodes p' ∧
        .defined "main" "module" ∉ p'.journal ∧
        (p'.namespaces.function? "main" "module").isSome ∧
        (p'.namespaces.keyword? "main" "module").isSome := by
  have hread : Run.passes (fun _ p' => p'.journal.all (!·.isDefined) &&
      ((p'.namespaces.function? "main" "module").isSome &&
        (p'.namespaces.keyword? "main" "module").isSome)) (block twiceInstalled) = true := by
    decide +kernel
  obtain ⟨nodes, p', hblock, hread⟩ := Run.passes_iff.1 hread
  rw [Bool.and_eq_true, Bool.and_eq_true, List.all_eq_true] at hread
  refine ⟨by decide +kernel, by decide +kernel, nodes, p', hblock, fun hmem => ?_, hread.2⟩
  simpa [Event.isDefined] using hread.1 _ hmem

end BraceScript
