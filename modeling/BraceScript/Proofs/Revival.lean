import BraceScript.Proofs.Record

/-!
# Keywords after their scope

A keyword is installed in a scope, in the place of nothing.  When the scope has ended, the function
of the name is removed, so the name is no live keyword; but the keyword stays declared.  It is dead
as long as the name has no function, and lives again as soon as a subroutine is given the name
(`Parse.keyword_after_scope`).  That it lives again is a defect, as is that a scope which installs
the keyword twice leaves it alive.
-/

namespace BraceScript

open Parse

variable {package name : String}

/-- What waits after a block is what waited before it. -/
theorem pending_of_block {fuel : Nat} {p q : Parser} {nodes : List Node}
    (h : blockWithin fuel p = .ok nodes q) : q.pending package name = p.pending package name := by
  obtain ⟨fuel, rfl⟩ := blockWithin_fuel h
  obtain ⟨_, r, _, -, hstatements, hbrace, hclose⟩ := blockWithin_eq_ok h
  obtain ⟨events, hooks, hrun⟩ :=
    (statementsWithin_isRun hstatements).trans (IsMove.pass hbrace).isRun
  have hgrown : Grown [] p.scopes q.scopes := (hrun.frame.block hclose).scopes
  refine Parser.pending_of_hooks ?_
  generalize p.scopes = before, q.scopes = after at hgrown ⊢
  cases hgrown with
  | none => rfl
  | innermost scopes hhooks _ => rw [List.map_cons, List.map_cons, hhooks, List.append_nil]

/-- In a parse from its start, nothing waits for a name without a function. -/
theorem Later.pending_of_start {setting : Setting} {text : String} {events : List Event}
    {p : Parser} (h : Later events (setting.parser text) p)
    (hp : p.namespaces.function? package name = none) : p.pending package name = [] := by
  have hcovered : p.Covered package name := h.covered (.inl rfl)
  refine hcovered.resolve_right fun hfunction => ?_
  rw [hp] at hfunction
  cases hfunction.1

/-- A name has no live keyword without a function. -/
theorem Namespaces.isSome_of_keyword? {ns : Namespaces} (h : (ns.keyword? package name).isSome) :
    (ns.function? package name).isSome := by
  by_contra hnone
  rw [keyword?, if_neg hnone] at h
  cases h

namespace Parse

variable {α : Type} {x : Parse α}

/-- **What becomes of a keyword when its scope has ended.**  Every run has moments, of which any two
are one later than the other.  At one of them, `r`, a name has no function and a block is read, up
to `s`.  If the name is given to no subroutine in the block, a keyword that is installed there stays
declared, but it is dead at `s`, if no scope has put the name back twice.  At every later `t`, until
a keyword is installed for the name again, that keyword is alive exactly if the name has got a
function, by a subroutine; and only then it has been dispatched. -/
theorem keyword_after_scope (hx : EntryPoint α x) (setting : Setting) (text : String) :
    (∃ ms, Turns x (setting.parser text) ms) ∧ ∀ ms, Turns x (setting.parser text) ms →
      ms.head? = some (setting.parser text) ∧
      (∀ a q, x (setting.parser text) = .ok a q → ms.getLast? = some q) ∧
      (ms.Pairwise fun r s => ∃ events, Later events r s) ∧
      ∀ r ∈ ms, ∀ {package name : String} {fuel : Nat} {nodes : List Node} {s t : Parser}
        {inside after : List Event},
        r.namespaces.function? package name = none → blockWithin fuel r = .ok nodes s →
        Later inside r s → Later after s t → (∀ event ∈ after, ¬ event.Installs package name) →
        (.defined package name ∉ inside →
          ((∃ event ∈ inside, event.Installs package name) →
            (s.namespaces.declaredKeyword? package name).isSome) ∧
          (RestoresOnce package name inside →
            s.namespaces.function? package name = none ∧
              s.namespaces.keyword? package name = none)) ∧
        ((s.namespaces.function? package name).isSome ∨ .defined package name ∈ after →
          t.namespaces.keyword? package name = s.namespaces.declaredKeyword? package name) ∧
        (s.namespaces.function? package name = none → .defined package name ∉ after →
          t.namespaces.keyword? package name = none) ∧
        ∀ site later earlier, after = later ++ .dispatched site :: earlier →
          site.package = package → site.word = name →
          (s.namespaces.function? package name).isSome ∨ .defined package name ∈ earlier := by
  obtain ⟨hmoments, hruns⟩ := hx.turns (setting.parser text)
  refine ⟨hmoments, fun ms hms => ?_⟩
  obtain ⟨hfirst, hlast, hpairwise⟩ := hruns ms hms
  refine ⟨hfirst, hlast, hpairwise, ?_⟩
  intro r hr package name fuel nodes s t inside after hnone hblock hinside hafter hinstalls
  obtain ⟨before, hbefore⟩ := Turns.later hms hr
  have hpending : r.pending package name = [] := hbefore.pending_of_start hnone
  have hpending' : s.pending package name = [] := (pending_of_block hblock).trans hpending
  obtain ⟨hkeyword, hfunction⟩ := hafter.idle hpending' hinstalls
  refine ⟨fun hsub => ⟨fun hinstalled => ?_, fun honce => ?_⟩, fun hlives => ?_,
    fun hdead hsub => ?_, ?_⟩
  · have hsound : r.Sound package name := by
      constructor
      · rw [Namespaces.meaning, hnone]
        intro h
        cases h
      · rw [hpending]
        exact List.forall_mem_nil _
    exact (hinside.declared hsub hsound).2 (.inr hinstalled)
  · obtain ⟨hkeeps, -⟩ := (ScopeRead.block hblock hinside.journal).keeps hsub
    have hmeaning : s.namespaces.meaning package name = r.namespaces.meaning package name := by
      rcases hkeeps.once honce with ⟨-, heq⟩ | hfirst
      · exact heq
      · cases hfirst
    have hdead : s.namespaces.function? package name = none :=
      (congrArg Prod.fst hmeaning).trans hnone
    exact ⟨hdead, by rw [Namespaces.keyword?, hdead]; rfl⟩
  · rw [Namespaces.keyword?, if_pos (hfunction.2 hlives), hkeyword]
  · have hdead' : ¬ (t.namespaces.function? package name).isSome := by
      rw [hfunction, hdead]
      rintro (h | h)
      · cases h
      · exact hsub h
    rw [Namespaces.keyword?, if_neg hdead']
  · rintro site later earlier rfl rfl rfl
    obtain ⟨u, v, hearlier, hturn, -⟩ := hafter.split rfl rfl
    rw [List.forall_mem_append, List.forall_mem_cons] at hinstalls
    have hlive := hturn.live List.mem_cons_self
    exact (hearlier.idle hpending' hinstalls.2.2).2.1 (Namespaces.isSome_of_keyword? hlive)

/-- A block that installs a keyword; behind it a subroutine of its name, and a declaration. -/
def takenOver : String := "\x7b use module; 1 \x7d sub module \x7b 2 \x7d; module Foo \x7b 3 \x7d"

/-- The events of a block that installs a keyword. -/
def installsOne (package name : String) : List Event → Bool
  | [.ran _ _, .closed, .registered hook, .opened] => (hook.restored? package name).isSome
  | _ => false

theorem of_installsOne {events : List Event} (h : installsOne package name events = true) :
    .defined package name ∉ events ∧ (∃ event ∈ events, event.Installs package name) ∧
      RestoresOnce package name events := by
  match events, h with
  | [.ran _ _, .closed, .registered hook, .opened], h =>
    exact ⟨by simp, ⟨.registered hook, by simp, hook, rfl, h⟩,
      by simp [RestoresOnce, Event.restored?, Event.isClosed]⟩

/-- The events of a subroutine whose body does nothing but compute. -/
def definesOne (package name : String) : List Event → Bool
  | [.defined package' name', .closed, .opened] => package' == package && name' == name
  | _ => false

theorem of_definesOne {events : List Event} (h : definesOne package name events = true) :
    .defined package name ∈ events ∧ ∀ event ∈ events, ¬ event.Installs package name := by
  match events, h with
  | [.defined package' name', .closed, .opened], h =>
    obtain ⟨rfl, rfl⟩ : package' = package ∧ name' = name := by simpa [definesOne] using h
    exact ⟨List.mem_cons_self, by simp [Event.Installs]⟩

/-- The keyword is dead behind the block, and it is alive behind the subroutine. -/
theorem keyword_after_scope_module :
    let p := ({} : Setting).parser takenOver
    ∃ nodes s node t ms inside after, block p = .ok nodes s ∧ statement s = .ok node t ∧
      Turns block p ms ∧ p ∈ ms ∧ Later inside p s ∧ .defined "main" "module" ∉ inside ∧
      (∃ event ∈ inside, event.Installs "main" "module") ∧ RestoresOnce "main" "module" inside ∧
      Later after s t ∧ (∀ event ∈ after, ¬ event.Installs "main" "module") ∧
      p.namespaces.function? "main" "module" = none ∧
      s.namespaces.keyword? "main" "module" = none ∧
      (t.namespaces.keyword? "main" "module").isSome := by
  intro p
  have hread : Run.passes (fun _ s => installsOne "main" "module" s.journal &&
      Run.passes (fun _ t => definesOne "main" "module" (t.since s)) (statement s)) (block p) =
        true := by decide +kernel
  obtain ⟨nodes, s, hblock, hread⟩ := Run.passes_iff.1 hread
  rw [Bool.and_eq_true] at hread
  obtain ⟨node, t, hstatement, hdefines⟩ := Run.passes_iff.1 hread.2
  obtain ⟨inside, hinside⟩ := later_of_visited (compositional_turns.entryPoint .block _) hblock
  obtain ⟨after, hafter⟩ :=
    later_of_visited (compositional_turns.entryPoint .statement _) hstatement
  have hjournal : s.journal = inside := hinside.journal.trans (List.append_nil inside)
  rw [hjournal] at hread
  rw [← hafter.eq_since] at hdefines
  obtain ⟨hsub, hinstalled, honce⟩ := of_installsOne hread.1
  obtain ⟨hdefined, hinstalls⟩ := of_definesOne hdefines
  have hnone : p.namespaces.function? "main" "module" = none := by decide +kernel
  have hwithin := hblock
  rw [block, withFuel_apply] at hwithin
  obtain ⟨⟨ms, hms⟩, hmoments⟩ := keyword_after_scope .block {} takenOver
  obtain ⟨hfirst, -, -, hscopes⟩ := hmoments ms hms
  have hp : p ∈ ms := List.mem_of_mem_head? hfirst
  obtain ⟨hscope, hlives, -, -⟩ := hscopes p hp hnone hwithin hinside hafter hinstalls
  obtain ⟨hdeclared, hdead⟩ := hscope hsub
  refine ⟨nodes, s, node, t, ms, inside, after, hblock, hstatement, hms, hp, hinside, hsub,
    hinstalled, honce, hafter, hinstalls, hnone, (hdead honce).2, ?_⟩
  rw [hlives (.inr hdefined)]
  exact hdeclared hinstalled

/-- **A subroutine of its name revives a keyword whose scope has ended.**  No keyword is installed
behind the block, and yet one is dispatched. -/
theorem subroutine_revives_keyword :
    let p := ({} : Setting).parser takenOver
    p.namespaces.function? "main" "module" = none ∧
      p.namespaces.keyword? "main" "module" = none ∧
      ∃ nodes s nodes' t after site, block p = .ok nodes s ∧
        (∃ event ∈ s.journal, event.Installs "main" "module") ∧
        s.namespaces.function? "main" "module" = none ∧
        s.namespaces.keyword? "main" "module" = none ∧
        statements none s = .ok nodes' t ∧ Later after s t ∧
        (∀ event ∈ after, ¬ event.Installs "main" "module") ∧
        .dispatched site ∈ after ∧ site.package = "main" ∧ site.word = "module" := by
  intro p
  have hread : Run.passes (fun _ s => s.journal.any (·.Installs "main" "module") &&
      (s.namespaces.function? "main" "module").isNone && Run.passes (fun _ t =>
        (t.since s).all (fun event => ¬ event.Installs "main" "module") &&
        ((t.since s).filterMap Event.site?).any
          (fun site => site.package == "main" && site.word == "module")) (statements none s))
      (block p) = true := by decide +kernel
  obtain ⟨nodes, s, hblock, hread⟩ := Run.passes_iff.1 hread
  rw [Bool.and_eq_true, Bool.and_eq_true, Option.isNone_iff_eq_none, List.any_eq_true] at hread
  obtain ⟨⟨⟨event, hevent, hinstalled⟩, hnone⟩, hread⟩ := hread
  obtain ⟨nodes', t, hstatements, hread⟩ := Run.passes_iff.1 hread
  obtain ⟨after, hafter⟩ :=
    later_of_visited (compositional_turns.entryPoint (.statements none) _) hstatements
  rw [← hafter.eq_since, Bool.and_eq_true, List.all_eq_true, List.any_eq_true] at hread
  obtain ⟨hinstalls, site, hsite, hword⟩ := hread
  rw [Bool.and_eq_true, beq_iff_eq, beq_iff_eq] at hword
  refine ⟨by decide +kernel, by decide +kernel, nodes, s, nodes', t, after, site, hblock,
    ⟨event, hevent, by simpa using hinstalled⟩, hnone, ?_, hstatements, hafter,
    fun event hevent => by simpa using hinstalls event hevent,
    mem_filterMap_site?.1 hsite, hword⟩
  rw [Namespaces.keyword?, hnone]
  rfl

end Parse

end BraceScript
