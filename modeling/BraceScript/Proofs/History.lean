import BraceScript.Proofs.Discipline
import BraceScript.Proofs.Restoration

/-!
# The history of a parse

A parse goes from state to state in turns (`Turn`), each with the events that it adds to the
journal.  A turn reads, opens or closes a scope, defines a subroutine, installs or dispatches a
keyword, or lets a finalizer wait.  The states that turns lead to are the later ones (`Later`); an
event between two states has a turn of its own (`Later.split`).

Every run has moments, and of any two of them one is later than the other
(`Parse.EntryPoint.turns`): what is shown of later states holds at every moment of a parse.
-/

namespace BraceScript

open Parse

namespace Parser

/-- The parser after a subroutine was read. -/
def defining (p : Parser) (package name : String) (body : List Node) : Parser :=
  { p with
    namespaces := p.namespaces.installFunction package name (.subroutine name package body) }.note
    (.defined package name)

/-- What has happened since an earlier state, latest first. -/
def since (q p : Parser) : List Event := q.journal.take (q.journal.length - p.journal.length)

end Parser

/-- One turn of a parse, with what it adds to the journal, latest first. -/
inductive Turn : List Event → Parser → Parser → Prop
  /-- No record of a name has changed, and the scopes have the hooks that they had. -/
  | quiet {p q : Parser}
      (hfunction : ∀ package name,
        q.namespaces.function? package name = p.namespaces.function? package name)
      (hkeyword : ∀ package name,
        q.namespaces.declaredKeyword? package name = p.namespaces.declaredKeyword? package name)
      (hhooks : q.scopes.map Scope.hooks = p.scopes.map Scope.hooks)
      (hjournal : q.journal = p.journal) : Turn [] p q
  | began (offset : Nat) (p : Parser) : Turn [.began offset] p (p.note (.began offset))
  /-- A live keyword has expanded its declaration. -/
  | dispatched {site : Site} {p : Parser} (buffer : Buffer)
      (hlive : (p.namespaces.keyword? site.package site.word).isSome) :
      Turn [.dispatched site] p ({ p with buffer }.note (.dispatched site))
  | opened (p : Parser) : Turn [.opened] p p.opened
  | waits {p q : Parser} (h : closeAtScopeEnd p = .ok () q) :
      Turn [.registered (.finalize p.finalizers.length)] p q
  | defined (package name : String) (body : List Node) (p : Parser) :
      Turn [.defined package name] p (p.defining package name body)
  | installed {feature : BlockFeature} {target : String} {options : KeywordOptions} {p q : Parser}
      (h : installKeyword feature target options p = .ok () q) :
      Turn [.registered (p.restoring target options.spelling)] p q
  /-- The innermost scope has been closed, and all its hooks have run. -/
  | closed {scope : Scope} {p q : Parser} (hscopes : p.scopes = scope :: q.scopes)
      (h : closeScope p = .ok () q) :
      Turn ((scope.hooks.map (.ran · p.pos)).reverse ++ [.closed]) p q

/-- The second state is a later one of a parse; the events are those in between, latest first. -/
inductive Later : List Event → Parser → Parser → Prop
  | refl (p : Parser) : Later [] p p
  | turn {before events : List Event} {p q r : Parser} (h : Later before p q)
      (hturn : Turn events q r) : Later (events ++ before) p r

variable {before events after : List Event} {event : Event} {p q r : Parser}

theorem Turn.refl (p : Parser) : Turn [] p p := .quiet (fun _ _ => rfl) (fun _ _ => rfl) rfl rfl

theorem Turn.journal (h : Turn events p q) : q.journal = events ++ p.journal := by
  cases h with
  | quiet _ _ _ hjournal => exact hjournal
  | began => rfl
  | dispatched => rfl
  | opened => rfl
  | waits h =>
    obtain ⟨scope, scopes, -, rfl⟩ := closeAtScopeEnd_eq_ok.1 h
    rfl
  | defined => rfl
  | installed h =>
    obtain ⟨features, scope, scopes, -, -, rfl⟩ := installKeyword_eq_ok h
    rfl
  | closed hscopes h =>
    obtain ⟨scope, hscopes', -, hjournal⟩ := closeScope_journal h
    obtain ⟨rfl, -⟩ := List.cons.inj (hscopes.symm.trans hscopes')
    simpa using hjournal

theorem Turn.later (h : Turn events p q) : Later events p q :=
  List.append_nil events ▸ (Later.refl p).turn h

theorem Later.trans (h : Later before p q) (h' : Later after q r) :
    Later (after ++ before) p r := by
  induction h' with
  | refl => exact h
  | turn _ hturn ih => simpa using (ih h).turn hturn

theorem Later.journal (h : Later events p q) : q.journal = events ++ p.journal := by
  induction h with
  | refl => rfl
  | turn _ hturn ih => rw [hturn.journal, ih, List.append_assoc]

theorem Later.eq_since (h : Later events p q) : events = q.since p := by
  rw [Parser.since, h.journal, List.length_append, Nat.add_sub_cancel, List.take_left]

/-- Only the end of a scope adds more than one event. -/
theorem Turn.eq_singleton (h : Turn events p q) (hmem : event ∈ events)
    (hran : event.ran? = none) (hclosed : event.isClosed = false) : events = [event] := by
  cases h with
  | quiet => cases hmem
  | closed =>
    rcases List.mem_append.1 hmem with hmem | hmem
    · obtain ⟨hook, -, rfl⟩ := List.mem_map.1 (List.mem_reverse.1 hmem)
      cases hran
    · obtain rfl := List.mem_singleton.1 hmem
      cases hclosed
  | _ =>
    obtain rfl := List.mem_singleton.1 hmem
    rfl

/-- What is dispatched is a live keyword. -/
theorem Turn.live {site : Site} (h : Turn events p q) (hmem : .dispatched site ∈ events) :
    (p.namespaces.keyword? site.package site.word).isSome := by
  cases h with
  | dispatched buffer hlive =>
    obtain ⟨rfl⟩ := List.mem_singleton.1 hmem
    exact hlive
  | closed => simp at hmem
  | _ => simp at hmem

/-- An event in a history has a turn of its own there. -/
theorem Later.split (h : Later (after ++ event :: before) p q)
    (hran : event.ran? = none) (hclosed : event.isClosed = false) :
    ∃ r s, Later before p r ∧ Turn [event] r s ∧ Later after s q := by
  generalize hall : after ++ event :: before = all at h
  induction h generalizing after with
  | refl => simp at hall
  | @turn earlier events p r q h hturn ih =>
    have hcontinue (rest : List Event) (hafter : after = events ++ rest)
        (hearlier : rest ++ event :: before = earlier) :
        ∃ r s, Later before p r ∧ Turn [event] r s ∧ Later after s q := by
      obtain ⟨u, v, hbefore, hevent, hrest⟩ := ih hearlier
      exact ⟨u, v, hbefore, hevent, hafter ▸ hrest.turn hturn⟩
    -- the event is one of the last turn, or of a turn before it
    rcases List.append_eq_append_iff.1 hall with ⟨own, hevents, hown⟩ | ⟨rest, hafter, hearlier⟩
    · cases own with
      | nil => exact hcontinue [] (by simpa using hevents.symm) hown
      | cons _ own =>
        obtain ⟨rfl, rfl⟩ := List.cons.inj hown
        have hsingle := hturn.eq_singleton (by simp [hevents]) hran hclosed
        rw [hsingle] at hevents hturn
        obtain ⟨rfl, hown⟩ := List.append_eq_singleton_iff.1 hevents.symm |>.resolve_right (by simp)
        obtain rfl : own = [] := by simpa using hown
        exact ⟨r, q, h, hturn, .refl q⟩
    · exact hcontinue rest hafter hearlier.symm

/-! ### Every run goes in turns -/

namespace Parse

variable {α β : Type} {x : Parse α} {f : α → Parse β} {p q : Parser} {ms : List Parser}

/-- The moments of the parts of a run: those before and after a turn.  A run that fails to install a
keyword, or to close a scope, ends with the moment before. -/
inductive TurnPart : (α : Type) → Parse α → Parser → List Parser → Prop
  | turn {α : Type} {x : Parse α} {p : Parser} {events : List Event}
      (h : Turn events p (Run.final (x p))) : TurnPart α x p [p, Run.final (x p)]
  | refused {feature : BlockFeature} {target : String} {options : KeywordOptions} {p q : Parser}
      {e : Error} (h : installKeyword feature target options p = .error e q) :
      TurnPart Unit (installKeyword feature target options) p [p]
  | unclosed {p q : Parser} {e : Error} (h : closeScope p = .error e q) :
      TurnPart Unit closeScope p [p]

/-- The moments of a run, one turn apart. -/
abbrev Turns (x : Parse α) (p : Parser) (ms : List Parser) : Prop := Run.Moments TurnPart x p ms

theorem visited_turn {e : List Event} (h : Turn e p (Run.final (x p))) :
    Run.Visited TurnPart x p := ⟨_, .part (.turn h)⟩

/-- What changes neither packages, scopes nor journal is a turn without an event. -/
theorem visited_quiet (hnamespaces : (Run.final (x p)).namespaces = p.namespaces)
    (hscopes : (Run.final (x p)).scopes = p.scopes)
    (hjournal : (Run.final (x p)).journal = p.journal) : Run.Visited TurnPart x p :=
  visited_turn (.quiet (by simp [hnamespaces]) (by simp [hnamespaces]) (by rw [hscopes]) hjournal)

theorem turned_read {r : Reader α} (p : Parser) : Run.Visited TurnPart (read r) p := by
  have hfinal : ∃ pos, Run.final (read r p) = { p with pos } := by
    simp only [read]
    cases r p.unread <;> exact ⟨_, rfl⟩
  obtain ⟨pos, hfinal⟩ := hfinal
  exact visited_quiet (by rw [hfinal]) (by rw [hfinal]) (by rw [hfinal])

theorem turned_enterPackage (name : String) (p : Parser) :
    Run.Visited TurnPart (enterPackage name) p := by
  cases hscopes : p.scopes with
  | nil =>
    have hfinal : Run.final (enterPackage name p) = p := by
      rw [enterPackage, Run.get_bind, hscopes]
      rfl
    exact visited_turn (e := []) (by rw [hfinal]; exact .refl p)
  | cons scope scopes =>
    have hok : enterPackage name p =
        .ok () { p with scopes := { scope with package := name } :: scopes } :=
      enterPackage_eq_ok.2 ⟨scope, scopes, hscopes, rfl⟩
    refine visited_turn (e := []) ?_
    rw [hok]
    exact .quiet (fun _ _ => rfl) (fun _ _ => rfl) (by simp [hscopes, Run.final]) rfl

theorem turned_installKeyword (feature : BlockFeature) (target : String) (options : KeywordOptions)
    (p : Parser) : Run.Visited TurnPart (installKeyword feature target options) p := by
  cases h : installKeyword feature target options p with
  | ok u q => exact visited_turn (by rw [h]; exact .installed h)
  | error e q => exact ⟨_, .part (.refused h)⟩

theorem turned_closeAtScopeEnd (p : Parser) : Run.Visited TurnPart closeAtScopeEnd p := by
  cases hscopes : p.scopes with
  | nil =>
    have hfinal : Run.final (closeAtScopeEnd p) =
        { p with finalizers := p.finalizers ++ [{ armed := true }] } := by
      rw [closeAtScopeEnd_apply, onScopeEnd, Run.get_bind]
      simp only [hscopes]
      rfl
    exact visited_quiet (by rw [hfinal]) (by rw [hfinal]) (by rw [hfinal])
  | cons scope scopes =>
    have hok := (closeAtScopeEnd_eq_ok (u := ())).2 ⟨scope, scopes, hscopes, rfl⟩
    exact visited_turn (by rw [hok]; exact .waits hok)

theorem turned_closeScope (p : Parser) : Run.Visited TurnPart closeScope p := by
  cases h : closeScope p with
  | ok u q =>
    obtain ⟨scope, hscopes, -⟩ := closeScope_journal h
    exact visited_turn (by rw [h]; exact .closed hscopes h)
  | error e q => exact ⟨_, .part (.unclosed h)⟩

theorem turned_dispatch {keyword : Keyword} {declarator : String}
    (hlive : p.namespaces.keyword? p.currentPackage declarator = some keyword) :
    Run.Visited TurnPart (dispatch keyword p.pos declarator) p := by
  cases keyword with
  | idle => exact visited_turn (.refl p)
  | expand feature options =>
    cases hexpand : Declaration.expand feature options p.currentPackage declarator
        ⟨p.buffer, p.pos⟩ with
    | ok declaration c =>
      have hdispatch := (dispatch_expand_eq_ok (u := ())).2 ⟨declaration, c, hexpand, rfl⟩
      refine visited_turn (e := [.dispatched
        ⟨p.pos, declarator, p.currentPackage, feature, options, declaration⟩]) ?_
      rw [hdispatch]
      exact .dispatched c.buffer (Option.isSome_of_eq_some hlive)
    | error e c =>
      have hfinal := congrArg Run.final (dispatch_expand_eq_error.2 ⟨c, hexpand, rfl⟩)
      exact visited_quiet (by rw [hfinal]; rfl) (by rw [hfinal]; rfl) (by rw [hfinal]; rfl)

/-- **All reading goes in turns.** -/
theorem compositional_turns : Compositional fun _ x p => Run.Visited TurnPart x p where
  bind_of_ok := Run.Visited.bind
  pure _ p := visited_turn (.refl p)
  get p := visited_turn (.refl p)
  throw _ p := visited_turn (.refl p)
  failAt _ _ p := visited_turn (.refl p)
  read _ := turned_read
  declare _ _ := visited_turn (e := [])
    (.quiet (fun _ _ => Namespaces.function?_declare ..)
      (fun _ _ => Namespaces.declaredKeyword?_declare ..) rfl rfl)
  enterPackage _ := turned_enterPackage _
  define package name body p := visited_turn (.defined package name body p)
  began offset p := visited_turn (.began offset p)
  installKeyword := turned_installKeyword
  openScope p := visited_turn (.opened p)
  closeAtScopeEnd := turned_closeAtScopeEnd
  closeScope := turned_closeScope
  dispatch := turned_dispatch

/-- The moments of a run begin with its start, are one turn apart, and end with its end if it
succeeds. -/
theorem Turns.chain (h : Turns x p ms) :
    ms.IsChain (fun r s => ∃ events, Later events r s) ∧ ms.head? = some p ∧
      ∀ a q, x p = .ok a q → ms.getLast? = some q := by
  induction h with
  | part h =>
    cases h with
    | turn h => exact ⟨by simpa using ⟨_, h.later⟩, rfl, fun a q hok => by rw [hok]; rfl⟩
    | refused h => exact ⟨.singleton _, rfl, fun a q hok => nomatch h.symm.trans hok⟩
    | unclosed h => exact ⟨.singleton _, rfl, fun a q hok => nomatch h.symm.trans hok⟩
  | bind hx h hf ihx ihf =>
    obtain ⟨hchain, hfirst, hlast⟩ := ihx
    obtain ⟨hchain', hfirst', hlast'⟩ := ihf
    refine ⟨hchain.append hchain' fun r hr s hs => ?_, ?_, fun b q hok => ?_⟩
    · rw [hlast _ _ h, Option.mem_some_iff] at hr
      rw [hfirst', Option.mem_some_iff] at hs
      exact ⟨[], hr ▸ hs ▸ .refl _⟩
    · rw [List.head?_append, hfirst]
      rfl
    · rw [Run.bind_of_ok h] at hok
      rw [List.getLast?_append, hlast' _ _ hok]
      rfl
  | stop hx h ih =>
    refine ⟨ih.1, ih.2.1, fun b q hok => ?_⟩
    obtain ⟨a, r, ha, -⟩ := Run.bind_eq_ok.1 hok
    cases h.symm.trans ha

theorem Turns.pairwise (h : Turns x p ms) : ms.Pairwise fun r s => ∃ events, Later events r s := by
  have : IsTrans Parser fun r s => ∃ events, Later events r s :=
    ⟨fun _ _ _ ⟨_, h⟩ ⟨_, h'⟩ => ⟨_, h.trans h'⟩⟩
  exact List.isChain_iff_pairwise.1 (Turns.chain h).1

/-- Every moment of a run is later than its start. -/
theorem Turns.later (h : Turns x p ms) (hq : q ∈ ms) : ∃ events, Later events p q := by
  obtain ⟨tail, rfl⟩ := List.head?_eq_some_iff.1 (Turns.chain h).2.1
  rcases List.mem_cons.1 hq with rfl | hq
  · exact ⟨[], .refl q⟩
  · exact (List.pairwise_cons.1 (Turns.pairwise h)).1 q hq

/-- What is read is a history. -/
theorem later_of_visited {a : α} (hx : Run.Visited TurnPart x p) (h : x p = .ok a q) :
    ∃ events, Later events p q := by
  obtain ⟨ms, hms⟩ := hx
  exact Turns.later hms (List.mem_of_getLast? ((Turns.chain hms).2.2 a q h))

/-- **Every run has moments, and of any two of them one is later than the other.** -/
theorem EntryPoint.turns (hx : EntryPoint α x) (p : Parser) :
    (∃ ms, Turns x p ms) ∧ ∀ ms, Turns x p ms → ms.head? = some p ∧
      (∀ a q, x p = .ok a q → ms.getLast? = some q) ∧
      ms.Pairwise fun r s => ∃ events, Later events r s :=
  ⟨compositional_turns.entryPoint hx p, fun _ hms =>
    ⟨(Turns.chain hms).2.1, (Turns.chain hms).2.2, Turns.pairwise hms⟩⟩

end Parse

end BraceScript
