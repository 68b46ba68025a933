import BraceScript.Proofs.Consumption
import Mathlib.Logic.Relation

/-!
# Every scope hook runs once, when its scope closes

The journal of a parse is read as a tree of scopes (`Scoped`): a block opens, registers hooks and
contains blocks of its own, and when it closes, the hooks that were registered with it run in the
order of their registration, all of them with the parser just behind the closing brace.  Reading
keeps this shape (`Disciplined`), so a whole parse has it (`Parse.scope_hooks_discipline`): no hook
is forgotten, none runs twice, and the hooks of an inner scope run before those of the scopes
around it.  A block leaves the scopes around it as they were.

What the journal notes as run was run (`Parse.ran_took_effect`): a run of the parser goes by steps
that either run a hook, with all that it does to packages and text, or note nothing as run
(`Parser.HookStep`).
-/

namespace BraceScript

open Lexeme (significant IsWord)
open Parse

namespace Event

/-- The hook that was registered. -/
def registered? : Event → Option ScopeHook
  | registered hook => some hook
  | _ => none

/-- The hook that was run. -/
def ran? : Event → Option ScopeHook
  | ran hook _ => some hook
  | _ => none

/-- The event has to do with scopes and their hooks. -/
def isScoping : Event → Bool
  | opened | closed | registered _ | ran _ _ => true
  | dispatched _ | began _ | defined _ _ => false

end Event

/-! ### Trees of scopes -/

/-- Events of one scope and of the blocks in it, in the order in which they happened, while `text`
was read.  `hooks` are those that were registered with the scope itself; they have not run yet.
The hooks of a block in it have run, each once and in order, just behind the brace that closes the
block. -/
inductive Scoped (text : List Char) : List Event → List ScopeHook → Prop
  | nil : Scoped text [] []
  | other {event : Event} {events : List Event} {hooks : List ScopeHook}
      (h : event.isScoping = false) (more : Scoped text events hooks) :
      Scoped text (event :: events) hooks
  | registered (hook : ScopeHook) {events : List Event} {hooks : List ScopeHook}
      (more : Scoped text events hooks) :
      Scoped text (.registered hook :: events) (hook :: hooks)
  | block {inner events : List Event} {own hooks : List ScopeHook} {brace : Nat}
      (hinner : Scoped text inner own) (hbrace : text[brace]? = some '\x7d')
      (more : Scoped text events hooks) :
      Scoped text
        (.opened :: (inner ++ .closed :: (own.map (.ran · (brace + 1)) ++ events))) hooks

namespace Scoped

variable {text text' : List Char} {e e₁ e₂ : List Event} {h h₁ h₂ : List ScopeHook}

/-- What was read stays read. -/
theorem mono (hbefore : text <+: text') (hs : Scoped text e h) : Scoped text' e h := by
  induction hs with
  | nil => exact .nil
  | other hother _ ih => exact .other hother ih
  | registered hook _ ih => exact .registered hook ih
  | block _ hbrace _ ihinner ih =>
    obtain ⟨more, rfl⟩ := hbefore
    refine .block ihinner ?_ ih
    obtain ⟨hlt, hget⟩ := List.getElem?_eq_some_iff.1 hbrace
    rw [List.getElem?_append_left hlt, hbrace]

/-- One stretch of a scope after another. -/
theorem append (hs₁ : Scoped text e₁ h₁) (hs₂ : Scoped text e₂ h₂) :
    Scoped text (e₁ ++ e₂) (h₁ ++ h₂) := by
  induction hs₁ with
  | nil => exact hs₂
  | other hother _ ih => exact .other hother ih
  | registered hook _ ih => exact .registered hook ih
  | block hinner hbrace _ _ ih => simpa using Scoped.block hinner hbrace ih

theorem singleton {event : Event} (hother : event.isScoping = false) : Scoped text [event] [] :=
  .other hother .nil

theorem filterMap_ran?_ran (hooks : List ScopeHook) (pos : Nat) :
    (hooks.map (Event.ran · pos)).filterMap Event.ran? = hooks := by
  rw [List.filterMap_map]
  exact List.filterMap_some

theorem filterMap_registered?_ran (hooks : List ScopeHook) (pos : Nat) :
    (hooks.map (Event.ran · pos)).filterMap Event.registered? = [] := by
  rw [List.filterMap_map]
  exact List.filterMap_none hooks

/-- The hooks that have run, and those that wait, are the hooks that were registered. -/
theorem perm (hs : Scoped text e h) :
    (e.filterMap Event.ran? ++ h).Perm (e.filterMap Event.registered?) := by
  induction hs with
  | nil => exact .nil
  | @other event events hooks hother _ ih =>
    have hran : event.ran? = none := by cases event <;> first | rfl | cases hother
    have hregistered : event.registered? = none := by cases event <;> first | rfl | cases hother
    rwa [List.filterMap_cons_none hran, List.filterMap_cons_none hregistered]
  | registered hook _ ih => exact List.perm_middle.trans (ih.cons hook)
  | @block inner events own hooks brace _ _ _ ihinner ih =>
    -- the opening and the closing of the block are neither registrations nor runs
    change (List.filterMap Event.ran? (inner ++ .closed :: (_ ++ events)) ++ hooks).Perm
      (List.filterMap Event.registered? (inner ++ .closed :: (_ ++ events)))
    simp only [List.filterMap_append, List.filterMap_cons_none (show Event.closed.ran? = none
      from rfl), List.filterMap_cons_none (show Event.closed.registered? = none from rfl),
      filterMap_ran?_ran, filterMap_registered?_ran, List.nil_append]
    rw [← List.append_assoc, List.append_assoc]
    exact ihinner.append ih

end Scoped

/-! ### What the parser has read -/

namespace Parser

/-- The text in front of the position. -/
def consumed (p : Parser) : List Char := p.buffer.text.take p.pos

variable {p q : Parser}

theorem Keeps.of_eq (hbuffer : q.buffer = p.buffer) (hpos : q.pos = p.pos) : p.Keeps q :=
  (Step.other hbuffer hpos).keeps

theorem Keeps.consumed (h : p.Keeps q) : p.consumed <+: q.consumed := by
  rw [Parser.consumed, ← h.text, ← Nat.min_eq_left h.pos, ← List.take_take]
  exact List.take_prefix _ _

/-- A character that was passed has been read. -/
theorem getElem?_consumed_move (p : Parser) {c : Char} {rest : List Char}
    (h : p.unread = c :: rest) : (p.move 1).consumed[p.pos]? = some c := by
  have hget : (p.buffer.text.drop p.pos)[0]? = some c := by
    rw [show p.buffer.text.drop p.pos = c :: rest from h]
    rfl
  rw [consumed, List.getElem?_take_of_lt (by simp)]
  rwa [List.getElem?_drop, Nat.add_zero] at hget

end Parser

namespace Parse

variable {α : Type} {x : Parse α} {p q : Parser}

/-- A run that goes step by step keeps what was read before it. -/
theorem keeps_of_visited (hx : Run.Visited Part x p) : p.Keeps (Run.final (x p)) := by
  obtain ⟨ms, hms⟩ := hx
  have htrace := Moments.trace hms
  obtain ⟨tail, rfl⟩ := List.head?_eq_some_iff.1 htrace.first
  rcases List.mem_cons.1 (List.mem_of_getLast? htrace.last) with heq | hmem
  · rw [heq]
    exact (Parser.Step.refl p).keeps
  · exact (List.pairwise_cons.1 (Moments.pairwise hms)).1 _ hmem

/-- A scope that closes is noted, and then its hooks run. -/
theorem closeScope_journal (h : closeScope p = .ok () q) :
    ∃ scope, p.scopes = scope :: q.scopes ∧ q.pos = p.pos ∧
      q.journal = (scope.hooks.map (.ran · p.pos)).reverse ++ .closed :: p.journal := by
  obtain ⟨scope, scopes, hscopes, hhooks⟩ := closeScope_eq_ok.1 h
  have hruns := hooksRun_of_forM hhooks
  exact ⟨scope, by rw [hruns.scopes]; exact hscopes, hruns.pos, hruns.journal⟩

end Parse

/-! ### Reading keeps the discipline -/

theorem Grown.of_cons {hooks : List ScopeHook} {scope : Scope} {scopes scopes' : List Scope}
    (h : Grown hooks scopes' (scope :: scopes)) :
    ∃ scope', scopes' = scope' :: scopes ∧ scope.hooks = scope'.hooks ++ hooks := by
  cases h with
  | innermost _ hhooks _ => exact ⟨_, rfl, hhooks⟩

/-- What a stretch of reading in one scope has done: its events are a tree of scopes, and its hooks
wait at the end of the innermost scope.  The scopes around it are as they were. -/
structure Disciplined (events : List Event) (hooks : List ScopeHook) (p q : Parser) : Prop where
  tree : Scoped q.consumed events hooks
  journal : q.journal = events.reverse ++ p.journal
  scopes : Grown hooks p.scopes q.scopes
  keeps : p.Keeps q

namespace Disciplined

variable {e e₁ e₂ : List Event} {h h₁ h₂ : List ScopeHook} {p q r : Parser}

theorem trans (hpq : Disciplined e₁ h₁ p q) (hqr : Disciplined e₂ h₂ q r) :
    Disciplined (e₁ ++ e₂) (h₁ ++ h₂) p r where
  tree := (hpq.tree.mono hqr.keeps.consumed).append hqr.tree
  journal := by rw [hqr.journal, hpq.journal, List.reverse_append, List.append_assoc]
  scopes := hpq.scopes.trans hqr.scopes
  keeps := hpq.keeps.trans hqr.keeps

/-- Nothing but the position and the buffer has changed. -/
theorem silent (hjournal : q.journal = p.journal) (hscopes : q.scopes = p.scopes)
    (hkeeps : p.Keeps q) : Disciplined [] [] p q :=
  ⟨.nil, hjournal, hscopes ▸ .refl _, hkeeps⟩

theorem move (h : IsMove p q) : Disciplined [] [] p q := by
  have hkeeps := (Parser.Step.move h).keeps
  obtain ⟨count, -, rfl⟩ := h
  exact silent rfl rfl hkeeps

theorem installed {feature : BlockFeature} {target : String} {options : KeywordOptions}
    (h : installKeyword feature target options p = .ok () q) :
    ∃ hook, Disciplined [.registered hook] [hook] p q := by
  obtain ⟨features, scope, scopes, -, hscopes, rfl⟩ := installKeyword_eq_ok h
  refine ⟨p.restoring target options.spelling, .registered _ .nil, rfl, ?_,
    .of_eq rfl rfl⟩
  rw [hscopes]
  exact .innermost scopes rfl (.inl rfl)

end Disciplined

/-- A block has been read, from behind its opening brace to behind its closing one: its hooks have
run there, and the scopes around it are as they were. -/
structure BlockRead (events : List Event) (hooks : List ScopeHook) (p q : Parser) : Prop where
  tree : Scoped q.consumed events hooks
  brace : ∃ brace, q.pos = brace + 1 ∧ q.consumed[brace]? = some '\x7d'
  journal : q.journal =
    (Event.opened :: (events ++ .closed :: hooks.map (.ran · q.pos))).reverse ++ p.journal
  scopes : q.scopes = p.scopes
  keeps : p.Keeps q

namespace BlockRead

variable {e : List Event} {h : List ScopeHook} {p q r : Parser}

/-- What is read in a new scope is a block, when the scope closes just behind a brace. -/
theorem of_closeScope {rest : List Char} (hbody : Disciplined e h p.opened q)
    (hbrace : q.unread = '\x7d' :: rest) (hclose : closeScope (q.move 1) = .ok () r) :
    BlockRead e h p r := by
  obtain ⟨scope, hscopes, hpos, hjournal⟩ := closeScope_journal hclose
  have hopened : p.Keeps p.opened := .of_eq rfl rfl
  have hpass : q.Keeps (q.move 1) := (Parser.Step.move ⟨1, by simp [hbrace], rfl⟩).keeps
  have hkeeps : (q.move 1).Keeps r := by
    have hfinal := keeps_of_visited (compositional_visited.closeScope (q.move 1))
    rwa [hclose] at hfinal
  have hgrown : Grown h p.opened.scopes (scope :: r.scopes) := hscopes ▸ hbody.scopes
  obtain ⟨_, hopen, hhooks⟩ := hgrown.of_cons
  obtain ⟨rfl, hsame⟩ := List.cons.inj hopen
  replace hhooks : scope.hooks = h := hhooks
  refine ⟨?_, ⟨q.pos, hpos, ?_⟩, ?_, hsame.symm, ?_⟩
  · exact (hbody.tree.mono hpass.consumed).mono hkeeps.consumed
  · -- the brace has been read, so it is still there when the hooks have run
    obtain ⟨more, hmore⟩ := hkeeps.consumed
    have hread := q.getElem?_consumed_move hbrace
    rw [← hmore, List.getElem?_append_left (List.getElem?_eq_some_iff.1 hread).1, hread]
  · rw [hjournal, hhooks, hpos, show (q.move 1).journal = q.journal from rfl, hbody.journal]
    simp [Parser.opened, Parser.note]
  · exact (hopened.trans hbody.keeps).trans (hpass.trans hkeeps)

theorem disciplined (h : BlockRead e h p q) : ∃ events, Disciplined events [] p q := by
  obtain ⟨brace, hpos, hbrace⟩ := h.brace
  refine ⟨_, ?_, h.journal, h.scopes ▸ .refl _, h.keeps⟩
  have htree := Scoped.block h.tree hbrace .nil
  rwa [← hpos, List.append_nil] at htree

end BlockRead

/-- Reading keeps the discipline of scope hooks. -/
theorem tracks_disciplined : Tracks fun p q => ∃ events hooks, Disciplined events hooks p q where
  trans := by
    rintro p q r ⟨e₁, h₁, hpq⟩ ⟨e₂, h₂, hqr⟩
    exact ⟨_, _, hpq.trans hqr⟩
  move hmove := ⟨_, _, .move hmove⟩
  entered := by
    intro p q name hname h
    obtain ⟨scope, scopes, hscopes, rfl⟩ := enterPackage_eq_ok.1 h
    refine ⟨[], [], .nil, rfl, ?_, .of_eq rfl rfl⟩
    rw [show p.scopes = scope :: scopes from hscopes]
    exact .innermost scopes (by simp) (.inr hname)
  installed := by
    intro p q h
    induction h with
    | refl p => exact ⟨_, _, .move (.refl p)⟩
    | keyword _ _ _ h _ ih =>
      obtain ⟨hook, hfirst⟩ := Disciplined.installed h
      obtain ⟨_, _, hmore⟩ := ih
      exact ⟨_, _, hfirst.trans hmore⟩
  began := by
    intro p q count _ _ hle h
    obtain ⟨scope, scopes, hscopes, rfl⟩ := closeAtScopeEnd_eq_ok.1 h
    refine ⟨[.began p.pos, .registered (.finalize p.finalizers.length)],
      [.finalize p.finalizers.length], .other rfl (.registered _ .nil), rfl, ?_,
      (Parser.Step.move ⟨count, hle, rfl⟩).keeps.trans (.of_eq rfl rfl)⟩
    rw [show p.scopes = scope :: scopes from hscopes]
    exact .innermost scopes rfl (.inl rfl)
  defined p package name function :=
    ⟨[.defined package name], [], .singleton rfl, rfl, .refl _, .of_eq rfl rfl⟩
  block := by
    rintro p q r rest ⟨e, h, hbody⟩ hbrace hclose
    obtain ⟨events, hblock⟩ := (BlockRead.of_closeScope hbody hbrace hclose).disciplined
    exact ⟨events, [], hblock⟩

/-- An expansion edits the text ahead and is noted; what has been expanded is then read. -/
theorem tracksKeywords_disciplined :
    TracksKeywords fun p q => ∃ events hooks, Disciplined events hooks p q := by
  intro fuel p q r p' written keyword node ih hword hqualified hlive hdispatch hadvance h
  have hmore := tracks_disciplined.trans
    (tracks_disciplined.move (.read (Reader.drops_advance _) hadvance))
    ((ih fuel (Nat.le_refl _)).name h)
  rcases dispatch_eq_ok hword hlive hdispatch with ⟨-, rfl⟩ | ⟨site, -, rfl, hexpand⟩
  · exact hmore
  · have hkeeps : p.Keeps q := by
      have hfinal := keeps_of_visited (visited_dispatch keyword site.word p)
      rwa [hdispatch] at hfinal
    obtain ⟨⟨buffer, rfl⟩, -⟩ := hexpand.frame
    have hexpanded :
        Disciplined [.dispatched site] [] p ({ p with buffer }.note (.dispatched site)) :=
      ⟨.singleton rfl, rfl, .refl _, hkeeps⟩
    exact tracks_disciplined.trans ⟨_, _, hexpanded⟩ hmore

namespace Parse

/-- **Scope hooks run once, in order, when their scope closes.**  The events of a parse are a tree
of scopes, followed by the end of the script, at which the hooks of the outermost scope run in the
order in which they were registered; so the hooks that run are those that were registered, no more
and no less.  The events of a block are a tree of scopes too, followed by its end, at which its
hooks run in order with the parser just behind the closing brace; and the scopes around the block
are what they were, with their packages and their hooks. -/
theorem scope_hooks_discipline :
    (∀ {p p' : Parser} {nodes : List Node}, program p = .ok nodes p' →
      ∃ scope events hooks pos, p.scopes = scope :: p'.scopes ∧
        Scoped p'.consumed events hooks ∧
        p'.journal =
          (events ++ Event.closed :: (scope.hooks ++ hooks).map (Event.ran · pos)).reverse ++ p.journal ∧
        ((events ++ Event.closed :: (scope.hooks ++ hooks).map (Event.ran · pos)).filterMap Event.ran?).Perm
          (scope.hooks ++ events.filterMap Event.registered?)) ∧
    ∀ {fuel : Nat} {p p' : Parser} {nodes : List Node}, blockWithin fuel p = .ok nodes p' →
      p'.scopes = p.scopes ∧ ∃ events hooks brace, Scoped p'.consumed events hooks ∧
        p'.pos = brace + 1 ∧ p'.consumed[brace]? = some '\x7d' ∧
        p'.journal =
          (.opened :: (events ++ .closed :: hooks.map (.ran · p'.pos))).reverse ++ p.journal := by
  have hall := tracks_disciplined.all tracksKeywords_disciplined
  refine ⟨fun {p p' nodes} h => ?_, fun {fuel p p' nodes} h => ?_⟩
  · obtain ⟨q, r, hstatements, hclose, -, rfl⟩ := program_reads h
    obtain ⟨events, hooks, hread⟩ := (hall _).statements hstatements
    obtain ⟨scope', hscopes, hpos, hjournal⟩ := closeScope_journal hclose
    have hkeeps : q.Keeps r.skip := by
      have hclosed := keeps_of_visited (compositional_visited.closeScope q)
      rw [hclose] at hclosed
      exact hclosed.trans (Parser.Step.move (IsMove.skip r)).keeps
    have hgrown : Grown hooks p.scopes (scope' :: r.scopes) := hscopes ▸ hread.scopes
    obtain ⟨scope, hp, hhooks⟩ := hgrown.of_cons
    refine ⟨scope, events, hooks, q.pos, hp, hread.tree.mono hkeeps.consumed, ?_, ?_⟩
    · rw [show r.skip.journal = r.journal from rfl, hjournal, hhooks, hread.journal]
      simp
    · rw [List.filterMap_append, List.filterMap_cons_none rfl, Scoped.filterMap_ran?_ran]
      exact (List.perm_append_comm_assoc _ _ _).trans (hread.tree.perm.append_left scope.hooks)
  · obtain ⟨fuel, rfl⟩ := blockWithin_fuel h
    obtain ⟨rest, q, rest', hs, hstatements, hs', hclose⟩ := blockWithin_eq_ok h
    obtain ⟨events, hooks, hread⟩ := (hall _).statements hstatements
    have hbody := hread.trans (Disciplined.move (.skip q))
    rw [List.append_nil, List.append_nil] at hbody
    have hblock := BlockRead.of_closeScope hbody (q.unread_skip.trans hs') hclose
    obtain ⟨brace, hpos, hbrace⟩ := hblock.brace
    exact ⟨hblock.scopes, events, hooks, brace, hblock.tree, hpos, hbrace, hblock.journal⟩

/-- A declaration registers its finalizer and the hook that puts its keyword back with its own
block, and the outermost scope has a hook that was registered before the block. -/
theorem scope_hooks_discipline_declaration :
    ∃ p nodes q, p = ({} : Setting).parser "use module; module Foo \x7b 3 \x7d" ∧
      program p = .ok nodes q ∧
      (∃ scope events hooks pos, p.scopes = scope :: q.scopes ∧ Scoped q.consumed events hooks ∧
        q.journal =
          (events ++ Event.closed :: (scope.hooks ++ hooks).map (Event.ran · pos)).reverse ++
            p.journal ∧
        ((events ++ Event.closed :: (scope.hooks ++ hooks).map (Event.ran · pos)).filterMap
          Event.ran?).Perm (scope.hooks ++ events.filterMap Event.registered?)) ∧
      ∃ p nodes q, p = ({} : Setting).parser "\x7b use module \x7d" ∧
        blockWithin 9 p = .ok nodes q ∧ q.scopes = p.scopes ∧
        ∃ events hooks brace, Scoped q.consumed events hooks ∧ q.pos = brace + 1 ∧
          q.consumed[brace]? = some '\x7d' ∧
          q.journal = (Event.opened :: (events ++ .closed :: hooks.map (.ran · q.pos))).reverse ++
            p.journal := by
  let p := ({} : Setting).parser "use module; module Foo \x7b 3 \x7d"
  let p' := ({} : Setting).parser "\x7b use module \x7d"
  have hread : Run.passes (fun _ _ => true) (program p) = true := by decide +kernel
  have hread' : Run.passes (fun _ _ => true) (blockWithin 9 p') = true := by decide +kernel
  obtain ⟨nodes, q, hprogram, -⟩ := Run.passes_iff.1 hread
  obtain ⟨nodes', q', hblock, -⟩ := Run.passes_iff.1 hread'
  exact ⟨p, nodes, q, rfl, hprogram, scope_hooks_discipline.1 hprogram, p', nodes', q', rfl,
    hblock, scope_hooks_discipline.2 hblock⟩

end Parse

/-! ### What is noted as run was run -/

/-- One step of a parser, as far as hooks go: a hook is run, or nothing is noted as run. -/
inductive Parser.HookStep (p q : Parser) : Prop
  | run (hook : ScopeHook) (h : q = Run.final (runHook hook p))
  | quiet (events : List Event) (hevents : ∀ event ∈ events, event.ran? = none)
      (h : q.journal = events ++ p.journal)

/-- Steps of a parser, one after the other. -/
abbrev Parser.HookSteps : Parser → Parser → Prop := Relation.ReflTransGen Parser.HookStep

namespace Parse

variable {α : Type} {p q : Parser}

/-- A finalizer changes the text and the finalizers, in success and in error. -/
theorem final_fire (index : Nat) (p : Parser) : ∃ finalizers buffer,
    Run.final (fire index p) = { p with finalizers, buffer } := by
  have hedit (f : Cursor → Except OutsideBuffer Cursor) (q : Parser) :
      ∃ buffer, Run.final (editHere f q) = { q with buffer } := by
    rw [editHere, Run.get_bind]
    cases f ⟨q.buffer, q.pos⟩ with
    | error cause => exact ⟨q.buffer, rfl⟩
    | ok c => exact ⟨c.buffer, rfl⟩
  rw [fire, Run.get_bind]
  cases p.finalizers[index]? with
  | none => exact ⟨p.finalizers, p.buffer, rfl⟩
  | some f =>
    dsimp only
    split
    · exact ⟨p.finalizers, p.buffer, rfl⟩
    let fired : Parser :=
      { p with finalizers := p.finalizers.modify index fun f => { f with fired := true } }
    have hmodify : modifyFinalizer index (fun f => { f with fired := true }) p = .ok () fired := rfl
    rw [Run.bind_of_ok hmodify]
    split
    · -- what it takes out and what it inserts are two edits
      let strip : Cursor → Except OutsideBuffer Cursor := fun c => do return (← c.strip f.drop).2
      obtain ⟨buffer, hbuffer⟩ := hedit strip fired
      cases hstrip : editHere strip fired with
      | error e q =>
        rw [hstrip] at hbuffer
        exact ⟨_, buffer, (Run.final_bind_of_error hstrip).trans hbuffer⟩
      | ok u q =>
        rw [hstrip] at hbuffer
        obtain rfl : q = { fired with buffer } := hbuffer
        obtain ⟨buffer', hbuffer'⟩ := hedit (fun c => c.inject f.closing) { fired with buffer }
        exact ⟨_, buffer', (Run.final_bind_of_ok hstrip).trans hbuffer'⟩
    · obtain ⟨buffer, hbuffer⟩ := hedit (fun c => c.inject f.closing) fired
      exact ⟨_, buffer, hbuffer⟩

/-- A hook is noted and has its effect on the packages, also where its finalizer fails. -/
theorem final_runHook (hook : ScopeHook) (p : Parser) :
    (Run.final (runHook hook p)).journal = .ran hook p.pos :: p.journal ∧
      (Run.final (runHook hook p)).namespaces = hook.apply p.namespaces := by
  cases hook with
  | restore package name function keyword =>
    rw [runHook_restore_eq_ok (u := ()).2 rfl]
    exact ⟨rfl, rfl⟩
  | finalize index =>
    have hnoted : runHook (.finalize index) p =
        fire index (p.note (.ran (.finalize index) p.pos)) := rfl
    obtain ⟨finalizers, buffer, hfinal⟩ := final_fire index (p.note (.ran (.finalize index) p.pos))
    rw [hnoted, hfinal]
    exact ⟨rfl, rfl⟩

theorem hookSteps_of_journal (h : q.journal = p.journal) : p.HookSteps q :=
  .single (.quiet [] (by simp) h)

theorem hookSteps_note (event : Event) (hevent : event.ran? = none)
    (h : q.journal = event :: p.journal) : p.HookSteps q :=
  .single (.quiet [event] (by simpa using hevent) h)

theorem hookSteps_bind {β : Type} {x : Parse α} {f : α → Parse β}
    (hx : p.HookSteps (Run.final (x p)))
    (hf : ∀ a q, x p = .ok a q → q.HookSteps (Run.final (f a q))) :
    p.HookSteps (Run.final ((x >>= f) p)) := by
  cases h : x p with
  | ok a q =>
    rw [Run.final_bind_of_ok h]
    rw [h] at hx
    exact hx.trans (hf a q h)
  | error e q =>
    rw [Run.final_bind_of_error h]
    rwa [h] at hx

theorem hookSteps_onScopeEnd (hook : ScopeHook) (p : Parser) :
    p.HookSteps (Run.final (onScopeEnd hook p)) := by
  rw [onScopeEnd, Run.get_bind]
  cases p.scopes with
  | nil => exact .refl
  | cons scope scopes => exact hookSteps_note (.registered hook) rfl rfl

theorem hookSteps_installKeyword (feature : BlockFeature) (target : String)
    (options : KeywordOptions) (p : Parser) :
    p.HookSteps (Run.final (installKeyword feature target options p)) := by
  refine hookSteps_bind ?_ fun _ q _ => hookSteps_bind .refl fun _ r _ =>
    hookSteps_bind (hookSteps_of_journal rfl) fun _ s _ => hookSteps_onScopeEnd _ s
  rw [provide, Run.get_bind]
  cases p.features.provide (.block feature) with
  | error cause => exact .refl
  | ok features => exact hookSteps_of_journal rfl

/-- The innermost scope is taken off, and its hooks are run. -/
theorem hookSteps_closeScope (p : Parser) : p.HookSteps (Run.final (closeScope p)) := by
  have hhooks (hooks : List ScopeHook) (q : Parser) :
      q.HookSteps (Run.final (hooks.forM runHook q)) := by
    induction hooks generalizing q with
    | nil => exact .refl
    | cons hook hooks ih => exact hookSteps_bind (.single (.run hook rfl)) fun _ r _ => ih r
  rw [closeScope, Run.get_bind]
  cases p.scopes with
  | nil => exact .refl
  | cons scope scopes =>
    exact hookSteps_bind (hookSteps_note .closed rfl rfl) fun _ q _ =>
      hhooks scope.hooks q

/-- **All reading goes by steps that run a hook or note nothing as run.** -/
theorem compositional_hookSteps :
    Compositional fun _ x p => p.HookSteps (Run.final (x p)) where
  bind_of_ok := hookSteps_bind
  pure _ _ := .refl
  get _ := .refl
  throw _ _ := .refl
  failAt _ _ _ := .refl
  read {_ r} _ p := by
    simp only [read]
    cases r p.unread <;> exact hookSteps_of_journal rfl
  declare _ _ := hookSteps_of_journal rfl
  enterPackage _ p := by
    rw [enterPackage, Run.get_bind]
    cases p.scopes with
    | nil => exact .refl
    | cons scope scopes => exact hookSteps_of_journal rfl
  define package name _ _ := hookSteps_note (.defined package name) rfl rfl
  began offset _ := hookSteps_note (.began offset) rfl rfl
  installKeyword := hookSteps_installKeyword
  openScope _ := hookSteps_note .opened rfl rfl
  closeAtScopeEnd p := by
    rw [closeAtScopeEnd_apply]
    have hadded : p.HookSteps
        { p with finalizers := p.finalizers ++ [({ armed := true } : Finalizer)] } :=
      hookSteps_of_journal rfl
    exact hadded.trans (hookSteps_onScopeEnd _ _)
  closeScope := hookSteps_closeScope
  dispatch {keyword declarator p} _ := by
    cases keyword with
    | idle => exact .refl
    | expand feature options =>
      rw [dispatch, Run.get_bind]
      refine hookSteps_bind ?_ fun expanded q _ => hookSteps_note (.dispatched
        ⟨p.pos, declarator, p.currentPackage, feature, options, expanded.1⟩) rfl rfl
      rw [final_expandAt]
      exact hookSteps_of_journal rfl

/-- What is noted as run by steps is one of the hooks that they run. -/
theorem exists_run_of_journal {later earlier : List Event} {hook : ScopeHook} {pos : Nat}
    (h : p.HookSteps q) (hjournal : q.journal = later ++ .ran hook pos :: (earlier ++ p.journal)) :
    ∃ r, p.HookSteps r ∧ r.journal = earlier ++ p.journal ∧ r.pos = pos ∧
      Parser.HookSteps (Run.final (runHook hook r)) q := by
  induction h generalizing later with
  | refl =>
    have hlength := congrArg List.length hjournal
    simp only [List.length_append, List.length_cons] at hlength
    omega
  | @tail r q hsteps hstep ih =>
    cases hstep with
    | run hook' hrun =>
      have hnoted : q.journal = .ran hook' r.pos :: r.journal := hrun ▸ (final_runHook hook' r).1
      rw [hnoted] at hjournal
      cases later with
      | nil =>
        obtain ⟨hevent, hearlier⟩ := List.cons.inj hjournal
        obtain ⟨rfl, hpos⟩ := Event.ran.inj hevent
        exact ⟨r, hsteps, hearlier, hpos, hrun ▸ .refl⟩
      | cons event later =>
        obtain ⟨s, hs, hearlier, hpos, hmore⟩ := ih (List.cons.inj hjournal).2
        exact ⟨s, hs, hearlier, hpos, hmore.tail (.run hook' hrun)⟩
    | quiet events hevents hquiet =>
      -- the entry is none of those that this step has noted
      rw [hquiet] at hjournal
      rcases List.append_eq_append_iff.1 hjournal with ⟨later', rfl, hr⟩ | ⟨more, hmore, hr⟩
      · obtain ⟨s, hs, hearlier, hpos, hmore⟩ := ih hr
        exact ⟨s, hs, hearlier, hpos, hmore.tail (.quiet events hevents hquiet)⟩
      · cases more with
        | nil =>
          obtain ⟨s, hs, hearlier, hpos, hmore⟩ := @ih [] hr.symm
          exact ⟨s, hs, hearlier, hpos, hmore.tail (.quiet events hevents hquiet)⟩
        | cons event more =>
          obtain ⟨rfl, -⟩ := List.cons.inj hr
          have hran := hevents (.ran hook pos) (by rw [hmore]; simp)
          cases hran

/-- **A hook that is noted as run was run.**  Whatever the parser is asked to read, in success and
in error, an entry of the journal that a hook was run comes with a moment of the run at which the
parser stood at the position of the entry, had noted what is noted before the entry, and ran the
hook: what the hook puts back is put back in the packages then, and its finalizer has fired. -/
theorem ran_took_effect {x : Parse α} (hx : EntryPoint α x) {later earlier : List Event}
    {hook : ScopeHook} {pos : Nat}
    (hjournal : (Run.final (x p)).journal = later ++ .ran hook pos :: (earlier ++ p.journal)) :
    ∃ r s, s = Run.final (runHook hook r) ∧ p.HookSteps r ∧ s.HookSteps (Run.final (x p)) ∧
      r.journal = earlier ++ p.journal ∧ r.pos = pos ∧
      s.journal = .ran hook pos :: r.journal ∧ s.namespaces = hook.apply r.namespaces := by
  obtain ⟨r, hr, hearlier, rfl, hs⟩ :=
    exists_run_of_journal (compositional_hookSteps.entryPoint hx p) hjournal
  obtain ⟨hnoted, hnamespaces⟩ := final_runHook hook r
  exact ⟨r, _, rfl, hr, hs, hearlier, rfl, hnoted, hnamespaces⟩

end Parse

end BraceScript
