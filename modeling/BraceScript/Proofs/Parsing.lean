import BraceScript.Proofs.Declared
import BraceScript.Proofs.Tracking

/-!
# Every parse is a run

Runs are kept by reading (`tracks_isRun`), and a declaration that injects the default statements
is one step of a run (`tracksKeywords_isRun`), so every successful call of the grammar is a run.
What holds of every run then holds of every parse.
-/

namespace BraceScript

open Lexeme (significant)
open Parse

/-- The parser `p` has become `p'` by a run. -/
def IsRun (p p' : Parser) : Prop := ∃ e h, Runs e h p p'

variable {fuel : Nat} {p q r p' : Parser}

theorem IsMove.isRun (h : IsMove p q) : IsRun p q := by
  obtain ⟨count, hcount, rfl⟩ := h
  exact ⟨_, _, .move p hcount⟩

theorem IsRun.trans (h : IsRun p q) (h' : IsRun q r) : IsRun p r := by
  obtain ⟨_, _, h⟩ := h
  obtain ⟨_, _, h'⟩ := h'
  exact ⟨_, _, h.seq h'⟩

theorem Quiet.isRun {count : Nat} (h : Quiet count p q) : IsRun p q := by
  obtain ⟨e, hooks, hruns, -⟩ := h.runs
  exact ⟨e, hooks, hruns⟩

theorem tracks_isRun : Tracks IsRun where
  trans := IsRun.trans
  move := IsMove.isRun
  entered hname h := ⟨_, _, .entered hname h⟩
  installed h := h.quiet.isRun
  began hword hpos hle h := ⟨_, _, .began hword hpos hle h⟩
  defined p package name function := ⟨_, _, .defined p package name function⟩
  block hbody hbrace hclose := by
    obtain ⟨_, _, hbody⟩ := hbody
    exact ⟨_, _, .block (hbody.seq (.move _ (by simp [hbrace]))) hclose⟩

/-! ### Keywords -/

namespace Parse

/-- An idle keyword does nothing, and another one expands the declaration. -/
theorem dispatch_eq_ok {keyword : Keyword} {written : String}
    (hword : Lexeme.word? p.unread = some written.toList)
    (hlive : p.namespaces.keyword? p.currentPackage written = some keyword)
    (h : dispatch keyword p.pos written p = .ok () q) :
    (keyword = .idle ∧ q = p) ∨ ∃ site : Site, keyword = .expand site.feature site.options ∧
      site.word = written ∧ Expands site p q := by
  cases keyword with
  | idle => exact .inl ⟨rfl, (Run.pure_eq_ok.1 h).2.symm⟩
  | expand feature options =>
    rw [dispatch, Run.get_bind] at h
    obtain ⟨⟨declaration, offset⟩, r, hexpand, h⟩ := Run.bind_eq_ok.1 h
    obtain rfl := Run.modify_eq_ok.1 h
    exact .inr ⟨⟨p.pos, written, p.currentPackage, feature, options, declaration⟩, rfl, rfl, rfl,
      hword, rfl, hlive, offset, r, hexpand, rfl⟩

/-- A live keyword: a declaration that injects the default statements is one step, and one that
injects others is expanded and then read as the call that it has become. -/
theorem tracksKeywords_isRun : TracksKeywords IsRun := by
  intro fuel p q r p' written keyword node ih hword hqualified hlive hdispatch hadvance h
  have hmore := (IsMove.read (Reader.drops_advance _) hadvance).isRun.trans
    ((ih fuel (Nat.le_refl _)).name h)
  rcases dispatch_eq_ok hword hlive hdispatch with ⟨-, rfl⟩ | ⟨site, -, rfl, hexpand⟩
  · exact hmore
  by_cases hsite : site.Plain
  · obtain ⟨after, body, hrewritten, statements, hgenerate⟩ := hexpand.rewritten
    rw [hrewritten.read_word hadvance] at h
    obtain ⟨_, nodes, d, -⟩ := nameWithin_declared hsite hrewritten hgenerate h
      fun n hn => (ih n (by omega)).statements
    rw [d.behind]
    exact ⟨_, _, .declared hsite hexpand d.inside d.opens d.injected d.reads d.brace d.closes⟩
  · exact IsRun.trans ⟨_, _, .expanded hsite hexpand⟩ hmore

/-- **Every successful call of the grammar is a run.** -/
theorem allRuns (fuel : Nat) : Tracked IsRun fuel := tracks_isRun.all tracksKeywords_isRun fuel

theorem statementsWithin_isRun {closing : Option String} {nodes : List Node}
    (h : statementsWithin closing fuel p = .ok nodes p') : IsRun p p' :=
  (allRuns fuel).statements h

/-! ### Whole scripts -/

theorem installPrelude_isRun {package : String} {rows : List (String × Value)}
    (h : installPrelude package rows p = .ok () q) : IsRun p q :=
  (installPrelude_installs h).quiet.isRun

/-- A program is read by a run in the scope that is open, which is then closed, and nothing but
blanks and comments is left. -/
theorem program_eq_ok {nodes : List Node} (h : program p = .ok nodes p') :
    ∃ q r, IsRun p q ∧ closeScope q = .ok () r ∧ significant r.unread = [] ∧ p' = r.skip := by
  obtain ⟨q, r, hstatements, hrest⟩ := program_reads h
  exact ⟨q, r, statementsWithin_isRun hstatements, hrest⟩

/-- A script is a program behind its prelude. -/
theorem script_eq_ok {setting : Setting} {nodes : List Node}
    (h : script setting p = .ok nodes p') :
    ∃ q r, IsRun p q ∧ closeScope q = .ok () r ∧ significant r.unread = [] ∧ p' = r.skip := by
  obtain ⟨_, prepared, hprelude, h⟩ := Run.bind_eq_ok.1 h
  obtain ⟨q, r, hrun, hrest⟩ := program_eq_ok h
  exact ⟨q, r, (installPrelude_isRun hprelude).trans hrun, hrest⟩

end Parse

end BraceScript
