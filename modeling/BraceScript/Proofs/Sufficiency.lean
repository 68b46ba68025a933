import BraceScript.Proofs.Refusal
import BraceScript.Proofs.Moments
import BraceScript.Proofs.Statements

/-!
# Readers and installations do not run out of fuel

The readers of literals and the installations of features are given fuel by the length of the text
and by the depth of the options.  That fuel always suffices: a literal takes a character for every
second call (`Literal.lastsWithin`), inner features are nested less deeply than the options they
stand in (`Options.normaliseWithin_ne_exhausted`), and so are the options that the feature `syntax`
hands on (`Parse.modest_installWithin`).  An expansion takes no fuel at all.  So of all readers of
scripts only the grammar itself can run out of fuel, and everything else fails for a reason that it
names (`Parse.Modest`, `Parse.dispatch_eq_error`).
-/

namespace BraceScript

open Lexeme (significant)

/-! ### Readers -/

namespace Reader

variable {α β : Type} {x : Reader α} {f : α → Reader β} {text rest : List Char}

/-- The reader does not run out of fuel on this text. -/
def Lasts (x : Reader α) (text : List Char) : Prop :=
  ∀ e rest, x text = .error e rest → e.fault ≠ .exhausted

theorem Lasts.bind (hx : Lasts x text) (hf : ∀ a rest, x text = .ok a rest → Lasts (f a) rest) :
    Lasts (x >>= f) text := by
  intro e rest h
  rcases Run.bind_eq_error.1 h with h | ⟨a, t, ha, h⟩
  · exact hx e rest h
  · exact hf a t ha e rest h

theorem lasts_pure (a : α) : Lasts (pure a : Reader α) text :=
  fun _ _ h => absurd h Run.pure_eq_error

theorem lasts_fail {fault : Fault} (hfault : fault ≠ .exhausted) :
    Lasts (fail fault : Reader α) text := by
  intro e rest h
  obtain ⟨rfl, rfl⟩ := EStateM.Result.error.inj h
  exact hfault

theorem lasts_fail_bind {fault : Fault} (hfault : fault ≠ .exhausted) :
    Lasts ((fail fault : Reader α) >>= f) text := by
  refine (lasts_fail hfault).bind fun a rest h => ?_
  cases h

theorem lasts_get : Lasts (get : Reader (List Char)) text := fun _ _ h => nomatch h

theorem lasts_advance (count : Nat) : Lasts (advance count) text := fun _ _ h => nomatch h

theorem lasts_peek : Lasts peek text := fun _ _ h => nomatch h

theorem lasts_peekWord : Lasts peekWord text := fun _ _ h => nomatch h

theorem lasts_accept (c : Char) : Lasts (accept c) text := by
  refine lasts_peek.bind fun next rest _ => ?_
  split
  · exact (lasts_advance 1).bind fun _ _ _ => lasts_pure _
  · exact lasts_pure _

theorem lasts_expect (c : Char) : Lasts (expect c) text := by
  refine lasts_peek.bind fun next rest _ => ?_
  split
  · exact lasts_advance 1
  · exact lasts_fail (by simp)

theorem lasts_word (what : String) : Lasts (word what) text := by
  refine lasts_peekWord.bind fun next rest _ => ?_
  cases next with
  | some word => exact (lasts_advance _).bind fun _ _ _ => lasts_pure _
  | none => exact lasts_fail (by simp)

theorem lasts_number {missing : Fault} (hmissing : missing ≠ .exhausted) :
    Lasts (number missing) text := by
  refine lasts_get.bind fun t rest _ => ?_
  split
  · exact (lasts_advance _).bind fun _ _ _ => lasts_pure _
  · exact lasts_fail hmissing

theorem lasts_quoted : Lasts quoted text := by
  refine lasts_get.bind fun t rest _ => ?_
  split
  · exact (lasts_advance _).bind fun _ _ _ => lasts_pure _
  · intro e rest h
    obtain ⟨rfl, rfl⟩ := EStateM.Result.error.inj h
    simp
  · intro e rest h
    obtain ⟨rfl, rfl⟩ := EStateM.Result.error.inj h
    simp

/-- A character that was accepted was taken. -/
theorem length_of_accept {c : Char} (h : accept c text = .ok true rest) :
    rest.length < text.length := by
  by_cases hc : (significant text).head? = some c
  · obtain ⟨tail, htail⟩ : ∃ tail, significant text = c :: tail := by
      cases hs : significant text with
      | nil => simp [hs] at hc
      | cons d tail => exact ⟨tail, by simp [hs] at hc; rw [hc]⟩
    rw [accept_eq_true htail] at h
    obtain ⟨-, rfl⟩ := EStateM.Result.ok.inj h
    have hsuffix := (List.drop_suffix (Lexeme.insignificant text) text).length_le
    rw [show text.drop (Lexeme.insignificant text) = c :: tail from htail, List.length_cons]
      at hsuffix
    omega
  · rw [accept_eq_false hc] at h
    cases (EStateM.Result.ok.inj h).1

end Reader

namespace Literal

open Reader

variable {text : List Char}

theorem lasts_number : Lasts number text := by
  refine (lasts_accept _).bind fun negative rest _ =>
    (Reader.lasts_number (by simp)).bind fun lexeme rest _ => ?_
  split
  · exact lasts_fail (by simp)
  · next v _ =>
    split
    · cases v with
      | text => exact lasts_fail (by simp)
      | _ => exact lasts_pure _
    · exact lasts_pure _

/-- The fuel suffices for readers of literals: every second call takes a character. -/
structure LastsWithin (fuel : Nat) : Prop where
  value : ∀ text : List Char, 2 * text.length + 1 ≤ fuel → Lasts (valueWithin fuel) text
  items : ∀ text : List Char, 2 * text.length + 2 ≤ fuel → Lasts (itemsWithin fuel) text
  rows : ∀ text : List Char, 2 * text.length + 2 ≤ fuel → Lasts (rowsWithin fuel) text

variable {fuel : Nat}

theorem LastsWithin.value_succ (h : LastsWithin fuel) (hfuel : 2 * text.length + 1 ≤ fuel + 1) :
    Lasts (valueWithin (fuel + 1)) text := by
  refine lasts_peek.bind fun next rest hpeek => ?_
  have hrest := (drops_peek.of_ok hpeek).length_le
  obtain ⟨hnext, rfl⟩ := EStateM.Result.ok.inj hpeek
  -- a bracket is there, so what is read behind it is shorter
  have hshorter (c : Char) (hc : (significant text).head? = some c) :
      2 * ((significant text).drop 1).length + 2 ≤ fuel := by
    have hlt : ((significant text).drop 1).length < (significant text).length := by
      cases hs : significant text with
      | nil => simp [hs] at hc
      | cons d tail => simp
    change (significant text).length ≤ _ at hrest
    omega
  split
  · exact lasts_quoted.bind fun _ _ _ => lasts_pure _
  · refine (lasts_advance 1).bind fun _ rest hadvance => ?_
    obtain ⟨-, rfl⟩ := EStateM.Result.ok.inj hadvance
    exact (h.items _ (hshorter _ hnext)).bind fun _ _ _ => lasts_pure _
  · refine (lasts_advance 1).bind fun _ rest hadvance => ?_
    obtain ⟨-, rfl⟩ := EStateM.Result.ok.inj hadvance
    exact (h.rows _ (hshorter _ hnext)).bind fun _ _ _ => lasts_pure _
  · split
    · exact lasts_number
    · refine lasts_peekWord.bind fun word _ _ => ?_
      cases word with
      | none => exact lasts_fail (by simp)
      | some word => exact (lasts_advance _).bind fun _ _ _ => lasts_pure _

theorem LastsWithin.items_succ (h : LastsWithin fuel) (hfuel : 2 * text.length + 2 ≤ fuel + 1) :
    Lasts (itemsWithin (fuel + 1)) text := by
  refine (lasts_accept _).bind fun closed rest hclosed => ?_
  have hrest := (drops_accept _).of_ok hclosed |>.length_le
  split
  · exact lasts_pure _
  · refine (h.value rest (by omega)).bind fun item rest' hitem => ?_
    have hrest' := ((drops_within fuel).1.of_ok hitem).length_le
    refine (lasts_accept _).bind fun more rest'' hmore => ?_
    split
    · next htrue =>
      rw [htrue] at hmore
      have hlt := length_of_accept hmore
      exact (h.items rest'' (by omega)).bind fun _ _ _ => lasts_pure _
    · exact (lasts_expect _).bind fun _ _ _ => lasts_pure _

theorem LastsWithin.rows_succ (h : LastsWithin fuel) (hfuel : 2 * text.length + 2 ≤ fuel + 1) :
    Lasts (rowsWithin (fuel + 1)) text := by
  refine (lasts_accept _).bind fun closed rest hclosed => ?_
  have hrest := (drops_accept _).of_ok hclosed |>.length_le
  split
  · exact lasts_pure _
  · refine lasts_get.bind fun start rest₁ hget => ?_
    obtain ⟨rfl, rfl⟩ := Run.get_eq_ok.1 hget
    refine (h.value rest (by omega)).bind fun key rest₂ hkey => ?_
    have hrest₂ := ((drops_within fuel).1.of_ok hkey).length_le
    split
    · intro e rest h
      obtain ⟨rfl, rfl⟩ := EStateM.Result.error.inj h
      simp
    · refine lasts_peek.bind fun _ rest₃ hpeek => ?_
      have hrest₃ := (drops_peek.of_ok hpeek).length_le
      refine lasts_get.bind fun arrow rest₄ hget => ?_
      obtain ⟨rfl, rfl⟩ := Run.get_eq_ok.1 hget
      split
      · exact lasts_fail_bind (by simp)
      · refine (lasts_advance 2).bind fun _ rest₅ hadvance => ?_
        have hrest₅ := ((drops_advance 2).of_ok hadvance).length_le
        refine (h.value rest₅ (by omega)).bind fun value rest₆ hvalue => ?_
        have hrest₆ := ((drops_within fuel).1.of_ok hvalue).length_le
        refine (lasts_accept _).bind fun more rest₇ hmore => ?_
        split
        · next htrue =>
          rw [htrue] at hmore
          have hlt := length_of_accept hmore
          exact (h.rows rest₇ (by omega)).bind fun _ _ _ => lasts_pure _
        · exact (lasts_expect _).bind fun _ _ _ => lasts_pure _

theorem lastsWithin (fuel : Nat) : LastsWithin fuel := by
  induction fuel with
  | zero => exact ⟨fun _ h => by omega, fun _ h => by omega, fun _ h => by omega⟩
  | succ fuel ih =>
    exact ⟨fun _ => ih.value_succ, fun _ => ih.items_succ, fun _ => ih.rows_succ⟩

theorem lasts_value : Lasts value text := by
  refine lasts_get.bind fun t rest hget => ?_
  obtain ⟨rfl, rfl⟩ := Run.get_eq_ok.1 hget
  exact (lastsWithin _).value text (Nat.le_succ _)

end Literal

namespace Parse

open Reader

variable {text : List Char}

theorem lasts_versionLiteral : Lasts versionLiteral text := by
  refine lasts_peek.bind fun next rest _ => ?_
  split
  · exact lasts_quoted
  · exact (Reader.lasts_number (by simp)).bind fun _ _ _ => lasts_pure _

/-- Each further value takes the comma in front of it. -/
theorem lasts_moreData (fuel : Nat) (text : List Char) (hfuel : text.length < fuel) :
    Lasts (moreData fuel) text := by
  induction fuel generalizing text with
  | zero => omega
  | succ fuel ih =>
    refine (lasts_accept _).bind fun more rest hmore => ?_
    split
    · next htrue =>
      rw [htrue] at hmore
      have hlt := length_of_accept hmore
      refine Literal.lasts_value.bind fun value rest' hvalue => ?_
      have hrest' := (Literal.drops_value.of_ok hvalue).length_le
      exact (ih rest' (by omega)).bind fun _ _ _ => lasts_pure _
    · exact lasts_pure _

theorem lasts_useArguments : Lasts useArguments text := by
  refine lasts_peek.bind fun next rest _ => ?_
  split
  · exact lasts_pure _
  · refine Literal.lasts_value.bind fun first rest _ => lasts_get.bind fun t rest hget => ?_
    obtain ⟨rfl, rfl⟩ := Run.get_eq_ok.1 hget
    refine (lasts_moreData _ rest (Nat.lt_succ_self _)).bind fun more rest _ => ?_
    cases more <;> exact lasts_pure _

end Parse

/-! ### Installations -/

/-- The options that `syntax` pairs with names are those that stand among its own, or none. -/
theorem depth_le_of_pairItems {named pairs : List (String × Value)} {items : List Value}
    (h : pairItems named items = .ok pairs) {d : Nat}
    (hnamed : ∀ pair ∈ named, pair.2 = .null ∨ pair.2.depth ≤ d)
    (hitems : Value.depthItems items ≤ d) : ∀ pair ∈ pairs, pair.2 = .null ∨ pair.2.depth ≤ d := by
  fun_induction pairItems named items with
  | case1 named =>
    obtain rfl := Except.ok.inj h
    exact fun pair hpair => hnamed pair (List.mem_reverse.1 hpair)
  | case2 named name items ih =>
    rw [Value.depthItems] at hitems
    exact ih h (List.forall_mem_cons.2 ⟨.inl rfl, hnamed⟩) (by omega)
  | case3 named name item items hitem ih =>
    rw [Value.depthItems] at hitems
    rw [List.forall_mem_cons] at hnamed
    refine ih h (List.forall_mem_cons.2 ⟨.inr ?_, hnamed.2⟩) (by omega)
    exact (Nat.le_max_left _ _).trans hitems
  | case4 => cases h

theorem depth_lt_of_featurePairs {options : Value} {pairs : List (String × Value)}
    (h : featurePairs options = .ok pairs) :
    ∀ pair ∈ pairs, pair.2 = .null ∨ pair.2.depth < options.depth := by
  intro pair hpair
  cases options with
  | null =>
    obtain rfl := Except.ok.inj h
    cases hpair
  | text name =>
    obtain rfl := Except.ok.inj h
    obtain rfl := List.mem_singleton.1 hpair
    exact .inl rfl
  | list items | tuple items =>
    have hdepth := depth_le_of_pairItems h (by simp) (Nat.le_refl _) pair hpair
    rw [Value.depth]
    exact hdepth.imp_right Nat.lt_succ_of_le
  | _ => cases h

namespace Parse

variable {α β : Type} {x : Parse α} {f : α → Parse β} {p : Parser}

/-- The computation does not run out of fuel and expands no declaration. -/
structure Modest (x : Parse α) (p : Parser) : Prop where
  lasts : ∀ q, x p ≠ .error .exhausted q
  journal : ∃ events, (Run.final (x p)).journal = events ++ p.journal ∧
    ∀ event ∈ events, event.site? = none

theorem Modest.bind (hx : Modest x p) (hf : ∀ a q, x p = .ok a q → Modest (f a) q) :
    Modest (x >>= f) p := by
  cases h : x p with
  | ok a q =>
    obtain ⟨hlasts, events, hjournal, hevents⟩ := hf a q h
    obtain ⟨-, earlier, hq, hearlier⟩ := hx
    rw [h] at hq
    refine ⟨?_, events ++ earlier, ?_, ?_⟩
    · rwa [Run.bind_of_ok h]
    · rw [Run.final_bind_of_ok h, hjournal, List.append_assoc]
      exact congrArg (events ++ ·) hq
    · exact fun event hevent => (List.mem_append.1 hevent).elim (hevents event) (hearlier event)
  | error e q =>
    refine ⟨fun q' h' => ?_, ?_⟩
    · rcases Run.bind_eq_error.1 h' with h' | ⟨a, t, h', -⟩
      · exact hx.lasts q' h'
      · rw [h] at h'
        cases h'
    · have hjournal := hx.journal
      rw [h] at hjournal
      rwa [Run.final_bind_of_error h]

/-- The journal is as it was. -/
theorem Modest.of_journal (hlasts : ∀ q, x p ≠ .error .exhausted q)
    (h : (Run.final (x p)).journal = p.journal) : Modest x p :=
  ⟨hlasts, [], h, by simp⟩

theorem modest_pure (a : α) : Modest (pure a : Parse α) p := .of_journal nofun rfl

theorem modest_get : Modest (get : Parse Parser) p := .of_journal nofun rfl

theorem modest_throw {e : Error} (he : e ≠ .exhausted) : Modest (throw e : Parse α) p := by
  refine .of_journal (fun q h => ?_) rfl
  exact he (Run.throw_eq_error.1 h).1

theorem modest_modify {g : Parser → Parser} (h : (g p).journal = p.journal) :
    Modest (modify g) p := .of_journal nofun h

theorem modest_note {event : Event} (h : event.site? = none) :
    Modest (modify fun p => p.note event) p :=
  ⟨nofun, [event], rfl, by simpa using h⟩

theorem errorAt_ne_exhausted {fault : Fault} (h : fault ≠ .exhausted) (offset : Nat) :
    p.errorAt offset fault ≠ .exhausted := by
  unfold Parser.errorAt
  split
  · exact nofun
  · exact absurd rfl h
  · exact nofun

theorem modest_failAt {fault : Fault} (h : fault ≠ .exhausted) (offset : Nat) :
    Modest (failAt offset fault : Parse α) p := by
  refine modest_get.bind fun q r hget => ?_
  obtain ⟨rfl, rfl⟩ := Run.get_eq_ok.1 hget
  exact modest_throw (errorAt_ne_exhausted h offset)

theorem modest_fail {fault : Fault} (h : fault ≠ .exhausted) :
    Modest (fail fault : Parse α) p :=
  modest_get.bind fun _ _ _ => modest_failAt h _

theorem modest_read {r : Reader α} (hr : ∀ text, Reader.Lasts r text) : Modest (read r) p := by
  have hlasts := hr p.unread
  cases h : r p.unread with
  | ok a rest =>
    refine .of_journal (fun q hq => ?_) ?_
    · simp only [read, h, reduceCtorEq] at hq
    · simp only [read, h, Run.final]
  | error e rest =>
    refine .of_journal (fun q hq => ?_) ?_
    · simp only [read, h, EStateM.Result.error.injEq] at hq
      exact errorAt_ne_exhausted (hlasts e rest h) _ hq.1
    · simp only [read, h, Run.final]

theorem modest_orMisconfigured (x : Except Misconfiguration α) : Modest (orMisconfigured x) p := by
  cases x with
  | ok a => exact modest_pure a
  | error cause =>
    refine modest_throw fun heq => ?_
    cases hrefusal : Options.Refusal.of cause with
    | exhausted => exact Options.Refusal.of_ne_exhausted cause hrefusal
    | _ =>
      rw [hrefusal] at heq
      cases heq

theorem modest_onScopeEnd (hook : ScopeHook) : Modest (onScopeEnd hook) p := by
  refine modest_get.bind fun q r hget => ?_
  obtain ⟨rfl, rfl⟩ := Run.get_eq_ok.1 hget
  split
  · exact modest_throw nofun
  · exact ⟨nofun, [.registered hook], rfl, by simp [Event.site?]⟩

theorem modest_enterPackage (package : String) : Modest (enterPackage package) p := by
  refine modest_get.bind fun q r hget => ?_
  obtain ⟨rfl, rfl⟩ := Run.get_eq_ok.1 hget
  split
  · exact modest_throw nofun
  · exact .of_journal nofun rfl

theorem modest_arm (index : Nat) : Modest (arm index) p := by
  refine modest_get.bind fun q r _ => ?_
  split
  · exact modest_pure _
  · split
    · exact modest_pure _
    · exact (modest_modify rfl).bind fun _ _ _ => modest_onScopeEnd _

theorem modest_closeAtScopeEnd : Modest closeAtScopeEnd p := by
  have hadd : Modest (addFinalizer {}) p := .of_journal nofun rfl
  exact hadd.bind fun index _ _ => modest_arm index

theorem modest_provide (feature : Feature) : Modest (provide feature) p := by
  refine modest_get.bind fun q r hget => ?_
  obtain ⟨rfl, rfl⟩ := Run.get_eq_ok.1 hget
  refine (modest_orMisconfigured _).bind fun features q hq => ?_
  obtain ⟨-, rfl⟩ := orMisconfigured_eq_ok hq
  exact .of_journal nofun rfl

theorem modest_installKeyword (feature : BlockFeature) (target : String)
    (options : KeywordOptions) : Modest (installKeyword feature target options) p :=
  (modest_provide _).bind fun _ _ _ => modest_get.bind fun _ _ _ =>
    (modest_modify rfl).bind fun _ _ _ => modest_onScopeEnd _

theorem modest_prepare (feature : BlockFeature) (options : Value) :
    Modest (prepare feature options) p := by
  unfold prepare
  split
  · exact modest_pure _
  · next refusal h =>
    refine modest_throw fun heq => ?_
    cases refusal with
    | exhausted => exact Options.normaliseWithin_ne_exhausted (Nat.lt_succ_self _) h
    | _ => cases heq

theorem modest_forM {f : α → Parse Unit} {as : List α} (hf : ∀ a ∈ as, ∀ p, Modest (f a) p) :
    Modest (as.forM f) p := by
  induction as generalizing p with
  | nil => exact modest_pure _
  | cons a as ih =>
    rw [List.forall_mem_cons] at hf
    exact (hf.1 p).bind fun _ q _ => ih hf.2

/-- The fuel suffices to install a feature with these options. -/
def Suffices (fuel : Nat) (options : Value) : Prop :=
  options = .null ∧ 0 < fuel ∨ options.depth + 1 < fuel

theorem Suffices.of_featurePairs {fuel : Nat} {options : Value} {pairs : List (String × Value)}
    (h : Suffices (fuel + 1) options) (hpairs : featurePairs options = .ok pairs) :
    ∀ pair ∈ pairs, Suffices fuel pair.2 := by
  intro pair hpair
  rcases h with ⟨rfl, -⟩ | h
  · obtain rfl := Except.ok.inj hpairs
    cases hpair
  · rcases depth_lt_of_featurePairs hpairs pair hpair with hnull | hlt
    · exact .inl ⟨hnull, by omega⟩
    · exact .inr (by omega)

/-- The fuel of an installation goes down with the depth of the options. -/
theorem modest_installWithin {fuel : Nat} {feature : Feature} {target : String} {options : Value}
    (hfuel : Suffices fuel options) : Modest (installWithin fuel feature target options) p := by
  induction fuel generalizing feature options p with
  | zero => simp [Suffices] at hfuel
  | succ fuel ih =>
    cases feature with
    | block feature =>
      exact (modest_prepare feature options).bind fun _ _ _ => modest_installKeyword _ _ _
    | bare => exact modest_throw nofun
    | dispatcher =>
      refine (modest_orMisconfigured _).bind fun pairs q hpairs =>
        modest_forM fun pair hpair p => ?_
      obtain ⟨hpairs, -⟩ := orMisconfigured_eq_ok hpairs
      refine modest_get.bind fun _ _ _ => (modest_orMisconfigured _).bind fun feature _ _ => ?_
      exact ih (hfuel.of_featurePairs hpairs pair hpair)

theorem modest_install (feature : Feature) (target : String) (options : Value) :
    Modest (install feature target options) p :=
  modest_installWithin (.inr (Nat.lt_succ_self _))

/-! ### Statements without blocks -/

theorem modest_packageStatement : Modest packageStatement p :=
  (modest_read fun _ => Reader.lasts_word _).bind fun _ _ _ =>
    (modest_modify rfl).bind fun _ _ _ => modest_enterPackage _

theorem modest_versionStatement : Modest versionStatement p :=
  (modest_read fun _ => lasts_versionLiteral).bind fun _ _ _ =>
    modest_get.bind fun _ _ _ => modest_pure _

theorem modest_useStatement : Modest useStatement p := by
  have hname : ∀ p, Modest featureName p := by
    intro p
    refine (modest_read fun _ => Reader.lasts_peek).bind fun _ _ _ => modest_get.bind fun _ _ _ =>
      (modest_read fun _ => Reader.lasts_word _).bind fun _ _ _ => modest_get.bind fun _ _ _ => ?_
    split
    · exact modest_failAt (by simp) _
    · exact modest_pure _
  exact (hname p).bind fun _ _ _ => (modest_read fun _ => lasts_useArguments).bind fun _ _ _ =>
    modest_get.bind fun _ _ _ => modest_install _ _ _

theorem modest_beginStatement (offset : Nat) : Modest (beginStatement offset) p := by
  refine (modest_read fun _ => Reader.lasts_peek).bind fun _ _ _ => modest_get.bind fun _ _ _ =>
    (modest_read fun _ => Reader.lasts_word _).bind fun _ _ _ =>
    (modest_read fun _ => Reader.lasts_expect _).bind fun _ _ _ =>
    (modest_read fun _ => Reader.lasts_word _).bind fun _ _ _ => modest_get.bind fun _ _ _ => ?_
  split
  · exact modest_failAt (by simp) _
  · exact modest_throw nofun
  · exact modest_failAt (by simp) _
  · split
    · exact (modest_note rfl).bind fun _ _ _ => modest_closeAtScopeEnd
    · exact modest_failAt (by simp) _

/-! ### The end of a scope -/

theorem modest_editHere (f : Cursor → Except OutsideBuffer Cursor) : Modest (editHere f) p := by
  refine modest_get.bind fun q r hget => ?_
  obtain ⟨rfl, rfl⟩ := Run.get_eq_ok.1 hget
  split
  · exact .of_journal nofun rfl
  · exact modest_throw nofun

theorem modest_fire (index : Nat) : Modest (fire index) p := by
  refine modest_get.bind fun _ _ _ => ?_
  split
  · exact modest_pure _
  · split
    · exact modest_pure _
    · refine (modest_modify rfl).bind fun _ _ _ => ?_
      split
      · exact (modest_editHere _).bind fun _ _ _ => modest_editHere _
      · exact modest_editHere _

theorem modest_runHook (hook : ScopeHook) : Modest (runHook hook) p := by
  have hran : Modest (modify fun p : Parser => p.note (.ran hook p.pos)) p :=
    ⟨nofun, [.ran hook p.pos], rfl, by simp [Event.site?]⟩
  refine hran.bind fun _ _ _ => ?_
  split
  · exact modest_fire _
  · exact modest_modify rfl
  · exact modest_modify rfl

theorem modest_closeScope : Modest closeScope p := by
  refine modest_get.bind fun q r hget => ?_
  obtain ⟨rfl, rfl⟩ := Run.get_eq_ok.1 hget
  split
  · exact modest_throw nofun
  · next scope scopes _ =>
    have hset : Modest (set ({ p with scopes }.note .closed) : Parse PUnit) p :=
      ⟨nofun, [.closed], rfl, by simp [Event.site?]⟩
    refine hset.bind fun _ _ _ => ?_
    exact modest_forM fun hook _ p => modest_runHook hook

end Parse

/-! ### Expansions -/

namespace Declaration

variable {α β : Type} {x : Expansion α} {f : α → Expansion β}

/-- The expansion fails for a reason, and never for want of fuel. -/
def Lasts (x : Expansion α) : Prop := ∀ c e c', x c = .error e c' → e ≠ .exhausted

theorem Lasts.bind (hx : Lasts x) (hf : ∀ a, Lasts (f a)) : Lasts (x >>= f) := by
  intro c e c' h
  rcases Run.bind_eq_error.1 h with h | ⟨a, t, -, h⟩
  · exact hx c e c' h
  · exact hf a t e c' h

theorem lasts_pure (a : α) : Lasts (pure a) := by
  intro c e c' h
  exact absurd h Run.pure_eq_error

theorem lasts_get : Lasts (get : Expansion Cursor) := by
  intro c e c' h
  cases h

theorem lasts_modify (g : Cursor → Cursor) : Lasts (modify g) := by
  intro c e c' h
  cases h

theorem lasts_throw {e : Error} (he : e ≠ .exhausted) : Lasts (throw e : Expansion α) := by
  intro c e' c' h
  rwa [← (Run.throw_eq_error.1 h).1]

theorem lasts_edit (g : Cursor → Except OutsideBuffer (α × Cursor)) : Lasts (edit g) := by
  intro c e c' h
  unfold edit at h
  split at h
  · cases h
  · obtain ⟨rfl, -⟩ := EStateM.Result.error.inj h
    exact nofun

theorem lasts_expand (feature : BlockFeature) (options : KeywordOptions)
    (package declarator : String) : Lasts (expand feature options package declarator) := by
  refine (lasts_modify _).bind fun _ => (lasts_edit _).bind fun _ => (lasts_edit _).bind fun name =>
    (lasts_edit _).bind fun _ => (lasts_edit _).bind fun _ => (lasts_edit _).bind fun version => ?_
  dsimp only
  cases Preamble.generate feature ((name.map String.ofList).getD package)
    (version.map String.ofList) options with
  | error cause => exact lasts_throw (by cases cause <;> exact nofun)
  | ok statements =>
    refine (lasts_modify _).bind fun _ => lasts_get.bind fun c => ?_
    split
    · refine Lasts.bind (lasts_throw ?_) fun _ =>
        (lasts_edit _).bind fun _ => (lasts_edit _).bind fun _ => lasts_pure _
      exact nofun
    · exact (lasts_edit _).bind fun _ => (lasts_edit _).bind fun _ => lasts_pure _

end Declaration

/-- A keyword that cannot do its work says why, and nothing is noted. -/
theorem Parse.dispatch_eq_error {keyword : Keyword} {offset : Nat} {declarator : String}
    {p q : Parser} {e : Error} (h : dispatch keyword offset declarator p = .error e q) :
    e ≠ .exhausted ∧ q.journal = p.journal := by
  cases keyword with
  | idle => exact absurd h Run.pure_eq_error
  | expand feature options =>
    obtain ⟨c, hexpand, rfl⟩ := dispatch_expand_eq_error.1 h
    exact ⟨Declaration.lasts_expand _ _ _ _ _ _ _ hexpand, rfl⟩

end BraceScript
