import BraceScript.Proofs.Moves

/-!
# Scopes, hooks and installations

What the operations on scopes do to a parser, one statement for each: the parser after the
operation is given in full.  The hooks of a scope run one after the other when it is closed; what
a whole list of them leaves alone is `Parse.forM_runHook`.  Keywords that are dispatched edit the
text and note the declaration (`Parse.dispatch_expand_eq_ok`).
-/

namespace BraceScript

theorem modify_append_of_le {α : Type} {old new : List α} {i : Nat} (h : old.length ≤ i)
    (f : α → α) : (old ++ new).modify i f = old ++ new.modify (i - old.length) f := by
  induction old generalizing i with
  | nil => rfl
  | cons a old ih =>
    obtain ⟨j, rfl⟩ : ∃ j, i = j + 1 := ⟨i - 1, by simp at h; omega⟩
    rw [List.cons_append, List.modify_succ_cons, ih (by simpa using h), List.length_cons,
      Nat.add_sub_add_right, List.cons_append]

theorem forall_mem_modify {α : Type} {P : α → Prop} {as : List α} {i : Nat} {f : α → α}
    (h : ∀ a ∈ as, P a) (hf : ∀ a, P a → P (f a)) : ∀ a ∈ as.modify i f, P a := by
  induction as generalizing i with
  | nil => simp
  | cons a as ih =>
    rw [List.forall_mem_cons] at h
    cases i with
    | zero => simpa using ⟨hf a h.1, h.2⟩
    | succ i => simpa using ⟨h.1, ih h.2⟩

namespace Namespaces

/-- Puts back what a name meant, as the end of a scope does: without a function, the function is
removed and the keyword stays as it is. -/
def putBack (ns : Namespaces) (package name : String) :
    Option Function → Option Keyword → Namespaces
  | none, _ => ns.removeFunction package name
  | some function, keyword =>
    (ns.installFunction package name function).declareKeyword package name keyword

end Namespaces

/-- The packages after a hook was run. -/
def ScopeHook.apply : ScopeHook → Namespaces → Namespaces
  | restore package name function keyword, ns => ns.putBack package name function keyword
  | finalize _, ns => ns

/-- The hook lets a finalizer fire. -/
def ScopeHook.finalizes : ScopeHook → Bool
  | restore .. => false
  | finalize _ => true

/-- A finalizer that inserts a closing parenthesis and nothing else. -/
def Finalizer.Plain (f : Finalizer) : Prop := f.closing = [')'] ∧ f.drop = 0

namespace Parser

/-- The parser in a new scope in the current package. -/
def opened (p : Parser) : Parser :=
  { p with scopes := { package := p.currentPackage } :: p.scopes }.note .opened

/-- The parser after a hook was added to its innermost scope. -/
def hooked (p : Parser) (scope : Scope) (scopes : List Scope) (hook : ScopeHook) : Parser :=
  { p with scopes := { scope with hooks := scope.hooks ++ [hook] } :: scopes }.note
    (.registered hook)

/-- The hook that puts back what a name means now. -/
def restoring (p : Parser) (package name : String) : ScopeHook :=
  .restore package name (p.namespaces.function? package name)
    (p.namespaces.declaredKeyword? package name)

end Parser

namespace Parse

variable {p p' : Parser} {u : Unit}

theorem openScope_eq_ok : openScope p = .ok u p' ↔ p' = p.opened := by
  rw [openScope, Run.modify_eq_ok, eq_comm]
  rfl

theorem onScopeEnd_eq_ok {hook : ScopeHook} :
    onScopeEnd hook p = .ok u p' ↔
      ∃ scope scopes, p.scopes = scope :: scopes ∧ p' = p.hooked scope scopes hook := by
  rw [onScopeEnd, Run.get_bind]
  cases hs : p.scopes with
  | nil => simp
  | cons scope scopes =>
    simp only [Run.set_eq_ok, List.cons.injEq]
    constructor
    · rintro rfl
      exact ⟨scope, scopes, ⟨rfl, rfl⟩, rfl⟩
    · rintro ⟨_, _, ⟨rfl, rfl⟩, rfl⟩
      rfl

theorem enterPackage_eq_ok {package : String} :
    enterPackage package p = .ok u p' ↔ ∃ scope scopes, p.scopes = scope :: scopes ∧
      p' = { p with scopes := { scope with package } :: scopes } := by
  rw [enterPackage, Run.get_bind]
  cases hs : p.scopes with
  | nil => simp
  | cons scope scopes =>
    simp only [Run.set_eq_ok, List.cons.injEq]
    constructor
    · rintro rfl
      exact ⟨scope, scopes, ⟨rfl, rfl⟩, rfl⟩
    · rintro ⟨_, _, ⟨rfl, rfl⟩, rfl⟩
      rfl

/-- A keyword is installed together with the hook that puts back what its name meant before. -/
theorem installKeyword_eq_ok {feature : BlockFeature} {target : String}
    {options : KeywordOptions} (h : installKeyword feature target options p = .ok u p') :
    ∃ features scope scopes, p.features.provide (.block feature) = .ok features ∧
      p.scopes = scope :: scopes ∧
      p' = { p with
        features
        namespaces := (p.namespaces.declareKeyword target options.spelling
          (some (.expand feature options))).installFunction target options.spelling
          (.trampoline feature.outcome) }.hooked scope scopes
        (p.restoring target options.spelling) := by
  obtain ⟨_, q, hprovide, h⟩ := Run.bind_eq_ok.1 h
  obtain ⟨features, hfeatures, rfl⟩ : ∃ features,
      p.features.provide (.block feature) = .ok features ∧ q = { p with features } := by
    simp only [provide, Run.get_bind] at hprovide
    cases hf : p.features.provide (.block feature) with
    | error cause =>
      rw [hf] at hprovide
      obtain ⟨_, _, h, -⟩ := Run.bind_eq_ok.1 hprovide
      exact absurd h Run.throw_eq_ok
    | ok features =>
      rw [hf] at hprovide
      obtain ⟨_, _, hpure, hset⟩ := Run.bind_eq_ok.1 hprovide
      obtain ⟨rfl, rfl⟩ := Run.pure_eq_ok.1 hpure
      exact ⟨features, rfl, (Run.set_eq_ok.1 hset).symm⟩
  rw [Run.get_bind] at h
  obtain ⟨_, r, hmodify, h⟩ := Run.bind_eq_ok.1 h
  obtain rfl := Run.modify_eq_ok.1 hmodify
  obtain ⟨scope, scopes, hscopes, rfl⟩ := onScopeEnd_eq_ok.1 h
  exact ⟨features, scope, scopes, hfeatures, hscopes, rfl⟩

/-- The new finalizer is armed before its hook is registered. -/
theorem closeAtScopeEnd_apply (p : Parser) :
    closeAtScopeEnd p = onScopeEnd (.finalize p.finalizers.length)
      { p with finalizers := p.finalizers ++ [({ armed := true } : Finalizer)] } := by
  have hadd : addFinalizer {} p =
      .ok p.finalizers.length { p with finalizers := p.finalizers ++ [{}] } := rfl
  have hfirst : (p.finalizers ++ [({} : Finalizer)])[p.finalizers.length]? = some {} := by simp
  have hmodify : modifyFinalizer p.finalizers.length (fun f => { f with armed := true })
      { p with finalizers := p.finalizers ++ [{}] } =
      .ok () { p with finalizers := p.finalizers ++ [({ armed := true } : Finalizer)] } := by
    rw [modifyFinalizer, Run.modify_eq_ok]
    simp [modify_append_of_le]
  rw [closeAtScopeEnd, Run.bind_of_ok hadd, arm,
    Run.get_bind, hfirst]
  simp only [Bool.false_eq_true, ↓reduceIte, Run.bind_of_ok hmodify]

/-- A finalizer is added that waits for the end of the innermost scope. -/
theorem closeAtScopeEnd_eq_ok :
    closeAtScopeEnd p = .ok u p' ↔ ∃ scope scopes, p.scopes = scope :: scopes ∧
      p' = { p with
        finalizers := p.finalizers ++ [({ armed := true } : Finalizer)] }.hooked scope scopes
        (.finalize p.finalizers.length) := by
  rw [closeAtScopeEnd_apply, onScopeEnd_eq_ok]

/-! ### Hooks -/

/-- An edit at the position changes nothing but the buffer. -/
theorem editHere_eq_ok {f : Cursor → Except OutsideBuffer Cursor} :
    editHere f p = .ok u p' ↔
      ∃ c, f ⟨p.buffer, p.pos⟩ = .ok c ∧ p' = { p with buffer := c.buffer } := by
  rw [editHere, Run.get_bind]
  cases f ⟨p.buffer, p.pos⟩ with
  | error cause => simp
  | ok c => simp [eq_comm]

theorem insert_eq_ok {b b' : Buffer} {offset : Nat} {chars : List Char} :
    b.insert offset chars = .ok b' ↔ offset ≤ b.text.length ∧
      b' = { b with text := b.text.take offset ++ chars ++ b.text.drop offset } := by
  rw [Buffer.insert, Buffer.position?, Buffer.length]
  by_cases h : offset ≤ b.text.length
  · rw [if_pos ⟨by omega, by omega⟩]
    simp [h, bind, Except.bind, pure, Except.pure, eq_comm]
  · rw [if_neg (by omega)]
    simp [h, bind, Except.bind]

theorem delete_eq_ok {b b' : Buffer} {offset length : Nat} :
    b.delete offset length = .ok b' ↔ offset ≤ b.text.length ∧
      b' = { b with text := b.text.take offset ++ b.text.drop (offset + length) } := by
  rw [Buffer.delete, Buffer.position?, Buffer.length, Buffer.resolve_of_nonneg (by omega)]
  have hbehind : ((offset : Int) + (length : Int)).toNat = offset + length := by omega
  by_cases h : offset ≤ b.text.length
  · rw [if_pos ⟨by omega, by omega⟩]
    simp [h, bind, Except.bind, pure, Except.pure, eq_comm, hbehind]
  · rw [if_neg (by omega)]
    simp [h, bind, Except.bind]

theorem inject_eq_ok {c c' : Cursor} {chars : List Char} :
    c.inject chars = .ok c' ↔ c.offset ≤ c.buffer.text.length ∧
      c' = ⟨{ c.buffer with
        text := c.buffer.text.take c.offset ++ chars ++ c.buffer.text.drop c.offset },
        c.offset + chars.length⟩ := by
  rw [Cursor.inject, Run.except_bind_eq_ok]
  simp only [Int.add_zero, insert_eq_ok]
  constructor
  · rintro ⟨b, ⟨hle, rfl⟩, h⟩
    obtain rfl := Except.ok.inj h
    exact ⟨hle, rfl⟩
  · rintro ⟨hle, rfl⟩
    exact ⟨_, ⟨hle, rfl⟩, rfl⟩

/-- A finalizer that is not armed or has fired does nothing; another one marks itself and edits
the text at the position.  A plain one inserts a closing parenthesis. -/
theorem fire_eq_ok {i : Nat} (h : fire i p = .ok u p') :
    (p' = p ∧ ∀ f, p.finalizers[i]? = some f → f.armed = false ∨ f.fired = true) ∨
      ∃ f buffer, p.finalizers[i]? = some f ∧
        p' = { p with
          finalizers := p.finalizers.modify i fun f => { f with fired := true }
          buffer } ∧
        (f.Plain → p.pos ≤ p.buffer.text.length ∧
          buffer.text = p.buffer.text.take p.pos ++ ')' :: p.unread) := by
  rw [fire, Run.get_bind] at h
  cases hf : p.finalizers[i]? with
  | none =>
    rw [hf] at h
    exact .inl ⟨(Run.pure_eq_ok.1 h).2.symm, by simp⟩
  | some f =>
    rw [hf] at h
    by_cases hquiet : (!f.armed || f.fired) = true
    · simp only [hquiet, ↓reduceIte] at h
      refine .inl ⟨(Run.pure_eq_ok.1 h).2.symm, ?_⟩
      rintro _ ⟨⟩
      simpa using hquiet
    · right
      -- it is marked first, and then edits the text; a plain one takes nothing out
      simp only [hquiet, Bool.false_eq_true, ↓reduceIte] at h
      obtain ⟨_, q, hmodify, h⟩ := Run.bind_eq_ok.1 h
      obtain rfl := Run.modify_eq_ok.1 hmodify
      by_cases hdrop : f.drop = 0
      · simp only [hdrop, ne_eq, not_true_eq_false, ↓reduceIte] at h
        obtain ⟨c', hinject, rfl⟩ := editHere_eq_ok.1 h
        refine ⟨f, c'.buffer, rfl, rfl, fun hplain => ?_⟩
        obtain ⟨hle, rfl⟩ := inject_eq_ok.1 hinject
        refine ⟨hle, ?_⟩
        simp [hplain.1, Parser.unread]
      · simp only [ne_eq, hdrop, not_false_eq_true, ↓reduceIte] at h
        obtain ⟨_, r, hstrip, h⟩ := Run.bind_eq_ok.1 h
        obtain ⟨c, -, rfl⟩ := editHere_eq_ok.1 hstrip
        obtain ⟨c', -, rfl⟩ := editHere_eq_ok.1 h
        exact ⟨f, c'.buffer, rfl, rfl, fun hplain => absurd hplain.2 hdrop⟩

/-- A hook that is run is noted and keeps the scopes and the position. -/
theorem runHook_restore_eq_ok {package name : String} {function : Option Function}
    {keyword : Option Keyword} :
    runHook (.restore package name function keyword) p = .ok u p' ↔
      p' = { p with namespaces := p.namespaces.putBack package name function keyword }.note
        (.ran (.restore package name function keyword) p.pos) := by
  have hnoted : (modify fun p => p.note (.ran (.restore package name function keyword) p.pos) :
      Parse Unit) p = .ok () (p.note (.ran (.restore package name function keyword) p.pos)) := rfl
  cases function <;>
    rw [runHook, Run.bind_of_ok hnoted, modifyNamespaces, Run.modify_eq_ok, eq_comm] <;> rfl

theorem runHook_finalize_eq_ok {i : Nat} :
    runHook (.finalize i) p = .ok u p' ↔ fire i (p.note (.ran (.finalize i) p.pos)) = .ok u p' := by
  simp [runHook, Run.bind_eq_ok]

/-- What a list of hooks does to a parser, whatever its finalizers edit. -/
structure HooksRun (hooks : List ScopeHook) (p p' : Parser) : Prop where
  journal : p'.journal = (hooks.map (.ran · p.pos)).reverse ++ p.journal
  scopes : p'.scopes = p.scopes
  pos : p'.pos = p.pos
  root : p'.root = p.root
  features : p'.features = p.features
  namespaces : p'.namespaces = hooks.foldl (fun ns hook => hook.apply ns) p.namespaces

variable {hook : ScopeHook} {hooks : List ScopeHook} {old new : List Finalizer}

theorem HooksRun.nil (p : Parser) : HooksRun [] p p := ⟨rfl, rfl, rfl, rfl, rfl, rfl⟩

theorem HooksRun.cons {q : Parser} (h : HooksRun [hook] p q) (h' : HooksRun hooks q p') :
    HooksRun (hook :: hooks) p p' := by
  refine ⟨?_, h'.scopes.trans h.scopes, h'.pos.trans h.pos, h'.root.trans h.root,
    h'.features.trans h.features, ?_⟩
  · rw [h'.journal, h.journal, h.pos]
    simp
  · rw [h'.namespaces, h.namespaces]
    rfl

theorem hooksRun_of_runHook (h : runHook hook p = .ok u p') : HooksRun [hook] p p' := by
  cases hook with
  | restore package name function keyword =>
    obtain rfl := runHook_restore_eq_ok.1 h
    exact ⟨rfl, rfl, rfl, rfl, rfl, rfl⟩
  | finalize i =>
    rcases fire_eq_ok (runHook_finalize_eq_ok.1 h) with ⟨rfl, -⟩ | ⟨f, buffer, -, rfl, -⟩ <;>
      exact ⟨rfl, rfl, rfl, rfl, rfl, rfl⟩

/-- The hooks of a scope run one after the other at the position of the parser. -/
theorem hooksRun_of_forM (h : hooks.forM runHook p = .ok u p') : HooksRun hooks p p' := by
  induction hooks generalizing p with
  | nil =>
    obtain rfl := Run.forM_nil_eq_ok.1 h
    exact .nil p
  | cons hook hooks ih =>
    obtain ⟨q, hhook, h⟩ := Run.forM_cons_eq_ok.1 h
    exact (hooksRun_of_runHook hhook).cons (ih h)

/-- What a list of hooks does to a parser, of which the finalizers beyond `old` are plain ones and
are those that the hooks name: closing parentheses are inserted at the position, at most one for
each finalizer. -/
structure Ran (hooks : List ScopeHook) (old : List Finalizer) (p p' : Parser) : Prop
    extends HooksRun hooks p p' where
  finalizers : ∃ new, p'.finalizers = old ++ new ∧ ∀ f ∈ new, f.Plain
  text : ∃ n ≤ hooks.countP (·.finalizes), (n ≠ 0 → p.pos ≤ p.buffer.text.length) ∧
    p'.buffer.text = p.buffer.text.take p.pos ++ (List.replicate n ')' ++ p.unread)

theorem Ran.unread_eq {n : Nat} (hn : n ≠ 0 → p.pos ≤ p.buffer.text.length)
    (hpos : p'.pos = p.pos)
    (h : p'.buffer.text = p.buffer.text.take p.pos ++ (List.replicate n ')' ++ p.unread)) :
    p'.buffer.text.take p.pos = p.buffer.text.take p.pos ∧
      p'.unread = List.replicate n ')' ++ p.unread := by
  rcases Nat.eq_zero_or_pos n with rfl | hpos'
  · have htext : p'.buffer.text = p.buffer.text := by
      rw [h, List.replicate_zero, List.nil_append, Parser.unread, List.take_append_drop]
    exact ⟨by rw [htext], by rw [Parser.unread, htext, hpos]; rfl⟩
  · have hlen : (p.buffer.text.take p.pos).length = p.pos := by
      rw [List.length_take, Nat.min_eq_left (hn (by omega))]
    exact ⟨by rw [h, List.take_left' hlen], by rw [Parser.unread, h, hpos, List.drop_left' hlen]⟩

theorem Ran.cons {q : Parser} (h : Ran [hook] old p q) (h' : Ran hooks old q p') :
    Ran (hook :: hooks) old p p' := by
  obtain ⟨n, hn, hle, htext⟩ := h.text
  obtain ⟨m, hm, hle', htext'⟩ := h'.text
  obtain ⟨htake, hunread⟩ := Ran.unread_eq hle h.pos htext
  refine ⟨h.toHooksRun.cons h'.toHooksRun, h'.finalizers, m + n, ?_, fun hne => ?_, ?_⟩
  · rw [List.countP_cons]
    rw [List.countP_cons, List.countP_nil] at hn
    omega
  · by_cases hn0 : n = 0
    · have := hle' (by omega)
      have hlen := congrArg List.length htext
      rw [hn0, List.replicate_zero, List.nil_append, Parser.unread, List.take_append_drop] at hlen
      rwa [hlen, h.pos] at this
    · exact hle hn0
  · rw [htext', h.pos, htake, hunread, ← List.append_assoc (List.replicate m ')'),
      List.replicate_append_replicate]

/-- Hooks that leave the text as it is. -/
theorem HooksRun.ran (h : HooksRun hooks p p') (hbuffer : p'.buffer = p.buffer)
    (hfinalizers : p'.finalizers = old ++ new) (hnew : ∀ f ∈ new, f.Plain) :
    Ran hooks old p p' :=
  ⟨h, ⟨new, hfinalizers, hnew⟩, 0, Nat.zero_le _, by simp,
    by rw [hbuffer]; exact (List.take_append_drop _ _).symm⟩

theorem runHook_ran (h : runHook hook p = .ok u p') (hfinalizers : p.finalizers = old ++ new)
    (hnew : ∀ f ∈ new, f.Plain) (hhook : ∀ i, .finalize i = hook → old.length ≤ i) :
    Ran [hook] old p p' := by
  have hruns := hooksRun_of_runHook h
  cases hook with
  | restore package name function keyword =>
    obtain rfl := runHook_restore_eq_ok.1 h
    exact hruns.ran rfl hfinalizers hnew
  | finalize i =>
    rcases fire_eq_ok (runHook_finalize_eq_ok.1 h) with ⟨rfl, -⟩ | ⟨f, buffer, hf, rfl, htext⟩
    · exact hruns.ran rfl hfinalizers hnew
    · have hi := hhook i rfl
      have hfinalizers' : (p.note (.ran (.finalize i) p.pos)).finalizers = old ++ new := hfinalizers
      rw [hfinalizers', List.getElem?_append_right hi] at hf
      obtain ⟨hle, htext⟩ := htext (hnew f (List.mem_of_getElem? hf))
      refine ⟨hruns, ⟨new.modify (i - old.length) fun f => { f with fired := true }, ?_, ?_⟩, 1,
        by simp [ScopeHook.finalizes], fun _ => hle, htext⟩
      · rw [← modify_append_of_le hi, ← hfinalizers]
        rfl
      · exact forall_mem_modify hnew fun g hg => hg

/-- The hooks of a scope, one after the other. -/
theorem forM_runHook (h : hooks.forM runHook p = .ok u p') (hfinalizers : p.finalizers = old ++ new)
    (hnew : ∀ f ∈ new, f.Plain) (hhooks : ∀ i, .finalize i ∈ hooks → old.length ≤ i) :
    Ran hooks old p p' := by
  induction hooks generalizing p new with
  | nil =>
    obtain rfl := Run.forM_nil_eq_ok.1 h
    exact (HooksRun.nil p).ran rfl hfinalizers hnew
  | cons hook hooks ih =>
    obtain ⟨q, hhook, h⟩ := Run.forM_cons_eq_ok.1 h
    have hq := runHook_ran hhook hfinalizers hnew fun i hi => hhooks i (hi ▸ List.mem_cons_self)
    obtain ⟨new', hfinalizers', hnew'⟩ := hq.finalizers
    exact hq.cons (ih h hfinalizers' hnew' fun i hi => hhooks i (List.mem_cons_of_mem _ hi))

theorem closeScope_eq_ok :
    closeScope p = .ok u p' ↔ ∃ scope scopes, p.scopes = scope :: scopes ∧
      scope.hooks.forM runHook ({ p with scopes }.note .closed) = .ok u p' := by
  rw [closeScope, Run.get_bind]
  cases hs : p.scopes with
  | nil => simp
  | cons scope scopes => simp [Run.bind_eq_ok]

/-! ### Expansions -/

variable {feature : BlockFeature} {options : KeywordOptions} {offset count : Nat}
  {declarator : String} {declaration : Declaration} {e : Error}

/-- An expansion changes the text and nothing else. -/
theorem expandAt_eq_ok :
    expandAt feature options offset declarator p = .ok (declaration, count) p' ↔
      ∃ c, Declaration.expand feature options p.currentPackage declarator ⟨p.buffer, offset⟩ =
        .ok declaration c ∧ c.offset = count ∧ p' = { p with buffer := c.buffer } := by
  unfold expandAt
  cases Declaration.expand feature options p.currentPackage declarator ⟨p.buffer, offset⟩ with
  | ok d c =>
    simp only [EStateM.Result.ok.injEq, Prod.mk.injEq]
    constructor
    · rintro ⟨⟨rfl, rfl⟩, rfl⟩
      exact ⟨c, ⟨rfl, rfl⟩, rfl, rfl⟩
    · rintro ⟨c, ⟨rfl, rfl⟩, rfl, rfl⟩
      exact ⟨⟨rfl, rfl⟩, rfl⟩
  | error e c => simp

theorem expandAt_eq_error :
    expandAt feature options offset declarator p = .error e p' ↔
      ∃ c, Declaration.expand feature options p.currentPackage declarator ⟨p.buffer, offset⟩ =
        .error e c ∧ p' = { p with buffer := c.buffer } := by
  unfold expandAt
  cases Declaration.expand feature options p.currentPackage declarator ⟨p.buffer, offset⟩ with
  | ok d c => simp
  | error e c =>
    simp only [EStateM.Result.error.injEq]
    constructor
    · rintro ⟨rfl, rfl⟩
      exact ⟨c, ⟨rfl, rfl⟩, rfl⟩
    · rintro ⟨c, ⟨rfl, rfl⟩, rfl⟩
      exact ⟨rfl, rfl⟩

theorem final_expandAt : Run.final (expandAt feature options offset declarator p) =
    { p with buffer := (Run.final (Declaration.expand feature options p.currentPackage declarator
      ⟨p.buffer, offset⟩)).buffer } := by
  unfold expandAt
  cases Declaration.expand feature options p.currentPackage declarator ⟨p.buffer, offset⟩ <;> rfl

/-- A declaration is noted when it has been expanded. -/
theorem dispatch_expand_eq_ok :
    dispatch (.expand feature options) offset declarator p = .ok u p' ↔ ∃ declaration c,
      Declaration.expand feature options p.currentPackage declarator ⟨p.buffer, offset⟩ =
        .ok declaration c ∧
      p' = { p with buffer := c.buffer }.note (.dispatched
        ⟨offset, declarator, p.currentPackage, feature, options, declaration⟩) := by
  rw [dispatch, Run.get_bind, Run.bind_eq_ok]
  constructor
  · rintro ⟨⟨declaration, count⟩, q, hexpand, h⟩
    obtain ⟨c, hc, -, rfl⟩ := expandAt_eq_ok.1 hexpand
    exact ⟨declaration, c, hc, (Run.modify_eq_ok.1 h).symm⟩
  · rintro ⟨declaration, c, hc, rfl⟩
    exact ⟨_, _, expandAt_eq_ok.2 ⟨c, hc, rfl, rfl⟩, rfl⟩

theorem dispatch_expand_eq_error :
    dispatch (.expand feature options) offset declarator p = .error e p' ↔ ∃ c,
      Declaration.expand feature options p.currentPackage declarator ⟨p.buffer, offset⟩ =
        .error e c ∧ p' = { p with buffer := c.buffer } := by
  rw [dispatch, Run.get_bind, Run.bind_eq_error, ← expandAt_eq_error]
  refine or_iff_left ?_
  rintro ⟨_, _, -, h⟩
  cases h

end Parse

end BraceScript
