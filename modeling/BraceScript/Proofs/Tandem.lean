import BraceScript.Proofs.Following
import BraceScript.Proofs.Termination

/-!
# Two parsers in tandem

Two parsers are apart when the texts that they have still to read are related, and all else that
decides how they read is the same (`Parser.Apart`).  The second parser may also stand in
something that the first one does not (`Around`): in scopes of its own, and with finalizers of its
own in front (`Parser.ApartIn`).  If readers of
lexemes read related texts alike (`Lexeme.ReadAlike`), and declarations leave the texts related
(`Tandem`), then from such parsers every reader of the grammar follows itself (`Parse.allFollow`).
-/

namespace BraceScript

open Lexeme (significant IsWord Past Level IsStop Ended ReadAlike)
open Reader (IsMark)
open Run (Follows)

/-! ### What is around a parser -/

/-- A hook with its finalizer so many numbers further on. -/
def ScopeHook.shift (count : Nat) : ScopeHook → ScopeHook
  | .finalize index => .finalize (index + count)
  | .restore package name function keyword => .restore package name function keyword

/-- What a parser stands in that another one does not: finalizers in front of the others, and other
scopes at the bottom.  What is done in the innermost of these scopes is done in both. -/
structure Around where
  finalizers : List Finalizer
  /-- The scopes at the bottom of the first and of the second parser. -/
  Floor : List Scope → List Scope → Prop
  package {scopes scopes' : List Scope} (h : Floor scopes scopes') :
    scopes'.head?.map Scope.package = scopes.head?.map Scope.package
  change {scope : Scope} {scopes scopes' : List Scope} (h : Floor (scope :: scopes) scopes')
    (package : String) (hooks : List ScopeHook) : ∃ scope' rest', scopes' = scope' :: rest' ∧
      Floor (⟨package, scope.hooks ++ hooks⟩ :: scopes)
        (⟨package, scope'.hooks ++ hooks.map (ScopeHook.shift finalizers.length)⟩ :: rest')

namespace Around

/-- Both parsers have the same scopes and the same finalizers. -/
def same : Around where
  finalizers := []
  Floor scopes scopes' := scopes' = scopes
  package h := by rw [h]
  change h package hooks := by
    refine ⟨_, _, h, ?_⟩
    have hshift : ScopeHook.shift 0 = id := by
      funext hook
      cases hook <;> rfl
    rw [List.length_nil, hshift, List.map_id]

variable (A : Around)

/-- The hook that the second parser has for a hook of the first one. -/
def hook (hook : ScopeHook) : ScopeHook := hook.shift A.finalizers.length

/-- The scopes of the two parsers, so many above the bottom. -/
def Scopes : (depth : Nat) → List Scope → List Scope → Prop
  | 0, scopes, scopes' => A.Floor scopes scopes'
  | depth + 1, scopes, scopes' => ∃ package hooks rest rest', scopes = ⟨package, hooks⟩ :: rest ∧
      scopes' = ⟨package, hooks.map A.hook⟩ :: rest' ∧ Scopes depth rest rest'

variable {A} {d : Nat} {scope : Scope} {scopes scopes' : List Scope}

theorem Scopes.package (h : A.Scopes d scopes scopes') :
    scopes'.head?.map Scope.package = scopes.head?.map Scope.package := by
  cases d with
  | zero => exact A.package h
  | succ d =>
    obtain ⟨package, hooks, rest, rest', rfl, rfl, -⟩ := h
    rfl

/-- The innermost scope gets another package, or further hooks. -/
theorem Scopes.change (h : A.Scopes d (scope :: scopes) scopes') (package : String)
    (hooks : List ScopeHook) : ∃ scope' rest', scopes' = scope' :: rest' ∧
      A.Scopes d (⟨package, scope.hooks ++ hooks⟩ :: scopes)
        (⟨package, scope'.hooks ++ hooks.map A.hook⟩ :: rest') := by
  cases d with
  | zero => exact A.change h package hooks
  | succ d =>
    obtain ⟨_, own, rest, rest', heq, rfl, hrest⟩ := h
    obtain ⟨rfl, rfl⟩ := List.cons.inj heq
    exact ⟨_, _, rfl, package, own ++ hooks, _, rest', rfl, by rw [List.map_append], hrest⟩

end Around

/-! ### Parsers that are apart -/

/-- The unread texts are related by `G`, and all else that decides how the parsers read is the same,
but for what is around the second one; so many scopes have been opened in there.  The finalizers
insert closing parentheses only, and `W` holds of the packages of the scopes. -/
structure Parser.ApartIn (A : Around) (d : Nat) (W : String → Prop)
    (G : List Char → List Char → Prop) (p p' : Parser) : Prop where
  text : G p.unread p'.unread
  inside : p.pos ≤ p.buffer.text.length
  inside' : p'.pos ≤ p'.buffer.text.length
  namespaces : p'.namespaces = p.namespaces
  features : p'.features = p.features
  scopes : A.Scopes d p.scopes p'.scopes
  root : p'.root = p.root
  finalizers : p'.finalizers = A.finalizers ++ p.finalizers
  plain : ∀ f ∈ p.finalizers, f.Plain
  packages : ∀ scope ∈ p.scopes, W scope.package
  named : W p.root

/-- The unread texts are related by `G`, and all else that decides how the parsers read is the
same. -/
abbrev Parser.Apart (W : String → Prop) (G : List Char → List Char → Prop) (p p' : Parser) :
    Prop := Parser.ApartIn .same 0 W G p p'

/-- All declarations that were expanded are allowed. -/
def Parser.Dispatches (ok : Site → Prop) (p : Parser) : Prop :=
  ∀ site, .dispatched site ∈ p.journal → ok site

namespace Parser

variable {ok : Site → Prop} {A : Around} {d : Nat} {W : String → Prop}
  {G G' : List Char → List Char → Prop} {p p' : Parser}

theorem Dispatches.of_suffix (h : p'.Dispatches ok) (hsuffix : p.journal <:+ p'.journal) :
    p.Dispatches ok := fun site hsite => h site (hsuffix.subset hsite)

theorem Dispatches.of_note {event : Event} (h : (p.note event).Dispatches ok) : p.Dispatches ok :=
  fun site hsite => h site (List.mem_cons_of_mem _ hsite)

theorem Dispatches.of_isEmpty (h : p.journal.isEmpty = true) : p.Dispatches ok := by
  intro site hsite
  rw [List.isEmpty_iff.1 h] at hsite
  cases hsite

namespace ApartIn

theorem mono (h : ApartIn A d W G p p') (hG : ∀ t t', G t t' → G' t t') : ApartIn A d W G' p p' :=
  { h with text := hG _ _ h.text }

theorem currentPackage (h : ApartIn A d W G p p') : p'.currentPackage = p.currentPackage := by
  have heq (r : Parser) : r.currentPackage = (r.scopes.head?.map Scope.package).getD r.root := by
    rw [Parser.currentPackage]
    cases r.scopes <;> rfl
  rw [heq, heq, h.scopes.package, h.root]

theorem holds_currentPackage (h : ApartIn A d W G p p') : W p.currentPackage := by
  rw [Parser.currentPackage]
  split
  · next scope scopes heq => exact h.packages scope (by rw [heq]; exact List.mem_cons_self)
  · exact h.named

/-- Both positions move on. -/
theorem move (h : ApartIn A d W G p p') {k k' : Nat} (hk : k ≤ p.unread.length)
    (hk' : k' ≤ p'.unread.length) (hG : G' (p.unread.drop k) (p'.unread.drop k')) :
    ApartIn A d W G' (p.move k) (p'.move k') := by
  have hinside {r : Parser} {k : Nat} (hr : r.pos ≤ r.buffer.text.length)
      (hk : k ≤ r.unread.length) : (r.move k).pos ≤ (r.move k).buffer.text.length := by
    rw [Parser.unread, List.length_drop] at hk
    change r.pos + k ≤ r.buffer.text.length
    omega
  refine { h with text := ?_, inside := hinside h.inside hk, inside' := hinside h.inside' hk' }
  rwa [Parser.unread_move, Parser.unread_move]

/-- Behind blanks and comments. -/
theorem skip (h : ApartIn A d W G p p')
    (hG : G p.unread p'.unread → G' (significant p.unread) (significant p'.unread)) :
    ApartIn A d W G' p.skip p'.skip :=
  h.move (Lexeme.insignificant_le_length _) (Lexeme.insignificant_le_length _) (hG h.text)

end ApartIn

end Parser

open BraceScript.Parser (ApartIn Apart Dispatches)

namespace Parse

variable {α : Type} {ok : Site → Prop} {A : Around} {d : Nat} {W : String → Prop}
  {G : List Char → List Char → Prop}

/-- From parsers that are related, the second computation ends as the first one does, if all
declarations that were expanded up to the end of the first run are allowed. -/
abbrev Follows {α : Type} (ok : Site → Prop) (P : Parser → Parser → Prop) (x y : Parse α)
    (Q : α → Parser → Parser → Prop) : Prop := Run.Follows (Dispatches ok) P x y Q

variable {P : Parser → Parser → Prop} {Q : α → Parser → Parser → Prop}
  {R : List Char → List Char → Prop}

theorem follows_fail {y : Parse α} (fault : Fault) : Follows ok P (fail fault) y Q :=
  .of_fails fun _ _ _ h => fail_eq_ok h

theorem follows_failAt {y : Parse α} (offset : Nat) (fault : Fault) :
    Follows ok P (failAt offset fault) y Q :=
  .of_fails fun _ _ _ h => failAt_eq_ok h

theorem follows_fail_bind {β : Type} {f : α → Parse β} {y : Parse β}
    {R : β → Parser → Parser → Prop} (fault : Fault) :
    Follows ok P ((fail fault : Parse α) >>= f) y R :=
  .fails_bind fun _ _ _ h => fail_eq_ok h

theorem follows_orMisconfigured (x : Except Misconfiguration α) :
    Follows ok P (orMisconfigured x) (orMisconfigured x) fun _ => P := by
  cases x with
  | ok a => exact .pure fun _ _ h => h
  | error cause => exact .throw _

theorem follows_note (event event' : Event) :
    Follows ok (ApartIn A d W G) (modify fun p => p.note event) (modify fun p => p.note event')
      fun _ => ApartIn A d W G :=
  .modify (fun _ h => h.of_note) fun _ _ h => { h with }

theorem follows_modifyNamespaces (f : Namespaces → Namespaces) :
    Follows ok (ApartIn A d W G) (modifyNamespaces f) (modifyNamespaces f)
      fun _ => ApartIn A d W G :=
  .modify (fun _ h => h) fun _ _ h => { h with namespaces := congrArg f h.namespaces }

/-- What is read off two parsers that are apart is the same. -/
theorem follows_get {β γ : Type} {f g : Parser → Parse β} {R : β → Parser → Parser → Prop}
    (value : Parser → γ) (hvalue : ∀ p p', P p p' → value p' = value p)
    (h : ∀ p p', value p' = value p → Follows ok P (f p) (g p') R) :
    Follows ok P (get >>= f) (get >>= g) R :=
  .get (fun p p' => value p' = value p) (fun _ => rfl) hvalue fun p p' heq =>
    (h p p' heq).before fun _ _ h => h.1

/-! #### Scopes and keywords -/

theorem follows_openScope :
    Follows ok (ApartIn A d W G) openScope openScope fun _ => ApartIn A (d + 1) W G := by
  refine .modify (fun _ h => h.of_note) fun p p' h => { h with scopes := ?_, packages := ?_ }
  · exact ⟨p.currentPackage, [], p.scopes, p'.scopes, rfl, by rw [h.currentPackage]; rfl, h.scopes⟩
  · exact List.forall_mem_cons.2 ⟨h.holds_currentPackage, h.packages⟩

theorem follows_onScopeEnd (hook : ScopeHook) :
    Follows ok (ApartIn A d W G) (onScopeEnd hook) (onScopeEnd (A.hook hook))
      fun _ => ApartIn A d W G where
  keeps h hgood := by
    obtain ⟨scope, scopes, -, rfl⟩ := onScopeEnd_eq_ok.1 h
    exact hgood.of_note
  follows {p p' _ _} h hx _ := by
    obtain ⟨scope, scopes, hscopes, rfl⟩ := onScopeEnd_eq_ok.1 hx
    have haround := h.scopes
    have hpackages := h.packages
    rw [hscopes] at haround hpackages
    obtain ⟨scope', rest', hscopes', haround⟩ := haround.change scope.package [hook]
    have hpackage : scope'.package = scope.package := by
      have hsame := h.scopes.package
      rw [hscopes, hscopes'] at hsame
      exact Option.some.inj hsame
    refine ⟨p'.hooked scope' rest' (A.hook hook),
      onScopeEnd_eq_ok.2 ⟨scope', rest', hscopes', rfl⟩,
      { h with scopes := ?_, packages := ?_ }⟩
    · change A.Scopes d (⟨scope.package, _⟩ :: scopes) (⟨scope'.package, _⟩ :: rest')
      rw [hpackage]
      exact haround
    · rw [List.forall_mem_cons] at hpackages
      exact List.forall_mem_cons.2 hpackages

theorem follows_enterPackage (package : String) :
    Follows ok (ApartIn A d W fun t t' => W package ∧ G t t') (enterPackage package)
      (enterPackage package) fun _ => ApartIn A d W G where
  keeps h hgood := by
    obtain ⟨scope, scopes, -, rfl⟩ := enterPackage_eq_ok.1 h
    exact hgood
  follows {p p' _ _} h hx _ := by
    obtain ⟨scope, scopes, hscopes, rfl⟩ := enterPackage_eq_ok.1 hx
    have haround := h.scopes
    have hpackages := h.packages
    rw [hscopes] at haround hpackages
    obtain ⟨scope', rest', hscopes', haround⟩ := haround.change package []
    rw [List.map_nil, List.append_nil, List.append_nil] at haround
    rw [List.forall_mem_cons] at hpackages
    exact ⟨_, enterPackage_eq_ok.2 ⟨scope', rest', hscopes', rfl⟩,
      { h with
        text := h.text.2
        scopes := haround
        packages := List.forall_mem_cons.2 ⟨h.text.1, hpackages.2⟩ }⟩

theorem follows_modifyFinalizer (index : Nat) {f : Finalizer → Finalizer}
    (hf : ∀ finalizer, finalizer.Plain → (f finalizer).Plain) :
    Follows ok (ApartIn A d W G) (modifyFinalizer index f)
      (modifyFinalizer (index + A.finalizers.length) f) fun _ => ApartIn A d W G :=
  .modify (fun _ h => h) fun p p' h =>
    { h with
      finalizers := by
        change p'.finalizers.modify _ f = A.finalizers ++ p.finalizers.modify index f
        rw [h.finalizers, Nat.add_comm]
        exact List.modifyTailIdx_add ..
      plain := forall_mem_modify h.plain hf }

/-- The finalizers get different numbers where the second parser has some in front. -/
theorem follows_closeAtScopeEnd :
    Follows ok (ApartIn A d W G) closeAtScopeEnd closeAtScopeEnd fun _ => ApartIn A d W G where
  keeps h hgood := by
    obtain ⟨scope, scopes, -, rfl⟩ := closeAtScopeEnd_eq_ok.1 h
    exact fun site hsite => hgood site (List.mem_cons_of_mem _ hsite)
  follows {p p' u q} h hx hgood := by
    have hadded : ApartIn A d W G { p with finalizers := p.finalizers ++ [{ armed := true }] }
        { p' with finalizers := p'.finalizers ++ [{ armed := true }] } :=
      { h with
        finalizers := by
          change p'.finalizers ++ _ = A.finalizers ++ (p.finalizers ++ _)
          rw [h.finalizers, List.append_assoc]
        plain := List.forall_mem_append.2 ⟨h.plain, by simp [Finalizer.Plain]⟩ }
    have hnumber : p'.finalizers.length = p.finalizers.length + A.finalizers.length := by
      rw [h.finalizers, List.length_append, Nat.add_comm]
    rw [closeAtScopeEnd_apply] at hx ⊢
    rw [hnumber]
    exact (follows_onScopeEnd _).follows hadded hx hgood

theorem provide_eq_ok {feature : Feature} {p q : Parser} :
    provide feature p = .ok () q ↔
      ∃ features, p.features.provide feature = .ok features ∧ q = { p with features } := by
  rw [provide, Run.get_bind]
  cases p.features.provide feature with
  | error cause => simp [orMisconfigured, Run.bind_eq_ok]
  | ok features => simp [orMisconfigured, eq_comm]

theorem follows_provide (feature : Feature) :
    Follows ok (ApartIn A d W G) (provide feature) (provide feature) fun _ => ApartIn A d W G where
  keeps h hgood := by
    obtain ⟨features, -, rfl⟩ := provide_eq_ok.1 h
    exact hgood
  follows {p p' _ _} h hx _ := by
    obtain ⟨features, hfeatures, rfl⟩ := provide_eq_ok.1 hx
    exact ⟨_, provide_eq_ok.2 ⟨features, h.features ▸ hfeatures, rfl⟩, { h with features := rfl }⟩

theorem follows_installKeyword (feature : BlockFeature) (target : String)
    (options : KeywordOptions) :
    Follows ok (ApartIn A d W G) (installKeyword feature target options)
      (installKeyword feature target options) fun _ => ApartIn A d W G := by
  refine (follows_provide _).bind fun _ =>
    follows_get Parser.namespaces (fun _ _ h => h.namespaces) fun p p' heq => ?_
  rw [heq]
  exact (follows_modifyNamespaces _).bind fun _ => follows_onScopeEnd _

theorem follows_prepare (feature : BlockFeature) (options : Value) :
    Follows ok P (prepare feature options) (prepare feature options) fun _ => P := by
  rw [prepare]
  split
  · exact .pure fun _ _ h => h
  · exact .throw _

theorem follows_installWithin (fuel : Nat) (feature : Feature) (target : String)
    (options : Value) :
    Follows ok (ApartIn A d W G) (installWithin fuel feature target options)
      (installWithin fuel feature target options) fun _ => ApartIn A d W G := by
  induction fuel generalizing feature options with
  | zero => exact .throw _
  | succ fuel ih =>
    cases feature with
    | block feature =>
      exact (follows_prepare _ _).bind fun _ => follows_installKeyword _ _ _
    | bare => exact .throw _
    | dispatcher =>
      refine (follows_orMisconfigured _).bind fun pairs => .forM (fun pair => ?_) pairs
      refine follows_get Parser.features (fun _ _ h => h.features) fun p p' heq => ?_
      rw [heq]
      exact (follows_orMisconfigured _).bind fun feature => ih feature _

theorem follows_installPrelude (package : String) (rows : List (String × Value)) :
    Follows ok (ApartIn A d W G) (installPrelude package rows) (installPrelude package rows)
      fun _ => ApartIn A d W G := by
  refine .forM (fun row => ?_) rows
  refine follows_get Parser.features (fun _ _ h => h.features) fun p p' heq => ?_
  rw [heq]
  exact (follows_orMisconfigured _).bind fun feature => follows_installWithin _ _ _ _

/-! #### Reading and editing -/

theorem follows_read {x : Reader α} {Q : α → List Char → List Char → Prop}
    (h : Reader.Follows G x x Q) (hx : Reader.Drops x) :
    Follows ok (ApartIn A d W G) (read x) (read x) fun a => ApartIn A d W (Q a) where
  keeps hread hgood := by
    obtain ⟨k, -, -, rfl⟩ := (read_eq_ok hx).1 hread
    exact hgood
  follows {p p' _ _} happart hread _ := by
    obtain ⟨k, hk, hfirst, rfl⟩ := (read_eq_ok hx).1 hread
    obtain ⟨rest, hsecond, hrest⟩ := h.follows happart.text hfirst trivial
    obtain ⟨k', hk', rfl, -⟩ := Parser.exists_move_of_suffix (hx.of_ok hsecond)
    exact ⟨p'.move k', (read_eq_ok hx).2 ⟨k', hk', hsecond, rfl⟩, happart.move hk hk' hrest⟩

/-- Text that is inserted at the position is read next. -/
theorem follows_closing (hclose : ∀ t t', R t t' → R (')' :: t) (')' :: t')) :
    Follows ok (ApartIn A d W R) (editHere fun c => c.inject [')'])
      (editHere fun c => c.inject [')']) fun _ => ApartIn A d W R where
  keeps h hgood := by
    obtain ⟨c, -, rfl⟩ := editHere_eq_ok.1 h
    exact hgood
  follows {p p' _ _} h hx _ := by
    have hunread {r : Parser} (hinside : r.pos ≤ r.buffer.text.length) :
        Parser.unread { r with buffer := { r.buffer with
          text := r.buffer.text.take r.pos ++ [')'] ++ r.buffer.text.drop r.pos } } =
        ')' :: r.unread := by
      simp only [Parser.unread, List.append_assoc]
      rw [List.drop_left' (by rw [List.length_take, Nat.min_eq_left hinside])]
      rfl
    obtain ⟨c, hc, rfl⟩ := editHere_eq_ok.1 hx
    obtain ⟨-, rfl⟩ := inject_eq_ok.1 hc
    refine ⟨_, editHere_eq_ok.2 ⟨_, inject_eq_ok.2 ⟨h.inside', rfl⟩, rfl⟩,
      { h with text := ?_, inside := ?_, inside' := ?_ }⟩
    · rw [hunread h.inside, hunread h.inside']
      exact hclose _ _ h.text
    · have := h.inside
      simp only [List.length_append, List.length_take, List.length_drop]
      omega
    · have := h.inside'
      simp only [List.length_append, List.length_take, List.length_drop]
      omega

theorem follows_fire (hclose : ∀ t t', R t t' → R (')' :: t) (')' :: t')) (index : Nat) :
    Follows ok (ApartIn A d W R) (fire index) (fire (index + A.finalizers.length))
      fun _ => ApartIn A d W R where
  keeps h hgood := by
    rcases fire_eq_ok h with ⟨rfl, -⟩ | ⟨f, buffer, -, rfl, -⟩
    · exact hgood
    · exact hgood
  follows {p p' _ _} h hx hgood := by
    rw [fire, Run.get_bind] at hx ⊢
    rw [h.finalizers, List.getElem?_append_right (Nat.le_add_left _ _), Nat.add_sub_cancel]
    cases hf : p.finalizers[index]? with
    | none =>
      rw [hf] at hx
      obtain ⟨-, rfl⟩ := Run.pure_eq_ok.1 hx
      exact ⟨p', rfl, h⟩
    | some f =>
      obtain ⟨hclosing, hdrop⟩ := h.plain f (List.mem_of_getElem? hf)
      rw [hf] at hx
      simp only [hclosing, hdrop, ne_eq, not_true_eq_false, ↓reduceIte] at hx ⊢
      by_cases hquiet : (!f.armed || f.fired) = true
      · rw [if_pos hquiet] at hx ⊢
        obtain ⟨-, rfl⟩ := Run.pure_eq_ok.1 hx
        exact ⟨p', rfl, h⟩
      · rw [if_neg hquiet] at hx ⊢
        exact ((follows_modifyFinalizer index (by intro _ h; exact h)).bind fun _ =>
          follows_closing hclose).follows h hx hgood

theorem follows_runHook (hclose : ∀ t t', R t t' → R (')' :: t) (')' :: t'))
    (hook : ScopeHook) :
    Follows ok (ApartIn A d W R) (runHook hook) (runHook (A.hook hook))
      fun _ => ApartIn A d W R := by
  refine Run.Follows.bind (Q := fun _ => ApartIn A d W R)
    (.modify (fun _ h => h.of_note) fun _ _ h => { h with }) fun _ => ?_
  cases hook with
  | finalize index => exact follows_fire hclose index
  | restore package name function keyword =>
    cases function <;> exact follows_modifyNamespaces _

theorem follows_hooks (hclose : ∀ t t', R t t' → R (')' :: t) (')' :: t'))
    (hooks : List ScopeHook) :
    Follows ok (ApartIn A d W R) (hooks.forM runHook) ((hooks.map A.hook).forM runHook)
      fun _ => ApartIn A d W R := by
  induction hooks with
  | nil => exact .pure fun _ _ h => h
  | cons hook hooks ih => exact (follows_runHook hclose hook).bind fun _ => ih

/-- A scope is closed that was opened in there. -/
theorem follows_closeScope (hclose : ∀ t t', R t t' → R (')' :: t) (')' :: t')) :
    Follows ok (ApartIn A (d + 1) W R) closeScope closeScope fun _ => ApartIn A d W R where
  keeps h hgood := by
    obtain ⟨scope, scopes, -, h⟩ := closeScope_eq_ok.1 h
    exact ((follows_hooks (A := A) (d := d) (W := W) hclose scope.hooks).keeps h hgood).of_note
  follows {p p' _ _} h hx hgood := by
    obtain ⟨scope, scopes, hscopes, hx⟩ := closeScope_eq_ok.1 hx
    obtain ⟨package, hooks, rest, rest', heq, hscopes', haround⟩ := h.scopes
    obtain ⟨rfl, rfl⟩ := List.cons.inj (hscopes.symm.trans heq)
    have hpackages := h.packages
    rw [hscopes, List.forall_mem_cons] at hpackages
    have hclosed : ApartIn A d W R ({ p with scopes }.note .closed)
        ({ p' with scopes := rest' }.note .closed) :=
      { h with scopes := haround, packages := hpackages.2 }
    obtain ⟨t, ht, hapart⟩ := (follows_hooks hclose hooks).follows hclosed hx hgood
    exact ⟨t, closeScope_eq_ok.2 ⟨_, rest', hscopes', ht⟩, hapart⟩

/-- Where nothing is around, any scope can be closed. -/
theorem follows_closeScope_same (hclose : ∀ t t', R t t' → R (')' :: t) (')' :: t')) :
    Follows ok (Apart W R) closeScope closeScope fun _ => Apart W R where
  keeps := (follows_closeScope (A := .same) (d := 0) (W := W) hclose).keeps
  follows {p p' _ _} h hx hgood := by
    obtain ⟨scope, scopes, hscopes, -⟩ := closeScope_eq_ok.1 hx
    have hscopes' : p'.scopes = p.scopes := h.scopes
    have hshift : scope.hooks.map Around.same.hook = scope.hooks := by
      have hid : Around.same.hook = id := by
        funext hook
        cases hook <;> rfl
      rw [hid, List.map_id]
    have hapart : ApartIn .same 1 W R p p' :=
      { h with
        scopes := ⟨scope.package, scope.hooks, scopes, scopes, hscopes,
          by rw [hscopes', hscopes, hshift], rfl⟩ }
    exact (follows_closeScope hclose).follows hapart hx hgood

/-! #### Statements -/

/-- Readers of lexemes read related texts alike, and what a parser inserts leaves them related. -/
structure Tandem (ok : Site → Prop) (W : String → Prop) (R : List Char → List Char → Prop) : Prop
    extends ReadAlike R where
  word : ∀ name : String, IsWord name.toList → W name
  close : ∀ t t' : List Char, R t t' → R (')' :: t) (')' :: t')
  /-- The declaration of a keyword that comes next in both texts. -/
  dispatch : ∀ (A : Around) (d : Nat) (keyword : Keyword) (written : String) (p p' : Parser),
    Follows ok (fun s t => ApartIn A d W (Past R written.toList) s t ∧ s = p ∧ t = p')
      (dispatch keyword p.pos written) (dispatch keyword p'.pos written)
      fun _ => ApartIn A d W (Past R written.toList)

/-- The next character is the same in both texts, or the first one has ended. -/
theorem follows_peek (hR : ReadAlike R) {f g : Option Char → Parse α}
    (hseen : ∀ next, Follows ok (ApartIn A d W fun t t' => Level R t t' ∧ t.head? = next) (f next)
      (g next) Q)
    (hend : ∀ c, IsStop c → Follows ok (ApartIn A d W (Ended R)) (f none) (g (some c)) Q) :
    Follows ok (ApartIn A d W R) (read Reader.peek >>= f) (read Reader.peek >>= g) Q where
  keeps {p _ _} hx hgood := by
    rw [Run.bind_of_ok (read_peek p)] at hx
    exact (hseen _).keeps (s := p.skip) hx hgood
  follows {p p' _ _} h hx hgood := by
    rw [Run.bind_of_ok (read_peek p)] at hx
    rw [Run.bind_of_ok (read_peek p')]
    rcases hR.level h.text with hlevel | hended
    · rw [hlevel.head]
      exact (hseen _).follows (h.skip fun _ => ⟨hlevel, rfl⟩) hx hgood
    · obtain ⟨c, hc, hhead⟩ := hended.head
      rw [hhead]
      rw [hended.ended] at hx
      exact (hend c hc).follows (h.skip fun _ => hended) hx hgood

/-- Both texts end at once. -/
theorem follows_peek_even (hR : ReadAlike R) (hends : ∀ t t', ¬ Ended R t t')
    {f g : Option Char → Parse α}
    (hseen : ∀ next, Follows ok (ApartIn A d W fun t t' => Level R t t' ∧ t.head? = next) (f next)
      (g next) Q) :
    Follows ok (ApartIn A d W R) (read Reader.peek >>= f) (read Reader.peek >>= g) Q :=
  follows_peek hR hseen fun _ _ => .of_fails_from (fun _ _ _ => (hseen none).keeps)
    fun _ _ _ _ h => absurd h.text (hends _ _)

/-- Whatever comes next. -/
theorem follows_skip (hR : ReadAlike R) {x y : Parse α} (h : Follows ok (ApartIn A d W R) x y Q) :
    Follows ok (ApartIn A d W R) (read Reader.peek >>= fun _ => x)
      (read Reader.peek >>= fun _ => y) Q :=
  follows_peek hR (fun _ => h.before fun _ _ h => h.mono fun _ _ h => h.1.text)
    fun _ _ => h.before fun _ _ h => h.mono fun _ _ h => h.text

section

variable (hR : Tandem ok W R)

include hR

theorem follows_packageStatement :
    Follows ok (ApartIn A d W R) packageStatement packageStatement fun _ => ApartIn A d W R := by
  refine (follows_read (Reader.follows_word hR.toReadAlike _) (Reader.drops_word _)).bind
    fun name => (follows_modifyNamespaces _).bind fun _ => ?_
  exact (follows_enterPackage name).before fun _ _ h => h.mono fun _ _ h => ⟨hR.word name h.1, h.2⟩

theorem follows_versionStatement :
    Follows ok (ApartIn A d W R) versionStatement versionStatement fun _ => ApartIn A d W R := by
  refine (follows_read (follows_versionLiteral hR.toReadAlike) drops_versionLiteral).bind
    fun literal => follows_get Parser.currentPackage (fun _ _ h => h.currentPackage)
      fun p p' heq => ?_
  rw [heq]
  exact .pure fun _ _ h => h

theorem follows_word (what : String) :
    Follows ok (ApartIn A d W R) (read (Reader.word what)) (read (Reader.word what))
      fun _ => ApartIn A d W R :=
  (follows_read (Reader.follows_word hR.toReadAlike what) (Reader.drops_word what)).after
    fun _ _ _ h => h.mono fun _ _ h => h.2

theorem follows_accept {c : Char} (hc : IsMark c) :
    Follows ok (ApartIn A d W R) (read (Reader.accept c)) (read (Reader.accept c))
      fun _ => ApartIn A d W R :=
  follows_read (Reader.follows_accept hR.toReadAlike hc) (Reader.drops_accept c)

theorem follows_expect {c : Char} (hquote : c ≠ '"') :
    Follows ok (ApartIn A d W R) (read (Reader.expect c)) (read (Reader.expect c))
      fun _ => ApartIn A d W R :=
  follows_read (Reader.follows_expect hR.toReadAlike hquote) (Reader.drops_expect c)

/-- A character that was seen is passed. -/
theorem follows_pass {c : Char} (hquote : c ≠ '"') :
    Follows ok (ApartIn A d W fun t t' => Level R t t' ∧ t.head? = some c) (read (Reader.advance 1))
      (read (Reader.advance 1)) fun _ => ApartIn A d W R :=
  follows_read (Reader.follows_pass hR.toReadAlike hquote) (Reader.drops_advance 1)

omit hR in
/-- A word that was seen is passed. -/
theorem follows_advance {written : String} {count : Nat} (hcount : written.length = count) :
    Follows ok (ApartIn A d W (Past R written.toList)) (read (Reader.advance count))
      (read (Reader.advance count)) fun _ => ApartIn A d W R :=
  follows_read (Reader.follows_advance (String.length_toList.trans hcount))
    (Reader.drops_advance count)

theorem follows_featureName :
    Follows ok (ApartIn A d W R) featureName featureName fun _ => ApartIn A d W R := by
  refine follows_skip hR.toReadAlike ?_
  refine follows_get (fun _ => ()) (fun _ _ _ => rfl) fun _ _ _ =>
    (follows_word hR _).bind fun name =>
    follows_get Parser.features (fun _ _ h => h.features) fun p p' heq => ?_
  rw [heq]
  split
  · exact follows_failAt _ _
  · exact .pure fun _ _ h => h

theorem follows_useStatement :
    Follows ok (ApartIn A d W R) useStatement useStatement fun _ => ApartIn A d W R := by
  refine (follows_featureName hR).bind fun found =>
    (follows_read (follows_useArguments hR.toReadAlike) drops_useArguments).bind fun options =>
    follows_get Parser.currentPackage (fun _ _ h => h.currentPackage) fun p p' heq => ?_
  rw [heq]
  exact follows_installWithin _ _ _ _

theorem follows_beginStatement (offset offset' : Nat) :
    Follows ok (ApartIn A d W R) (beginStatement offset) (beginStatement offset')
      fun _ => ApartIn A d W R := by
  refine follows_skip hR.toReadAlike ?_
  refine follows_get (fun _ => ()) (fun _ _ _ => rfl) fun _ _ _ =>
    (follows_word hR _).bind fun name =>
    (follows_expect hR (by decide)).bind fun _ => (follows_word hR _).bind fun hook =>
    follows_get Parser.features (fun _ _ h => h.features) fun p p' heq => ?_
  rw [heq]
  split
  · exact follows_failAt _ _
  · exact .throw _
  · exact follows_failAt _ _
  · split
    · exact (follows_note _ _).bind fun _ => follows_closeAtScopeEnd
    · exact follows_failAt _ _

end

/-! #### The grammar -/

/-- From parsers that are apart, all readers of the grammar with so much fuel follow themselves.
Statements up to the end of the text do so if both texts end at once. -/
structure AllFollow (A : Around) (ok : Site → Prop) (W : String → Prop)
    (R : List Char → List Char → Prop) (n : Nat) : Prop where
  statements : ∀ {d} closing, (closing = none → ∀ t t', ¬ Ended R t t') →
    Follows ok (ApartIn A d W R) (statementsWithin closing n) (statementsWithin closing n)
      fun _ => ApartIn A d W R
  statement : ∀ {d}, Follows ok (ApartIn A d W R) (statementWithin n) (statementWithin n)
    fun _ => ApartIn A d W R
  expression : ∀ {d}, Follows ok (ApartIn A d W R) (expressionWithin n) (expressionWithin n)
    fun _ => ApartIn A d W R
  name : ∀ {d} written, Follows ok (ApartIn A d W R) (nameWithin written n) (nameWithin written n)
    fun _ => ApartIn A d W R
  parenthesized : ∀ {d}, Follows ok (ApartIn A d W R) (parenthesizedWithin n)
    (parenthesizedWithin n) fun _ => ApartIn A d W R
  expressions : ∀ {d} closing, IsMark closing →
    Follows ok (ApartIn A d W R) (expressionsWithin closing n) (expressionsWithin closing n)
      fun _ => ApartIn A d W R
  block : ∀ {d}, Follows ok (ApartIn A d W R) (blockWithin n) (blockWithin n)
    fun _ => ApartIn A d W R

/-- Statements do not end with the text, if they are to be closed. -/
theorem statementsWithin_ended {closing : String} {p q : Parser} {nodes : List Node} (n : Nat)
    (hp : p.unread = []) : statementsWithin (some closing) n p ≠ .ok nodes q := by
  intro h
  cases n with
  | zero => exact Run.throw_eq_ok h
  | succ n =>
    rw [statementsWithin, Run.bind_of_ok (read_peek p), hp] at h
    exact fail_eq_ok h

namespace AllFollow

variable {n : Nat}

theorem zero : AllFollow A ok W R 0 where
  statements _ _ := by rw [statementsWithin]; exact .throw _
  statement := by rw [statementWithin]; exact .throw _
  expression := by rw [expressionWithin]; exact .throw _
  name _ := by rw [nameWithin]; exact .throw _
  parenthesized := by rw [parenthesizedWithin]; exact .throw _
  expressions _ _ := by rw [expressionsWithin]; exact .throw _
  block := by rw [blockWithin]; exact .throw _

variable (hR : Tandem ok W R)

include hR

theorem statements_succ (ih : AllFollow A ok W R n) (closing : Option String)
    (hends : closing = none → ∀ t t', ¬ Ended R t t') :
    Follows ok (ApartIn A d W R) (statementsWithin closing (n + 1))
      (statementsWithin closing (n + 1)) fun _ => ApartIn A d W R := by
  rw [statementsWithin.eq_def]
  dsimp only
  have hseen {p p' : Parser} {next : Option Char}
      (h : ApartIn A d W (fun t t' => Level R t t' ∧ t.head? = next) p p') : ApartIn A d W R p p' :=
    h.mono fun _ _ h => h.1.text
  refine follows_peek hR.toReadAlike (fun next => ?_) ?_
  · cases next with
    | none =>
      cases closing with
      | none => exact .pure fun _ _ => hseen
      | some closing => exact follows_fail _
    | some c =>
      dsimp only
      split
      · exact .pure fun _ _ => hseen
      · split
        · next heq =>
          subst heq
          exact (follows_pass hR (by decide)).bind fun _ => ih.statements closing hends
        · refine (ih.statement.before fun _ _ => hseen).bind fun node => ?_
          have hmore : Follows ok (ApartIn A d W R)
              (do return node.toList ++ (← statementsWithin closing n))
              (do return node.toList ++ (← statementsWithin closing n)) fun _ => ApartIn A d W R :=
            (ih.statements closing hends).bind fun _ => .pure fun _ _ h => h
          refine follows_peek hR.toReadAlike (fun next => ?_) ?_
          · cases next with
            | none => exact hmore.before fun _ _ => hseen
            | some d =>
              dsimp only
              split
              · next heq =>
                subst heq
                exact (follows_pass hR (by decide)).bind fun _ => hmore
              · split
                · exact follows_fail_bind _
                · exact hmore.before fun _ _ => hseen
          · intro _ _
            refine .of_fails_from (fun _ _ _ => hmore.keeps) fun p p' _ q hp hok => ?_
            cases closing with
            | none => exact hends rfl _ _ hp.text
            | some closing =>
              obtain ⟨_, _, hok, -⟩ := Run.bind_eq_ok.1 hok
              exact statementsWithin_ended n hp.text.ended hok
  · intro _ _
    cases closing with
    | none =>
      refine .of_fails_from (fun p q _ h hgood => ?_) fun _ _ _ _ hp =>
        absurd hp.text (hends rfl _ _)
      obtain ⟨-, rfl⟩ := Run.pure_eq_ok.1 h
      exact hgood
    | some closing => exact follows_fail _

theorem statement_succ (ih : AllFollow A ok W R n) :
    Follows ok (ApartIn A d W R) (statementWithin (n + 1)) (statementWithin (n + 1))
      fun _ => ApartIn A d W R := by
  rw [statementWithin.eq_def]
  dsimp only
  refine (follows_read (Reader.follows_peekWord hR.toReadAlike) Reader.drops_peekWord).bind
    fun word => ?_
  have hword {w : String} {count : Nat} (hcount : w.length = count) :
      Follows ok (ApartIn A d W fun t t' => R t t' ∧ ∀ w' ∈ some w, IsWord w'.toList ∧
          Past R w'.toList t t') (read (Reader.advance count)) (read (Reader.advance count))
        fun _ => ApartIn A d W R :=
    (follows_advance hcount).before fun _ _ h => h.mono fun _ _ h => (h.2 w rfl).2
  split
  · exact (hword rfl).bind fun _ => (follows_packageStatement hR).bind fun _ => .pure fun _ _ h => h
  · exact (hword rfl).bind fun _ => (follows_versionStatement hR).bind fun _ => .pure fun _ _ h => h
  · exact (hword rfl).bind fun _ => (follows_useStatement hR).bind fun _ => .pure fun _ _ h => h
  · exact follows_get (fun _ => ()) (fun _ _ _ => rfl) fun _ _ _ => (hword rfl).bind fun _ =>
      (follows_beginStatement hR _ _).bind fun _ => .pure fun _ _ h => h
  · refine (hword rfl).bind fun _ => (follows_word hR _).bind fun name =>
      follows_get Parser.currentPackage (fun _ _ h => h.currentPackage) fun p p' heq => ?_
    rw [heq]
    exact ih.block.bind fun _ => (follows_modifyNamespaces _).bind fun _ =>
      (follows_note _ _).bind fun _ => .pure fun _ _ h => h
  · exact (ih.expression.before fun _ _ h => h.mono fun _ _ h => h.1).bind fun _ =>
      .pure fun _ _ h => h

theorem word (ih : AllFollow A ok W R n) (written : String) :
    Follows ok (ApartIn A d W (Past R written.toList)) (wordExpression written n)
      (wordExpression written n) fun _ => ApartIn A d W R := by
  have hadvance : Follows ok (ApartIn A d W (Past R written.toList))
      (read (Reader.advance written.length)) (read (Reader.advance written.length))
      fun _ => ApartIn A d W R := follows_advance rfl
  have hname : Follows ok (ApartIn A d W (Past R written.toList))
      (read (Reader.advance written.length) >>= fun _ => nameWithin written n)
      (read (Reader.advance written.length) >>= fun _ => nameWithin written n)
      fun _ => ApartIn A d W R := hadvance.bind fun _ => ih.name written
  rw [wordExpression]
  dsimp only
  split
  · exact hadvance.bind fun _ => ih.block.bind fun _ => .pure fun _ _ h => h
  split
  · exact follows_fail_bind _
  cases Literal.constant? written with
  | some value => exact hadvance.bind fun _ => .pure fun _ _ h => h
  | none =>
    dsimp only
    split
    · refine hadvance.bind fun _ =>
        follows_get Parser.currentPackage (fun _ _ h => h.currentPackage) fun p p' heq => ?_
      rw [heq]
      exact .pure fun _ _ h => h
    refine .get (fun p p' => p'.namespaces.keyword? p'.currentPackage written =
      p.namespaces.keyword? p.currentPackage written) (fun _ => rfl)
      (fun _ _ h => by rw [h.namespaces, h.currentPackage]) fun p p' heq => ?_
    rw [heq]
    split
    · cases p.namespaces.keyword? p.currentPackage written with
      | none => exact hname.before fun _ _ h => h.1
      | some keyword => exact (hR.dispatch A d keyword written p p').bind fun _ => hname
    · exact hname.before fun _ _ h => h.1

theorem expression_succ (ih : AllFollow A ok W R n) :
    Follows ok (ApartIn A d W R) (expressionWithin (n + 1)) (expressionWithin (n + 1))
      fun _ => ApartIn A d W R := by
  rw [expressionWithin.eq_def]
  dsimp only
  refine follows_peek hR.toReadAlike (fun next => ?_) fun _ _ => follows_fail _
  split
  · exact follows_fail _
  · exact (follows_read (Reader.follows_quoted hR.toReadAlike) Reader.drops_quoted).bind fun _ =>
      .pure fun _ _ h => h
  · exact (follows_pass hR (by decide)).bind fun _ => ih.parenthesized
  · exact (follows_pass hR (by decide)).bind fun _ => (ih.expressions _ (by decide)).bind fun _ =>
      .pure fun _ _ h => h
  · have hseen {p p' : Parser} {next : Option Char}
        (h : ApartIn A d W (fun t t' => Level R t t' ∧ t.head? = next) p p') :
        ApartIn A d W R p p' :=
      h.mono fun _ _ h => h.1.text
    refine follows_get (fun p => (p.unread.drop 1).head?.any Text.isAnyDigit)
      (fun _ _ h => hR.digit h.text.1) fun p p' heq => ?_
    rw [heq]
    split
    · exact ((follows_read (Literal.follows_number hR.toReadAlike) Literal.drops_number).before
        fun _ _ => hseen).bind fun _ => .pure fun _ _ h => h
    · refine ((follows_read (Reader.follows_peekWord hR.toReadAlike) Reader.drops_peekWord).before
        fun _ _ => hseen).bind fun found => ?_
      cases found with
      | none => exact follows_fail _
      | some written =>
        exact (word hR ih written).before fun _ _ h => h.mono fun _ _ h => (h.2 written rfl).2

theorem name_succ (ih : AllFollow A ok W R n) (written : String) :
    Follows ok (ApartIn A d W R) (nameWithin written (n + 1)) (nameWithin written (n + 1))
      fun _ => ApartIn A d W R := by
  rw [nameWithin.eq_def]
  dsimp only
  have hcall (arguments : List Node) (target : Option Function) :
      Follows ok (ApartIn A d W R)
        (do return Node.call written (← get).currentPackage arguments target)
        (do return Node.call written (← get).currentPackage arguments target)
        fun _ => ApartIn A d W R := by
    refine follows_get Parser.currentPackage (fun _ _ h => h.currentPackage) fun p p' heq => ?_
    rw [heq]
    exact .pure fun _ _ h => h
  refine follows_get (fun p => (p.currentPackage, p.namespaces))
    (fun _ _ h => by rw [h.currentPackage, h.namespaces]) fun p p' heq => ?_
  obtain ⟨hpackage, hnamespaces⟩ := Prod.mk.inj heq
  rw [hpackage, hnamespaces]
  refine (follows_accept hR (by decide)).bind fun opened => ?_
  split
  · exact (ih.expressions _ (by decide)).bind fun _ => hcall _ _
  · split
    · exact hcall _ _
    · exact .pure fun _ _ h => h

theorem parenthesized_succ (ih : AllFollow A ok W R n) :
    Follows ok (ApartIn A d W R) (parenthesizedWithin (n + 1)) (parenthesizedWithin (n + 1))
      fun _ => ApartIn A d W R := by
  rw [parenthesizedWithin.eq_def]
  dsimp only
  refine (follows_accept hR (by decide)).bind fun closed => ?_
  split
  · exact .pure fun _ _ h => h
  · refine ih.expression.bind fun first => (follows_accept hR (by decide)).bind fun closed => ?_
    split
    · exact .pure fun _ _ h => h
    · exact (follows_expect hR (by decide)).bind fun _ =>
        (ih.expressions _ (by decide)).bind fun _ => .pure fun _ _ h => h

theorem expressions_succ (ih : AllFollow A ok W R n) (closing : Char) (hc : IsMark closing) :
    Follows ok (ApartIn A d W R) (expressionsWithin closing (n + 1))
      (expressionsWithin closing (n + 1)) fun _ => ApartIn A d W R := by
  rw [expressionsWithin.eq_def]
  dsimp only
  refine (follows_accept hR hc).bind fun closed => ?_
  split
  · exact .pure fun _ _ h => h
  · refine ih.expression.bind fun item => (follows_accept hR (by decide)).bind fun more => ?_
    split
    · exact (ih.expressions _ hc).bind fun _ => .pure fun _ _ h => h
    · exact (follows_expect hR hc.1).bind fun _ => .pure fun _ _ h => h

theorem block_succ (ih : AllFollow A ok W R n) :
    Follows ok (ApartIn A d W R) (blockWithin (n + 1)) (blockWithin (n + 1))
      fun _ => ApartIn A d W R := by
  rw [blockWithin.eq_def]
  dsimp only
  exact (follows_expect hR (by decide)).bind fun _ => follows_openScope.bind fun _ =>
    (ih.statements (some "\x7d") fun h => absurd h (by simp)).bind fun _ =>
    (follows_expect hR (by decide)).bind fun _ => (follows_closeScope hR.close).bind fun _ =>
    .pure fun _ _ h => h

end AllFollow

/-- **No reader of the grammar sees where the texts differ.** -/
theorem allFollow (hR : Tandem ok W R) (A : Around) (n : Nat) : AllFollow A ok W R n := by
  induction n with
  | zero => exact .zero
  | succ n ih =>
    exact ⟨AllFollow.statements_succ hR ih, AllFollow.statement_succ hR ih,
      AllFollow.expression_succ hR ih, AllFollow.name_succ hR ih,
      AllFollow.parenthesized_succ hR ih, AllFollow.expressions_succ hR ih,
      AllFollow.block_succ hR ih⟩

end Parse

end BraceScript
