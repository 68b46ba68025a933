import BraceScript.Proofs.Expansion
import BraceScript.Proofs.Runs

/-!
# Texts with the edits of declarations

An `Outline` is a text together with the edits that its declarations make: `Outline.original` is
the text before them, and `Outline.expanded` the text after them.  At a declaration,

* the name and the version are taken out of the head, and the call of the keyword's function is
  written at its first significant position (`Declaration.Head.expanded`);
* the trigger and the statements for the block are written behind the opening brace
  (`Site.injected`);
* a closing parenthesis is written behind the closing brace.

Nothing else is edited: what is left of the text (`Outline.remaining`) is there before and after.
-/

namespace BraceScript

open Declaration (Head)

/-- A text with the edits that declarations make. -/
inductive Outline where
  | done
  /-- A character that stays. -/
  | kept (c : Char) (rest : Outline)
  /-- A keyword, with a head and a block. -/
  | declared (site : Site) (head : Head) (body rest : Outline)

namespace Outline

/-- The text before the edits. -/
def original : Outline → List Char
  | done => []
  | kept c rest => c :: rest.original
  | declared site head body rest =>
    site.word.toList ++ (head.text ++ '\x7b' :: (body.original ++ '\x7d' :: rest.original))

/-- The text after the edits: the call is written into the head, the injected statements behind
the opening brace, and a closing parenthesis behind the closing one. -/
def expanded : Outline → List Char
  | done => []
  | kept c rest => c :: rest.expanded
  | declared site head body rest =>
    site.word.toList ++ (head.expanded site.package ++ '\x7b' ::
      (site.injected ++ (body.expanded ++ '\x7d' :: ')' :: rest.expanded)))

/-- The declarations, in the order of their keywords. -/
def sites : Outline → List Site
  | done => []
  | kept _ rest => rest.sites
  | declared site _ body rest => site :: (body.sites ++ rest.sites)

/-- Where the body of a declaration at an offset is, after the edits. -/
def inside (site : Site) (head : Head) (offset : Nat) : Nat :=
  offset + (site.word.toList ++ head.expanded site.package).length + 1 + site.injected.length

/-- Where the closing parentheses are after the edits, from an offset on. -/
def closings : Outline → Nat → List Nat
  | done, _ => []
  | kept _ rest, offset => rest.closings (offset + 1)
  | declared site head body rest, offset =>
    let behind := inside site head offset + body.expanded.length + 1
    body.closings (inside site head offset) ++ behind :: rest.closings (behind + 1)

/-- The declaration at an offset has been read from the text behind its keyword. -/
structure ReadAt (site : Site) (head : Head) (offset : Nat) (after : List Char) : Prop where
  starts : site.offset = offset
  word : Lexeme.word? (site.word.toList ++ after) = some site.word.toList
  parts : head = Head.read after
  name : site.declaration.name = head.target site.package
  version : site.declaration.version = head.version.map String.ofList
  block : site.declaration.block =
    offset + (site.word.toList ++ head.expanded site.package).length + 1

/-- Every declaration of the outline was read where it stands.  The outline begins at an offset
of the edited text, and `behind` follows it. -/
def Reads : Outline → Nat → List Char → Prop
  | done, _, _ => True
  | kept _ rest, offset, behind => rest.Reads (offset + 1) behind
  | declared site head body rest, offset, behind =>
    ReadAt site head offset
      (head.text ++ '\x7b' :: (body.original ++ '\x7d' :: (rest.original ++ behind))) ∧
    body.Reads (inside site head offset) ('\x7d' :: (rest.original ++ behind)) ∧
    rest.Reads (inside site head offset + body.expanded.length + 2) behind

/-- One outline behind another. -/
def append : Outline → Outline → Outline
  | done, o => o
  | kept c rest, o => kept c (rest.append o)
  | declared site head body rest, o => declared site head body (rest.append o)

instance : Append Outline := ⟨append⟩

/-- A text without edits. -/
def ofText (text : List Char) : Outline := text.foldr kept done

section

variable (site : Site) (head : Head) (body rest o : Outline) (c : Char)

@[simp] theorem kept_append : kept c rest ++ o = kept c (rest ++ o) := rfl

@[simp] theorem declared_append :
    declared site head body rest ++ o = declared site head body (rest ++ o) := rfl

end

@[simp] theorem ofText_cons (c : Char) (text : List Char) :
    ofText (c :: text) = kept c (ofText text) := rfl

@[simp] theorem original_ofText (text : List Char) : (ofText text).original = text := by
  induction text with
  | nil => rfl
  | cons c text ih => rw [ofText_cons, original, ih]

@[simp] theorem expanded_ofText (text : List Char) : (ofText text).expanded = text := by
  induction text with
  | nil => rfl
  | cons c text ih => rw [ofText_cons, expanded, ih]

@[simp] theorem sites_ofText (text : List Char) : (ofText text).sites = [] := by
  induction text with
  | nil => rfl
  | cons c text ih => rw [ofText_cons, sites, ih]

@[simp] theorem closings_ofText (text : List Char) (offset : Nat) :
    (ofText text).closings offset = [] := by
  induction text generalizing offset with
  | nil => rfl
  | cons c text ih => rw [ofText_cons, closings, ih]

theorem reads_ofText (text behind : List Char) (offset : Nat) :
    (ofText text).Reads offset behind := by
  induction text generalizing offset with
  | nil => trivial
  | cons c text ih => exact ih (offset + 1)

variable (o o' : Outline)

@[simp] theorem original_append : (o ++ o').original = o.original ++ o'.original := by
  induction o with
  | done => rfl
  | kept c rest ih => simp [original, ih]
  | declared site head body rest _ ih => simp [original, ih]

@[simp] theorem expanded_append : (o ++ o').expanded = o.expanded ++ o'.expanded := by
  induction o with
  | done => rfl
  | kept c rest ih => simp [expanded, ih]
  | declared site head body rest _ ih => simp [expanded, ih]

@[simp] theorem sites_append : (o ++ o').sites = o.sites ++ o'.sites := by
  induction o with
  | done => rfl
  | kept c rest ih => exact ih
  | declared site head body rest _ ih => simp [sites, ih]

/-- The length of a declaration after the edits. -/
theorem length_expanded_declared (site : Site) (head : Head) (body rest : Outline)
    (offset : Nat) : offset + (declared site head body rest).expanded.length =
      inside site head offset + body.expanded.length + 2 + rest.expanded.length := by
  simp only [expanded, inside, List.length_append, List.length_cons]
  omega

theorem closings_append (offset : Nat) : (o ++ o').closings offset =
    o.closings offset ++ o'.closings (offset + o.expanded.length) := by
  induction o generalizing offset with
  | done => rfl
  | kept c rest ih =>
    rw [kept_append, closings, closings, ih, expanded, List.length_cons, Nat.add_right_comm,
      Nat.add_assoc]
  | declared site head body rest _ ih =>
    rw [declared_append, closings, closings, ih, length_expanded_declared]
    simp

theorem reads_append {offset : Nat} {behind : List Char}
    (h : o.Reads offset (o'.original ++ behind))
    (h' : o'.Reads (offset + o.expanded.length) behind) : (o ++ o').Reads offset behind := by
  induction o generalizing offset with
  | done => exact h'
  | kept c rest ih =>
    refine ih h ?_
    rwa [Nat.add_right_comm, Nat.add_assoc]
  | declared site head body rest _ ih =>
    obtain ⟨hsite, hbody, hrest⟩ := h
    rw [length_expanded_declared] at h'
    rw [declared_append]
    refine ⟨?_, ?_, ih hrest h'⟩
    · rwa [original_append, List.append_assoc]
    · rwa [original_append, List.append_assoc]

end Outline

end BraceScript
