import BraceScript.Proofs.Spellings

/-!
# Literals in expressions

Expressions and data are read by different readers, which agree on literals without mappings: in
front of a text that does not go on with the literal, an expression is the node of the value that
is read there as data (`Literal.expression_write`).  Reading it dispatches no keyword, and
evaluating the node gives the value and changes nothing.

Both readers are followed through one induction on the value that was written; the node of an
expression is determined by the value that the other reader gives (`Value.node`).
-/

namespace BraceScript

open Lexeme (significant IsNumber EndsLexeme)
open Parse

/-! ### What follows a literal -/

/-- White space, in all scripts. -/
def whiteSpace : Text.Ranges :=
  [(9, 13), (28, 32), (133, 133), (160, 160), (5760, 5760), (8192, 8202), (8232, 8233),
    (8239, 8239), (8287, 8287), (12288, 12288)]

theorem isDelimiter_of_whiteSpace {c : Char} (h : whiteSpace.covers c = true) :
    Lexeme.isDelimiter c = true := by
  have hdisjoint : whiteSpace.all (fun space => (space.2 < 46 ∨ 122 < space.1) ∧
      Text.letterRanges.all fun letters => letters.2 < space.1 ∨ space.2 < letters.1) = true := by
    decide +kernel
  obtain ⟨space, hspace, hc⟩ := List.any_eq_true.1 h
  rw [Bool.and_eq_true, decide_eq_true_eq, decide_eq_true_eq] at hc
  obtain ⟨hascii, hletters⟩ := of_decide_eq_true (List.all_eq_true.1 hdisjoint space hspace)
  have hcovers : Text.letterRanges.covers c = false := by
    rw [Text.Ranges.covers, List.any_eq_false]
    intro letters hmem
    have hapart := of_decide_eq_true (List.all_eq_true.1 hletters letters hmem)
    simp only [Bool.and_eq_true, decide_eq_true_eq]
    omega
  have hne (d : Char) (hd : 46 ≤ d.toNat ∧ d.toNat ≤ 122) : c ≠ d := by
    rintro rfl
    omega
  have halphanum : c.isAlphanum = false := by
    have hval : c.val.toNat < 46 ∨ 122 < c.val.toNat := by
      change c.toNat < 46 ∨ 122 < c.toNat
      omega
    have hbounds : 'A'.val.toNat = 65 ∧ 'Z'.val.toNat = 90 ∧ 'a'.val.toNat = 97 ∧
        'z'.val.toNat = 122 ∧ '0'.val.toNat = 48 ∧ '9'.val.toNat = 57 := by decide
    delta Char.isAlphanum Char.isAlpha Char.isUpper Char.isLower Char.isDigit
    simp only [ge_iff_le, UInt32.le_iff_toNat_le, Bool.or_eq_false_iff, Bool.and_eq_false_iff,
      decide_eq_false_iff_not]
    omega
  rw [Lexeme.isDelimiter_iff, Text.isWordChar, halphanum, hcovers]
  simp [hne '_' (by decide), hne '.' (by decide), hne ':' (by decide)]

/-- A literal ends before white space of any kind, and before what separates or closes values. -/
theorem endsLexeme_of_separator {c : Char} (rest : List Char)
    (h : whiteSpace.covers c = true ∨ c ∈ [',', ';', ')', ']', '\x7d']) :
    EndsLexeme (c :: rest) := by
  rcases h with h | h
  · exact .cons rest (isDelimiter_of_whiteSpace h)
  · exact .cons rest (Lexeme.isDelimiter_of_mem (by simp_all))

/-! ### Values as nodes -/

namespace Value

mutual

/-- The node that stands for a value: lists are lists of nodes, all else is a literal. -/
def node : Value → Node
  | list items => .list (nodes items)
  | v => .literal v

/-- The nodes of the items. -/
def nodes : List Value → List Node
  | [] => []
  | item :: items => node item :: nodes items

end

mutual

/-- There is no mapping in the value. -/
def HasNoMapping : Value → Prop
  | mapping _ => False
  | list items | tuple items => HaveNoMapping items
  | _ => True

/-- There is no mapping in the items. -/
def HaveNoMapping : List Value → Prop
  | [] => True
  | item :: items => HasNoMapping item ∧ HaveNoMapping items

end

variable (apply : Application) (ns : Namespaces)

mutual

/-- The node of a value has that value, and changes nothing. -/
theorem evalNode_node (v : Value) : evalNode apply v.node ns = .ok v ns := by
  match v with
  | list items =>
    rw [node, evalNode.eq_def]
    dsimp only
    rw [Run.bind_of_ok (evalNodes_nodes items)]
    rfl
  | null | bool _ | int _ | float _ | text _ | tuple _ | mapping _ | inner _ _ | record _ _ _
  | foreign _ _ =>
    exact evalNode_literal apply ns _

theorem evalNodes_nodes (items : List Value) : evalNodes apply (nodes items) ns = .ok items ns := by
  match items with
  | [] =>
    rw [nodes, evalNodes.eq_def]
    rfl
  | item :: items =>
    rw [nodes, evalNodes.eq_def]
    dsimp only
    rw [Run.bind_of_ok (evalNode_node item), Run.bind_of_ok (evalNodes_nodes items)]
    rfl

end

end Value

/-! ### Expressions that are literals -/

namespace Parse

open Literal (write writeItems commaList)
open Reader (advance)

variable {p q : Parser} {fuel : Nat} {rest : List Char} {v w : Value}

/-- Behind a part of the text the parser stands before a character that counts. -/
theorem behind_mark {part : List Char} {c : Char} (hp : p.unread = part ++ c :: rest)
    (hblank : Text.isBlank c = false) (hcomment : c ≠ '#') :
    significant (p.move part.length).unread = c :: rest ∧
      (p.move part.length).skip = p.move part.length :=
  Parser.at_mark (Parser.unread_move_append hp rfl) hblank hcomment

/-- The blank behind a comma is skipped before the next item. -/
theorem at_comma {part text : List Char} (hp : p.unread = part ++ ',' :: ' ' :: text)
    (htext : significant text = text) :
    significant ((p.move part.length).move 1).unread = text ∧
      ((p.move part.length).move 1).skip = p.move (part.length + 2) := by
  have hunread : ((p.move part.length).move 1).unread = [' '] ++ text := by
    rw [Parser.unread_move, Parser.unread_move_append hp rfl]
    rfl
  have hblank : Lexeme.Insignificant [' '] := .blank (by decide)
  refine ⟨by rw [hunread, hblank.significant_append, htext], ?_⟩
  rw [Parser.skip_eq_move hunread hblank htext, Parser.move_move, Parser.move_move]
  rfl

/-- A constant is read as a value before it is looked up as a keyword. -/
theorem expressionWithin_constant {word : String} (hword : Lexeme.word? p.unread = some word.toList)
    (hv : Literal.constant? word = some v) :
    expressionWithin (fuel + 1) p = .ok (.literal v) (p.move word.length) := by
  have hfree : word ∉ statementWords := by
    have hnone : ∀ word ∈ statementWords, (Literal.constant? word).isNone = true := by decide
    intro hmem
    have := hnone word hmem
    rw [hv] at this
    cases this
  rw [expressionWithin_word hword, wordExpression]
  dsimp only
  rw [if_neg (by rintro rfl; exact hfree (by simp [statementWords])), if_neg (by simpa using hfree),
    hv]
  exact Run.bind_of_ok (read_advance_word hword rfl)

/-- What starts like a number is read as one. -/
theorem expressionWithin_number {c : Char} {tail : List Char} (hp : p.unread = c :: tail)
    (hc : c = '-' ∧ tail.head?.any Text.isAnyDigit = true ∨ c.isDigit = true) :
    expressionWithin (fuel + 1) p =
      (do return .literal (← read Literal.number) : Parse Node) p := by
  have hstart : Literal.startsLiteral c = true := by
    rcases hc with ⟨rfl, -⟩ | hc
    · decide
    · simp [Literal.startsLiteral, hc]
  have hne : c ≠ '"' ∧ c ≠ '(' ∧ c ≠ '[' := by
    refine ⟨?_, ?_, ?_⟩ <;> rintro rfl <;> rcases hc with ⟨hc, -⟩ | hc <;> revert hc <;> decide
  have hnumeric : (Text.isAnyDigit c || c == '-' && tail.head?.any Text.isAnyDigit) = true := by
    rcases hc with ⟨rfl, htail⟩ | hc
    · simp [htail]
    · simp [Text.isAnyDigit_of_isDigit hc]
  have hs : significant p.unread = p.unread := by
    rw [hp, (Literal.startsLiteral_significant tail hstart).1]
  rw [expressionWithin.eq_def]
  dsimp only
  rw [Run.bind_of_ok (read_peek p), Parser.skip_eq_self rfl hs, hs, hp, List.head?_cons]
  -- the next character is taken out of the match, so that the cases do not unfold it
  generalize hnext : some c = next
  split
  · cases hnext
  · exact absurd (Option.some.inj hnext) hne.1
  · exact absurd (Option.some.inj hnext) hne.2.1
  · exact absurd (Option.some.inj hnext) hne.2.2
  · obtain rfl := Option.some.inj hnext
    rw [Run.get_bind, hp, List.drop_succ_cons, List.drop_zero, if_pos hnumeric]

/-- A number with or without a minus sign. -/
theorem expressionWithin_signed {negative : Bool} {number : List Char} (hnumber : IsNumber number)
    (hp : p.unread = Binary64.signed negative number ++ rest)
    (h : Literal.number p.unread = .ok v rest) :
    expressionWithin (fuel + 1) p =
      .ok (.literal v) (p.move (Binary64.signed negative number).length) := by
  obtain ⟨c, tail, rfl, hc, -⟩ := hnumber.exists_cons
  have hread := Run.bind_of_ok (f := fun v => (pure (.literal v) : Parse Node)) (read_of_ok hp h)
  cases negative with
  | true =>
    exact (expressionWithin_number hp (.inl ⟨rfl, by simp [Text.isAnyDigit_of_isDigit hc]⟩)).trans
      hread
  | false => exact (expressionWithin_number hp (.inr hc)).trans hread

/-- A list is read as its items are. -/
theorem expressionWithin_list {items : List Node} (hp : p.unread = '[' :: rest)
    (h : expressionsWithin ']' fuel (p.move 1) = .ok items q) :
    expressionWithin (fuel + 1) p = .ok (.list items) q := by
  have hs : significant p.unread = '[' :: rest := by
    rw [hp]
    exact Lexeme.significant_cons rest (by decide) (by decide)
  have hskip : p.skip = p := Parser.skip_eq_self rfl (hs.trans hp.symm)
  rw [expressionWithin.eq_def]
  dsimp only
  rw [Run.bind_of_ok (read_peek p), hs]
  refine (Run.bind_of_ok (read_advance_skip hs)).trans ?_
  rw [hskip]
  exact Run.bind_of_ok h

end Parse

/-! ### The two readers -/

namespace Literal

/-- A number is written as a lexeme with a sign or none, and is read as a number. -/
theorem exists_lexeme_of_write {v : Value} {literal rest : List Char} (h : write v = .ok literal)
    (hv : (∃ n, v = .int n) ∨ ∃ x, v = .float x) (hrest : EndsLexeme rest) :
    ∃ negative lexeme w, literal = Binary64.signed negative lexeme ∧ IsNumber lexeme ∧
      number (literal ++ rest) = .ok w rest ∧ w.node = .literal w := by
  rcases hv with ⟨n, rfl⟩ | ⟨x, rfl⟩
  · rw [write] at h
    split at h
    · next hn =>
      obtain rfl := Except.ok.inj h
      exact ⟨_, _, _, integer_eq_signed n,
        Lexeme.isNumber_digits (fun c => isDigit_of_mem_toDigits) Nat.toDigits_ne_nil,
        number_integer hn hrest, rfl⟩
    · cases h
  · rw [write] at h
    split at h
    · next hx =>
      obtain rfl := Except.ok.inj h
      obtain ⟨negative, -, -, whole, fraction, -, htext, hw, hf, hwne, hfne, -⟩ :=
        Binary64.text_reads_back hx
      obtain ⟨y, hy, -⟩ := number_float hx hrest
      exact ⟨negative, _, _, htext, Lexeme.isNumber_point hw hf hwne hfne, hy, rfl⟩
    · cases h

section

variable {p : Parser} {v : Value} {literal rest : List Char}

theorem readers_number (h : write v = .ok literal) (hv : (∃ n, v = .int n) ∨ ∃ x, v = .float x)
    (hp : p.unread = literal ++ rest) (hrest : EndsLexeme rest) (fuel fuel' : Nat) :
    ∃ w, valueWithin (fuel + 1) (literal ++ rest) = .ok w rest ∧
      expressionWithin (fuel' + 1) p = .ok w.node (p.move literal.length) := by
  obtain ⟨negative, lexeme, w, rfl, hlexeme, hnumber, hnode⟩ := exists_lexeme_of_write h hv hrest
  refine ⟨w, ?_, hnode ▸ expressionWithin_signed hlexeme hp (hp ▸ hnumber)⟩
  obtain ⟨c, tail, rfl, hc, -⟩ := hlexeme.exists_cons
  cases negative with
  | true => exact valueWithin_number rfl (.inl rfl) hnumber fuel
  | false => exact valueWithin_number rfl (.inr hc) hnumber fuel

theorem readers_constant {word : String} (hword : Lexeme.IsWord word.toList)
    (hv : constant? word = some v) (hp : p.unread = word.toList ++ rest) (hrest : EndsLexeme rest)
    (fuel fuel' : Nat) :
    valueWithin (fuel + 1) (word.toList ++ rest) = .ok v rest ∧
      expressionWithin (fuel' + 1) p = .ok (.literal v) (p.move word.toList.length) := by
  have hword' : Lexeme.word? p.unread = some word.toList := by
    rw [hp, Lexeme.word?_append hword hrest.endsWord]
  rw [String.length_toList]
  exact ⟨valueWithin_constant hv hrest fuel, expressionWithin_constant hword' hv⟩

end

/-- Behind the opening bracket of a list there is nothing to skip. -/
theorem significant_commaList {items : List Value} {parts : List (List Char)}
    (h : writeItems items = .ok parts) (rest : List Char) :
    significant (commaList parts ++ ']' :: rest) = commaList parts ++ ']' :: rest := by
  cases items with
  | nil =>
    obtain rfl := Except.ok.inj h
    exact Lexeme.significant_cons rest (by decide) (by decide)
  | cons item items =>
    obtain ⟨part, parts, hpart, -, rfl⟩ := writeItems_cons_eq_ok.1 h
    rw [commaList_cons, List.append_assoc]
    exact (significant_write hpart _).1

mutual

/-- In front of the literal of a value without mappings an expression is the node of the value that
is read there. -/
theorem expressionWithin_write {v : Value} {literal : List Char} (h : write v = .ok literal)
    (hv : v.HasNoMapping) {fuel fuel' : Nat} (hfuel : 2 * literal.length ≤ fuel)
    (hfuel' : 2 * literal.length ≤ fuel') {p : Parser} {rest : List Char}
    (hp : p.unread = literal ++ rest) (hrest : EndsLexeme rest) :
    ∃ w, valueWithin fuel (literal ++ rest) = .ok w rest ∧
      expressionWithin fuel' p = .ok w.node (p.move literal.length) := by
  obtain ⟨c, tail, hcons, -⟩ := write_head h
  obtain ⟨fuel, rfl⟩ : ∃ n, fuel = n + 1 := ⟨fuel - 1, by simp [hcons] at hfuel; omega⟩
  obtain ⟨fuel', rfl⟩ : ∃ n, fuel' = n + 1 := ⟨fuel' - 1, by simp [hcons] at hfuel'; omega⟩
  cases v with
  | null =>
    obtain rfl := Except.ok.inj h
    have hword : Lexeme.IsWord "null".toList := Lexeme.isWord_of_plain (by decide) (by decide)
    exact ⟨.null, readers_constant hword rfl hp hrest fuel fuel'⟩
  | bool b =>
    cases b with
    | true =>
      obtain rfl := Except.ok.inj h
      have hword : Lexeme.IsWord "true".toList := Lexeme.isWord_of_plain (by decide) (by decide)
      exact ⟨.bool true, readers_constant hword rfl hp hrest fuel fuel'⟩
    | false =>
      obtain rfl := Except.ok.inj h
      have hword : Lexeme.IsWord "false".toList := Lexeme.isWord_of_plain (by decide) (by decide)
      exact ⟨.bool false, readers_constant hword rfl hp hrest fuel fuel'⟩
  | int n => exact readers_number h (.inl ⟨n, rfl⟩) hp hrest fuel fuel'
  | float x => exact readers_number h (.inr ⟨x, rfl⟩) hp hrest fuel fuel'
  | text s =>
    obtain rfl := Except.ok.inj h
    have hs : significant p.unread = quote s ++ rest := hp ▸ startsLiteral_quote s rest
    refine ⟨.text s, valueWithin_quote s fuel rest, ?_⟩
    rw [expressionWithin_quote hs, Parser.skip_eq_self rfl (hs.trans hp.symm)]
    rfl
  | list items | tuple items =>
    rw [write] at h
    obtain ⟨parts, hparts, h⟩ := Run.except_bind_eq_ok.1 h
    obtain rfl := Except.ok.inj h
    have hparts₁ : 2 * (commaList parts).length < fuel := by simp at hfuel; omega
    have hparts₂ : 2 * (commaList parts).length < fuel' := by simp at hfuel'; omega
    have hbody : '[' :: commaList parts ++ [']'] ++ rest =
        '[' :: (commaList parts ++ ']' :: rest) := by simp
    rw [hbody] at hp ⊢
    have hopened : (p.move 1).unread = commaList parts ++ ']' :: rest := by
      rw [Parser.unread_move, hp]
      rfl
    have hs : significant (commaList parts ++ ']' :: rest) = commaList parts ++ ']' :: rest :=
      significant_commaList hparts rest
    have hitems : significant (p.move 1).unread = commaList parts ++ ']' :: rest := by rwa [hopened]
    obtain ⟨ws, hvalues, hexpressions⟩ := expressionsWithin_write hparts hv hparts₁ hparts₂ hitems
    refine ⟨.list ws, valueWithin_list hvalues, ?_⟩
    rw [expressionWithin_list hp hexpressions, Parser.skip_eq_self rfl (hitems.trans hopened.symm),
      Parser.move_move, List.length_append, List.length_cons, Value.node]
    congr 2
    simp
    omega
  | mapping rows => exact hv.elim
  | inner | record | foreign => cases h
termination_by sizeOf v

theorem expressionsWithin_write {items : List Value} {parts : List (List Char)}
    (h : writeItems items = .ok parts) (hitems : Value.HaveNoMapping items) {fuel fuel' : Nat}
    (hfuel : 2 * (commaList parts).length < fuel) (hfuel' : 2 * (commaList parts).length < fuel')
    {p : Parser} {rest : List Char} (hp : significant p.unread = commaList parts ++ ']' :: rest) :
    ∃ ws, itemsWithin fuel (commaList parts ++ ']' :: rest) = .ok ws rest ∧
      expressionsWithin ']' fuel' p =
        .ok (Value.nodes ws) (p.skip.move ((commaList parts).length + 1)) := by
  obtain ⟨fuel, rfl⟩ : ∃ n, fuel = n + 1 := ⟨fuel - 1, by omega⟩
  obtain ⟨fuel', rfl⟩ : ∃ n, fuel' = n + 1 := ⟨fuel' - 1, by omega⟩
  have hunread := p.unread_skip.trans hp
  match items with
  | [] =>
    obtain rfl := Except.ok.inj h
    exact ⟨[], itemsWithin_closed fuel rest, expressionsWithin_closed hp⟩
  | [item] =>
    obtain ⟨part, more, hpart, hmore, rfl⟩ := writeItems_cons_eq_ok.1 h
    obtain rfl := Except.ok.inj hmore
    rw [commaList_singleton] at hfuel hfuel' hp hunread ⊢
    have hends : EndsLexeme (']' :: rest) := .cons rest (Lexeme.isDelimiter_of_mem (by simp))
    have hpart₁ : 2 * part.length ≤ fuel := by omega
    have hpart₂ : 2 * part.length ≤ fuel' := by omega
    obtain ⟨w, hvalue, hexpression⟩ :=
      expressionWithin_write hpart hitems.1 hpart₁ hpart₂ hunread hends
    obtain ⟨hs, hne⟩ := significant_write hpart (']' :: rest)
    obtain ⟨hclosed, hskip⟩ := behind_mark hunread (by decide) (by decide)
    refine ⟨[w], itemsWithin_last hs (hne ']' (by simp)) hvalue, ?_⟩
    rw [expressionsWithin_last (by decide) (hp ▸ hne ']' (by simp)) hexpression hclosed, hskip,
      Parser.move_move]
    rfl
  | item :: next :: items =>
    obtain ⟨part, parts, hpart, hparts, rfl⟩ := writeItems_cons_eq_ok.1 h
    obtain ⟨part', parts', -, -, rfl⟩ := writeItems_cons_eq_ok.1 hparts
    rw [commaList_cons_cons] at hfuel hfuel' hp hunread ⊢
    rw [List.length_append, List.length_cons, List.length_cons] at hfuel hfuel'
    rw [List.append_assoc, List.cons_append, List.cons_append] at hp hunread
    obtain ⟨fuel, rfl⟩ : ∃ n, fuel = n + 1 := ⟨fuel - 1, by omega⟩
    have hends : EndsLexeme (',' :: ' ' :: (commaList (part' :: parts') ++ ']' :: rest)) :=
      .cons _ (Lexeme.isDelimiter_of_mem (by simp))
    have hpart₁ : 2 * part.length ≤ fuel + 1 := by omega
    have hpart₂ : 2 * part.length ≤ fuel' := by omega
    have hparts₁ : 2 * (commaList (part' :: parts')).length < fuel + 1 := by omega
    have hparts₂ : 2 * (commaList (part' :: parts')).length < fuel' := by omega
    obtain ⟨w, hvalue, hexpression⟩ :=
      expressionWithin_write hpart hitems.1 hpart₁ hpart₂ hunread hends
    obtain ⟨hs, hne⟩ := significant_write hpart
      (',' :: ' ' :: (commaList (part' :: parts') ++ ']' :: rest))
    obtain ⟨hcomma, hskip⟩ := behind_mark hunread (by decide) (by decide)
    obtain ⟨hnext, hbehind⟩ := at_comma hunread (significant_commaList hparts rest)
    obtain ⟨ws, hvalues, hexpressions⟩ :=
      expressionsWithin_write hparts hitems.2 hparts₁ hparts₂ hnext
    rw [← itemsWithin_insignificant (.blank (by decide) : Lexeme.Insignificant [' '])] at hvalues
    rw [List.append_assoc, List.cons_append, List.cons_append]
    refine ⟨w :: ws, itemsWithin_next hs (hne ']' (by simp)) hvalue hvalues, ?_⟩
    have hlength : part.length + 2 + ((commaList (part' :: parts')).length + 1) =
        (part ++ ',' :: ' ' :: commaList (part' :: parts')).length + 1 := by
      simp only [List.length_append, List.length_cons]
      omega
    rw [expressionsWithin_comma (hp ▸ hne ']' (by simp)) hexpression hcomma, hskip,
      Run.bind_of_ok hexpressions, hbehind, Parser.move_move, hlength]
    rfl
termination_by sizeOf items

end

/-- **Expressions and data agree on literals.**  A parser that stands before the literal of a value
without mappings, anywhere in a text that does not go on with it, reads as an expression the node of
the value that it reads as data, up to the end of the literal.  It has moved and done nothing else,
so no keyword was dispatched.  Evaluated in any packages, the node has that value and leaves the
packages as they are. -/
theorem expression_write {v : Value} {literal : List Char} (h : write v = .ok literal)
    (hv : v.HasNoMapping) {p : Parser} {rest : List Char} (hp : p.unread = literal ++ rest)
    (hrest : EndsLexeme rest) :
    ∃ w, Parse.read value p = .ok w (p.move literal.length) ∧ (v.Proper → w = v.listed) ∧
      Parse.expression p = .ok w.node (p.move literal.length) ∧
      ∀ ns, w.node.eval ns = .ok w ns := by
  have hvalue : 2 * literal.length ≤ fuelFor (literal ++ rest) := by
    rw [fuelFor, List.length_append]
    omega
  have hexpression : 2 * literal.length ≤ Parse.fuelFor p := by
    have hunread : literal.length ≤ p.buffer.text.length := by
      calc literal.length ≤ p.unread.length := by rw [hp, List.length_append]; omega
        _ ≤ p.buffer.text.length := by rw [Parser.unread, List.length_drop]; omega
    rw [Parse.fuelFor]
    calc 2 * literal.length ≤ 16 * (p.buffer.text.length + 1) := by omega
      _ ≤ 16 * (p.buffer.text.length + 1) * (growth p + 256) := Nat.le_mul_of_pos_right _ (by omega)
  obtain ⟨w, hread, hnode⟩ := expressionWithin_write h hv hvalue hexpression hp hrest
  obtain ⟨w', hread', hlisted⟩ := valueWithin_append h hvalue hrest
  obtain ⟨rfl, -⟩ := EStateM.Result.ok.inj (hread.symm.trans hread')
  exact ⟨w, Parse.read_of_ok hp (hp ▸ hread), hlisted, hnode, fun ns => Value.evalNode_node _ ns w⟩

/-- A list in a tuple, in front of an em space. -/
theorem expression_write_nested :
    ∃ v literal rest p w, v = .tuple [.int (-12), .list [.text "a\"]", .bool true, .null]] ∧
      rest = ['\u2003', ')'] ∧ p = Setting.parser {} "[-12, [\"a\\\"]\", true, null]]\u2003)" ∧
      write v = .ok literal ∧ v.HasNoMapping ∧ p.unread = literal ++ rest ∧ EndsLexeme rest ∧
      v.Proper ∧ Parse.read value p = .ok w (p.move literal.length) ∧ w = v.listed ∧
      Parse.expression p = .ok w.node (p.move literal.length) ∧
      ∀ ns, w.node.eval ns = .ok w ns := by
  have hwrite : write (.tuple [.int (-12), .list [.text "a\"]", .bool true, .null]]) =
      .ok "[-12, [\"a\\\"]\", true, null]]".toList := rfl
  have hmapping : (Value.tuple [.int (-12),
      .list [.text "a\"]", .bool true, .null]]).HasNoMapping := by
    simp [Value.HasNoMapping, Value.HaveNoMapping]
  have hproper : (Value.tuple [.int (-12), .list [.text "a\"]", .bool true, .null]]).Proper := by
    simp [Value.Proper, Value.ProperItems]
  have hunread : (Setting.parser {} "[-12, [\"a\\\"]\", true, null]]\u2003)").unread =
      "[-12, [\"a\\\"]\", true, null]]".toList ++ ['\u2003', ')'] := rfl
  have hrest : EndsLexeme ['\u2003', ')'] := endsLexeme_of_separator [')'] (.inl (by decide))
  obtain ⟨w, hread, hlisted, hexpression, heval⟩ := expression_write hwrite hmapping hunread hrest
  exact ⟨_, _, _, _, w, rfl, rfl, rfl, hwrite, hmapping, hunread, hrest, hproper, hread,
    hlisted hproper, hexpression, heval⟩

end Literal

end BraceScript
