import BraceScript.Proofs.Calls

/-!
# The calls that a call leads to

`Leads n f p m g q` says that the call of the form `f` on the parser `p` with the fuel `n` makes
the call of `g` on `q` with the fuel `m`, by itself or through the calls that it makes, whether it
succeeds or fails in the end.  So the parsers `q` are the states that reading goes through between
its parts.  A relation that reading keeps holds from a call to the calls that it makes, except where
a scope is opened and where a keyword has just done its work (`Calls.tracked`), and a call that
fails leads to one that fails by itself (`Form.Fails.leads`).
-/

namespace BraceScript

open Lexeme (significant)
open Parse

/-- A call leads to another one. -/
inductive Leads : Nat → Form → Parser → Nat → Form → Parser → Prop
  | here (n : Nat) (f : Form) (p : Parser) : Leads n f p n f p
  | call {n m : Nat} {f g h : Form} {p q r : Parser} (first : Leads n f p (m + 1) g q)
      (last : Calls m g q h r) : Leads n f p m h r

variable {n m k fuel : Nat} {f g h : Form} {p q r : Parser}

theorem Leads.first (hcall : Calls n f p g q) (hmore : Leads n g q m h r) :
    Leads (n + 1) f p m h r := by
  induction hmore with
  | here => exact .call (.here _ _ _) hcall
  | call _ hlast ih => exact .call (ih hcall) hlast

/-- What reading keeps holds from a call to a call that it makes, unless the second one is what
stands in a block or follows a keyword. -/
theorem Calls.tracked {R : Parser → Parser → Prop} (hR : Tracks R) (htracked : Tracked R fuel)
    (hcall : Calls fuel f p g q) :
    R p q ∨ (∃ s, R p s ∧ q = s.opened) ∨
      ∃ written keyword s, g = .name written ∧
        Lexeme.word? p.skip.unread = some written.toList ∧
        p.skip.namespaces.keyword? p.skip.currentPackage written = some keyword ∧
        dispatch keyword p.skip.pos written p.skip = .ok () s ∧
        read (Reader.advance written.length) s = .ok () q := by
  cases hcall with
  | statement | expression | first | item => exact .inl (hR.skip p)
  | skipped hs | parentheses hs | brackets hs | arguments hs => exact .inl (hR.pass hs)
  | more _ hnode hs =>
    exact .inl (hR.trans (hR.trans (hR.skip p) (htracked.statement hnode)) (hR.pass hs))
  | last _ hnode _ _ =>
    exact .inl (hR.trans (hR.trans (hR.skip p) (htracked.statement hnode)) (hR.skip _))
  | body hword hname =>
    exact .inl (hR.move (((IsMove.skip p).trans (.word (w := "sub") hword)).trans
      (.read (Reader.drops_word _) hname)))
  | doBlock hword => exact .inl (hR.move ((IsMove.skip p).trans (.word (w := "do") hword)))
  | name hword _ _ => exact .inl (hR.move ((IsMove.skip p).trans (.word hword)))
  | keyword hword _ _ hkeyword hdispatch hadvance =>
    exact .inr (.inr ⟨_, _, _, rfl, hword, hkeyword, hdispatch, hadvance⟩)
  | others _ hfirst hs =>
    exact .inl (hR.trans (hR.trans (hR.skip p) (htracked.expression hfirst)) (hR.pass hs))
  | items _ hitem hs =>
    exact .inl (hR.trans (hR.trans (hR.skip p) (htracked.expression hitem)) (hR.pass hs))
  | inner hs => exact .inr (.inl ⟨_, hR.pass hs, rfl⟩)

/-- **A call that fails leads to a call that fails by itself**, or that has no fuel. -/
theorem Form.Fails.leads {e : Error} (hfails : f.Fails n p e q) :
    (∃ g r, Leads n f p 0 g r ∧ e = .exhausted) ∨
      ∃ m g r, Leads n f p (m + 1) g r ∧ Halts m g r e q := by
  induction n generalizing f p with
  | zero =>
    refine .inl ⟨f, p, .here _ _ _, ?_⟩
    cases f <;> exact (Run.throw_eq_error.1 hfails).1.symm
  | succ n ih =>
    rcases Form.fails_succ hfails with hhalts | ⟨g, r, hcall, hfails⟩
    · exact .inr ⟨n, f, p, .here _ _ _, hhalts⟩
    · rcases ih hfails with ⟨h, s, hleads, he⟩ | ⟨m, h, s, hleads, hhalts⟩
      · exact .inl ⟨h, s, .first hcall hleads, he⟩
      · exact .inr ⟨m, h, s, .first hcall hleads, hhalts⟩

end BraceScript
