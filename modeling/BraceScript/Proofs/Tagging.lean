import BraceScript.Evaluation
import BraceScript.Proofs.Meaning

/-!
# What running a program changes

Running a program sets versions and does nothing else.  Its outcome, and which versions it sets in
which order, depend on the functions of the packages alone (`settled_evalNode`), and a run leaves
these as they are.  So the functions and the keywords of all packages stay the same, no package is
lost, and a second run from the packages that the first one has left has the same outcome and
changes nothing any more (`Node.eval_repeatable`).
-/

namespace BraceScript

/-! ### Putting rows -/

namespace Table

variable {κ α : Type} [BEq κ] [LawfulBEq κ] {rows : Table κ α} {k k' : κ} {v w : α}

theorem put_put (rows : Table κ α) (k : κ) (v w : α) : put (put rows k v) k w = put rows k w := by
  induction rows with
  | nil => simp [put]
  | cons row rows ih => by_cases h : row.1 = k <;> simp [put, h, ih]

/-- A row that is there already may be changed before or after another one. -/
theorem put_comm (hne : k ≠ k') (hk : contains rows k = true) (v w : α) :
    put (put rows k v) k' w = put (put rows k' w) k v := by
  induction rows with
  | nil => simp [contains, get?] at hk
  | cons row rows ih =>
    by_cases h : row.1 = k
    · subst h
      simp [put, hne]
    · have hrest : contains rows k = true := by simpa [contains, get?, h] using hk
      by_cases h' : row.1 = k'
      · subst h'
        simp [put, h]
      · simp [put, h, h', ih hrest]

theorem put_of_get? (h : get? rows k = some v) : put rows k v = rows := by
  induction rows with
  | nil => cases h
  | cons row rows ih =>
    by_cases hk : row.1 = k
    · subst hk
      obtain rfl : row.2 = v := by simpa [get?] using h
      simp [put]
    · simp [put, hk, ih (by simpa [get?, hk] using h)]

theorem mem_of_get?_eq_some (h : get? rows k = some v) : (k, v) ∈ rows := by
  induction rows with
  | nil => cases h
  | cons row rows ih =>
    by_cases hk : row.1 = k
    · subst hk
      obtain rfl : row.2 = v := by simpa [get?] using h
      exact List.mem_cons_self
    · exact List.mem_cons_of_mem _ (ih (by simpa [get?, hk] using h))

theorem contains_put (rows : Table κ α) (k k' : κ) (v : α) :
    contains (put rows k v) k' = (k == k' || contains rows k') := by
  rw [contains, contains, get?_put]
  by_cases h : k = k' <;> simp [h]

theorem keys_prefix_put (rows : Table κ α) (k : κ) (v : α) : keys rows <+: keys (put rows k v) := by
  induction rows with
  | nil => exact List.nil_prefix
  | cons row rows ih =>
    by_cases hk : row.1 = k
    · simp [put, keys, hk]
    · simpa [put, keys, hk] using ih

/-- A row that counts as much as the one in whose place it is put. -/
theorem total_put {count : κ × α → Nat}
    (h : count (k, v) = ((get? rows k).map fun w => count (k, w)).getD 0) :
    total count (put rows k v) = total count rows := by
  induction rows with
  | nil => simpa [put, total, get?] using h
  | cons row rows ih =>
    by_cases hk : row.1 = k
    · subst hk
      simp_all [put, total, get?]
    · simp_all [put, total, get?]

end Table

/-! ### Setting versions -/

namespace Namespaces

variable {ns : Namespaces} {package package' literal : String} {writes : List (String × String)}

/-- Sets versions, from the first to the last. -/
def tag (ns : Namespaces) (writes : List (String × String)) : Namespaces :=
  writes.foldl (fun ns write => ns.setVersion write.1 write.2) ns

@[simp] theorem tag_nil (ns : Namespaces) : ns.tag [] = ns := rfl

@[simp] theorem tag_cons (ns : Namespaces) (write : String × String)
    (writes : List (String × String)) :
    ns.tag (write :: writes) = (ns.setVersion write.1 write.2).tag writes := rfl

theorem tag_append (ns : Namespaces) (writes more : List (String × String)) :
    ns.tag (writes ++ more) = (ns.tag writes).tag more := List.foldl_append

theorem get?_setVersion (ns : Namespaces) (package package' literal : String) :
    Table.get? (ns.setVersion package literal) package' = if package = package' then
      some { (Table.get? ns package).getD {} with version := some literal }
      else Table.get? ns package' := by
  simp only [setVersion, modify, Table.get?_put, beq_iff_eq]

theorem setVersion_setVersion (ns : Namespaces) (package literal literal' : String) :
    (ns.setVersion package literal).setVersion package literal' =
      ns.setVersion package literal' := by
  rw [setVersion, modify, get?_setVersion, if_pos rfl]
  exact Table.put_put _ _ _ _

theorem setVersion_comm (hne : package ≠ package') (h : Table.contains ns package = true)
    (literal literal' : String) :
    (ns.setVersion package literal).setVersion package' literal' =
      (ns.setVersion package' literal').setVersion package literal := by
  have hleft := get?_setVersion ns package package' literal
  have hright := get?_setVersion ns package' package literal'
  rw [if_neg hne] at hleft
  rw [if_neg hne.symm] at hright
  rw [setVersion, modify, hleft, eq_comm, setVersion, modify, hright]
  exact (Table.put_comm hne h _ _).symm

/-- A version that is set already is not changed. -/
theorem setVersion_of_version {p : Package} (h : Table.get? ns package = some p)
    (hversion : p.version = some literal) : ns.setVersion package literal = ns := by
  rw [setVersion, modify]
  refine Table.put_of_get? ?_
  rw [h, ← hversion]
  rfl

theorem contains_setVersion (ns : Namespaces) (package package' literal : String) :
    Table.contains (ns.setVersion package literal) package' =
      (package == package' || Table.contains ns package') :=
  Table.contains_put _ _ _ _

theorem contains_tag (h : Table.contains ns package = true) (writes : List (String × String)) :
    Table.contains (ns.tag writes) package = true := by
  induction writes generalizing ns with
  | nil => exact h
  | cons write writes ih => exact ih (by rw [contains_setVersion, h, Bool.or_true])

theorem get?_tag_of_notMem (h : package ∉ writes.map Prod.fst) :
    Table.get? (ns.tag writes) package = Table.get? ns package := by
  induction writes generalizing ns with
  | nil => rfl
  | cons write writes ih =>
    rw [List.map_cons, List.mem_cons, not_or] at h
    rw [tag_cons, ih h.2, get?_setVersion, if_neg (Ne.symm h.1)]

/-- A version that is set again later on need not be set first. -/
theorem tag_setVersion_of_mem (hpackage : Table.contains ns package = true)
    (hmem : package ∈ writes.map Prod.fst) (literal : String) :
    (ns.setVersion package literal).tag writes = ns.tag writes := by
  induction writes generalizing ns with
  | nil => cases hmem
  | cons write writes ih =>
    rw [tag_cons, tag_cons]
    by_cases h : package = write.1
    · rw [h, setVersion_setVersion]
    · have hdeclared : Table.contains (ns.setVersion write.1 write.2) package = true := by
        rw [contains_setVersion, hpackage, Bool.or_true]
      rw [setVersion_comm h hpackage]
      exact ih hdeclared ((List.mem_cons.1 hmem).resolve_left h)

/-- **Setting the same versions again changes nothing.** -/
theorem tag_tag (ns : Namespaces) (writes : List (String × String)) :
    (ns.tag writes).tag writes = ns.tag writes := by
  induction writes generalizing ns with
  | nil => rfl
  | cons write writes ih =>
    obtain ⟨package, literal⟩ := write
    rw [tag_cons, tag_cons]
    have hdeclared : Table.contains ((ns.setVersion package literal).tag writes) package = true :=
      contains_tag (by simp [contains_setVersion]) _
    by_cases hmem : package ∈ writes.map Prod.fst
    · -- a later write decides, so the first one may be left out
      exact (tag_setVersion_of_mem hdeclared hmem literal).trans (ih _)
    · have hget : Table.get? ((ns.setVersion package literal).tag writes) package = _ :=
        get?_tag_of_notMem hmem
      rw [get?_setVersion, if_pos rfl] at hget
      exact (congrArg (tag · writes) (setVersion_of_version hget rfl)).trans (ih _)

/-! ### What setting versions leaves alone -/

theorem function?_setVersion (ns : Namespaces) (package literal : String) :
    (ns.setVersion package literal).function? = ns.function? := by
  funext package' name
  rw [setVersion, function?_modify]
  split
  · next h => rw [get?_functions_getD, h]
  · rfl

@[simp] theorem function?_tag (ns : Namespaces) (writes : List (String × String)) :
    (ns.tag writes).function? = ns.function? := by
  induction writes generalizing ns with
  | nil => rfl
  | cons write writes ih => rw [tag_cons, ih, function?_setVersion]

theorem functionCount_setVersion (ns : Namespaces) (package literal : String) :
    (ns.setVersion package literal).functionCount = ns.functionCount := by
  refine Table.total_put ?_
  cases Table.get? ns package <;> rfl

@[simp] theorem functionCount_tag (ns : Namespaces) (writes : List (String × String)) :
    (ns.tag writes).functionCount = ns.functionCount := by
  induction writes generalizing ns with
  | nil => rfl
  | cons write writes ih => rw [tag_cons, ih, functionCount_setVersion]

/-- The packages are those that there were, with the same functions and keywords in the same order,
and behind them packages that have neither. -/
structure Retagged (ns ns' : Namespaces) : Prop where
  keys : Table.keys ns <+: Table.keys ns'
  kept : ∀ name p, Table.get? ns name = some p →
    ∃ version, Table.get? ns' name = some { p with version }
  new : ∀ name p, Table.get? ns name = none → Table.get? ns' name = some p →
    p.functions = [] ∧ p.keywords = []

theorem Retagged.refl (ns : Namespaces) : Retagged ns ns where
  keys := List.prefix_rfl
  kept _ p h := ⟨p.version, h⟩
  new _ _ h h' := nomatch h.symm.trans h'

theorem Retagged.trans {ns₁ ns₂ ns₃ : Namespaces} (h : Retagged ns₁ ns₂) (h' : Retagged ns₂ ns₃) :
    Retagged ns₁ ns₃ where
  keys := h.keys.trans h'.keys
  kept name p hp := by
    obtain ⟨_, hversion⟩ := h.kept name p hp
    obtain ⟨version, hversion⟩ := h'.kept name _ hversion
    exact ⟨version, hversion⟩
  new name p hnone hp := by
    cases hget : Table.get? ns₂ name with
    | none => exact h'.new name p hget hp
    | some q =>
      obtain ⟨version, hversion⟩ := h'.kept name q hget
      obtain rfl := Option.some.inj (hp.symm.trans hversion)
      exact h.new name q hnone hget

theorem retagged_setVersion (ns : Namespaces) (package literal : String) :
    Retagged ns (ns.setVersion package literal) where
  keys := Table.keys_prefix_put _ _ _
  kept name p hp := by
    rw [get?_setVersion]
    split
    · next h =>
      subst h
      rw [hp]
      exact ⟨_, rfl⟩
    · exact ⟨p.version, hp⟩
  new name p hnone hp := by
    rw [get?_setVersion] at hp
    split at hp
    · next h =>
      subst h
      rw [hnone] at hp
      obtain rfl := Option.some.inj hp
      exact ⟨rfl, rfl⟩
    · cases hnone.symm.trans hp

theorem retagged_tag (ns : Namespaces) (writes : List (String × String)) :
    Retagged ns (ns.tag writes) := by
  induction writes generalizing ns with
  | nil => exact .refl ns
  | cons write writes ih => exact (retagged_setVersion ns _ _).trans (ih _)

end Namespaces

/-! ### Settled computations -/

/-- A run that ends with an outcome in a state. -/
def Run.ending {ε σ α : Type} (s : σ) : Except ε α → EStateM.Result ε σ α
  | .ok a => .ok a s
  | .error e => .error e s

/-- The outcome of a run. -/
def Run.outcome {ε σ α : Type} : EStateM.Result ε σ α → Except ε α
  | .ok a _ => .ok a
  | .error e _ => .error e

@[simp] theorem Run.outcome_ending {ε σ α : Type} (s : σ) (outcome : Except ε α) :
    Run.outcome (Run.ending s outcome) = outcome := by
  cases outcome <;> rfl

@[simp] theorem Run.final_ending {ε σ α : Type} (s : σ) (outcome : Except ε α) :
    Run.final (Run.ending s outcome) = s := by
  cases outcome <;> rfl

/-- Evaluation depends on how functions that are found by name are run.  However they are, among
the ways that `P` allows, and whatever the packages that `P` allows, the computation has one and
the same outcome and sets the same versions. -/
def Settled {α : Type} (P : Application → Namespaces → Prop) (x : Application → Evaluation α) :
    Prop :=
  ∃ outcome writes, ∀ apply ns, P apply ns → x apply ns = Run.ending (ns.tag writes) outcome

/-- What is allowed does not depend on versions. -/
def Versionless (P : Application → Namespaces → Prop) : Prop :=
  ∀ {apply ns} (writes), P apply ns → P apply (ns.tag writes)

/-- Functions that are found by name are the same in all packages that are allowed, and what they
do is settled. -/
structure FindsSame (P : Application → Namespaces → Prop) : Prop where
  functions : ∀ {apply apply' ns ns'}, P apply ns → P apply' ns' → ns.function? = ns'.function?
  named : ∀ f values, Settled P fun apply => apply f values

variable {α β : Type} {P : Application → Namespaces → Prop} {x : Application → Evaluation α}

theorem settled_pure (a : α) : Settled P fun _ => pure a := ⟨.ok a, [], fun _ _ _ => rfl⟩

theorem settled_throw (e : EvalFault) : Settled P fun _ => (throw e : Evaluation α) :=
  ⟨.error e, [], fun _ _ _ => rfl⟩

theorem settled_setVersion (package literal : String) :
    Settled P fun _ => (modify fun ns => ns.setVersion package literal : Evaluation PUnit) :=
  ⟨.ok ⟨⟩, [(package, literal)], fun _ _ _ => rfl⟩

theorem Settled.bind {f : Application → α → Evaluation β} (hP : Versionless P)
    (hx : Settled P x) (hf : ∀ a, Settled P fun apply => f apply a) :
    Settled P fun apply => x apply >>= f apply := by
  obtain ⟨outcome, writes, hx⟩ := hx
  cases outcome with
  | error e =>
    refine ⟨.error e, writes, fun apply ns h => ?_⟩
    simp only [Bind.bind, EStateM.bind, hx apply ns h]
    rfl
  | ok a =>
    obtain ⟨outcome, more, hf⟩ := hf a
    refine ⟨outcome, writes ++ more, fun apply ns h => ?_⟩
    change (x apply >>= f apply) ns = _
    rw [Run.bind_of_ok (hx apply ns h), Namespaces.tag_append]
    exact hf apply _ (hP writes h)

/-- What a call does with the function that is found for its name. -/
def evalFound (apply : Application) (package name : String) (arguments : List Node) :
    Option Function → Evaluation Value
  | none => throw (.undefined package name)
  | some f => do apply f (← evalNodes apply arguments)

theorem evalNode_late (apply : Application) (name package : String) (arguments : List Node)
    (ns : Namespaces) :
    evalNode apply (.call name package arguments none) ns =
      evalFound apply (Name.split name package).1 (Name.split name package).2 arguments
        (ns.function? (Name.split name package).1 (Name.split name package).2) ns := by
  simp only [evalNode, evalFound]
  exact Run.get_bind

/-- What is found by name is the same wherever it is looked for. -/
theorem FindsSame.settled_late (hP : FindsSame P) (name package : String) (arguments : List Node)
    (hfound : ∀ package name found, Settled P fun apply =>
      evalFound apply package name arguments found) :
    Settled P fun apply => evalNode apply (.call name package arguments none) := by
  by_cases hallowed : ∃ apply ns, P apply ns
  · obtain ⟨apply, ns, h⟩ := hallowed
    obtain ⟨outcome, writes, hx⟩ := hfound (Name.split name package).1 (Name.split name package).2
      (ns.function? (Name.split name package).1 (Name.split name package).2)
    refine ⟨outcome, writes, fun apply' ns' h' => ?_⟩
    refine (evalNode_late apply' name package arguments ns').trans ?_
    rw [hP.functions h' h]
    exact hx apply' ns' h'
  · exact ⟨.error .endless, [], fun apply ns h => absurd ⟨apply, ns, h⟩ hallowed⟩

mutual

/-- Every call in the program has its target, also in the subroutines that are targets. -/
def Node.isBound : Node → Bool
  | .literal _ | .version _ _ => true
  | .list items => nodesBound items
  | .call _ _ arguments (some f) => nodesBound arguments && f.isBound
  | .call _ _ _ none => false
  | .block statements | .doBlock statements => nodesBound statements

/-- Every call in the nodes has its target. -/
def nodesBound : List Node → Bool
  | [] => true
  | node :: nodes => node.isBound && nodesBound nodes

/-- Every call in the body of the function has its target. -/
def Function.isBound : Function → Bool
  | .subroutine _ _ body => nodesBound body
  | .native _ | .trampoline _ => true

end

mutual

/-- **Evaluation is settled**, if no function is found by name, or always the same ones are. -/
theorem settled_evalNode (hP : Versionless P) : ∀ node : Node,
    node.isBound = true ∨ FindsSame P → Settled P fun apply => evalNode apply node
  | .literal v, _ => by
    simp only [evalNode]
    exact settled_pure v
  | .list items, h => by
    simp only [evalNode]
    rw [Node.isBound] at h
    exact (settled_evalNodes hP items h).bind hP fun values => settled_pure _
  | .call name package arguments (some f), h => by
    simp only [evalNode]
    rw [Node.isBound, Bool.and_eq_true] at h
    exact (settled_evalNodes hP arguments (h.imp_left And.left)).bind hP fun values =>
      settled_applyWith hP f values (h.imp_left And.right)
  | .call name package arguments none, h => by
    have hsame : FindsSame P := h.resolve_left (by simp [Node.isBound])
    refine hsame.settled_late name package arguments fun package name found => ?_
    cases found with
    | none => exact settled_throw _
    | some f =>
      exact (settled_evalNodes hP arguments (.inr hsame)).bind hP fun values =>
        hsame.named f values
  | .version package literal, _ => by
    simp only [evalNode]
    exact (settled_setVersion package literal).bind hP fun _ => settled_pure _
  | .block statements, h => by
    simp only [evalNode]
    rw [Node.isBound] at h
    exact settled_evalBlock hP .null statements h
  | .doBlock statements, h => by
    simp only [evalNode]
    rw [Node.isBound] at h
    exact settled_evalBlock hP .null statements h

theorem settled_evalNodes (hP : Versionless P) : ∀ nodes : List Node,
    nodesBound nodes = true ∨ FindsSame P → Settled P fun apply => evalNodes apply nodes
  | [], _ => by
    simp only [evalNodes]
    exact settled_pure _
  | node :: nodes, h => by
    simp only [evalNodes]
    rw [nodesBound, Bool.and_eq_true] at h
    exact (settled_evalNode hP node (h.imp_left And.left)).bind hP fun value =>
      (settled_evalNodes hP nodes (h.imp_left And.right)).bind hP fun values => settled_pure _

theorem settled_evalBlock (hP : Versionless P) : ∀ (last : Value) (statements : List Node),
    nodesBound statements = true ∨ FindsSame P →
      Settled P fun apply => evalBlock apply last statements
  | last, [], _ => by
    simp only [evalBlock]
    exact settled_pure _
  | last, statement :: statements, h => by
    simp only [evalBlock]
    rw [nodesBound, Bool.and_eq_true] at h
    exact (settled_evalNode hP statement (h.imp_left And.left)).bind hP fun value =>
      settled_evalBlock hP value statements (h.imp_left And.right)

theorem settled_applyWith (hP : Versionless P) : ∀ (f : Function) (values : List Value),
    f.isBound = true ∨ FindsSame P → Settled P fun apply => applyWith apply f values
  | .subroutine name package body, values, h => by
    simp only [applyWith]
    rw [Function.isBound] at h
    split
    · exact settled_evalBlock hP .null body h
    · exact settled_throw _
  | .native native, values, _ => by
    simp only [applyWith]
    split
    · exact settled_pure _
    · exact settled_throw _
  | .trampoline outcome, values, _ => by
    simp only [applyWith]
    split
    · exact settled_pure _
    · exact settled_throw _

end

/-! ### Runs -/

/-- Functions are found in these tables, and run with so much fuel. -/
def FoundIn (functions : String → String → Option Function) (fuel : Nat) (apply : Application)
    (ns : Namespaces) : Prop := apply = applyWithin fuel ∧ ns.function? = functions

variable (functions : String → String → Option Function)

theorem versionless_foundIn (fuel : Nat) : Versionless (FoundIn functions fuel) :=
  fun writes h => ⟨h.1, by rw [Namespaces.function?_tag, h.2]⟩

theorem findsSame_foundIn (fuel : Nat) : FindsSame (FoundIn functions fuel) where
  functions h h' := h.2.trans h'.2.symm
  named := by
    induction fuel with
    | zero =>
      refine fun f values => ⟨.error .endless, [], fun apply ns h => ?_⟩
      rw [h.1]
      rfl
    | succ fuel ih =>
      intro f values
      have hsame : FindsSame (FoundIn functions fuel) := ⟨fun h h' => h.2.trans h'.2.symm, ih⟩
      obtain ⟨outcome, writes, hf⟩ :=
        settled_applyWith (versionless_foundIn functions fuel) f values (.inr hsame)
      refine ⟨outcome, writes, fun apply ns h => ?_⟩
      rw [h.1]
      exact hf (applyWithin fuel) ns ⟨rfl, h.2⟩

/-- **Running a program sets versions and does nothing else, and running it again does nothing.**
A run, in success or in an error, leaves all packages with their functions and keywords; a second
run from the packages that it has left ends in the same way, with the same packages. -/
theorem Node.eval_repeatable (node : Node) (ns : Namespaces) :
    ns.Retagged (Run.final (node.eval ns)) ∧
      node.eval (Run.final (node.eval ns)) = node.eval ns := by
  obtain ⟨outcome, writes, heval⟩ := settled_evalNode
    (versionless_foundIn ns.function? (ns.functionCount + 1)) node
    (.inr (findsSame_foundIn _ _))
  have hfirst : node.eval ns = Run.ending (ns.tag writes) outcome := heval _ ns ⟨rfl, rfl⟩
  have hsecond : node.eval (ns.tag writes) = Run.ending ((ns.tag writes).tag writes) outcome := by
    rw [Node.eval, Namespaces.functionCount_tag]
    exact heval _ _ ⟨rfl, Namespaces.function?_tag ns writes⟩
  rw [hfirst, Run.final_ending, hsecond, Namespaces.tag_tag]
  exact ⟨Namespaces.retagged_tag ns writes, rfl⟩

end BraceScript
