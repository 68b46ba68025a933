import BraceScript.Proofs.Tagging
import Mathlib.Data.Finset.Card
import Mathlib.Order.Monotone.Basic

/-!
# When calls find their functions

A call finds its function while the script is read, or by name when it runs.  `Rebound` relates
programs that differ only in this: some calls have the function that a table holds for their name,
where in the other program they look it up.  Such programs do the same (`Refines`, one way, with
more fuel), however deep the calls that are inside one another, since the fuel of `Node.eval`
suffices for every run that ends at all (`Node.eval_of_ends`): with each unit of fuel there are
more functions whose run ends, or there will never be more.

`Node.eval_rebound` is the main result: when calls find their functions does not matter, and a
program in which all have found them needs no table.
-/

namespace BraceScript

/-- A run that ends does so with a value or with a fault. -/
def Run.Ends {α : Type} (result : EStateM.Result EvalFault Namespaces α) : Prop :=
  Run.outcome result ≠ .error .endless

theorem Run.ends_pure {α : Type} (a : α) (ns : Namespaces) :
    Run.Ends ((pure a : Evaluation α) ns) := nofun

theorem Run.ends_throw {α : Type} (e : EvalFault) (ns : Namespaces) (he : e ≠ .endless) :
    Run.Ends ((throw e : Evaluation α) ns) := fun h => he (Except.error.inj h)

variable {α β : Type} {functions held : String → String → Option Function}
  {x y z : Evaluation α} {A B : Application}

/-- Wherever functions are found in these tables and the run of `x` ends, `y` does the same. -/
def Refines (functions : String → String → Option Function) (x y : Evaluation α) : Prop :=
  ∀ ns : Namespaces, ns.function? = functions → Run.Ends (x ns) →
    y ns = x ns ∧ (Run.final (x ns)).function? = functions

namespace Refines

theorem pure (a : α) : Refines functions (Pure.pure a) (Pure.pure a) :=
  fun _ hns _ => ⟨rfl, hns⟩

theorem throw (e : EvalFault) :
    Refines functions (MonadExcept.throw e : Evaluation α) (MonadExcept.throw e) :=
  fun _ hns _ => ⟨rfl, hns⟩

/-- A run without fuel has nothing to say. -/
theorem endless (y : Evaluation α) :
    Refines functions (MonadExcept.throw .endless : Evaluation α) y :=
  fun _ _ hends => absurd rfl hends

theorem setVersion (package literal : String) :
    Refines functions (modify fun ns => ns.setVersion package literal : Evaluation PUnit)
      (modify fun ns => ns.setVersion package literal) :=
  fun ns hns _ => ⟨rfl, (Namespaces.function?_tag ns [(package, literal)]).trans hns⟩

theorem trans (hxy : Refines functions x y) (hyz : Refines functions y z) :
    Refines functions x z := by
  intro ns hns hends
  obtain ⟨hy, hfinal⟩ := hxy ns hns hends
  obtain ⟨hz, -⟩ := hyz ns hns (hy ▸ hends)
  exact ⟨hz.trans hy, hfinal⟩

theorem bind {f g : α → Evaluation β} (hxy : Refines functions x y)
    (hfg : ∀ a, Refines functions (f a) (g a)) : Refines functions (x >>= f) (y >>= g) := by
  intro ns hns hends
  have hx : Run.Ends (x ns) := by
    intro hendless
    refine hends ?_
    cases hx : x ns with
    | ok a ns' => simp [hx, Run.outcome] at hendless
    | error e ns' =>
      rw [hx] at hendless
      simpa [Bind.bind, EStateM.bind, hx, Run.outcome] using hendless
  obtain ⟨hy, hfinal⟩ := hxy ns hns hx
  simp only [Bind.bind, EStateM.bind, hy] at hends ⊢
  cases hx : x ns with
  | error e ns' => simpa [hx, Run.final] using hfinal
  | ok a ns' =>
    rw [hx] at hends hfinal
    exact hfg a ns' hfinal hends

/-- Only runs from packages with these functions count. -/
theorem of_eq {x' y' : Evaluation α} (hx : ∀ ns, ns.function? = functions → x ns = x' ns)
    (hy : ∀ ns, ns.function? = functions → y ns = y' ns) (h : Refines functions x' y') :
    Refines functions x y := by
  intro ns hns hends
  rw [hx ns hns] at hends ⊢
  rw [hy ns hns]
  exact h ns hns hends

end Refines

/-! ### Programs that differ in when calls find their functions -/

mutual

/-- The two nodes differ only in calls that have the function that is held for their name, on one
side, and look it up on the other. -/
inductive Rebound (held : String → String → Option Function) : Node → Node → Prop
  | literal (value : Value) : Rebound held (.literal value) (.literal value)
  | list {items items' : List Node} :
    ReboundAll held items items' → Rebound held (.list items) (.list items')
  | version (package literal : String) :
    Rebound held (.version package literal) (.version package literal)
  | block {statements statements' : List Node} :
    ReboundAll held statements statements' → Rebound held (.block statements) (.block statements')
  | doBlock {statements statements' : List Node} :
    ReboundAll held statements statements' →
      Rebound held (.doBlock statements) (.doBlock statements')
  /-- A call that looks its function up on both sides. -/
  | late {arguments arguments' : List Node} (name package : String) :
    ReboundAll held arguments arguments' →
      Rebound held (.call name package arguments none) (.call name package arguments' none)
  /-- A call that has its function on both sides. -/
  | known {arguments arguments' : List Node} {f f' : Function} (name package : String) :
    ReboundAll held arguments arguments' → ReboundFunction held f f' →
      Rebound held (.call name package arguments (some f)) (.call name package arguments' (some f'))
  /-- A call is given the function that is held for its name. -/
  | bound {arguments arguments' : List Node} {f : Function} (name package : String) :
    ReboundAll held arguments arguments' →
      held (Name.split name package).1 (Name.split name package).2 = some f →
        Rebound held (.call name package arguments none) (.call name package arguments' (some f))
  /-- The function that is held for its name is taken from a call. -/
  | freed {arguments arguments' : List Node} {f : Function} (name package : String) :
    ReboundAll held arguments arguments' →
      held (Name.split name package).1 (Name.split name package).2 = some f →
        Rebound held (.call name package arguments (some f)) (.call name package arguments' none)

/-- The nodes of the two lists do so one by one. -/
inductive ReboundAll (held : String → String → Option Function) : List Node → List Node → Prop
  | nil : ReboundAll held [] []
  | cons {node node' : Node} {nodes nodes' : List Node} :
    Rebound held node node' → ReboundAll held nodes nodes' →
      ReboundAll held (node :: nodes) (node' :: nodes')

/-- The bodies of the two functions do so. -/
inductive ReboundFunction (held : String → String → Option Function) : Function → Function → Prop
  | subroutine {body body' : List Node} (name package : String) :
    ReboundAll held body body' →
      ReboundFunction held (.subroutine name package body) (.subroutine name package body')
  | native (native : Native) : ReboundFunction held (.native native) (.native native)
  | trampoline (outcome : Outcome) :
    ReboundFunction held (.trampoline outcome) (.trampoline outcome)

end

mutual

theorem Rebound.refl : ∀ node : Node, Rebound held node node
  | .literal value => .literal value
  | .list items => .list (ReboundAll.refl items)
  | .call name package arguments none => .late name package (ReboundAll.refl arguments)
  | .call name package arguments (some f) =>
    .known name package (ReboundAll.refl arguments) (ReboundFunction.refl f)
  | .version package literal => .version package literal
  | .block statements => .block (ReboundAll.refl statements)
  | .doBlock statements => .doBlock (ReboundAll.refl statements)

theorem ReboundAll.refl : ∀ nodes : List Node, ReboundAll held nodes nodes
  | [] => .nil
  | node :: nodes => .cons (Rebound.refl node) (ReboundAll.refl nodes)

theorem ReboundFunction.refl : ∀ f : Function, ReboundFunction held f f
  | .subroutine name package body => .subroutine name package (ReboundAll.refl body)
  | .native native => .native native
  | .trampoline outcome => .trampoline outcome

end

mutual

theorem Rebound.symm : ∀ {node node' : Node}, Rebound held node node' → Rebound held node' node
  | .literal _, _, h => by cases h; exact .literal _
  | .list _, _, h => by cases h with | list h => exact .list h.symm
  | .call _ _ _ none, _, h => by
    cases h with
    | late _ _ h => exact .late _ _ h.symm
    | bound _ _ h hf => exact .freed _ _ h.symm hf
  | .call _ _ _ (some _), _, h => by
    cases h with
    | known _ _ h hf => exact .known _ _ h.symm hf.symm
    | freed _ _ h hf => exact .bound _ _ h.symm hf
  | .version _ _, _, h => by cases h; exact .version _ _
  | .block _, _, h => by cases h with | block h => exact .block h.symm
  | .doBlock _, _, h => by cases h with | doBlock h => exact .doBlock h.symm

theorem ReboundAll.symm : ∀ {nodes nodes' : List Node},
    ReboundAll held nodes nodes' → ReboundAll held nodes' nodes
  | [], _, h => by cases h; exact .nil
  | _ :: _, _, h => by cases h with | cons h hs => exact .cons h.symm hs.symm

theorem ReboundFunction.symm : ∀ {f f' : Function},
    ReboundFunction held f f' → ReboundFunction held f' f
  | .subroutine _ _ _, _, h => by
    cases h with | subroutine _ _ h => exact .subroutine _ _ h.symm
  | .native _, _, h => by cases h; exact .native _
  | .trampoline _, _, h => by cases h; exact .trampoline _

end

theorem evalNode_late_of (apply : Application) (name package : String) (arguments : List Node)
    (ns : Namespaces) (hns : ns.function? = functions) :
    evalNode apply (.call name package arguments none) ns =
      evalFound apply (Name.split name package).1 (Name.split name package).2 arguments
        (functions (Name.split name package).1 (Name.split name package).2) ns := by
  rw [evalNode_late, hns]

/-- What running a function by name does with `A`, running it does with `B`, by name or, if it is
held, also as the target of a call, and the other way round. -/
structure Simulates (functions held : String → String → Option Function) (A B : Application) :
    Prop where
  named : ∀ {package name f}, functions package name = some f →
    ∀ values, Refines functions (A f values) (B f values)
  bound : ∀ {package name f}, held package name = some f → functions package name = some f ∧
    ∀ values, Refines functions (A f values) (applyWith B f values)
  freed : ∀ {package name f}, held package name = some f → functions package name = some f ∧
    ∀ values, Refines functions (applyWith A f values) (B f values)

mutual

/-- **Programs that differ only in when calls find their functions do the same**, node by node. -/
theorem Rebound.refines (hAB : Simulates functions held A B) : ∀ {node node' : Node},
    Rebound held node node' → Refines functions (evalNode A node) (evalNode B node')
  | .literal v, _, h => by
    cases h
    simp only [evalNode]
    exact .pure v
  | .list items, _, h => by
    cases h with
    | list h =>
      simp only [evalNode]
      exact (h.refines hAB).bind fun values => .pure _
  | .call name package arguments none, _, h => by
    cases h with
    | late _ _ h =>
      refine .of_eq (evalNode_late_of A name package arguments)
        (evalNode_late_of B name package _) ?_
      cases hfound : functions (Name.split name package).1 (Name.split name package).2 with
      | none => exact .throw _
      | some f => exact (h.refines hAB).bind fun values => hAB.named hfound values
    | bound _ _ h hf =>
      obtain ⟨hfound, hrun⟩ := hAB.bound hf
      refine .of_eq (evalNode_late_of A name package arguments) (fun _ _ => rfl) ?_
      rw [hfound]
      simp only [evalNode]
      exact (h.refines hAB).bind hrun
  | .call name package arguments (some f), _, h => by
    cases h with
    | known _ _ h hf =>
      simp only [evalNode]
      exact (h.refines hAB).bind fun values => hf.refines hAB values
    | freed _ _ h hf =>
      obtain ⟨hfound, hrun⟩ := hAB.freed hf
      refine .of_eq (fun _ _ => rfl) (evalNode_late_of B name package _) ?_
      rw [hfound]
      simp only [evalNode]
      exact (h.refines hAB).bind hrun
  | .version package literal, _, h => by
    cases h
    simp only [evalNode]
    exact (Refines.setVersion package literal).bind fun _ => .pure _
  | .block statements, _, h => by
    cases h with
    | block h =>
      simp only [evalNode]
      exact h.refines_block hAB .null
  | .doBlock statements, _, h => by
    cases h with
    | doBlock h =>
      simp only [evalNode]
      exact h.refines_block hAB .null

theorem ReboundAll.refines (hAB : Simulates functions held A B) : ∀ {nodes nodes' : List Node},
    ReboundAll held nodes nodes' → Refines functions (evalNodes A nodes) (evalNodes B nodes')
  | [], _, h => by
    cases h
    simp only [evalNodes]
    exact .pure _
  | _ :: _, _, h => by
    cases h with
    | cons h hs =>
      simp only [evalNodes]
      exact (h.refines hAB).bind fun value => (hs.refines hAB).bind fun values => .pure _

theorem ReboundAll.refines_block (hAB : Simulates functions held A B) :
    ∀ {statements statements' : List Node}, ReboundAll held statements statements' →
      ∀ last, Refines functions (evalBlock A last statements) (evalBlock B last statements')
  | [], _, h, last => by
    cases h
    simp only [evalBlock]
    exact .pure _
  | _ :: _, _, h, last => by
    cases h with
    | cons h hs =>
      simp only [evalBlock]
      exact (h.refines hAB).bind fun value => hs.refines_block hAB value

theorem ReboundFunction.refines (hAB : Simulates functions held A B) : ∀ {f f' : Function},
    ReboundFunction held f f' →
      ∀ values, Refines functions (applyWith A f values) (applyWith B f' values)
  | .subroutine _ _ _, _, h, values => by
    cases h with
    | subroutine name package h =>
      simp only [applyWith]
      split
      · exact h.refines_block hAB .null
      · exact .throw _
  | .native native, _, h, values => by
    cases h
    simp only [applyWith]
    split
    · exact .pure _
    · exact .throw _
  | .trampoline outcome, _, h, values => by
    cases h
    simp only [applyWith]
    split
    · exact .pure _
    · exact .throw _

end

/-! ### Enough fuel -/

/-- What runs functions with one of the two amounts of fuel does as the other, so far as functions
are found by name. -/
theorem simulates_of_found {fuel fuel' : Nat}
    (h : ∀ {package name f}, functions package name = some f → ∀ values,
      Refines functions (applyWithin fuel f values) (applyWithin fuel' f values)) :
    Simulates functions (fun _ _ => none) (applyWithin fuel) (applyWithin fuel') where
  named := h
  bound := nofun
  freed := nofun

/-- A unit of fuel more keeps what ends without it. -/
theorem refines_applyWithin_succ (fuel : Nat) (f : Function) (values : List Value) :
    Refines functions (applyWithin fuel f values) (applyWithin (fuel + 1) f values) := by
  induction fuel generalizing f values with
  | zero => exact .endless _
  | succ fuel ih =>
    exact (ReboundFunction.refl f).refines (simulates_of_found fun _ values => ih _ values) values

theorem refines_applyWithin {fuel fuel' : Nat} (hle : fuel ≤ fuel') (f : Function)
    (values : List Value) :
    Refines functions (applyWithin fuel f values) (applyWithin fuel' f values) := by
  induction fuel', hle using Nat.le_induction with
  | base => exact fun ns hns hends => ⟨rfl, (refines_applyWithin_succ fuel f values ns hns hends).2⟩
  | succ fuel' _ ih => exact ih.trans (refines_applyWithin_succ fuel' f values)

/-- With so much fuel, functions that are found by name do all that they do with a unit more. -/
def Saturated (functions : String → String → Option Function) (fuel : Nat) : Prop :=
  ∀ package name f, functions package name = some f → ∀ values,
    Refines functions (applyWithin (fuel + 1) f values) (applyWithin fuel f values)

theorem Saturated.succ {fuel : Nat} (h : Saturated functions fuel) :
    Saturated functions (fuel + 1) := fun _ _ f _ values =>
  (ReboundFunction.refl f).refines (simulates_of_found fun hf values => h _ _ _ hf values) values

/-- There is nothing more to be had, from any fuel. -/
theorem Saturated.refines {fuel : Nat} (h : Saturated functions fuel) (fuel' : Nat)
    {package name : String} {f : Function} (hf : functions package name = some f)
    (values : List Value) :
    Refines functions (applyWithin fuel' f values) (applyWithin fuel f values) := by
  have hmore : ∀ more, Saturated functions (fuel + more) ∧
      Refines functions (applyWithin (fuel + more) f values) (applyWithin fuel f values) := by
    intro more
    induction more with
    | zero => exact ⟨h, refines_applyWithin le_rfl f values⟩
    | succ more ih => exact ⟨ih.1.succ, (ih.1 _ _ _ hf values).trans ih.2⟩
  exact (refines_applyWithin (Nat.le_add_left fuel' fuel) f values).trans (hmore fuel').2

/-- The run of a function ends, from all packages with these functions. -/
def Answers (functions : String → String → Option Function) (fuel : Nat) (f : Function)
    (values : List Value) : Prop :=
  ∀ ns : Namespaces, ns.function? = functions → Run.Ends (applyWithin fuel f values ns)

/-- Whether a run ends does not depend on versions. -/
theorem answers_of_ends {fuel : Nat} {f : Function} {values : List Value} {ns : Namespaces}
    (hns : ns.function? = functions) (hends : Run.Ends (applyWithin fuel f values ns)) :
    Answers functions fuel f values := by
  obtain ⟨outcome, writes, hrun⟩ := (findsSame_foundIn functions fuel).named f values
  have houtcome : ∀ ns : Namespaces, ns.function? = functions →
      Run.outcome (applyWithin fuel f values ns) = outcome := by
    intro ns hns
    rw [show applyWithin fuel f values ns = _ from hrun _ ns ⟨rfl, hns⟩, Run.outcome_ending]
  intro ns' hns'
  rw [Run.Ends, houtcome ns hns] at hends
  rwa [Run.Ends, houtcome ns' hns']

theorem Answers.mono {fuel fuel' : Nat} (hle : fuel ≤ fuel') {f : Function} {values : List Value}
    (h : Answers functions fuel f values) : Answers functions fuel' f values := by
  intro ns hns
  rw [(refines_applyWithin hle f values ns hns (h ns hns)).1]
  exact h ns hns

/-- Only a subroutine that is run without arguments may need more than one unit of fuel. -/
theorem answers_of_ne_nil {values : List Value} (hvalues : values ≠ []) (fuel : Nat)
    (f : Function) : Answers functions (fuel + 1) f values := by
  intro ns _
  cases f with
  | subroutine name package body =>
    rw [applyWithin, applyWith, if_neg (by simpa using hvalues)]
    exact Run.ends_throw _ ns nofun
  | native native =>
    rw [applyWithin, applyWith]
    cases native.run values with
    | none => exact Run.ends_throw _ ns nofun
    | some value => exact Run.ends_pure value ns
  | trampoline outcome =>
    simp only [applyWithin, applyWith]
    split
    · exact Run.ends_pure _ ns
    · exact Run.ends_throw _ ns nofun

/-- The names of all functions, each after its package. -/
def Namespaces.functionNames (ns : Namespaces) : List (String × String) :=
  ns.flatMap fun row => row.2.functions.map fun entry => (row.1, entry.1)

open Classical in
/-- The names of the functions whose runs end with so much fuel. -/
noncomputable def Namespaces.answering (ns : Namespaces) (fuel : Nat) : Finset (String × String) :=
  ns.functionNames.toFinset.filter fun key =>
    ∃ f, ns.function? key.1 key.2 = some f ∧ Answers ns.function? fuel f []

theorem Namespaces.mem_functionNames {ns : Namespaces} {package name : String} {f : Function}
    (h : ns.function? package name = some f) : (package, name) ∈ ns.functionNames := by
  obtain ⟨p, hp, hf⟩ := Option.bind_eq_some_iff.1 h
  exact List.mem_flatMap.2 ⟨_, Table.mem_of_get?_eq_some hp,
    List.mem_map.2 ⟨_, Table.mem_of_get?_eq_some hf, rfl⟩⟩

theorem Namespaces.length_functionNames (ns : Namespaces) :
    ns.functionNames.length = ns.functionCount := by
  induction ns with
  | nil => rfl
  | cons row ns ih =>
    rw [Namespaces.functionNames, List.flatMap_cons, List.length_append, List.length_map]
    exact congrArg (row.2.functions.length + ·) ih

open Classical in
theorem Namespaces.mem_answering {ns : Namespaces} {fuel : Nat} {package name : String} :
    (package, name) ∈ ns.answering fuel ↔
      ∃ f, ns.function? package name = some f ∧ Answers ns.function? fuel f [] := by
  rw [answering, Finset.mem_filter, List.mem_toFinset, and_iff_right_iff_imp]
  exact fun ⟨_, hf, _⟩ => mem_functionNames hf

theorem Namespaces.answering_subset (ns : Namespaces) {fuel fuel' : Nat} (hle : fuel ≤ fuel') :
    ns.answering fuel ⊆ ns.answering fuel' := by
  rintro ⟨package, name⟩ h
  obtain ⟨f, hf, hanswers⟩ := mem_answering.1 h
  exact mem_answering.2 ⟨f, hf, hanswers.mono hle⟩

open Classical in
theorem Namespaces.card_answering_le (ns : Namespaces) (fuel : Nat) :
    (ns.answering fuel).card ≤ ns.functionCount :=
  calc (ns.answering fuel).card
    _ ≤ ns.functionNames.toFinset.card := Finset.card_filter_le _ _
    _ ≤ ns.functionNames.length := List.toFinset_card_le _
    _ = ns.functionCount := ns.length_functionNames

/-- If a unit more does not help any function, no fuel does. -/
theorem saturated_of_answering_eq {ns : Namespaces} {fuel : Nat}
    (h : ns.answering (fuel + 2) = ns.answering (fuel + 1)) :
    Saturated ns.function? (fuel + 1) := by
  intro package name f hf values ns' hns hends
  have hanswers : Answers ns.function? (fuel + 1) f values := by
    rcases eq_or_ne values [] with rfl | hvalues
    · have hmem : (package, name) ∈ ns.answering (fuel + 2) :=
        Namespaces.mem_answering.2 ⟨f, hf, answers_of_ends hns hends⟩
      obtain ⟨f', hf', hanswers⟩ := Namespaces.mem_answering.1 (h ▸ hmem)
      obtain rfl := Option.some.inj (hf.symm.trans hf')
      exact hanswers
    · exact answers_of_ne_nil hvalues fuel f
  obtain ⟨heq, hfinal⟩ := refines_applyWithin_succ (fuel + 1) f values ns' hns (hanswers ns' hns)
  exact ⟨heq.symm, heq ▸ hfinal⟩

/-- As many units of fuel as there are functions, and one, are enough. -/
theorem Namespaces.saturated (ns : Namespaces) :
    Saturated ns.function? (ns.functionCount + 1) := by
  have hmono : Monotone fun fuel => (ns.answering (fuel + 1)).card := fun _ _ hle =>
    Finset.card_le_card (ns.answering_subset (Nat.succ_le_succ hle))
  have heq : ∀ {fuel}, (ns.answering (fuel + 1)).card = (ns.answering (fuel + 2)).card →
      ns.answering (fuel + 2) = ns.answering (fuel + 1) := fun h =>
    (Finset.eq_of_subset_of_card_le (ns.answering_subset (Nat.le_succ _)) h.ge).symm
  have hstays : ∀ fuel, (ns.answering (fuel + 1)).card = (ns.answering (fuel + 2)).card →
      (ns.answering (fuel + 2)).card = (ns.answering (fuel + 3)).card := by
    intro fuel h
    have hsaturated := (saturated_of_answering_eq (heq h)).succ
    refine congrArg Finset.card (Finset.Subset.antisymm (ns.answering_subset (Nat.le_succ _)) ?_)
    rintro ⟨package, name⟩ hmem
    obtain ⟨f, hf, hanswers⟩ := mem_answering.1 hmem
    refine mem_answering.2 ⟨f, hf, fun ns' hns => ?_⟩
    rw [(hsaturated _ _ _ hf [] ns' hns (hanswers ns' hns)).1]
    exact hanswers ns' hns
  have hstable := Nat.stabilises_of_monotone hmono (fun _ => ns.card_answering_le _) hstays
    (Nat.le_succ ns.functionCount)
  exact saturated_of_answering_eq (heq hstable.symm)

/-- **The fuel of a run suffices** for all that ends with any fuel. -/
theorem Node.eval_of_ends {node : Node} {ns : Namespaces} {fuel : Nat}
    (hends : Run.Ends (evalNode (applyWithin fuel) node ns)) :
    node.eval ns = evalNode (applyWithin fuel) node ns := by
  have hfound : Simulates ns.function? (fun _ _ => none) (applyWithin fuel)
      (applyWithin (ns.functionCount + 1)) :=
    simulates_of_found fun hf values => ns.saturated.refines fuel hf values
  exact ((Rebound.refl node).refines hfound ns rfl hends).1

/-! ### Binding time -/

theorem simulates_bound (functions : String → String → Option Function) (fuel : Nat) :
    Simulates functions functions (applyWithin fuel) (applyWithin (fuel + 1)) where
  named _ values := refines_applyWithin_succ fuel _ values
  bound hf := ⟨hf, fun values => refines_applyWithin (Nat.le_add_right fuel 2) _ values⟩
  freed hf := ⟨hf, fun values => refines_applyWithin (le_refl (fuel + 1)) _ values⟩

theorem Rebound.eval_of_ends {node node' : Node} {ns : Namespaces}
    (h : Rebound ns.function? node node') (hends : Run.Ends (node.eval ns)) :
    node'.eval ns = node.eval ns := by
  obtain ⟨heq, -⟩ := h.refines (simulates_bound ns.function? _) ns rfl hends
  have hends' : Run.Ends (evalNode (applyWithin (ns.functionCount + 1 + 1)) node' ns) := by
    rwa [heq]
  exact (Node.eval_of_ends hends').trans heq

/-- **When calls find their functions does not matter.**  Programs that differ only in this have
the same value or error and leave the same packages, unless neither run ends; and a program in
which all calls have found their functions does the same whatever functions there are. -/
theorem Node.eval_rebound (node : Node) :
    (∀ (ns : Namespaces) (node' : Node), Rebound ns.function? node node' →
      node'.eval ns = node.eval ns ∨
        ¬ Run.Ends (node'.eval ns) ∧ ¬ Run.Ends (node.eval ns)) ∧
    (node.isBound = true → ∀ ns ns' : Namespaces,
      Run.outcome (node.eval ns') = Run.outcome (node.eval ns)) := by
  constructor
  · intro ns node' h
    by_cases hends : Run.Ends (node.eval ns)
    · exact .inl (h.eval_of_ends hends)
    · by_cases hends' : Run.Ends (node'.eval ns)
      · exact .inl (h.symm.eval_of_ends hends').symm
      · exact .inr ⟨hends', hends⟩
  · intro hbound ns ns'
    obtain ⟨outcome, writes, hrun⟩ := settled_evalNode (P := fun _ _ => True)
      (fun _ _ => trivial) node (.inl hbound)
    have houtcome : ∀ ns : Namespaces, Run.outcome (node.eval ns) = outcome := fun ns => by
      rw [show node.eval ns = _ from hrun _ ns trivial, Run.outcome_ending]
    rw [houtcome, houtcome]

/-- A call of a subroutine that sets a version, with its function and without. -/
theorem Node.eval_rebound_call :
    let f : Function := .subroutine "one" "Numbers" [.version "Numbers" "1.0", .literal (.int 1)]
    let ns := Namespaces.initial.installFunction "Numbers" "one" f
    let late := Node.call "Numbers::one" "main" [] none
    let bound := Node.call "Numbers::one" "main" [] (some f)
    bound.eval ns = late.eval ns ∧
      Run.outcome (bound.eval Namespaces.initial) = Run.outcome (bound.eval ns) := by
  intro f ns late bound
  have hrebound : Rebound ns.function? late bound := .bound "Numbers::one" "main" .nil rfl
  have hlate : late.eval ns = .ok (.int 1) (ns.tag [("Numbers", "1.0")]) := rfl
  have hends : Run.Ends (late.eval ns) := hlate ▸ Run.ends_pure _ _
  exact ⟨((Node.eval_rebound late).1 ns bound hrebound).resolve_right fun h => h.2 hends,
    (Node.eval_rebound bound).2 rfl ns Namespaces.initial⟩

end BraceScript
