import BraceScript.Proofs.TableStatements
import BraceScript.Config.Lookup
import BraceScript.FileTree

/-!
# The configuration that counts

The file that counts for a path is the configuration of the nearest directory that has one: its
`modscope.toml`, or else its `pyproject.toml` if that has a table at `tool.modscope`
(`Config.Counts`).  The directories that are asked are the one where the search begins and those
above it (`Path.Encloses`), by the names that the path is given with: a relative path has nothing
above the place that it is relative to.

Looking for the file goes by the characters of a `pyproject.toml`, loading by the tables that its
statements make.  Where every project file up to the nearest configuration spells the table out
(`Config.SpelledOut`), both agree and the nearest configuration is found (`Config.find_nearest`).
A comment that mentions the header is enough to hide a configuration further up, and blanks inside
the header to have the table passed over (`Config.text_misleads`).
-/

namespace BraceScript

/-! ### Directories above -/

/-- The first path is the second one or a directory above it: its names are the first names of the
second. -/
def Path.Encloses (directory path : Path) : Prop :=
  directory.anchor = path.anchor ∧ directory.names <+: path.names

/-- A path and the directories above it, by the number of their names. -/
theorem Path.cons_parents (path : Path) : path :: path.parents =
    ((List.range (path.names.length + 1)).map fun count =>
      { path with names := path.names.take count }).reverse := by
  rw [List.range_succ, List.map_append, List.reverse_append, parents]
  simp

theorem Path.mem_cons_parents {directory path : Path} :
    directory ∈ path :: path.parents ↔ directory.Encloses path := by
  rw [cons_parents, List.mem_reverse, List.mem_map]
  constructor
  · rintro ⟨count, -, rfl⟩
    exact ⟨rfl, List.take_prefix _ _⟩
  · intro ⟨hanchor, hnames⟩
    refine ⟨directory.names.length, List.mem_range.2 (Nat.lt_succ_of_le hnames.length_le), ?_⟩
    rw [← List.prefix_iff_eq_take.1 hnames, ← hanchor]

/-- The nearer a directory is, the more names it has. -/
theorem Path.pairwise_cons_parents (path : Path) : (path :: path.parents).Pairwise
    fun nearer further => further.names.length < nearer.names.length := by
  rw [cons_parents, List.pairwise_reverse, List.pairwise_map]
  refine List.pairwise_lt_range.imp_of_mem fun {m n} hm hn hlt => ?_
  rw [List.mem_range] at hm hn
  rw [List.length_take, List.length_take]
  omega

/-- What comes before a directory in the list of a path and those above it. -/
theorem Path.mem_before_iff {directory nearer path : Path} {before after : List Path}
    (h : path :: path.parents = before ++ directory :: after) :
    nearer ∈ before ↔ nearer.Encloses path ∧ directory.names.length < nearer.names.length := by
  have hpairwise := pairwise_cons_parents path
  rw [h, List.pairwise_append] at hpairwise
  obtain ⟨-, hbehind, hbefore⟩ := hpairwise
  constructor
  · intro hnearer
    refine ⟨mem_cons_parents.1 ?_, hbefore nearer hnearer directory List.mem_cons_self⟩
    rw [h]
    exact List.mem_append_left _ hnearer
  · rintro ⟨hencloses, hlength⟩
    have hmem := mem_cons_parents.2 hencloses
    rw [h, List.mem_append, List.mem_cons] at hmem
    rcases hmem with hmem | rfl | hmem
    · exact hmem
    · exact absurd hlength (Nat.lt_irrefl _)
    · have := List.rel_of_pairwise_cons hbehind hmem
      omega

section Search

variable {α β : Type} {f : α → Option β} {C : α → β → Prop} {l : List α}

/-- The first items of a list are no hits exactly if nothing answers to them, where a test is right
about every item that has no answer in front of it. -/
theorem forall_eq_none_iff
    (h : ∀ before a after, l = before ++ a :: after → (∀ a' ∈ before, ∀ b, ¬ C a' b) →
      ∀ b, f a = some b ↔ C a b) {before after : List α} (hsplit : l = before ++ after) :
    (∀ a ∈ before, f a = none) ↔ ∀ a ∈ before, ∀ b, ¬ C a b := by
  induction before using List.reverseRecOn generalizing after with
  | nil => simp
  | append_singleton before a ih =>
    rw [List.append_assoc] at hsplit
    rw [List.forall_mem_append, List.forall_mem_append, ih hsplit]
    refine and_congr_right fun hbefore => ?_
    simp [Option.eq_none_iff_forall_ne_some, h before a after hsplit hbefore]

/-- A list is searched up to the first hit, so the test has to be right only as far as that. -/
theorem findSome?_right
    (h : ∀ before a after, l = before ++ a :: after → (∀ a' ∈ before, ∀ b, ¬ C a' b) →
      ∀ b, f a = some b ↔ C a b) :
    (∀ b, l.findSome? f = some b ↔ ∃ before a after, l = before ++ a :: after ∧
      (∀ a' ∈ before, ∀ b, ¬ C a' b) ∧ C a b) ∧
      (l.findSome? f = none ↔ ∀ a ∈ l, ∀ b, ¬ C a b) := by
  refine ⟨fun b => ?_, ?_⟩
  · rw [List.findSome?_eq_some_iff]
    refine exists_congr fun before => exists_congr fun a => exists_congr fun after =>
      and_congr_right fun hsplit => ?_
    rw [and_comm, forall_eq_none_iff h hsplit]
    exact and_congr_right fun hbefore => h before a after hsplit hbefore b
  · rw [List.findSome?_eq_none_iff]
    exact forall_eq_none_iff h (List.append_nil l).symm

end Search

end BraceScript

namespace BraceScript.Config

open Toml (Statement statementsOf shapeAt Shape)
open Run (except_toOption_eq_some)

variable {files : Files} {start directory path : Path} {text : String}
  {rows nest : Table Value Value}

/-! ### The table of a project file -/

/-- The path of the table that a project file has its configuration in. -/
def tablePath : Toml.Key := ["tool", "modscope"]

/-- The data have a table at the path: `nest`. -/
def HasTable (rows nest : Table Value Value) : Prop :=
  ∃ tool, Table.get? rows (.text "tool") = some (.mapping tool) ∧
    Table.get? tool (.text "modscope") = some (.mapping nest)

theorem shape_eq_table {v : Value} : Shape.of v = .table ↔ ∃ nest, v = .mapping nest := by
  cases v <;> simp [Shape.of]

theorem hasTable_iff : (∃ nest, HasTable rows nest) ↔ shapeAt tablePath rows = some .table := by
  constructor
  · rintro ⟨nest, tool, htool, hnest⟩
    refine (Toml.shapeAt_of_get? htool).trans ?_
    exact Toml.shapeAt_of_get? hnest
  · intro h
    obtain ⟨v, htool, h⟩ := Option.bind_eq_some_iff.1 h
    cases v with
    | mapping tool =>
      obtain ⟨w, hnest, h⟩ := Option.bind_eq_some_iff.1 h
      obtain ⟨nest, rfl⟩ := shape_eq_table.1 (Option.some.inj h)
      exact ⟨nest, tool, htool, hnest⟩
    | _ => cases h

theorem tableOf_eq_ok : tableOf path text = .ok rows ↔ Toml.parse text = .ok rows := by
  rw [tableOf]
  split <;> simp_all

/-- The text is a document with the table. -/
def Tabled (text : String) : Prop :=
  ∃ rows nest, Toml.parse text = .ok rows ∧ HasTable rows nest

theorem tabled_iff :
    Tabled text ↔ ∃ rows ∈ (Toml.parse text).toOption, shapeAt tablePath rows = some .table := by
  refine exists_congr fun rows => ?_
  rw [exists_and_left, hasTable_iff, Option.mem_def, except_toOption_eq_some]

instance (text : String) : Decidable (Tabled text) := decidable_of_iff _ tabled_iff.symm

theorem tabled_iff_makes : Tabled text ↔
    ∃ rows statements, Toml.parse text = .ok rows ∧ statementsOf text = .ok statements ∧
      (∃ statement ∈ statements, statement.Makes tablePath) ∧
        ∀ key, .item key ∈ statements → ¬ key <+: tablePath := by
  have hpath : tablePath ≠ [] := by decide
  constructor
  · rintro ⟨rows, nest, hparse, hnest⟩
    obtain ⟨statements, -, hstatements, -, -⟩ := Toml.parse_eq_ok hparse
    have htable := hasTable_iff.1 ⟨nest, hnest⟩
    exact ⟨rows, statements, hparse, hstatements,
      (Toml.table_iff hparse hstatements hpath).1 htable⟩
  · rintro ⟨rows, statements, hparse, hstatements, hmakes⟩
    obtain ⟨nest, hnest⟩ := hasTable_iff.2 ((Toml.table_iff hparse hstatements hpath).2 hmakes)
    exact ⟨rows, nest, hparse, hnest⟩

/-- Loading a project file that has the table reads the configuration from it. -/
theorem load_of_hasTable (hname : path.name = projectName) (htext : files path = .ok text)
    (hrows : tableOf path text = .ok rows) (htable : HasTable rows nest) :
    load files path = (ofData (.mapping nest) path.text).mapError Error.misconfigured := by
  obtain ⟨tool, htool, hnest⟩ := htable
  have hdata : dataOf path rows = .ok (.mapping nest) := by
    rw [dataOf, if_pos hname, tableAt, htool]
    exact congrArg (fun v => Except.ok (v.getD (.mapping []))) hnest
  simp only [load, htext, Except.mapError, bind, Except.bind, hrows, hdata]

/-! ### Files that spell the table out -/

/-- The text of a project file shows whether it has the table: it holds the start of a header only
if a statement of the document makes the table, and always if one does. -/
structure SpelledOut (text : String) : Prop where
  /-- If the text holds the start of a header, then a statement of the document makes the table,
  and no array of tables lies on the way to it. -/
  written : Text.occurs marker text.toList = true →
    ∃ rows statements, Toml.parse text = .ok rows ∧ statementsOf text = .ok statements ∧
      (∃ statement ∈ statements, statement.Makes tablePath) ∧
        ∀ key, .item key ∈ statements → ¬ key <+: tablePath
  /-- If a statement makes the table, then the text holds the start of a header. -/
  marked : ∀ statements, statementsOf text = .ok statements →
    (∃ statement ∈ statements, statement.Makes tablePath) →
      Text.occurs marker text.toList = true

/-- Looking for the start of a header and reading the document agree on whether it has the table. -/
theorem SpelledOut.occurs_iff (h : SpelledOut text) :
    Text.occurs marker text.toList = true ↔ Tabled text := by
  constructor
  · exact fun hoccurs => tabled_iff_makes.2 (h.written hoccurs)
  · intro htabled
    obtain ⟨-, statements, -, hstatements, hmakes, -⟩ := tabled_iff_makes.1 htabled
    exact h.marked statements hstatements hmakes

theorem spelledOut_iff : SpelledOut text ↔
    (Text.occurs marker text.toList = true → Tabled text) ∧
      ∀ statements ∈ (statementsOf text).toOption,
        (∃ statement ∈ statements, statement.Makes tablePath) →
          Text.occurs marker text.toList = true := by
  simp only [Option.mem_def, except_toOption_eq_some]
  constructor
  · exact fun h => ⟨h.occurs_iff.1, h.marked⟩
  · exact fun ⟨hwritten, hmarked⟩ => ⟨fun hoccurs => tabled_iff_makes.1 (hwritten hoccurs), hmarked⟩

instance (text : String) : Decidable (SpelledOut text) := decidable_of_iff _ spelledOut_iff.symm

/-! ### The nearest configuration -/

/-- The file is the configuration of a directory. -/
inductive Counts (files : Files) (directory : Path) : Path → Prop
  | own (hown : files.isFile (directory.child ownName) = true) :
      Counts files directory (directory.child ownName)
  | project {text : String} {rows nest : Table Value Value}
      (hown : files.isFile (directory.child ownName) = false)
      (htext : files (directory.child projectName) = .ok text)
      (hrows : tableOf (directory.child projectName) text = .ok rows)
      (htable : HasTable rows nest) : Counts files directory (directory.child projectName)

/-- Without a file of its own, a directory is configured by a project file with the table. -/
theorem counts_iff_tabled (hown : files.isFile (directory.child ownName) = false)
    (htext : files (directory.child projectName) = .ok text) :
    Counts files directory path ↔ path = directory.child projectName ∧ Tabled text := by
  constructor
  · intro hcounts
    cases hcounts with
    | own hown' => simp [hown] at hown'
    | @project text' rows nest _ htext' hrows htable =>
      obtain rfl := Except.ok.inj (htext.symm.trans htext')
      exact ⟨rfl, rows, nest, tableOf_eq_ok.1 hrows, htable⟩
  · rintro ⟨rfl, rows, nest, hparse, htable⟩
    exact .project hown htext (tableOf_eq_ok.2 hparse) htable

/-- The directory is the one where the search begins or lies above it, and no directory in between
has a configuration. -/
structure InReach (files : Files) (start directory : Path) : Prop where
  encloses : directory.Encloses (baseOf files start)
  nearer : ∀ nearer : Path, nearer.Encloses (baseOf files start) →
    directory.names.length < nearer.names.length → ∀ path, ¬ Counts files nearer path

/-- The file is the configuration of the nearest directory that has one. -/
def Nearest (files : Files) (start path : Path) : Prop :=
  ∃ directory, InReach files start directory ∧ Counts files directory path

theorem inReach_iff : InReach files start directory ↔ ∃ before after,
    directoriesFrom files start = before ++ directory :: after ∧
      ∀ nearer ∈ before, ∀ path, ¬ Counts files nearer path := by
  constructor
  · intro h
    obtain ⟨before, after, hsplit⟩ := List.append_of_mem (Path.mem_cons_parents.2 h.encloses)
    refine ⟨before, after, hsplit, fun nearer hmem => ?_⟩
    obtain ⟨hencloses, hlength⟩ := (Path.mem_before_iff hsplit).1 hmem
    exact h.nearer nearer hencloses hlength
  · rintro ⟨before, after, hsplit, hbefore⟩
    refine ⟨Path.mem_cons_parents.1 ?_, fun nearer hencloses hlength => hbefore nearer ?_⟩
    · change directory ∈ directoriesFrom files start
      rw [hsplit]
      exact List.mem_append_right _ List.mem_cons_self
    · exact (Path.mem_before_iff hsplit).2 ⟨hencloses, hlength⟩

/-- The project file of a directory, if it has to be looked into, spells the table out. -/
def IsSpelledOut (files : Files) (directory : Path) : Prop :=
  files.isFile (directory.child ownName) = false →
    ∀ text, files (directory.child projectName) = .ok text → SpelledOut text

theorem findIn_of_own (hown : files.isFile (directory.child ownName) = true) :
    findIn files directory = some (directory.child ownName) := by
  rw [findIn, if_pos hown]

theorem findIn_of_not_own (hown : files.isFile (directory.child ownName) = false) :
    findIn files directory = some path ↔ path = directory.child projectName ∧
      ∃ text, files path = .ok text ∧ Text.occurs marker text.toList = true := by
  rw [findIn, hown, if_neg Bool.false_ne_true]
  cases htext : files (directory.child projectName) with
  | error fault =>
    simp only [reduceCtorEq, false_iff, not_and]
    rintro rfl
    simp [htext]
  | ok text =>
    change (if Text.occurs marker text.toList = true then some (directory.child projectName)
      else none) = some path ↔ _
    rw [Option.ite_none_right_eq_some]
    constructor
    · rintro ⟨hoccurs, ⟨rfl⟩⟩
      exact ⟨rfl, text, htext, hoccurs⟩
    · rintro ⟨rfl, text', htext', hoccurs⟩
      obtain rfl := Except.ok.inj (htext.symm.trans htext')
      exact ⟨hoccurs, rfl⟩

/-- In a directory with nothing that is not spelled out, what is found is what counts. -/
theorem findIn_eq_some_iff (h : IsSpelledOut files directory) :
    findIn files directory = some path ↔ Counts files directory path := by
  cases hown : files.isFile (directory.child ownName) with
  | true =>
    rw [findIn_of_own hown]
    constructor
    · rintro ⟨rfl⟩
      exact .own hown
    · intro hcounts
      cases hcounts with
      | own => rfl
      | project hnot => simp [hown] at hnot
  | false =>
    rw [findIn_of_not_own hown]
    constructor
    · rintro ⟨rfl, text, htext, hoccurs⟩
      exact (counts_iff_tabled hown htext).2 ⟨rfl, (h hown text htext).occurs_iff.1 hoccurs⟩
    · intro hcounts
      cases hcounts with
      | own hown' => simp [hown] at hown'
      | @project text rows nest _ htext hrows htable =>
        exact ⟨rfl, text, htext,
          (h hown text htext).occurs_iff.2 ⟨rows, nest, tableOf_eq_ok.1 hrows, htable⟩⟩

theorem name_child (directory : Path) (name : String) : (directory.child name).name = name := by
  simp [Path.name, Path.child]

/-- A project file that counts is loaded from its table. -/
theorem Counts.load (h : Counts files directory path) (hname : path.name = projectName) :
    ∃ text rows nest, files path = .ok text ∧ tableOf path text = .ok rows ∧ HasTable rows nest ∧
      load files path = (ofData (.mapping nest) path.text).mapError Error.misconfigured := by
  cases h with
  | own hown =>
    rw [name_child] at hname
    exact absurd hname (by decide)
  | @project text rows nest _ htext hrows htable =>
    exact ⟨text, rows, nest, htext, hrows, htable, load_of_hasTable hname htext hrows htable⟩

/-- **Lookup and loading agree.**  Where every project file that is looked into, up to the nearest
configuration, spells the table out, the file that is found is the configuration of the nearest
directory that has one, none is found if there is none, and a project file that is found is loaded
from its table. -/
theorem find_nearest (h : ∀ directory, InReach files start directory →
      IsSpelledOut files directory) :
    (∀ path, find files start = some path ↔ Nearest files start path) ∧
      (find files start = none ↔ ∀ directory : Path, directory.Encloses (baseOf files start) →
        ∀ path, ¬ Counts files directory path) ∧
      ∀ path, find files start = some path → path.name = projectName →
        ∃ text rows nest, files path = .ok text ∧ tableOf path text = .ok rows ∧
          HasTable rows nest ∧ resolve files none start =
            (ofData (.mapping nest) path.text).mapError Error.misconfigured := by
  obtain ⟨hsplit, hnone⟩ := findSome?_right (l := directoriesFrom files start)
    fun before directory after hsplit hbefore path =>
      findIn_eq_some_iff (h directory (inReach_iff.2 ⟨before, after, hsplit, hbefore⟩))
  have hsome (path : Path) : find files start = some path ↔ Nearest files start path := by
    rw [find, hsplit]
    constructor
    · rintro ⟨before, directory, after, hdirectory, hbefore, hcounts⟩
      exact ⟨directory, inReach_iff.2 ⟨before, after, hdirectory, hbefore⟩, hcounts⟩
    · rintro ⟨directory, hreach, hcounts⟩
      obtain ⟨before, after, hdirectory, hbefore⟩ := inReach_iff.1 hreach
      exact ⟨before, directory, after, hdirectory, hbefore, hcounts⟩
  refine ⟨hsome, ?_, ?_⟩
  · rw [find, hnone]
    exact forall_congr' fun directory => imp_congr_left Path.mem_cons_parents
  · intro path hfound hname
    obtain ⟨directory, -, hcounts⟩ := (hsome path).1 hfound
    rw [resolve, hfound]
    exact hcounts.load hname

/-! ### A tree of files -/

/-- A project file with a table of its own lies between a project file that only mentions the table
and one without. -/
def between : FileTree :=
  [(["pyproject.toml"], "# [tool.modscope]\n"),
    (["a", "pyproject.toml"], "[tool.modscope.logging]\nlevel = 'INFO'\n"),
    (["a", "b", "pyproject.toml"], "[project]\nname = 'x'\n")]

/-- The search gets no further than the table in the middle, so it does not matter what lies above
it. -/
theorem find_nearest_between :
    (∀ directory, InReach between.files ⟨"", ["a", "b", "s.msc"]⟩ directory →
      IsSpelledOut between.files directory) ∧
    Nearest between.files ⟨"", ["a", "b", "s.msc"]⟩ ⟨"", ["a", "pyproject.toml"]⟩ := by
  have hdirectories : directoriesFrom between.files ⟨"", ["a", "b", "s.msc"]⟩ =
      [⟨"", ["a", "b"]⟩, ⟨"", ["a"]⟩, ⟨"", []⟩] := rfl
  have hproject : between.files (Path.child ⟨"", ["a", "b"]⟩ projectName) =
      .ok "[project]\nname = 'x'\n" := rfl
  have hheader : between.files (Path.child ⟨"", ["a"]⟩ projectName) =
      .ok "[tool.modscope.logging]\nlevel = 'INFO'\n" := rfl
  have hcounts : Counts between.files ⟨"", ["a"]⟩ ⟨"", ["a", "pyproject.toml"]⟩ :=
    (counts_iff_tabled rfl hheader).2 ⟨rfl, by decide +kernel⟩
  have hspelled : ∀ directory, InReach between.files ⟨"", ["a", "b", "s.msc"]⟩ directory →
      IsSpelledOut between.files directory := by
    intro directory hreach hown text htext
    have hmem : directory ∈ directoriesFrom between.files ⟨"", ["a", "b", "s.msc"]⟩ :=
      Path.mem_cons_parents.2 hreach.encloses
    rw [hdirectories] at hmem
    simp only [List.mem_cons, List.not_mem_nil, or_false] at hmem
    rcases hmem with rfl | rfl | rfl
    · obtain rfl := Except.ok.inj (hproject.symm.trans htext)
      decide +kernel
    · obtain rfl := Except.ok.inj (hheader.symm.trans htext)
      decide +kernel
    · exact absurd hcounts (hreach.nearer ⟨"", ["a"]⟩ ⟨rfl, ["b"], rfl⟩ (by simp) _)
  exact ⟨hspelled, ((find_nearest hspelled).1 _).1 rfl⟩

/-! ### Texts that mislead -/

/-- A project file with the given text lies below a configuration. -/
def below (text : String) : FileTree :=
  [(["modscope.toml"], "package = \"App\"\n"), (["sub", "pyproject.toml"], text)]

/-- A script beside that file. -/
def script : Path := ⟨"", ["sub", "s.msc"]⟩

theorem directoriesFrom_below (text : String) :
    directoriesFrom (below text).files script = [⟨"", ["sub"]⟩, ⟨"", []⟩] := rfl

/-- A comment that mentions the header of the table hides the configuration further up, and a
table with blanks in its header is passed over. -/
theorem text_misleads :
    (find (below "# [tool.modscope]\n").files script = some ⟨"", ["sub", "pyproject.toml"]⟩ ∧
        Nearest (below "# [tool.modscope]\n").files script ⟨"", ["modscope.toml"]⟩) ∧
      find (below "[ tool.modscope ]\n").files script = some ⟨"", ["modscope.toml"]⟩ ∧
        Nearest (below "[ tool.modscope ]\n").files script ⟨"", ["sub", "pyproject.toml"]⟩ := by
  refine ⟨⟨rfl, ⟨"", []⟩, inReach_iff.2 ⟨[⟨"", ["sub"]⟩], [], directoriesFrom_below _, ?_⟩,
    .own rfl⟩, rfl, ⟨"", ["sub"]⟩, inReach_iff.2 ⟨[], _, directoriesFrom_below _, by simp⟩, ?_⟩
  · intro nearer hmem path hcounts
    obtain rfl := List.mem_singleton.1 hmem
    have hcomment : (below "# [tool.modscope]\n").files (Path.child ⟨"", ["sub"]⟩ projectName) =
        .ok "# [tool.modscope]\n" := rfl
    exact absurd ((counts_iff_tabled rfl hcomment).1 hcounts).2 (by decide +kernel)
  · have hblanks : (below "[ tool.modscope ]\n").files (Path.child ⟨"", ["sub"]⟩ projectName) =
        .ok "[ tool.modscope ]\n" := rfl
    exact (counts_iff_tabled rfl hblanks).2 ⟨rfl, by decide +kernel⟩

end BraceScript.Config
