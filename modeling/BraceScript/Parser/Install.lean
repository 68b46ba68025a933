import BraceScript.Parser.State

/-!
# Installing keywords

Installing a block feature declares its keyword in a package, with a function behind it, until
the innermost scope ends.  All options are checked before anything is installed.  The feature
`syntax` installs other features by name, one after the other.
-/

namespace BraceScript.Parse

/-- Registers a feature unless one of its kind has its name. -/
def provide (feature : Feature) : Parse Unit := do
  let p ← get
  let features ← orMisconfigured (p.features.provide feature)
  set { p with features }

/-- Installs a keyword with normalised options. -/
def installKeyword (feature : BlockFeature) (target : String) (options : KeywordOptions) :
    Parse Unit := do
  provide (.block feature)
  let ns := (← get).namespaces
  let name := options.spelling
  modifyNamespaces fun ns =>
    (ns.declareKeyword target name (some (.expand feature options))).installFunction target name
      (.trampoline feature.outcome)
  onScopeEnd (.restore target name (ns.function? target name) (ns.declaredKeyword? target name))

/-- The normalised options of a feature. -/
def prepare (feature : BlockFeature) (options : Value) : Parse KeywordOptions :=
  match Options.normalise feature options with
  | .ok options => return options
  | .error refusal => throw (Error.ofRefusal refusal)

/-- Installs the keyword of a block feature. -/
def installBlock (feature : BlockFeature) (target : String) (options : Value) : Parse Unit := do
  installKeyword feature target (← prepare feature options)

/-- The normalised options of one keyword of several, from its spelling, its own options and
the shared ones. -/
def prepareRow (feature : BlockFeature) (shared : Value) (row : Value × Value) :
    Parse KeywordOptions := do
  let merged ← orMisconfigured (Options.merge feature.kind shared row.2)
  prepare feature (.mapping (Table.put merged (.text "as") row.1))

/-- Installs a keyword for every row of a mapping from spellings to options. -/
def installMultiple (feature : BlockFeature) (target : String) (blocks shared : Value) :
    Parse Unit := do
  match blocks with
  | .mapping rows =>
    let prepared ← rows.mapM (prepareRow feature shared)
    prepared.forM (installKeyword feature target)
  | _ => throw (.misconfigured (.blocksNotMapping feature.kind))

/-- Installs a feature, with fuel for `syntax` inside the options of `syntax`. -/
def installWithin : Nat → Feature → String → Value → Parse Unit
  | 0, _, _, _ => throw .exhausted
  | _ + 1, .block feature, target, options => installBlock feature target options
  | _ + 1, .bare _ _, _, _ => throw .notFeature
  | fuel + 1, .dispatcher, target, options => do
    let pairs ← orMisconfigured (featurePairs options)
    pairs.forM fun pair => do
      let feature ← orMisconfigured ((← get).features.require pair.1)
      installWithin fuel feature target pair.2

/-- Installs a feature. -/
def install (feature : Feature) (target : String) (options : Value) : Parse Unit :=
  installWithin (options.depth + 2) feature target options

end BraceScript.Parse
