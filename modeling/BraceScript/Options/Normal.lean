import BraceScript.Options.Basic
import BraceScript.Feature

/-!
# From raw options to the record

Raw options are absent, a list of inner features, or a mapping.  `coerce` turns them into a
table, `normalise` checks the table and builds the record, and `merge` combines the options that
several keywords share with the options of one.  Of several faults the first is reported, in the
order: shape, unknown options, inner features, spelling, preamble.  Options may also be given as
the record itself, which `normalise` takes as it is: nothing of it is checked again, so a record
that was not made by `normalise` may hold what no other options may.
-/

namespace BraceScript.Options

/-- Why options are not accepted. -/
inductive Refusal where
  | invalid (cause : Misconfiguration)
  /-- An unknown option whose key is no text and so cannot be named. -/
  | keyNotText
  /-- An integer of more digits than any integer may be written with stands in an inner feature or
  in what the message would show. -/
  | integerTooLong
  /-- The options are nested more deeply than the fuel reaches. -/
  | exhausted

/-- A misconfiguration as a refusal. -/
def Refusal.of (cause : Misconfiguration) : Refusal :=
  if cause.isShowable then .invalid cause else .integerTooLong

/-- Options by key. -/
abbrev Raw := Table Value Value

/-- The value of an option. -/
def Raw.option (raw : Raw) (key : String) : Option Value := Table.get? raw (.text key)

/-- Raw options as a table; the spelling may be given as `alias_name` instead of `as`. -/
def coerce (feature : String) : Value → Except Misconfiguration Raw
  | .null => .ok []
  | .mapping rows =>
    match Raw.option rows "alias_name" with
    | none => .ok rows
    | some spelling =>
      if (Raw.option rows "as").isSome then .error (.spelledTwice feature)
      else .ok (Table.put (Table.erase rows (.text "alias_name")) (.text "as") spelling)
  | .list items | .tuple items => .ok [(.text "inner", .list items)]
  | _ => .error (.notOptions feature)

/-- The keys that mean something. -/
def knownKeys : List String := ["as", "alias_name", "inner", "preamble"]

/-- The key is one that means something. -/
def isKnownKey (key : Value) : Bool :=
  knownKeys.any fun known => Value.text known == key

/-- Refuses keys that mean nothing. -/
def checkKeys (feature : String) (raw : Raw) : Except Refusal Unit :=
  match (Table.keys raw).filter fun key => !isKnownKey key with
  | [] => .ok ()
  | unknown => match unknown.mapM Value.text? with
    | some names => .error (.invalid (.unknownOptions feature (names.mergeSort fun a b => a ≤ b)))
    | none => .error .keyNotText

/-- An entry of the `inner` option: a name, a pair of name and options, or a record. -/
def innerEntry : Value → Except Misconfiguration InnerFeature
  | .inner name options => .ok ⟨name, options⟩
  | .text name => .ok ⟨name, .null⟩
  | .list [.text name, options] | .tuple [.text name, options] => .ok ⟨name, options⟩
  | entry => .error (.innerEntry entry)

/-- The entries of the `inner` option. -/
def innerEntries (raw : Raw) : Except Misconfiguration (List InnerFeature) :=
  match (raw.option "inner").getD .null with
  | .null => .ok []
  | .list items | .tuple items => items.mapM innerEntry
  | _ => .error .innerNotList

/-- The `as` option, or the default spelling. -/
def spelling (feature : BlockFeature) (raw : Raw) : Except Misconfiguration String :=
  match (raw.option "as").getD .null with
  | .null => check feature.keyword
  | .text word => check word
  | _ => .error .spellingNotText
where
  /-- Refuses a word that cannot be a keyword. -/
  check (word : String) : Except Misconfiguration String :=
    if isSpelling word then .ok word else .error (.spelling word feature.kind)

/-- The `preamble` option. -/
def preamble (raw : Raw) : Except Misconfiguration (List String) :=
  match (raw.option "preamble").getD .null with
  | .null => .ok []
  | .list items | .tuple items => match items.mapM Value.text? with
    | some statements => .ok statements
    | none => .error .preambleNotTexts
  | _ => .error .preambleNotTexts

/-- Takes a misconfiguration as a refusal. -/
def orRefuse {α : Type} : Except Misconfiguration α → Except Refusal α
  | .ok a => .ok a
  | .error cause => .error (.of cause)

/-- An inner feature must have a literal and, if it is the feature itself, options that
`validate` accepts. -/
def checkInner (feature : BlockFeature) (validate : Value → Except Refusal KeywordOptions)
    (entry : InnerFeature) : Except Refusal Unit :=
  match Literal.write entry.toValue with
  | .error .integerTooLong => .error .integerTooLong
  | .error cause => .error (.invalid (.innerUnwritable entry.name cause))
  | .ok _ =>
    if entry.name ≠ feature.name then .ok ()
    else match entry.options with
      | .null => .ok ()
      | options => match validate options with
        | .ok _ => .ok ()
        | .error (.invalid cause) => .error (.invalid (.innerInvalid entry.name cause))
        | .error refusal => .error refusal

/-- The record that raw options without a record describe; `validate` checks the options of an
inner feature that is the feature itself. -/
def build (feature : BlockFeature) (validate : Value → Except Refusal KeywordOptions)
    (value : Value) : Except Refusal KeywordOptions := do
  let raw ← orRefuse (coerce feature.kind value)
  checkKeys feature.kind raw
  let inner ← orRefuse (innerEntries raw)
  inner.forM (checkInner feature validate)
  let spelling ← orRefuse (spelling feature raw)
  let preamble ← orRefuse (preamble raw)
  return ⟨spelling, inner, preamble⟩

/-- Normalises raw options for a feature, with fuel for the nesting of inner features. -/
def normaliseWithin (feature : BlockFeature) : Nat → Value → Except Refusal KeywordOptions
  | 0, _ => .error .exhausted
  | fuel + 1, value => match value.record? with
    | some options => .ok options
    | none => build feature (normaliseWithin feature fuel) value

/-- Normalises raw options for a feature. -/
def normalise (feature : BlockFeature) (value : Value) : Except Refusal KeywordOptions :=
  normaliseWithin feature (value.depth + 1) value

/-- Appends the two values of a list option if both tables have one. -/
def appendOption (base own merged : Raw) (key : String) : Raw :=
  match (base.option key).bind Value.items?, (own.option key).bind Value.items? with
  | some first, some second => Table.put merged (.text key) (.list (first ++ second))
  | _, _ => merged

/-- Shared options combined with the options of one keyword, which win, except that lists are
appended to the shared ones. -/
def merge (feature : String) (shared own : Value) : Except Misconfiguration Raw := do
  let base ← coerce feature shared
  let own ← coerce feature own
  return ["inner", "preamble"].foldl (appendOption base own) (Table.update base own)

end BraceScript.Options
