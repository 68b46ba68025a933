import BraceScript.Number.Decimal
import BraceScript.Table

/-!
# Values

What a program computes with and what options are made of.  Keys of mappings are values
themselves; two keys are the same key when they are equal as values, where `true`, `1` and `1.0`
are one number (`Value.same`).
-/

namespace BraceScript

/-- A value. -/
inductive Value where
  | null
  | bool (b : Bool)
  | int (n : Int)
  | float (x : Binary64)
  | text (s : String)
  | list (items : List Value)
  /-- A list of fixed length, told apart from a list only where values are shown. -/
  | tuple (items : List Value)
  /-- Keys and values, in order of insertion. -/
  | mapping (rows : List (Value × Value))
  /-- A feature to make available inside a block, with its options. -/
  | inner (name : String) (options : Value)
  /-- The checked options of a keyword: its spelling, the names and options of its inner features,
  and the statements of its preamble. -/
  | record (spelling : String) (inner : List (String × Value)) (preamble : List String)
  /-- An object of another kind, known by the name of its kind and the text that shows it. -/
  | foreign (kind shown : String)
deriving Inhabited

namespace Value

/-- The name of a value's kind. -/
def kind : Value → String
  | null => "NoneType"
  | bool _ => "bool"
  | int _ => "int"
  | float _ => "float"
  | text _ => "str"
  | list _ => "list"
  | tuple _ => "tuple"
  | mapping _ => "dict"
  | inner _ _ => "InnerFeature"
  | record _ _ _ => "KeywordOptions"
  | foreign kind _ => kind

/-- The whole number that a boolean or an integer is. -/
def int? : Value → Option Int
  | bool b => some (if b then 1 else 0)
  | int n => some n
  | _ => none

/-- Numeric equality of two values that are not both floating-point numbers. -/
def sameNumber : Value → Value → Bool
  | float x, v | v, float x => match v.int? with
    | some n => x.isInt n
    | none => false
  | v, w => match v.int?, w.int? with
    | some m, some n => m == n
    | _, _ => false

mutual

/-- Equality of values. -/
def same : Value → Value → Bool
  | null, null => true
  | text s, text t => s == t
  | float x, float y => x.same y
  | list xs, list ys => sameItems xs ys
  | tuple xs, tuple ys => sameItems xs ys
  | mapping xs, mapping ys => sameRows xs ys
  | inner name options, inner name' options' => name == name' && same options options'
  | record spelling entries preamble, record spelling' entries' preamble' =>
    spelling == spelling' && sameEntries entries entries' && preamble == preamble'
  | foreign kind shown, foreign kind' shown' => kind == kind' && shown == shown'
  | v, w => sameNumber v w
termination_by structural v => v

/-- Equality of items one by one. -/
def sameItems : List Value → List Value → Bool
  | [], [] => true
  | x :: xs, y :: ys => same x y && sameItems xs ys
  | _, _ => false

/-- Equality of rows one by one. -/
def sameRows : List (Value × Value) → List (Value × Value) → Bool
  | [], [] => true
  | (key, value) :: rows, (key', value') :: rows' =>
    same key key' && same value value' && sameRows rows rows'
  | _, _ => false

/-- Equality of inner features one by one. -/
def sameEntries : List (String × Value) → List (String × Value) → Bool
  | [], [] => true
  | (name, options) :: entries, (name', options') :: entries' =>
    name == name' && same options options' && sameEntries entries entries'
  | _, _ => false

end

instance : BEq Value := ⟨same⟩

mutual

/-- How deep lists, mappings and records are nested in a value. -/
def depth : Value → Nat
  | list items | tuple items => depthItems items + 1
  | mapping rows => depthRows rows + 1
  | inner _ options => depth options + 1
  | record _ entries _ => depthEntries entries + 1
  | _ => 0

/-- The greatest depth of the items. -/
def depthItems : List Value → Nat
  | [] => 0
  | item :: items => max (depth item) (depthItems items)

/-- The greatest depth of the keys and values. -/
def depthRows : List (Value × Value) → Nat
  | [] => 0
  | (key, value) :: rows => max (max (depth key) (depth value)) (depthRows rows)

/-- The greatest depth of the options of inner features. -/
def depthEntries : List (String × Value) → Nat
  | [] => 0
  | (_, options) :: entries => max (depth options) (depthEntries entries)

end

/-- The items of a list or of a tuple. -/
def items? : Value → Option (List Value)
  | list items | tuple items => some items
  | _ => none

/-- The text, if the value is one. -/
def text? : Value → Option String
  | text s => some s
  | _ => none

end Value

end BraceScript
