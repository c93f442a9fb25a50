import SignalTree.Value.Text
import SignalTree.Yaml.Writer

/-!
# Value — the values that a plan gives to options

A plan gives values in the words of YAML.  Where the kind is known, `Yaml.toValue` reads them as
text of that kind; a list may be written as a sequence, and a list or a map as the text of one.
Inside a map no kind is known, and `Yaml.infer` takes the nearest one.
-/

namespace SignalTree
namespace Yaml

def describe (v : Yaml) : String := v.render

/-- The text of a scalar that is read as a kind. -/
def scalarText (kind : Kind) : Yaml → Except Error String
  | .text s => .ok s
  | .bool b => .ok (if b then "true" else "false")
  | .number n => .ok (String.ofList (n.write .document))
  | .tagged _ v => scalarText kind v
  | v => .error (.format kind.name v.describe "expected a scalar")

def toScalar (kind : ScalarKind) (v : Yaml) : Except Error Scalar := do
  Scalar.decode (← scalarText (.scalar kind) v) kind

/-- The scalars of some items, each located by its index; `i` counts those before. -/
def toScalars (kind : ScalarKind) (i : Nat) : List Yaml → Except Error (List Value)
  | [] => .ok []
  | v :: rest =>
    match toScalar kind v with
    | .error e => .error (e.located (Error.index i))
    | .ok s => (toScalars kind (i + 1) rest).map (.scalar s :: ·)

def toList (kind : ScalarKind) (items : List Yaml) : Except Error Value := do
  let values ← toScalars kind 0 items
  (ScalarList.ofValues kind values).map .list

/-- A value that is not written like one of its kind. -/
def wrongShape (kind : Kind) (v : Yaml) : Error := .format kind.name v.describe "wrong shape"

def ofNumber : Number → Value
  | .natural n =>
    if n.toNat < 0x8000000000000000 then .scalar (.integer (Int64.ofNat n.toNat))
    else .scalar (.unsigned n)
  | .negative i => .scalar (.integer i)
  | .real x => .scalar (.real x)

mutual

/-- The value of the nearest kind.  A list has the kind of its first item, and an empty one holds
texts. -/
def infer : Yaml → Except Error Value
  | .null => .error (.format "value" "null" "values may not be null")
  | .bool b => .ok (.scalar (.bool b))
  | .number n => .ok (ofNumber n)
  | .text s => .ok (.ofString s)
  | .sequence items => do
    match ← inferFirst items with
    | none => toList .string items
    | some (.scalar s) => toList s.kind items
    | some v =>
      .error (.format "array element" (describe (.sequence items))
        ("lists hold scalars, found " ++ v.kind.name))
  | .mapping entries => (inferEntries entries []).map .map
  | .tagged _ v => infer v

/-- The value of the first of some items. -/
def inferFirst : List Yaml → Except Error (Option Value)
  | [] => .ok none
  | v :: _ => (infer v).map some

/-- The values of entries, each located by its key, put after those in `done`. -/
def inferEntries : List (Yaml × Yaml) → List (String × Value) →
    Except Error (List (String × Value))
  | [], done => .ok done
  | (.text key, v) :: rest, done =>
    match infer v with
    | .error e => .error (e.located key)
    | .ok value => inferEntries rest (Keyed.put key value done)
  | (key, _) :: _, _ => .error (.format "map key" key.describe "keys must be strings")

end

/-- The value of a kind. -/
def toValue (v : Yaml) : Kind → Except Error Value
  | .scalar kind => (toScalar kind v).map .scalar
  | .list kind =>
    match v with
    | .sequence items => toList kind items
    | .text s => Value.decode s (.list kind)
    | v => .error (wrongShape (.list kind) v)
  | .map =>
    match v with
    | .mapping entries => infer (.mapping entries)
    | .text s => Value.decode s .map
    | v => .error (wrongShape .map v)

end Yaml
end SignalTree
