/-!
# Kind — what a value can be

A value is a scalar of one of eight kinds, a list of scalars of one kind, or a map.  A kind has a
name, which is also the element name of its values on the wire; `Kind.ofName?` reads it back and
knows `uri` as another name of `path`.
-/

namespace SignalTree

inductive ScalarKind where
  | bool
  | integer
  | unsigned
  | real
  | string
  | path
  | date
  | data
deriving DecidableEq, Repr

namespace ScalarKind

def name : ScalarKind → String
  | bool => "bool"
  | integer => "integer"
  | unsigned => "unsigned"
  | real => "real"
  | string => "string"
  | path => "path"
  | date => "date"
  | data => "data"

/-- The scalar kind of a name. -/
def ofName? : String → Option ScalarKind
  | "bool" => some bool
  | "integer" => some integer
  | "unsigned" => some unsigned
  | "real" => some real
  | "string" => some string
  | "path" => some path
  | "uri" => some path
  | "date" => some date
  | "data" => some data
  | _ => none

theorem ofName?_name (k : ScalarKind) : ofName? k.name = some k := by cases k <;> rfl

end ScalarKind

inductive Kind where
  | scalar (k : ScalarKind)
  | list (element : ScalarKind)
  | map
deriving DecidableEq, Repr

namespace Kind

def name : Kind → String
  | scalar k => k.name
  | list k => "array[" ++ k.name ++ "]"
  | map => "map"

/-- The text between `array[` and `]`. -/
def elementName? (name : String) : Option String :=
  if "array[".toList.isPrefixOf name.toList then
    match (name.toList.drop 6).reverse with
    | ']' :: inner => some (String.ofList inner.reverse)
    | _ => none
  else none

/-- The kind of a name. -/
def ofName? (name : String) : Option Kind :=
  if name = "map" then some map
  else match elementName? name with
    | some element => (ScalarKind.ofName? element).map list
    | none => (ScalarKind.ofName? name).map scalar

end Kind
end SignalTree
