import SignalTree.Number

/-!
# Yaml — what a YAML document says

A `Yaml` is a document after its scalars have been understood: quotes, layout and anchors are gone,
and a plain `5` is a number.  A tag of the document's own stays with what it tags.

* `Yaml.same`: equality, in which the order of the entries of a mapping does not count.
-/

namespace SignalTree

/-- A YAML value. -/
inductive Yaml where
  | null
  | bool (b : Bool)
  | number (n : Number)
  | text (s : String)
  | sequence (items : List Yaml)
  /-- Entries under distinct keys, in order. -/
  | mapping (entries : List (Yaml × Yaml))
  | tagged (tag : String) (content : Yaml)

namespace Yaml

instance : Inhabited Yaml := ⟨null⟩

mutual

def same : Yaml → Yaml → Bool
  | .null, .null => true
  | .bool a, .bool b => a == b
  | .number a, .number b => a.same b
  | .text a, .text b => a == b
  | .sequence a, .sequence b => sameItems a b
  | .mapping a, .mapping b => a.length == b.length && sameEntries a b
  | .tagged t a, .tagged u b => t == u && same a b
  | _, _ => false

/-- Whether two rows are equal, item by item. -/
def sameItems : List Yaml → List Yaml → Bool
  | [], [] => true
  | a :: as, b :: bs => same a b && sameItems as bs
  | _, _ => false

/-- Whether each entry has an equal one in a mapping. -/
def sameEntries : List (Yaml × Yaml) → List (Yaml × Yaml) → Bool
  | [], _ => true
  | (k, v) :: rest, b => b.any (fun p => same k p.1 && same v p.2) && sameEntries rest b

end

end Yaml
end SignalTree
