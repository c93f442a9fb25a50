import SignalTree.Kind

/-!
# Kind — names are read back

The name of a kind determines it.
-/

namespace SignalTree
namespace Kind

theorem elementName?_list (k : ScalarKind) :
    elementName? ("array[" ++ k.name ++ "]") = some k.name := by
  cases k <;> decide

theorem elementName?_scalar (k : ScalarKind) : elementName? k.name = none := by
  cases k <;> decide

/-- The name of a kind is read back as the kind. -/
theorem ofName?_name (k : Kind) : ofName? k.name = some k := by
  cases k with
  | scalar k =>
    have hmap : k.name ≠ "map" := by cases k <;> decide
    rw [name, ofName?, if_neg hmap, elementName?_scalar]
    simp [ScalarKind.ofName?_name]
  | list k =>
    have hmap : "array[" ++ k.name ++ "]" ≠ "map" := by cases k <;> decide
    rw [name, ofName?, if_neg hmap, elementName?_list]
    simp [ScalarKind.ofName?_name]
  | map => rfl

end Kind
end SignalTree
