import SignalTree.Tree

/-!
# Outline — a subtree as text and as a frame

* `Tree.render`: one line for each component, two spaces deeper for each level;
* `Tree.toFrame`: a frame with the name, the type and the path of a component, and a frame of the
  same form for each child.
-/

namespace SignalTree
namespace Tree

variable {σ η : Type}

def outlineLine (depth : Nat) (c : Component σ η) : String :=
  String.ofList (List.replicate (2 * depth) ' ') ++
    (if c.parent.isNone then "/" else c.name) ++ " (" ++ c.type ++ ")\n"

/-- The lines of a component and of everything below it, down to `fuel` levels. -/
def renderFrom (t : Tree σ η) : Nat → Nat → NodeId → String
  | 0, _, _ => ""
  | fuel + 1, depth, id =>
    match t.get? id with
    | none => ""
    | some c =>
      outlineLine depth c ++
        String.join (c.children.map fun p => renderFrom t fuel (depth + 1) p.2)

def render (t : Tree σ η) (id : NodeId) : String := t.renderFrom (t.size + 1) 0 id

/-- The frame of a component and of everything below it, down to `fuel` levels. -/
def frameFrom (t : Tree σ η) : Nat → NodeId → Except Error Frame
  | 0, _ => .error removed
  | fuel + 1, id => do
    let c ← t.component id
    let path ← t.pathOf id
    let children ← c.children.mapM fun p => do return (p.1, ← frameFrom t fuel p.2)
    return ⟨"", none, [
      ("name", .value (.ofString c.name) .none),
      ("type", .value (.ofString c.type) .none),
      ("path", .value (.ofUri path) .none),
      ("children", .frame ⟨"", none, children.map fun p => (p.1, .frame p.2)⟩)]⟩

def toFrame (t : Tree σ η) (id : NodeId) : Except Error Frame := t.frameFrom (t.size + 1) id

end Tree
end SignalTree
