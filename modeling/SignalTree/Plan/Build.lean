import SignalTree.Plan.Value
import SignalTree.Plan
import SignalTree.Tree.Change
import SignalTree.Tree.Resolve

/-!
# Build — from a plan to a tree

The components are made in the order of the plan.  Each one declares its options and sets values
before the next one is made; links come last.  Building stops at the first failure.

* `Plan.Declaration.setting`: the option that a declaration stands for;
* `Plan.build`: the tree of a plan.
-/

namespace SignalTree
namespace Plan

variable {σ η : Type}

/-- The allowed values of an option, each located by its index. -/
def allowedValues (kind : Kind) (i : Nat) : List Yaml → Except Error (List Value)
  | [] => .ok []
  | v :: rest =>
    match v.toValue kind with
    | .error e => .error (e.located (Error.index i))
    | .ok value => (allowedValues kind (i + 1) rest).map (value :: ·)

/-- A failure is located by the name of an option. -/
def locatedAt {α : Type} (name : String) (r : Except Error α) : Except Error α :=
  r.mapError fun e => e.located name

def Declaration.readKind (d : Declaration) : Except Error Kind :=
  match Kind.ofName? d.kind with
  | some kind => .ok kind
  | none => .error (.format "kind name" d.kind "unknown kind")

def Declaration.readDefault (d : Declaration) (kind : Kind) : Except Error Value :=
  match d.default with
  | some v => v.toValue kind
  | none => .ok (.zero kind)

/-- The option of a declaration. -/
def Declaration.setting (name : String) (d : Declaration) : Except Error (Setting σ) := do
  let kind ← locatedAt name d.readKind
  let default ← locatedAt name (d.readDefault kind)
  let s ← Setting.new name d.description default
  let s : Setting σ := { s with
    pretty := d.pretty.getD s.pretty
    tier := if d.basic then .basic else s.tier }
  if d.restricted.isEmpty then return s
  else s.restrictTo (← locatedAt name (allowedValues kind 0 d.restricted))

/-! ## Steps -/

/-- Does something with each item in order, up to the first failure. -/
def forEach {α : Type} (f : α → World σ η → Except Error Unit × World σ η) :
    List α → World σ η → Except Error Unit × World σ η
  | [], w => (.ok (), w)
  | a :: rest, w =>
    match f a w with
    | (.ok (), w) => forEach f rest w
    -- what was built up to here stays
    | (.error e, w) => (.error e, w)

def addDeclared (id : NodeId) (d : String × Declaration) (w : World σ η) :
    Except Error Unit × World σ η :=
  match d.2.setting d.1 with
  | .error e => (.error e, w)
  | .ok s => w.changeOptions id fun o env =>
    match o.insert s with
    | .ok o => (.ok (), o, env)
    | .error e => (.error e, o, env)

/-- The value of an option of a component, of the kind that the option has. -/
def optionValue (w : World σ η) (id : NodeId) (name : String) (v : Yaml) : Except Error Value := do
  let c ← w.tree.component id
  let s ← c.options.get name
  locatedAt name (v.toValue s.kind)

def setOption (id : NodeId) (o : String × Yaml) (w : World σ η) : Except Error Unit × World σ η :=
  match optionValue w id o.1 o.2 with
  | .error e => (.error e, w)
  | .ok v => w.setOption id o.1 v

/-- Makes a component with its options. -/
def addPart (p : Part) (w : World σ η) : Except Error Unit × World σ η :=
  match w.tree.resolve w.tree.root p.parent with
  | .error e => (.error e, w)
  | .ok parent =>
    match w.createChild parent p.type p.name with
    | (.error e, w) => (.error e, w)
    | (.ok id, w) =>
      match forEach (addDeclared id) p.declared w with
      | (.error e, w) => (.error e, w)
      | (.ok (), w) => forEach (setOption id) p.options w

def addLink (l : Link) (w : World σ η) : Except Error Unit × World σ η :=
  match w.tree.resolve w.tree.root l.owner, w.tree.resolve w.tree.root l.target with
  | .error e, _ => (.error e, w)
  | _, .error e => (.error e, w)
  | .ok owner, .ok target => w.link owner l.name target

/-- Builds a plan in some surroundings.  On failure the world is as far as it was built. -/
def build (p : Plan) (registry : Registry σ η) (env : Env σ) : Except Error Unit × World σ η :=
  match forEach addPart p.parts ⟨Tree.new p.root registry, env⟩ with
  | (.error e, w) => (.error e, w)
  | (.ok (), w) => forEach addLink p.links w

end Plan
end SignalTree
