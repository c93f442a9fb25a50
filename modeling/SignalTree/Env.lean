import SignalTree.Message

/-!
# Env — what operations act on outside the tree

An option may be linked to memory of the embedding program, and its triggers read this memory and
act on state of that program.  `Env σ` holds both, together with the log:

* `cells`: the contents of the linked slots, each known by its place;
* `host`: the state of the embedding program, of a type `σ` that the library does not look into;
* `log`: the messages so far.
-/

namespace SignalTree

/-- The surroundings of a tree. -/
structure Env (σ : Type) where
  cells : List Value
  host : σ
  log : List Message

namespace Env

variable {σ : Type}

def emit (env : Env σ) (m : Message) : Env σ := { env with log := env.log ++ [m] }

/-- Sets aside a new cell, and says which. -/
def newCell (env : Env σ) (v : Value) : Nat × Env σ :=
  (env.cells.length, { env with cells := env.cells ++ [v] })

def cell? (env : Env σ) (i : Nat) : Option Value := env.cells[i]?

def writeCell (env : Env σ) (i : Nat) (v : Value) : Env σ :=
  { env with cells := env.cells.set i v }

end Env
end SignalTree
