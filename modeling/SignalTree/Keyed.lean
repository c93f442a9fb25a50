/-!
# Keyed — entries under distinct keys, in order of insertion

Option lists, signal lists, frames, maps and child tables are all lists of pairs in which no key
stands twice.  A lookup is `List.lookup`; this file adds the updates.

* `Keyed.put`: a new key goes to the end, an old key keeps its place and gets the new value;
* `Keyed.erase`: the other entries keep their order;
* `Keyed.Distinct`: no key stands twice.
-/

namespace SignalTree
namespace Keyed

variable {α β : Type}

def keys (entries : List (String × α)) : List String := entries.map Prod.fst

def values (entries : List (String × α)) : List α := entries.map Prod.snd

def has (entries : List (String × α)) (key : String) : Bool := (entries.lookup key).isSome

/-- Puts `a` under `key`. -/
def put (key : String) (a : α) : List (String × α) → List (String × α)
  | [] => [(key, a)]
  | (k, b) :: rest => if k = key then (k, a) :: rest else (k, b) :: put key a rest

/-- Applies `f` to the value under `key`, if there is one. -/
def modify (key : String) (f : α → α) : List (String × α) → List (String × α)
  | [] => []
  | (k, b) :: rest => if k = key then (k, f b) :: rest else (k, b) :: modify key f rest

def erase (key : String) : List (String × α) → List (String × α)
  | [] => []
  | (k, b) :: rest => if k = key then rest else (k, b) :: erase key rest

/-- The entries put in one after the other. -/
def ofList (entries : List (String × α)) : List (String × α) :=
  entries.foldl (fun acc e => put e.1 e.2 acc) []

/-- No key stands twice. -/
def Distinct (entries : List (String × α)) : Prop := (keys entries).Nodup

instance (entries : List (String × α)) : Decidable (Distinct entries) := by
  unfold Distinct; infer_instance

end Keyed
end SignalTree
