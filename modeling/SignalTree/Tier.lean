import SignalTree.Text.Blank

/-!
# Tier — who an option is meant for

Forms show the basic options first.  An option is advanced unless it says otherwise.
-/

namespace SignalTree

/-- The two groups of options. -/
inductive Tier where
  | basic
  | advanced
deriving DecidableEq, Repr

namespace Tier

instance : Inhabited Tier := ⟨advanced⟩

def name : Tier → String
  | basic => "basic"
  | advanced => "advanced"

/-- The tier of a name; blanks around it do not count. -/
def ofName? (text : String) : Option Tier :=
  match Text.trimmed text with
  | "basic" => some basic
  | "advanced" => some advanced
  | _ => none

end Tier
end SignalTree
