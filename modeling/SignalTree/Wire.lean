import SignalTree.Frame

/-!
# Wire — the names in signal documents

A signal travels as a document: its name, the path of the component it is for, and a frame of
arguments.  The reply travels in the same form.

The document is a `cfxml` element with a `signal` inside, and a frame is a `valuemap`.  Its
entries are `value` elements with one element named for the kind, `array` elements with an `e` for
each item, and further `valuemap` elements.
-/

namespace SignalTree
namespace Wire

/-- A signal on its way to a component, or the reply to it. -/
structure Document where
  /-- The name of the signal. -/
  target : String
  /-- The path of the component. -/
  receiver : String
  frame : Frame

def Document.same (a b : Document) : Bool :=
  a.target == b.target && a.receiver == b.receiver && a.frame.same b.frame

/-! ## Elements -/

def documentTag : String := "cfxml"
def signalTag : String := "signal"
def mapTag : String := "valuemap"
def valueTag : String := "value"
def arrayTag : String := "array"
def itemTag : String := "e"
def restrictedTag : String := "restricted"

/-! ## Attributes -/

def keyName : String := "key"
def typeName : String := "type"
def sizeName : String := "size"
def descriptionName : String := "desc"
def prettyName : String := "pretty"
def tierName : String := "mode"
def targetName : String := "target"
def receiverName : String := "receiver"

end Wire
end SignalTree
