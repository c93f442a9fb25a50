import SignalTree.Value.Text

/-!
# Message — what is written to the log

Every event of the library is a `Message`.  It has a level, a sentence for people, and its data as
named fields.  A message can also open a span, a section of the log that carries some of the
fields; the first field of a span is always its own name.
-/

namespace SignalTree

/-- How important a message is. -/
inductive Level where
  | debug
  | info
  | warn
  | error
deriving DecidableEq, Repr

def Level.name : Level → String
  | .debug => "DEBUG"
  | .info => "INFO"
  | .warn => "WARN"
  | .error => "ERROR"

/-- An event of the library. -/
inductive Message where
  | builderRegistered (type : String)
  | componentCreated (path type : String)
  | componentRemoved (path : String) (size : Nat)
  | linkBound (owner link target : String)
  | linkInvalidated (owner link : String)
  | optionChanged (option : String) (value : Value)
  | optionLinked (option : String) (kind : Kind)
  | triggerFailed (option : String) (index : Nat) (error : Error)
  | signalDispatched (component signal : String) (arguments : Nat)
  | signalCompleted (component signal : String) (replied : Bool)
  | signalFailed (component signal : String) (error : Error)
  | elementSkipped (element parent : String)

namespace Message

def count (n : Nat) : String := String.ofList (Numeral.digits n)

def level : Message → Level
  | builderRegistered .. => .debug
  | componentCreated .. => .info
  | componentRemoved .. => .info
  | linkBound .. => .debug
  | linkInvalidated .. => .warn
  | optionChanged .. => .debug
  | optionLinked .. => .debug
  | triggerFailed .. => .warn
  | signalDispatched .. => .info
  | signalCompleted .. => .debug
  | signalFailed .. => .error
  | elementSkipped .. => .debug

def text : Message → String
  | builderRegistered type => "Registered builder for component type '" ++ type ++ "'"
  | componentCreated path type => "Created component " ++ path ++ " of type '" ++ type ++ "'"
  | componentRemoved path size =>
    "Removed component " ++ path ++ " (" ++ count size ++ " components destroyed)"
  | linkBound owner link target =>
    "Link '" ++ link ++ "' of " ++ owner ++ " now points to " ++ target
  | linkInvalidated owner link =>
    "Link '" ++ link ++ "' of " ++ owner ++ " points into a removed subtree"
  | optionChanged option value => "Option '" ++ option ++ "' set to " ++ value.encode
  | optionLinked option kind =>
    "Option '" ++ option ++ "' linked to external " ++ kind.name ++ " slot"
  | triggerFailed option index error =>
    "Trigger #" ++ count index ++ " of option '" ++ option ++ "' failed, value kept: " ++
      error.message
  | signalDispatched component signal arguments =>
    "Dispatching signal '" ++ signal ++ "' to " ++ component ++ " with " ++ count arguments ++
      " arguments"
  | signalCompleted component signal replied =>
    "Signal '" ++ signal ++ "' on " ++ component ++ " completed " ++
      (if replied then "with reply" else "without reply")
  | signalFailed component signal error =>
    "Signal '" ++ signal ++ "' on " ++ component ++ " failed: " ++ error.message
  | elementSkipped element parent =>
    "Skipping unknown element <" ++ element ++ "> inside <" ++ parent ++ ">"

def fields : Message → List (String × String)
  | builderRegistered type => [("type_name", type)]
  | componentCreated path type => [("path", path), ("type_name", type)]
  | componentRemoved path size => [("path", path), ("subtree_size", count size)]
  | linkBound owner link target => [("owner", owner), ("link", link), ("target", target)]
  | linkInvalidated owner link => [("owner", owner), ("link", link)]
  | optionChanged option value => [("option", option), ("kind", value.kind.name)]
  | optionLinked option kind => [("option", option), ("kind", kind.name)]
  | triggerFailed option index error =>
    [("option", option), ("trigger_index", count index), ("error", error.message)]
  | signalDispatched component signal arguments =>
    [("component", component), ("signal", signal), ("argument_count", count arguments)]
  | signalCompleted component signal replied =>
    [("component", component), ("signal", signal),
      ("replied", if replied then "true" else "false")]
  | signalFailed component signal error =>
    [("component", component), ("signal", signal), ("error", error.message)]
  | elementSkipped element parent => [("element", element), ("parent", parent)]

/-- The name of the span a message opens. -/
def spanName : Message → String
  | builderRegistered .. => "builder_registered"
  | componentCreated .. => "component_created"
  | componentRemoved .. => "component_removed"
  | linkBound .. => "link_bound"
  | linkInvalidated .. => "link_invalidated"
  | optionChanged .. => "option_changed"
  | optionLinked .. => "option_linked"
  | triggerFailed .. => "trigger_failed"
  | signalDispatched .. => "signal"
  | signalCompleted .. => "signal_completed"
  | signalFailed .. => "signal_failed"
  | elementSkipped .. => "element_skipped"

/-- The fields that a span carries. -/
def spanKeys : Message → List String
  | builderRegistered .. => ["type_name"]
  | componentCreated .. => ["path", "type_name"]
  | componentRemoved .. => ["path", "subtree_size"]
  | linkBound .. => ["owner", "link"]
  | linkInvalidated .. => ["owner", "link"]
  | optionChanged .. => ["option", "kind"]
  | optionLinked .. => ["option", "kind"]
  | triggerFailed .. => ["option", "trigger_index"]
  | signalDispatched .. => ["component", "signal"]
  | signalCompleted .. => ["component", "signal"]
  | signalFailed .. => ["component", "signal", "error"]
  | elementSkipped .. => ["element"]

/-- The data of the span that a message opens under a name. -/
def spanFields (m : Message) (name : String) : List (String × String) :=
  ("span_name", name) :: m.fields.filter fun f => m.spanKeys.contains f.1

end Message
end SignalTree
