import SignalTree.Tree.Change
import SignalTree.Tree.Outline
import SignalTree.Tree.Resolve
import SignalTree.Wire.Reader
import SignalTree.Wire.Writer

/-!
# Dispatch — calling signals

A signal is called on a component with a frame of arguments.  Its handler sees the whole world and
may change it.  The handlers of the embedding program are given by a `Behaviour`, those of the
built-in signals by `World.runBuiltin`.

* `World.callSignal`: calls a signal of a component; a failure inside the handler is marked with
  the name of the signal, a failure to find the signal is not;
* `World.dispatch`: finds the component by its path first;
* `World.dispatchText`: takes a signal document and gives the document of the reply.
-/

namespace SignalTree

/-- What a handler is told. -/
structure Call where
  receiver : NodeId
  signal : String
  arguments : Frame

/-- What the handlers of the embedding program do. -/
abbrev Behaviour (σ η : Type) :=
  η → Call → World σ η → Except Error (Option Frame) × World σ η

namespace World

variable {σ η : Type}

def signature (w : World σ η) (id : NodeId) (name : String) :
    Except Error (Settings σ) × World σ η :=
  match w.tree.component id with
  | .error e => (.error e, w)
  | .ok c =>
    match c.signals.get name with
    | .error e => (.error e, w)
    | .ok s =>
      let (result, s, env) := s.buildSignature (w.tree.pathText id ++ "#" ++ name) w.env
      let tree := w.tree.modify id fun c => { c with signals := c.signals.replace name s }
      (result, { tree, env })

/-- A result without a reply. -/
def withoutReply (r : Except Error Unit × World σ η) : Except Error (Option Frame) × World σ η :=
  (r.1.map fun _ => none, r.2)

/-- Creates a component from the arguments of a signal; the reply is its path. -/
def runCreate (w : World σ η) (call : Call) : Except Error (Option Frame) × World σ η :=
  -- both arguments are read before the builder is looked for
  let arguments : Except Error (String × String) := do
    let name ← call.arguments.getString "name"
    let type ← call.arguments.getStringD "type" Builtin.groupType
    return (type, name)
  match arguments with
  | .error e => (.error e, w)
  | .ok (type, name) =>
    match w.createChild call.receiver type name with
    | (.error e, w) => (.error e, w)
    | (.ok id, w) =>
      ((w.tree.pathOf id).map fun path => some (Frame.empty.set "path" (.ofUri path)), w)

/-- What the built-in signals do. -/
def runBuiltin (w : World σ η) (b : Builtin) (call : Call) :
    Except Error (Option Frame) × World σ η :=
  match b with
  | .configure => withoutReply (w.configure call.receiver call.arguments)
  | .listOptions =>
    ((w.tree.component call.receiver).map fun c => some c.options.toFrame, w)
  | .listSignals =>
    ((w.tree.component call.receiver).map fun c => some c.signals.toFrame, w)
  | .listTree => ((w.tree.toFrame call.receiver).map some, w)
  | .createComponent => w.runCreate call
  | .deleteComponent =>
    match call.arguments.getString "name" with
    | .error e => (.error e, w)
    | .ok name => withoutReply (w.removeChild call.receiver name)
  | .signature =>
    match call.arguments.getString "name" with
    | .error e => (.error e, w)
    | .ok name =>
      let (result, w) := w.signature call.receiver name
      (result.map fun o => some o.toFrame, w)

def run (w : World σ η) (behaviour : Behaviour σ η) (handler : Handler η) (call : Call) :
    Except Error (Option Frame) × World σ η :=
  match handler with
  | .builtin b => w.runBuiltin b call
  | .custom h => behaviour h call w

def callSignal (w : World σ η) (behaviour : Behaviour σ η) (id : NodeId) (name : String)
    (arguments : Frame) : Except Error (Option Frame) × World σ η :=
  match w.tree.component id with
  | .error e => (.error e, w)
  | .ok c =>
    match c.signals.get name with
    | .error e => (.error e, w)
    | .ok s =>
      let path := w.tree.pathText id
      let w := w.emit (.signalDispatched path name arguments.size)
      match w.run behaviour s.handler ⟨id, name, arguments⟩ with
      | (.ok reply, w) => (.ok reply, w.emit (.signalCompleted path name reply.isSome))
      -- only a failure of the handler itself is marked with the signal
      | (.error e, w) => (.error (.inSignal name e), w.emit (.signalFailed path name e))

/-- Calls a signal of the component at a path. -/
def dispatch (w : World σ η) (behaviour : Behaviour σ η) (path name : String) (arguments : Frame) :
    Except Error (Option Frame) × World σ η :=
  match w.tree.resolve w.tree.root path with
  | .error e => (.error e, w)
  | .ok id => w.callSignal behaviour id name arguments

/-- Calls the signal of a document. -/
def dispatchDocument (w : World σ η) (behaviour : Behaviour σ η) (d : Wire.Document) :
    Except Error Wire.Document × World σ η :=
  match w.tree.resolve w.tree.root d.receiver with
  | .error e => (.error e, w)
  | .ok id =>
    match w.callSignal behaviour id d.target d.frame with
    | (.error e, w) => (.error e, w)
    -- the reply names the component as it stands after the call
    | (.ok reply, w) => (.ok ⟨d.target, w.tree.pathText id, reply.getD Frame.empty⟩, w)

/-- Calls the signal of a document in text form; the reply is a document too. -/
def dispatchText (w : World σ η) (behaviour : Behaviour σ η) (text : String) :
    Except Error String × World σ η :=
  -- what is passed over is reported before the call, also if reading fails
  let w := w.emitAll (Wire.documentMessages text)
  match Wire.readDocument text with
  | .error e => (.error e, w)
  | .ok d =>
    let (result, w) := w.dispatchDocument behaviour d
    (result.map fun d => String.ofList (Wire.writeDocument d), w)

/-- Applies the frame of a document to the options of a component. -/
def configureText (w : World σ η) (id : NodeId) (text : String) : Except Error Unit × World σ η :=
  let w := w.emitAll (Wire.frameMessages text)
  match Wire.readFrame text with
  | .error e => (.error e, w)
  | .ok f => w.configure id f

end World
end SignalTree
