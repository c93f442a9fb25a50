import SignalTree.Base64
import SignalTree.Builtin
import SignalTree.Calendar
import SignalTree.Calendar.Text
import SignalTree.CommandLine
import SignalTree.Component
import SignalTree.Dispatch
import SignalTree.Env
import SignalTree.Error
import SignalTree.Frame
import SignalTree.Json
import SignalTree.Json.Reader
import SignalTree.Keyed
import SignalTree.Kind
import SignalTree.Main
import SignalTree.Message
import SignalTree.Number
import SignalTree.Numeral.Integer
import SignalTree.Plan
import SignalTree.Plan.Build
import SignalTree.Plan.Check
import SignalTree.Plan.Form
import SignalTree.Plan.Load
import SignalTree.Plan.Value
import SignalTree.Proofs.Keyed
import SignalTree.Proofs.Tree.Growth
import SignalTree.Proofs.Tree.Lookup
import SignalTree.Real64
import SignalTree.Real64.Shortest
import SignalTree.Real64.Text
import SignalTree.Registry
import SignalTree.Setting
import SignalTree.Settings
import SignalTree.Signal
import SignalTree.Text.Blank
import SignalTree.Text.Hidden
import SignalTree.Text.Quoted
import SignalTree.Tier
import SignalTree.Tree
import SignalTree.Tree.Change
import SignalTree.Tree.Outline
import SignalTree.Tree.Resolve
import SignalTree.Uri
import SignalTree.Value
import SignalTree.Value.Text
import SignalTree.Value.View
import SignalTree.Wire
import SignalTree.Wire.Reader
import SignalTree.Wire.Writer
import SignalTree.Xml
import SignalTree.Xml.Markup
import SignalTree.Xml.Reader
import SignalTree.Yaml
import SignalTree.Yaml.Node
import SignalTree.Yaml.Node.Reader
import SignalTree.Yaml.Token
import SignalTree.Yaml.Token.Lexer
import SignalTree.Yaml.Token.Scalar
import SignalTree.Yaml.Writer
import SignalTree.Proofs.Tree.Subtree
import SignalTree.Proofs.Tree.Upkeep
import SignalTree.Proofs.Tree.Operation
import SignalTree.Proofs.Tree.WellFormed
import SignalTree.Proofs.Tree.Run
import SignalTree.Proofs.Numeral.Digits
import SignalTree.Proofs.Text.Trim
import SignalTree.Proofs.Uri
import SignalTree.Proofs.Base64
import SignalTree.Proofs.Calendar
import SignalTree.Proofs.Json
import SignalTree.Proofs.Real64.Rounding
import SignalTree.Proofs.Real64.Shortest
import SignalTree.Proofs.Real64.Text
import SignalTree.Proofs.Kind
import SignalTree.Proofs.Value.Text
import SignalTree.Proofs.Xml.Escape
import SignalTree.Proofs.Xml.Tag
import SignalTree.Proofs.Xml.Layout
import SignalTree.Proofs.Wire.Sendable
import SignalTree.Proofs.Wire.Element
import SignalTree.Proofs.Wire.Clean
import SignalTree.Proofs.Wire.RoundTrip
import SignalTree.Proofs.Plan.Path
import SignalTree.Proofs.Plan.Failure
import SignalTree.Proofs.Tree.Descent
import SignalTree.Proofs.Plan.Build
import SignalTree.Proofs.Tree.Action
import SignalTree.Proofs.Tree.Route
import SignalTree.Proofs.Tree.Lifetime
import SignalTree.Proofs.Tree.Binding
import SignalTree.Proofs.Tree.Rooted
import SignalTree.Proofs.Tree.Address
import SignalTree.Proofs.Tree.Find
import SignalTree.Proofs.Setting.Trigger
import SignalTree.Proofs.Setting.Run
import SignalTree.Proofs.Result
import SignalTree.Proofs.Settings.Run
import SignalTree.Proofs.Settings.Schema
import SignalTree.Proofs.Plan.Options
import SignalTree.Proofs.Plan.Step
import SignalTree.Proofs.Plan.Alarm
import SignalTree.Proofs.Plan.Faithful
import SignalTree.Proofs.Settings.Configure
import SignalTree.Proofs.Dispatch.Handler
import SignalTree.Proofs.Dispatch.Failure
import SignalTree.Proofs.Tree.Course
import SignalTree.Proofs.Tree.Label
import SignalTree.Proofs.Value.Reading
import SignalTree.Proofs.Dispatch.Blame
import SignalTree.Proofs.Dispatch.Creation
import SignalTree.Proofs.Setting.Mirror
import SignalTree.Proofs.Text.Word
import SignalTree.Proofs.Xml.Arrival
import SignalTree.Proofs.Xml.Legal
import SignalTree.Proofs.Wire.Shape
import SignalTree.Proofs.Wire.Entry
import SignalTree.Proofs.Wire.Readable
import SignalTree.Proofs.Tree.Tidy
import SignalTree.Proofs.Dispatch.Reply
import SignalTree.Proofs.Setting.Assign
import SignalTree.Proofs.Setting.Reset
import SignalTree.Proofs.Tree.NewChild
import SignalTree.Proofs.Tree.Removal
import SignalTree.Proofs.Settings.Progress
import SignalTree.Proofs.Settings.Order
import SignalTree.Proofs.Settings.Description
import SignalTree.Proofs.Plan.Reading
import SignalTree.Proofs.Wire.Reading
import SignalTree.Proofs.Plan.Mismatch
import SignalTree.Proofs.Plan.Inference
import SignalTree.Proofs.Dispatch.Reference
import SignalTree.Proofs.Xml.Skeleton
import SignalTree.Proofs.Wire.Skeleton
import SignalTree.Proofs.Wire.Padding
import SignalTree.Proofs.Tree.Listing
import SignalTree.Proofs.Signature
import SignalTree.Proofs.Value.Location
import SignalTree.Proofs.Wire.Location
import SignalTree.Proofs.Tree.Adoption
import SignalTree.Proofs.Tree.Walk
import SignalTree.Proofs.Uri.Scheme
import SignalTree.Proofs.Plan.Canonical
import SignalTree.Proofs.Frame
