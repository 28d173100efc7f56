import TagTemplate.Catalog
import TagTemplate.CommandLine.Arguments
import TagTemplate.CommandLine.Report
import TagTemplate.CommandLine.Request
import TagTemplate.Comparison
import TagTemplate.Container
import TagTemplate.Engine
import TagTemplate.Json.Basic
import TagTemplate.Json.Document
import TagTemplate.Json.Numeral
import TagTemplate.Json.Printer
import TagTemplate.Json.Reader
import TagTemplate.Json.Record
import TagTemplate.Keyed
import TagTemplate.Main
import TagTemplate.Native.Behaviour
import TagTemplate.Native.Builtin
import TagTemplate.Native.Call
import TagTemplate.Native.Outcome
import TagTemplate.Native.Script
import TagTemplate.Native.Signature
import TagTemplate.Number.Binary64
import TagTemplate.Number.Numeral
import TagTemplate.Number.Shortest
import TagTemplate.Program.Basic
import TagTemplate.Program.Compile
import TagTemplate.Program.Fault
import TagTemplate.Program.Record
import TagTemplate.Program.Token
import TagTemplate.Proofs.Engine.Bookkeeping
import TagTemplate.Proofs.Engine.Cache
import TagTemplate.Proofs.Program.Markup
import TagTemplate.Proofs.Program.Parts
import TagTemplate.Proofs.Program.Reading
import TagTemplate.Proofs.Program.Registered
import TagTemplate.Proofs.Program.RoundTrip
import TagTemplate.Proofs.Program.Spelling
import TagTemplate.Proofs.Program.Tokens
import TagTemplate.Proofs.Program.Walk
import TagTemplate.Proofs.Run.Expand
import TagTemplate.Proofs.Run.Frame
import TagTemplate.Proofs.Run.GoesOn
import TagTemplate.Proofs.Run.Passes
import TagTemplate.Proofs.Run.Resolved
import TagTemplate.Proofs.Tag.Spelling
import TagTemplate.Proofs.Tag.Words
import TagTemplate.Proofs.Text.Plain
import TagTemplate.Proofs.Keyed
import TagTemplate.Proofs.Vocabulary
import TagTemplate.Run.Context
import TagTemplate.Run.Deliver
import TagTemplate.Run.Errand
import TagTemplate.Run.Expand
import TagTemplate.Run.Invoke
import TagTemplate.Run.Pass
import TagTemplate.Run.Replay
import TagTemplate.Run.Session
import TagTemplate.Run.Timed
import TagTemplate.Run.Whole
import TagTemplate.Settings
import TagTemplate.Tag.Pattern
import TagTemplate.Tag.Scan
import TagTemplate.Tag.Shape
import TagTemplate.Template
import TagTemplate.Text.Blank
import TagTemplate.Text.CaseFold
import TagTemplate.Text.CaseRuns
import TagTemplate.Text.CasedLetters
import TagTemplate.Text.Location
import TagTemplate.Text.LowerCase
import TagTemplate.Vocabulary
import TagTemplate.Proofs.Run.Invariant
import TagTemplate.Proofs.Run.Delivery
import TagTemplate.Proofs.Run.Tally
import TagTemplate.Proofs.Program.Depth
import TagTemplate.Proofs.Run.Depth
import TagTemplate.Proofs.Run.Ending
import TagTemplate.Proofs.Run.Rules
import TagTemplate.Proofs.Run.Quiet
import TagTemplate.Proofs.Run.Sending
import TagTemplate.Proofs.Run.Signals
import TagTemplate.Proofs.Run.Detection
import TagTemplate.Proofs.Run.Untouched
import TagTemplate.Proofs.Run.Reports
import TagTemplate.Proofs.Run.Modifiers
import TagTemplate.Proofs.Program.Order
import TagTemplate.Proofs.Run.Arguments
import TagTemplate.Proofs.Run.Order
import TagTemplate.Proofs.Program.Agreement
import TagTemplate.Proofs.Program.Bare
import TagTemplate.Proofs.Run.Binding
import TagTemplate.Proofs.Run.Recurrence
import TagTemplate.Proofs.Program.Tags
import TagTemplate.Proofs.Program.Filled
import TagTemplate.Proofs.Run.LastLook
import TagTemplate.Proofs.Program.Listing
import TagTemplate.Proofs.Program.Schema
import TagTemplate.Proofs.Program.Stages
import TagTemplate.Proofs.Text.Places
import TagTemplate.Proofs.Program.Faults
import TagTemplate.Proofs.Number.Written
import TagTemplate.Proofs.Json.Shapes
import TagTemplate.Proofs.Json.Written
import TagTemplate.Proofs.Run.Shapes
import TagTemplate.Proofs.Run.Uninvoked
import TagTemplate.Proofs.Json.Places
import TagTemplate.Proofs.Run.Places
import TagTemplate.Proofs.Program.Hidden
import TagTemplate.Proofs.Run.Blames
import TagTemplate.Proofs.Run.Replays
import TagTemplate.Proofs.Registration
import TagTemplate.Proofs.Tag.Longest
import TagTemplate.Proofs.Tag.LetterCase
import TagTemplate.Proofs.Program.LetterCase
import TagTemplate.Proofs.Engine.Variables
import TagTemplate.Proofs.Run.Errands
import TagTemplate.Proofs.Program.InPlace
