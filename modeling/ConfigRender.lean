import ConfigRender.Block
import ConfigRender.CommandLine.Arguments
import ConfigRender.CommandLine.Message
import ConfigRender.CommandLine.Run
import ConfigRender.Demo
import ConfigRender.Disk
import ConfigRender.Entries
import ConfigRender.Error
import ConfigRender.Factory
import ConfigRender.FileName
import ConfigRender.Generator
import ConfigRender.Item
import ConfigRender.Json.Basic
import ConfigRender.Json.Printer
import ConfigRender.Json.Reader
import ConfigRender.Main
import ConfigRender.Number.Binary64
import ConfigRender.Number.Layout
import ConfigRender.Number.Shortest
import ConfigRender.PathName
import ConfigRender.Program
import ConfigRender.Render.Contents
import ConfigRender.Render.Job
import ConfigRender.Render.Queue
import ConfigRender.Render.Rendered
import ConfigRender.Render.Scheduler
import ConfigRender.Render.Work
import ConfigRender.Render.World
import ConfigRender.Render.Write
import ConfigRender.Script.Eval
import ConfigRender.Script.Library
import ConfigRender.Script.Session
import ConfigRender.Script.Terms
import ConfigRender.Store
import ConfigRender.Text.Blank
import ConfigRender.Text.ControlSequences
import ConfigRender.Text.Pieces
import ConfigRender.Text.Slice
import ConfigRender.Text.Utf8
import ConfigRender.Value.Basic
import ConfigRender.Value.Equality
import ConfigRender.Value.Json
import ConfigRender.Value.Renderable
import ConfigRender.Yaml.Printer
import ConfigRender.Yaml.Resolution
import ConfigRender.Yaml.Scalar
import ConfigRender.Proofs.Intake
import ConfigRender.Proofs.Lineup
import ConfigRender.Proofs.Journal
import ConfigRender.Proofs.Simulation
import ConfigRender.Proofs.Accounting
import ConfigRender.Proofs.Failures
import ConfigRender.Proofs.MissingFiles
import ConfigRender.Proofs.AwaitedValues
import ConfigRender.Proofs.ReadConsistency
import ConfigRender.Proofs.RegistrationOrder
import ConfigRender.Proofs.StackOrder
import ConfigRender.Proofs.Outcome
import ConfigRender.Proofs.Places
import ConfigRender.Proofs.Emissions
import ConfigRender.Proofs.Confluence
import ConfigRender.Proofs.Bound
import ConfigRender.Proofs.Turns
import ConfigRender.Proofs.Brackets
import ConfigRender.Proofs.FailFast
import ConfigRender.Proofs.Provenance
import ConfigRender.Proofs.Stops
import ConfigRender.Proofs.Termination
import ConfigRender.Proofs.Aggregation
import ConfigRender.Proofs.Encapsulation
import ConfigRender.Proofs.Isolation
import ConfigRender.Proofs.Coroutine
import ConfigRender.Proofs.Echo
import ConfigRender.Proofs.Additions
import ConfigRender.Proofs.Availability
import ConfigRender.Proofs.Resumptions
import ConfigRender.Proofs.IntegerRounding
import ConfigRender.Proofs.Equality
import ConfigRender.Proofs.Sameness
import ConfigRender.Proofs.Drift
import ConfigRender.Proofs.Renderability
import ConfigRender.Proofs.Reordering
import ConfigRender.Proofs.KeyOrder
import ConfigRender.Proofs.RoundTrip
import ConfigRender.Proofs.Directories
import ConfigRender.Proofs.Output
import ConfigRender.Proofs.Schedule
import ConfigRender.Proofs.Batches
import ConfigRender.Proofs.InPlace
import ConfigRender.Proofs.Runners
import ConfigRender.Proofs.Groups
import ConfigRender.Proofs.Project
import ConfigRender.Proofs.Nesting
import ConfigRender.Proofs.Addresses
import ConfigRender.Proofs.Interpolation
import ConfigRender.Proofs.OctetOrder
import ConfigRender.Proofs.Memberships
import ConfigRender.Proofs.AsciiText
import ConfigRender.Proofs.FileNames
