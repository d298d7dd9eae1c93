import LiveRules.Artifact
import LiveRules.Artifact.Json
import LiveRules.Artifact.Store
import LiveRules.ClassPath
import LiveRules.ClassPath.Session
import LiveRules.CommandLine
import LiveRules.Compile.Builtin
import LiveRules.Compile.Check
import LiveRules.Compile.External
import LiveRules.Compile.Link
import LiveRules.Compile.Messages
import LiveRules.Compile.Outcome
import LiveRules.Compile.Pass
import LiveRules.Compile.Tool
import LiveRules.Config
import LiveRules.Config.Document
import LiveRules.Console
import LiveRules.Console.Screen
import LiveRules.Decimal.Reading
import LiveRules.Decimal.Shortest
import LiveRules.Decimal.Text
import LiveRules.Digest.Blake3
import LiveRules.Digest.Content
import LiveRules.Engine.Context
import LiveRules.Engine.Event
import LiveRules.Engine.Generation
import LiveRules.Files.Disk
import LiveRules.Files.Find
import LiveRules.Files.Path
import LiveRules.Item.Registry
import LiveRules.Item.Shelf
import LiveRules.Item.Stub
import LiveRules.Json.Basic
import LiveRules.Json.Number
import LiveRules.Json.Printer
import LiveRules.Json.Reader
import LiveRules.Json.Record
import LiveRules.Load.Instance
import LiveRules.Load.Report
import LiveRules.Main
import LiveRules.Naming
import LiveRules.Pack
import LiveRules.Program
import LiveRules.Shell.Format
import LiveRules.Shell.Run
import LiveRules.Shell.Script
import LiveRules.Shell.Session
import LiveRules.Shell.Tool
import LiveRules.Shell.Word
import LiveRules.Source
import LiveRules.Source.Declaration
import LiveRules.Text.Blank
import LiveRules.Text.Colour
import LiveRules.Text.Cut
import LiveRules.Text.Digit
import LiveRules.Text.Quoted
import LiveRules.Text.Shown
import LiveRules.Text.Utf8
import LiveRules.Toml.Basic
import LiveRules.Toml.Number
import LiveRules.Toml.Quoted
import LiveRules.Toml.Reader
import LiveRules.Toml.Shape
import LiveRules.Toml.Space
import LiveRules.Toml.Tables
import LiveRules.Toml.Writer
import LiveRules.Watch.Change
import LiveRules.Watch.Pending
import LiveRules.Watch.Poll
import LiveRules.Watch.Watcher
import LiveRules.Workspace.Basic
import LiveRules.Workspace.Items
import LiveRules.Workspace.Lifecycle
import LiveRules.Workspace.Loop
import LiveRules.Workspace.Phase
import LiveRules.Workspace.Rules
import LiveRules.Proofs.Compile.Language
import LiveRules.Proofs.Files.Paths
import LiveRules.Proofs.Compile.Again
import LiveRules.Proofs.Workspace.Reload
import LiveRules.Proofs.Compile.Dotted
import LiveRules.Proofs.Compile.Meaning
import LiveRules.Proofs.Json.Packs
import LiveRules.Proofs.Json.Stored
import LiveRules.Proofs.Workspace.Meaning
import LiveRules.Proofs.Workspace.Items
import LiveRules.Proofs.Workspace.Starting
import LiveRules.Proofs.Workspace.Loaded
import LiveRules.Proofs.Workspace.Registered
import LiveRules.Proofs.Load.Reports
import LiveRules.Proofs.Workspace.Generations
import LiveRules.Proofs.Compile.Written
import LiveRules.Proofs.Files.Aims
import LiveRules.Proofs.Json.Beginnings
import LiveRules.Proofs.Item.Held
import LiveRules.Proofs.Item.Repacked
import LiveRules.Proofs.Workspace.Journal
import LiveRules.Proofs.Workspace.Stale
import LiveRules.Proofs.Workspace.Links
import LiveRules.Proofs.Compile.Thresholds
import LiveRules.Proofs.Workspace.Subscription
import LiveRules.Proofs.Workspace.Territory
import LiveRules.Proofs.Item.Leftovers
import LiveRules.Proofs.Workspace.Orphans
import LiveRules.Proofs.Compile.Apart
import LiveRules.Proofs.Load.Isolation
import LiveRules.Proofs.Load.Methods
import LiveRules.Proofs.Watch.Debounce
import LiveRules.Proofs.Load.Providers
import LiveRules.Proofs.Load.Handles
import LiveRules.Proofs.Item.Compiled
import LiveRules.Proofs.Compile.Messages
import LiveRules.Proofs.Engine.Templates
import LiveRules.Proofs.Pack.Saving
import LiveRules.Proofs.Compile.Missing
import LiveRules.Proofs.Engine.Restrictions
import LiveRules.Proofs.Watch.Telling
import LiveRules.Proofs.Files.Descent
import LiveRules.Proofs.Compile.Order
import LiveRules.Proofs.Pack.Digests
import LiveRules.Proofs.Config.Folders
import LiveRules.Proofs.Compile.Calls
import LiveRules.Proofs.Compile.Scanned
import LiveRules.Proofs.Text.Stripping
