import OpenWorkflow.CommandLine.Command
import OpenWorkflow.CommandLine.Files
import OpenWorkflow.CommandLine.Options
import OpenWorkflow.CommandLine.Run
import OpenWorkflow.Compile
import OpenWorkflow.Data.OrderedMap
import OpenWorkflow.Data.OrderedSet
import OpenWorkflow.Fragment.Activity
import OpenWorkflow.Fragment.Basic
import OpenWorkflow.Fragment.Flowchart
import OpenWorkflow.Fragment.Messaging
import OpenWorkflow.Fragment.StateMachine
import OpenWorkflow.Fragment.Structured
import OpenWorkflow.Main
import OpenWorkflow.Markup.Document
import OpenWorkflow.Markup.Entity
import OpenWorkflow.Markup.Namespace
import OpenWorkflow.Markup.Scan
import OpenWorkflow.Markup.ScanError
import OpenWorkflow.Markup.Screen
import OpenWorkflow.Markup.Token
import OpenWorkflow.Net.Basic
import OpenWorkflow.Net.Build
import OpenWorkflow.Net.Consistency
import OpenWorkflow.Net.Error
import OpenWorkflow.Net.Statistics
import OpenWorkflow.Output.Dot
import OpenWorkflow.Output.Format
import OpenWorkflow.Output.Path
import OpenWorkflow.Owfn.Document
import OpenWorkflow.Owfn.Reader
import OpenWorkflow.Owfn.Writer
import OpenWorkflow.Proofs.Ambiguity
import OpenWorkflow.Proofs.Boundary
import OpenWorkflow.Proofs.Channels
import OpenWorkflow.Proofs.Compile
import OpenWorkflow.Proofs.Drawing.Activity
import OpenWorkflow.Proofs.Drawing.Basic
import OpenWorkflow.Proofs.Drawing.Blocks
import OpenWorkflow.Proofs.Drawing.Census
import OpenWorkflow.Proofs.Drawing.Congruence
import OpenWorkflow.Proofs.Drawing.Contents
import OpenWorkflow.Proofs.Drawing.Ends
import OpenWorkflow.Proofs.Drawing.Ends.Basic
import OpenWorkflow.Proofs.Drawing.Ends.Flowchart
import OpenWorkflow.Proofs.Drawing.Ends.StateMachine
import OpenWorkflow.Proofs.Drawing.Forest
import OpenWorkflow.Proofs.Drawing.Frame
import OpenWorkflow.Proofs.Drawing.Graphs
import OpenWorkflow.Proofs.Drawing.Lines
import OpenWorkflow.Proofs.Drawing.Locality
import OpenWorkflow.Proofs.Drawing.Nets
import OpenWorkflow.Proofs.Drawing.Renaming
import OpenWorkflow.Proofs.Drawing.Routes
import OpenWorkflow.Proofs.Drawing.Routes.Basic
import OpenWorkflow.Proofs.Drawing.Routes.Choices
import OpenWorkflow.Proofs.Drawing.Rules
import OpenWorkflow.Proofs.Drawing.Shape
import OpenWorkflow.Proofs.Flattening
import OpenWorkflow.Proofs.Fragment.Construction
import OpenWorkflow.Proofs.Fragment.Containment
import OpenWorkflow.Proofs.Fragment.Names
import OpenWorkflow.Proofs.Fragment.Walk
import OpenWorkflow.Proofs.GuardChain.Moves
import OpenWorkflow.Proofs.GuardChain.Runs
import OpenWorkflow.Proofs.Interface
import OpenWorkflow.Proofs.Markup.Nesting
import OpenWorkflow.Proofs.Markup.Prefixes
import OpenWorkflow.Proofs.Markup.Printing
import OpenWorkflow.Proofs.Markup.Renaming
import OpenWorkflow.Proofs.Markup.Respelling
import OpenWorkflow.Proofs.Markup.Rewriting
import OpenWorkflow.Proofs.Markup.RoundTrip
import OpenWorkflow.Proofs.Markup.Screening
import OpenWorkflow.Proofs.Markup.Spelling
import OpenWorkflow.Proofs.Net.Calls
import OpenWorkflow.Proofs.Net.Checking
import OpenWorkflow.Proofs.Net.Consistency
import OpenWorkflow.Proofs.Net.Handles
import OpenWorkflow.Proofs.Net.Isomorphism
import OpenWorkflow.Proofs.Net.Lookup
import OpenWorkflow.Proofs.Net.Merge
import OpenWorkflow.Proofs.Net.MergeOrder
import OpenWorkflow.Proofs.Net.Quotient
import OpenWorkflow.Proofs.Net.Refusal
import OpenWorkflow.Proofs.Net.Replace
import OpenWorkflow.Proofs.Net.WellFormed
import OpenWorkflow.Proofs.Outcome
import OpenWorkflow.Proofs.Output.Dot
import OpenWorkflow.Proofs.Owfn.FinalCondition
import OpenWorkflow.Proofs.Owfn.Lexing
import OpenWorkflow.Proofs.Owfn.RoundTrip
import OpenWorkflow.Proofs.Owfn.Sections
import OpenWorkflow.Proofs.Owfn.Sources
import OpenWorkflow.Proofs.Reordering
import OpenWorkflow.Proofs.Size
import OpenWorkflow.Proofs.Soundness
import OpenWorkflow.Proofs.Soundness.Pieces
import OpenWorkflow.Proofs.Soundness.Sites
import OpenWorkflow.Proofs.Success
import OpenWorkflow.Proofs.Text.Numeral
import OpenWorkflow.Proofs.TokenGame.Basic
import OpenWorkflow.Proofs.TokenGame.Compose
import OpenWorkflow.Proofs.TokenGame.Runs
import OpenWorkflow.Proofs.Wiring.Flowchart
import OpenWorkflow.Proofs.Wiring.StateMachine
import OpenWorkflow.Proofs.Workflow.Acceptance
import OpenWorkflow.Proofs.Workflow.Agreement
import OpenWorkflow.Proofs.Workflow.Comparison
import OpenWorkflow.Proofs.Workflow.Consumption
import OpenWorkflow.Proofs.Workflow.Drafts
import OpenWorkflow.Proofs.Workflow.Elements
import OpenWorkflow.Proofs.Workflow.Forest
import OpenWorkflow.Proofs.Workflow.Holding
import OpenWorkflow.Proofs.Workflow.Locality
import OpenWorkflow.Proofs.Workflow.MachineDrafts
import OpenWorkflow.Proofs.Workflow.Parsing
import OpenWorkflow.Proofs.Workflow.Reading
import OpenWorkflow.Proofs.Workflow.References
import OpenWorkflow.Proofs.Workflow.Replacement
import OpenWorkflow.Proofs.Workflow.Roles
import OpenWorkflow.Proofs.Workflow.StructuredDrafts
import OpenWorkflow.Proofs.Workflow.TagNames
import OpenWorkflow.Proofs.Workflow.Termination
import OpenWorkflow.Proofs.Workflow.Tree
import OpenWorkflow.Proofs.Workflow.Unparsing
import OpenWorkflow.Proofs.WorkflowNet
import OpenWorkflow.Text.Blank
import OpenWorkflow.Text.Grammar
import OpenWorkflow.Text.Numeral
import OpenWorkflow.Text.Split
import OpenWorkflow.Workflow.Activity
import OpenWorkflow.Workflow.Document
import OpenWorkflow.Workflow.ReadError
import OpenWorkflow.Workflow.Reader.Basic
import OpenWorkflow.Workflow.Reader.Flowchart
import OpenWorkflow.Workflow.Reader.Primitive
import OpenWorkflow.Workflow.Reader.StateMachine
import OpenWorkflow.Workflow.Reader.Structured
import OpenWorkflow.Workflow.Registry
import OpenWorkflow.Workflow.TokenStream
