import Disguise.Arithmetic
import Disguise.CommandLine.ListOption
import Disguise.CommandLine.Options
import Disguise.CommandLine.Program
import Disguise.CommandLine.Report
import Disguise.Config.Basic
import Disguise.Config.Comments
import Disguise.Config.Field
import Disguise.Config.JsonReader
import Disguise.Config.Load
import Disguise.Config.YamlReader
import Disguise.Decimal
import Disguise.Diff.Basic
import Disguise.Diff.Lines
import Disguise.Diff.Normalize
import Disguise.Diff.Script
import Disguise.Diff.Snake
import Disguise.Dominance
import Disguise.Equivalence
import Disguise.Execution
import Disguise.Files.Host
import Disguise.Files.Path
import Disguise.Files.Tree
import Disguise.Generation
import Disguise.Graph.Basic
import Disguise.Graph.Clone
import Disguise.Graph.Edit
import Disguise.Graph.Editor
import Disguise.Graph.PlaceSet
import Disguise.Graph.Table
import Disguise.Graph.UseSet
import Disguise.Ieee
import Disguise.Json.Basic
import Disguise.Json.Reader
import Disguise.Log
import Disguise.Main
import Disguise.Metric.Exposition
import Disguise.Metric.Histogram
import Disguise.Metric.Registry
import Disguise.Opcode
import Disguise.Policy
import Disguise.Processing
import Disguise.Random
import Disguise.Sorting
import Disguise.Substitution.Apply
import Disguise.Substitution.Chain
import Disguise.Substitution.Engine
import Disguise.Substitution.Rule
import Disguise.Syntax.Draft
import Disguise.Syntax.Error
import Disguise.Syntax.Line
import Disguise.Syntax.Parser
import Disguise.Syntax.Printer
import Disguise.Syntax.Scanner
import Disguise.Text.Base64
import Disguise.Text.Blank
import Disguise.Text.Bytes
import Disguise.Text.Dictionary
import Disguise.Text.Numeral
import Disguise.Text.Pattern
import Disguise.Text.Printable
import Disguise.Text.Quoted
import Disguise.Text.Timestamp
import Disguise.Text.Utf8
import Disguise.Validity
import Disguise.Violation
import Disguise.Word
import Disguise.Yaml.Cursor
import Disguise.Yaml.Date
import Disguise.Yaml.Meaning
import Disguise.Yaml.Node
import Disguise.Yaml.Scalar
import Disguise.Yaml.Source
import Disguise.Yaml.Token
import Disguise.Yaml.Tokens
import Disguise.Proofs.Cutting
import Disguise.Proofs.Lookup
import Disguise.Proofs.Results
import Disguise.Proofs.UseCount
import Disguise.Proofs.Weaving
import Disguise.Proofs.WellFormed
import Disguise.Proofs.Checking
import Disguise.Proofs.Paths
import Disguise.Proofs.Dominators
import Disguise.Proofs.Words
import Disguise.Proofs.Denotation
import Disguise.Proofs.Points
import Disguise.Proofs.Soundness
import Disguise.Proofs.Fates
import Disguise.Proofs.Choices
import Disguise.Proofs.Chains
import Disguise.Proofs.Editing
import Disguise.Proofs.Frames
import Disguise.Proofs.Splicing
import Disguise.Proofs.Sweeping
import Disguise.Proofs.Simulation
import Disguise.Proofs.Queues
import Disguise.Proofs.Replacing
import Disguise.Proofs.Passes
import Disguise.Proofs.Preservation
import Disguise.Proofs.Expansions
import Disguise.Proofs.Copies
import Disguise.Proofs.Calls
import Disguise.Proofs.CodePoints
import Disguise.Proofs.Numerals
import Disguise.Proofs.Quoting
import Disguise.Proofs.Headers
import Disguise.Proofs.Limits
import Disguise.Proofs.Sessions
import Disguise.Proofs.Commuting
import Disguise.Proofs.Batches
import Disguise.Proofs.Visits
import Disguise.Proofs.Building
import Disguise.Proofs.Relabeling
import Disguise.Proofs.Cloning
import Disguise.Proofs.Printing
import Disguise.Proofs.Vectors
import Disguise.Proofs.Verifying
import Disguise.Proofs.EndToEnd
import Disguise.Proofs.Guards
import Disguise.Proofs.Growth
import Disguise.Proofs.Skeleton
import Disguise.Proofs.Sketches
import Disguise.Proofs.Outlining
import Disguise.Proofs.Emission
import Disguise.Proofs.Generating
import Disguise.Proofs.Assembling
import Disguise.Proofs.Drafting
import Disguise.Proofs.Naming
import Disguise.Proofs.Lawful
import Disguise.Proofs.Statistics
import Disguise.Proofs.Turns
import Disguise.Proofs.Isomorphism
import Disguise.Proofs.Respelling
import Disguise.Proofs.Revising
import Disguise.Proofs.Rewriting
import Disguise.Proofs.Scanning
import Disguise.Proofs.Parsing
import Disguise.Proofs.Safety
import Disguise.Proofs.Regions
import Disguise.Proofs.Confining
import Disguise.Proofs.Twins
import Disguise.Proofs.Removing
import Disguise.Proofs.Redirecting
import Disguise.Proofs.Tagging
import Disguise.Proofs.History
import Disguise.Proofs.Elements
import Disguise.Proofs.Commenting
import Disguise.Proofs.Scripts
import Disguise.Proofs.Marking
import Disguise.Proofs.Addresses
import Disguise.Proofs.Walks
import Disguise.Proofs.Outputs
import Disguise.Proofs.Ordering
import Disguise.Proofs.Collecting
