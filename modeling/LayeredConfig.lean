import LayeredConfig.Assembly
import LayeredConfig.Assembly.Library
import LayeredConfig.Assembly.Merge
import LayeredConfig.Assembly.Queue
import LayeredConfig.Assembly.Request
import LayeredConfig.Assembly.Run
import LayeredConfig.Assembly.Search
import LayeredConfig.CommandLine
import LayeredConfig.CommandLine.Arguments
import LayeredConfig.CommandLine.Display
import LayeredConfig.CommandLine.Invocation
import LayeredConfig.CommandLine.Parameter
import LayeredConfig.Document
import LayeredConfig.Environment
import LayeredConfig.Error
import LayeredConfig.KeyedList
import LayeredConfig.Main
import LayeredConfig.Module.ApplicationKind
import LayeredConfig.Module.Capabilities
import LayeredConfig.Module.Catalog
import LayeredConfig.Module.Filter
import LayeredConfig.Module.Manifest
import LayeredConfig.Module.Metadata
import LayeredConfig.Module.Order
import LayeredConfig.Module.Report
import LayeredConfig.Module.Selection
import LayeredConfig.Names
import LayeredConfig.Number.Binary64
import LayeredConfig.Number.Shortest
import LayeredConfig.Placeholder.Resolution
import LayeredConfig.Placeholder.Segment
import LayeredConfig.Profile.Basic
import LayeredConfig.Profile.Expression
import LayeredConfig.Proofs.Assembly.Acceptance
import LayeredConfig.Proofs.Assembly.Activation
import LayeredConfig.Proofs.Assembly.ActivationOrder
import LayeredConfig.Proofs.Assembly.BaseFiles
import LayeredConfig.Proofs.Assembly.Counterparts
import LayeredConfig.Proofs.Assembly.Displacement
import LayeredConfig.Proofs.Assembly.Documents
import LayeredConfig.Proofs.Assembly.Evaluation
import LayeredConfig.Proofs.Assembly.Failure
import LayeredConfig.Proofs.Assembly.Files
import LayeredConfig.Proofs.Assembly.Frame
import LayeredConfig.Proofs.Assembly.HiddenKeys
import LayeredConfig.Proofs.Assembly.LoaderChoice
import LayeredConfig.Proofs.Assembly.Locations
import LayeredConfig.Proofs.Assembly.Merging
import LayeredConfig.Proofs.Assembly.Outcome
import LayeredConfig.Proofs.Assembly.OneList
import LayeredConfig.Proofs.Assembly.OwnTurns
import LayeredConfig.Proofs.Assembly.Places
import LayeredConfig.Proofs.Assembly.Precedence
import LayeredConfig.Proofs.Assembly.ProfileFree
import LayeredConfig.Proofs.Assembly.Provenance
import LayeredConfig.Proofs.Assembly.Queueing
import LayeredConfig.Proofs.Assembly.RequestedProfiles
import LayeredConfig.Proofs.Assembly.Sections
import LayeredConfig.Proofs.Assembly.SourceNames
import LayeredConfig.Proofs.Assembly.Specificity
import LayeredConfig.Proofs.Assembly.Splicing
import LayeredConfig.Proofs.Assembly.StandardLoaders
import LayeredConfig.Proofs.Assembly.Termination
import LayeredConfig.Proofs.Assembly.TurnOrder
import LayeredConfig.Proofs.Assembly.Turns
import LayeredConfig.Proofs.Assembly.UnusedFiles
import LayeredConfig.Proofs.Environment
import LayeredConfig.Proofs.Environment.References
import LayeredConfig.Proofs.Environment.ResolvedLists
import LayeredConfig.Proofs.Environment.Siblings
import LayeredConfig.Proofs.Module.Announcing
import LayeredConfig.Proofs.Module.Choosing
import LayeredConfig.Proofs.Module.Conditions
import LayeredConfig.Proofs.Module.Consulting
import LayeredConfig.Proofs.Module.FactSpellings
import LayeredConfig.Proofs.Module.Filtering
import LayeredConfig.Proofs.Module.Following
import LayeredConfig.Proofs.Module.MergedTables
import LayeredConfig.Proofs.Module.Ordering
import LayeredConfig.Proofs.Module.Placement
import LayeredConfig.Proofs.Module.Priorities
import LayeredConfig.Proofs.Module.Ranking
import LayeredConfig.Proofs.Module.Reaching
import LayeredConfig.Proofs.Module.Rejecting
import LayeredConfig.Proofs.Module.Restating
import LayeredConfig.Proofs.Placeholder.Dollars
import LayeredConfig.Proofs.Placeholder.Escapes
import LayeredConfig.Proofs.Placeholder.Joining
import LayeredConfig.Proofs.Placeholder.Modes
import LayeredConfig.Proofs.Placeholder.Nesting
import LayeredConfig.Proofs.Placeholder.RoundTrip
import LayeredConfig.Proofs.Placeholder.SharedKeys
import LayeredConfig.Proofs.Profile.Grammar
import LayeredConfig.Proofs.Profile.Lexing
import LayeredConfig.Proofs.Profile.Occurrences
import LayeredConfig.Proofs.Profile.Trees
import LayeredConfig.Proofs.Property.Appending
import LayeredConfig.Proofs.Property.EscapedValues
import LayeredConfig.Proofs.Property.Layers
import LayeredConfig.Proofs.Property.LeafPaths
import LayeredConfig.Proofs.Property.ListSpellings
import LayeredConfig.Proofs.Property.Operations
import LayeredConfig.Proofs.Property.Writing
import LayeredConfig.Proofs.Text.CommaList
import LayeredConfig.Proofs.Traversal
import LayeredConfig.Property.Flattening
import LayeredConfig.Property.Keys
import LayeredConfig.Property.LineFormat
import LayeredConfig.Property.Loader
import LayeredConfig.Property.Source
import LayeredConfig.Property.Sources
import LayeredConfig.Reading
import LayeredConfig.Resource.FileTree
import LayeredConfig.Resource.Location
import LayeredConfig.Resource.Path
import LayeredConfig.Resource.Store
import LayeredConfig.Startup
import LayeredConfig.Startup.Settings
import LayeredConfig.Text.Blank
import LayeredConfig.Text.CommaList
import LayeredConfig.Text.Integer
import LayeredConfig.Text.Json
import LayeredConfig.Text.Lines
import LayeredConfig.Traversal
import LayeredConfig.Yaml.Character
import LayeredConfig.Yaml.Document
import LayeredConfig.Yaml.Number
import LayeredConfig.Yaml.Record
import LayeredConfig.Yaml.Tag
import LayeredConfig.Yaml.Token
import LayeredConfig.Yaml.Token.Scalar
import LayeredConfig.Yaml.Token.Stream
import LayeredConfig.Yaml.Token.Tag
import LayeredConfig.Yaml.Tree
import LayeredConfig.Yaml.Value
