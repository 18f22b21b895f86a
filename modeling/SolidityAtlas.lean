import SolidityAtlas.Text.Position
import SolidityAtlas.Text.LineMap
import SolidityAtlas.Text.Pieces
import SolidityAtlas.Row.Distinct
import SolidityAtlas.Row.Sorted
import SolidityAtlas.Row.Total
import SolidityAtlas.Path.Basic
import SolidityAtlas.Path.Table
import SolidityAtlas.Token.Kind
import SolidityAtlas.Token.Word
import SolidityAtlas.Token.Lexeme
import SolidityAtlas.Token.Stream
import SolidityAtlas.Syntax.Attribute
import SolidityAtlas.Syntax.Fault
import SolidityAtlas.Syntax.Kind
import SolidityAtlas.Syntax.Tree
import SolidityAtlas.Syntax.Draft
import SolidityAtlas.Syntax.Goal
import SolidityAtlas.Syntax.Grammar.Types
import SolidityAtlas.Syntax.Grammar.Expressions
import SolidityAtlas.Syntax.Grammar.Statements
import SolidityAtlas.Syntax.Grammar.Members
import SolidityAtlas.Syntax.Progress
import SolidityAtlas.Syntax.Pursuit
import SolidityAtlas.Syntax.Parse
import SolidityAtlas.Syntax.Site
import SolidityAtlas.Syntax.Reading
import SolidityAtlas.Failure
import SolidityAtlas.Symbol.Role
import SolidityAtlas.Symbol.Detail
import SolidityAtlas.Symbol.Basic
import SolidityAtlas.Symbol.Tree
import SolidityAtlas.Symbol.Locate
import SolidityAtlas.Symbol.Forest
import SolidityAtlas.Symbol.Merge
import SolidityAtlas.Symbol.Inheritance
import SolidityAtlas.Symbol.Member
import SolidityAtlas.Symbol.Link
import SolidityAtlas.Symbol.Planting
import SolidityAtlas.Symbol.Growth
import SolidityAtlas.Import.Remapping
import SolidityAtlas.Import.Resolve
import SolidityAtlas.Workspace.FileMap
import SolidityAtlas.Workspace.Snapshot
import SolidityAtlas.Workspace.Importers
import SolidityAtlas.Workspace.LinkGraph
import SolidityAtlas.Workspace.Offers
import SolidityAtlas.Workspace.Linking
import SolidityAtlas.Workspace.Basic
import SolidityAtlas.Navigation.Definition
import SolidityAtlas.Navigation.References
import SolidityAtlas.Project.Disk
import SolidityAtlas.Project.Load
import SolidityAtlas.Proofs.Row.Related
import SolidityAtlas.Proofs.Symbol.Outline
import SolidityAtlas.Proofs.Symbol.Agreement
import SolidityAtlas.Proofs.Symbol.Grown
import SolidityAtlas.Proofs.Symbol.LinkEnds
import SolidityAtlas.Proofs.Symbol.LookUp
import SolidityAtlas.Proofs.Symbol.Reading
import SolidityAtlas.Proofs.Workspace.Agreement
import SolidityAtlas.Proofs.Workspace.LinkGraph
import SolidityAtlas.Proofs.Workspace.Linking
import SolidityAtlas.Proofs.Workspace.Replace
import SolidityAtlas.Proofs.Workspace.Sound
import SolidityAtlas.Proofs.Workspace.Session
import SolidityAtlas.Proofs.Workspace.BackLinks
import SolidityAtlas.Proofs.Workspace.Mirror
import SolidityAtlas.Proofs.Workspace.Relink
import SolidityAtlas.Proofs.Workspace.Handles
import SolidityAtlas.Proofs.Workspace.Importers
import SolidityAtlas.Proofs.Workspace.Reindex
import SolidityAtlas.Proofs.Syntax.Nesting
import SolidityAtlas.Proofs.Syntax.Steps.Basic
import SolidityAtlas.Proofs.Syntax.Steps.Expressions
import SolidityAtlas.Proofs.Syntax.Steps.Statements
import SolidityAtlas.Proofs.Syntax.Steps.Members
import SolidityAtlas.Proofs.Path.Normal
import SolidityAtlas.Proofs.Path.Table
import SolidityAtlas.Proofs.Import.Target
import SolidityAtlas.Proofs.Symbol.Stem
import SolidityAtlas.Proofs.Symbol.Layout
import SolidityAtlas.Proofs.Symbol.Links
import SolidityAtlas.Proofs.Symbol.Settling
import SolidityAtlas.Proofs.Symbol.Stage
import SolidityAtlas.Proofs.Symbol.Accounted
import SolidityAtlas.Proofs.Symbol.TakenBack
import SolidityAtlas.Proofs.Symbol.Complete
import SolidityAtlas.Proofs.Symbol.Linearization
import SolidityAtlas.Proofs.Symbol.Growing
import SolidityAtlas.Proofs.Symbol.MemberTarget
import SolidityAtlas.Proofs.Symbol.Moment
import SolidityAtlas.Proofs.Symbol.ScopeSound
import SolidityAtlas.Proofs.Symbol.Hierarchy
import SolidityAtlas.Proofs.Symbol.Closing
import SolidityAtlas.Proofs.Symbol.InheritedFirst
import SolidityAtlas.Proofs.Workspace.Accounted
import SolidityAtlas.Proofs.Workspace.Imports
import SolidityAtlas.Proofs.Workspace.WithinImports
import SolidityAtlas.Proofs.Workspace.Phases
import SolidityAtlas.Proofs.Workspace.BasesFirst
import SolidityAtlas.Proofs.Workspace.ImportEdges
import SolidityAtlas.Proofs.Workspace.Traffic
import SolidityAtlas.Proofs.Workspace.LatestRequest
import SolidityAtlas.Proofs.Syntax.Leaves
import SolidityAtlas.Proofs.Token.Places
import SolidityAtlas.Proofs.Syntax.FaultPlaces
import SolidityAtlas.Proofs.Syntax.Lossless
import SolidityAtlas.Proofs.Navigation.Agreement
import SolidityAtlas.Proofs.Syntax.Precedence
import SolidityAtlas.Proofs.Symbol.Places
import SolidityAtlas.Proofs.Syntax.Solid
import SolidityAtlas.Proofs.Syntax.Alike.Basic
import SolidityAtlas.Proofs.Syntax.Alike.Draft
import SolidityAtlas.Proofs.Syntax.Alike.Expressions
import SolidityAtlas.Proofs.Syntax.Alike.Statements
import SolidityAtlas.Proofs.Syntax.Alike.Members
import SolidityAtlas.Proofs.Syntax.Alike.Parse
import SolidityAtlas.Proofs.Symbol.Unplaced
import SolidityAtlas.Proofs.Symbol.UnplacedGrowth
import SolidityAtlas.Proofs.Symbol.Reformatted
import SolidityAtlas.Proofs.Symbol.Shadowing
import SolidityAtlas.Proofs.Symbol.Gains
import SolidityAtlas.Proofs.Symbol.Accesses
import SolidityAtlas.Proofs.Symbol.MergedOrders
import SolidityAtlas.Proofs.Symbol.BaseChains
import SolidityAtlas.Proofs.Workspace.DepthFirst
import SolidityAtlas.Proofs.Workspace.ImportLookUp
import SolidityAtlas.Proofs.Workspace.Saturation
import SolidityAtlas.Proofs.Text.ByteOrder
import SolidityAtlas.Proofs.Import.Choice
import SolidityAtlas.Proofs.Navigation.Cursor
import SolidityAtlas.Proofs.Workspace.KnownPaths
import SolidityAtlas.Proofs.Workspace.Batches
import SolidityAtlas.Proofs.Syntax.Extents.Basic
import SolidityAtlas.Proofs.Syntax.Extents.Expressions
import SolidityAtlas.Proofs.Syntax.Extents.Statements
import SolidityAtlas.Proofs.Syntax.Extents.Members
import SolidityAtlas.Proofs.Syntax.Extents.Parse
import SolidityAtlas.Proofs.Import.Written
import SolidityAtlas.Proofs.Text.LineStarts
import SolidityAtlas.Proofs.Project.Directory
import SolidityAtlas.Proofs.Project.Report
import SolidityAtlas.Proofs.Token.Pattern
import SolidityAtlas.Proofs.Token.Scan
import SolidityAtlas.Proofs.Token.Lexeme
import SolidityAtlas.Proofs.Token.LongestMatch
import SolidityAtlas.Proofs.Workspace.NearestFirst
import SolidityAtlas.Proofs.Workspace.Dependents
import SolidityAtlas.Proofs.Path.Components
import SolidityAtlas.Proofs.Path.Spelling
import SolidityAtlas.Proofs.Import.Directory
