import SchemaGraph.CommandLine.Folder
import SchemaGraph.Main
import SchemaGraph.Proofs.Extensions
import SchemaGraph.Proofs.Nodes
import SchemaGraph.Proofs.Marking
import SchemaGraph.Proofs.Integrity
import SchemaGraph.Proofs.Each
import SchemaGraph.Proofs.Rule
import SchemaGraph.Proofs.Pruning
import SchemaGraph.Proofs.Guarantee
import SchemaGraph.Proofs.Grounded
import SchemaGraph.Proofs.Rewrites
import SchemaGraph.Proofs.Sound
import SchemaGraph.Proofs.ContentPasses
import SchemaGraph.Proofs.Distinct
import SchemaGraph.Proofs.Hierarchy
import SchemaGraph.Proofs.Renaming
import SchemaGraph.Proofs.Occurrences
import SchemaGraph.Proofs.Copies
import SchemaGraph.Proofs.HierarchyCopies
import SchemaGraph.Proofs.Planning
import SchemaGraph.Proofs.CopyFrame
import SchemaGraph.Proofs.Lineage
import SchemaGraph.Proofs.FreshCopies
import SchemaGraph.Proofs.Attributes
import SchemaGraph.Proofs.Places
import SchemaGraph.Proofs.Visits
import SchemaGraph.Proofs.Spreading
import SchemaGraph.Proofs.NilDemand
import SchemaGraph.Proofs.NilCopies
import SchemaGraph.Proofs.NilSites
import SchemaGraph.Proofs.NilFrame
import SchemaGraph.Proofs.NilTrees
import SchemaGraph.Proofs.Typedefs
import SchemaGraph.Proofs.Lifting
import SchemaGraph.Proofs.Pointing
import SchemaGraph.Proofs.Readable
import SchemaGraph.Proofs.ReadBack
import SchemaGraph.Proofs.Storable
import SchemaGraph.Proofs.Runs
import SchemaGraph.Proofs.Reloading
import SchemaGraph.Proofs.Unique
import SchemaGraph.Proofs.Outline
import SchemaGraph.Proofs.Orphans
import SchemaGraph.Proofs.Bookkeeping
import SchemaGraph.Proofs.RepeatedCopies
import SchemaGraph.Proofs.IsomorphicCopies
import SchemaGraph.Proofs.Entered
import SchemaGraph.Proofs.CanonicalForm
import SchemaGraph.Proofs.Settled
import SchemaGraph.Proofs.Squashing
import SchemaGraph.Proofs.Frame
import SchemaGraph.Proofs.Records
import SchemaGraph.Proofs.PlainWalks
import SchemaGraph.Proofs.SquashFree
import SchemaGraph.Proofs.Policy
import SchemaGraph.Proofs.Expanded
import SchemaGraph.Proofs.Temporary
import SchemaGraph.Proofs.RawTexts
import SchemaGraph.Proofs.RawFrame
import SchemaGraph.Proofs.RawTraversals
import SchemaGraph.Proofs.PropertyNames
import SchemaGraph.Proofs.RenamedSquash
import SchemaGraph.Proofs.RenamedNilSplit
import SchemaGraph.Proofs.RepeatedSplit
import SchemaGraph.Proofs.Likeness
import SchemaGraph.Proofs.RelatedWalks
import SchemaGraph.Proofs.ShapeChains
import SchemaGraph.Proofs.UnionDispatch
import SchemaGraph.Proofs.ExpansionDepth
import SchemaGraph.Proofs.SharedReach
import SchemaGraph.Proofs.ExpansionOrder
import SchemaGraph.Proofs.OrderedWalks
import SchemaGraph.Proofs.FlatView
import SchemaGraph.Proofs.BaseChains
import SchemaGraph.Proofs.RestrictedWalks
import SchemaGraph.Proofs.InheritedAttributes
import SchemaGraph.Proofs.RestrictionOrder
import SchemaGraph.Proofs.UnionNames
import SchemaGraph.Proofs.OptionalBranches
import SchemaGraph.Proofs.SteppedWalks
import SchemaGraph.Proofs.FoldedContent
import SchemaGraph.Proofs.RepeatingGroups
import SchemaGraph.Proofs.MultipliedBounds
import SchemaGraph.Proofs.NestedBounds
import SchemaGraph.Proofs.CommonType
import SchemaGraph.Proofs.OrderedPasses
import SchemaGraph.Proofs.UnionOrder
import SchemaGraph.Proofs.WalkedPlaces
import SchemaGraph.Proofs.CompleteInlining
import SchemaGraph.Proofs.MigratedValues
import SchemaGraph.Proofs.SettledValues
import SchemaGraph.Proofs.OrderedValues
import SchemaGraph.Proofs.TypedValues
import SchemaGraph.Proofs.ShallowWalks
import SchemaGraph.Proofs.InheritedNamespaces
import SchemaGraph.Proofs.CanonicalNodes
import SchemaGraph.Proofs.NearestFloats
import SchemaGraph.Proofs.WholeNumbers
import SchemaGraph.Proofs.PlacedNodes
import SchemaGraph.Proofs.Diagnostics
import SchemaGraph.Proofs.WalkEvents
import SchemaGraph.Proofs.AtomicWalks
import SchemaGraph.Proofs.PointerTexts
import SchemaGraph.Proofs.ReferenceTexts
import SchemaGraph.Proofs.ExtensionChains
import SchemaGraph.Proofs.AncestorChains
