import SpatialStore.Decimal.Text
import SpatialStore.Geometry.Bounds
import SpatialStore.Geometry.Dimension
import SpatialStore.Geometry.Intersects
import SpatialStore.Geometry.Contains
import SpatialStore.Geometry.Segments
import SpatialStore.Geometry.Text
import SpatialStore.Text.Quoted
import SpatialStore.Schema.Basic
import SpatialStore.Settings.Basic
import SpatialStore.Settings.Reader
import SpatialStore.Index.Key
import SpatialStore.Index.RTree.Basic
import SpatialStore.Index.Building
import SpatialStore.Table.Database
import SpatialStore.Editing.Edit
import SpatialStore.Editing.Request
import SpatialStore.Query.Plan
import SpatialStore.Query.ResultSet
import SpatialStore.Join.Optimizer
import SpatialStore.Proofs.Double.Order
import SpatialStore.Proofs.Double.Arithmetic
import SpatialStore.Proofs.Geometry.Hull
import SpatialStore.Proofs.Index.RTree.Node
import SpatialStore.Proofs.Index.RTree.Map
import SpatialStore.Proofs.Index.Entries
import SpatialStore.Proofs.Index.Registry
import SpatialStore.Proofs.Schema.Names
import SpatialStore.Proofs.Editing.WorkingCopy
import SpatialStore.Proofs.Editing.Edit
import SpatialStore.Proofs.Editing.Equality
import SpatialStore.Proofs.Editing.Workspace
import SpatialStore.Proofs.Editing.Session
import SpatialStore.Proofs.Editing.Commit
import SpatialStore.Proofs.Query.Names
import SpatialStore.Proofs.Query.Arrangement
import SpatialStore.Proofs.Query.KeptColumns
import SpatialStore.Proofs.Query.Execution
import SpatialStore.Proofs.Index.Lookup
import SpatialStore.Proofs.Query.Lookup
import SpatialStore.Proofs.Join.Candidates
import SpatialStore.Proofs.Join.Order
import SpatialStore.Proofs.Join.Optimality
import SpatialStore.Proofs.Query.Scans
import SpatialStore.Proofs.Join.Tree
import SpatialStore.Proofs.Join.Optimizer
import SpatialStore.Proofs.Editing.Published
import SpatialStore.Proofs.Editing.Reconciliation
import SpatialStore.Proofs.Index.RTree.Removal
import SpatialStore.Proofs.Join.Faults
import SpatialStore.Proofs.Editing.Unindexed
import SpatialStore.Editing.InPlace
import SpatialStore.Proofs.Atomic
import SpatialStore.Proofs.Editing.InPlace
import SpatialStore.Proofs.Editing.Lifetime
import SpatialStore.Proofs.Editing.Atomicity
import SpatialStore.Proofs.Editing.Durability
import SpatialStore.Proofs.Index.RTree.Shape
import SpatialStore.Proofs.Editing.History
import SpatialStore.Proofs.Editing.Kinds
import SpatialStore.Proofs.Editing.WellFormed
import SpatialStore.Proofs.Join.LookupProduct
import SpatialStore.Proofs.Join.Registration
import SpatialStore.Proofs.Join.Discovery
import SpatialStore.Proofs.Join.Chosen
import SpatialStore.Proofs.Join.Conservation
import SpatialStore.Proofs.Editing.Numbering
import SpatialStore.Proofs.Editing.Identity
import SpatialStore.Proofs.Double.Products
import SpatialStore.Proofs.Double.Rounding
import SpatialStore.Proofs.Join.Exhaustive
import SpatialStore.Proofs.Join.Repeated
import SpatialStore.Proofs.Join.Idempotence
import SpatialStore.Proofs.Join.FilteredProduct
import SpatialStore.Proofs.Editing.Regular
import SpatialStore.Proofs.Editing.SpatialReads
import SpatialStore.Index.InPlace
import SpatialStore.Proofs.Index.Keys
import SpatialStore.Proofs.Index.Building
import SpatialStore.Proofs.Query.StaticLayout
import SpatialStore.Proofs.Query.ProductTree
import SpatialStore.Proofs.Editing.Admission
import SpatialStore.Proofs.Query.Comparison
import SpatialStore.Proofs.Geometry.Segments
