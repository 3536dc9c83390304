import QueryCompiler.Pipeline
import QueryCompiler.Scalar.Walk
import QueryCompiler.Proofs.Outcome
import QueryCompiler.Proofs.Scalar.RoundTrip
import QueryCompiler.Proofs.Selection.Merging
import QueryCompiler.Proofs.Selection.Expansion
import QueryCompiler.Proofs.Selection.Compiled
import QueryCompiler.Proofs.Selection.KeyTree
import QueryCompiler.Proofs.Selection.Directives
import QueryCompiler.Proofs.Selection.Fields
import QueryCompiler.Proofs.Selection.Trimming
import QueryCompiler.Proofs.Artifact.Reference
import QueryCompiler.Proofs.Artifact.Typename
import QueryCompiler.Proofs.Artifact.Sent
import QueryCompiler.Proofs.Artifact.Masking
import QueryCompiler.Proofs.Lists.Marks
import QueryCompiler.Proofs.Lists.Settled
import QueryCompiler.Proofs.Lists.Pass
import QueryCompiler.Proofs.Lists.Tagging
import QueryCompiler.Proofs.Lists.Documents
import QueryCompiler.Proofs.Lists.Verdict
import QueryCompiler.Proofs.Lists.Generated
import QueryCompiler.Proofs.Pagination.Marks
import QueryCompiler.Proofs.Connection
import QueryCompiler.Proofs.Pagination.Arguments
import QueryCompiler.Proofs.Pagination.Fields
import QueryCompiler.Proofs.Pagination.Documents
import QueryCompiler.Proofs.Pagination.Hoisting
import QueryCompiler.Proofs.Pagination.Declared
import QueryCompiler.Proofs.Pagination.OneField
import QueryCompiler.Proofs.Pagination.Agreement
import QueryCompiler.Proofs.Number.Numeral
import QueryCompiler.Proofs.Pagination.Restored
import QueryCompiler.Proofs.Selection.PageInfo
import QueryCompiler.Proofs.Pagination.PageInfo
import QueryCompiler.Proofs.Lists.PageInfo
import QueryCompiler.Proofs.PageInfo
import QueryCompiler.Proofs.Pagination.Strategyless
import QueryCompiler.Proofs.Selection.Masked
import QueryCompiler.Proofs.Trace
import QueryCompiler.Proofs.Refetch
import QueryCompiler.Proofs.Selection.OpenPaths
import QueryCompiler.Proofs.RefetchPath
import QueryCompiler.Proofs.Lists.Names
import QueryCompiler.Proofs.Lists.Visits
import QueryCompiler.Proofs.Lists.Logs
import QueryCompiler.Proofs.Lists.Steady
import QueryCompiler.Proofs.Lists.Rearranged
import QueryCompiler.Proofs.Artifact.Alike
import QueryCompiler.Proofs.Order
import QueryCompiler.Proofs.Selection.Levels
import QueryCompiler.Proofs.Operations
import QueryCompiler.Proofs.Selection.Laws
import QueryCompiler.Proofs.Selection.Pieces
import QueryCompiler.Proofs.Selection.Still
import QueryCompiler.Proofs.Selection.Respread
import QueryCompiler.Proofs.Selection.Behind
import QueryCompiler.Proofs.Selection.Anywhere
import QueryCompiler.Proofs.Repeated
import QueryCompiler.Proofs.CacheKeys
import QueryCompiler.Proofs.Scalar.Response
import QueryCompiler.Proofs.Scalar.Defaults
import QueryCompiler.Proofs.Input.Descriptor
import QueryCompiler.Proofs.Scalar.Variables
import QueryCompiler.Proofs.Artifact.Abstract
import QueryCompiler.Proofs.Lists.Namings
import QueryCompiler.Proofs.Lists.Permuted
import QueryCompiler.Proofs.Lists.Identity
import QueryCompiler.Proofs.Lists.ReadBack
import QueryCompiler.Proofs.Lists.Untagged
import QueryCompiler.Proofs.Shape
import QueryCompiler.Proofs.Selection.Missing
import QueryCompiler.Proofs.Lists.Members
import QueryCompiler.Proofs.Lists.Captured
import QueryCompiler.Proofs.Lists.Compiles
import QueryCompiler.Proofs.Selection.Failures
import QueryCompiler.Proofs.Artifact.Search
import QueryCompiler.Proofs.Selection.Persisted
import QueryCompiler.Proofs.Selection.Concatenation
import QueryCompiler.Proofs.Circles
import QueryCompiler.Proofs.Input.Reached
import QueryCompiler.Proofs.Artifact.Scrubbed
import QueryCompiler.Proofs.Selection.Filters
import QueryCompiler.Proofs.Pagination.Choice
import QueryCompiler.Proofs.Lists.Classified
import QueryCompiler.Proofs.Selection.Placement
import QueryCompiler.Proofs.Language.Strings
import QueryCompiler.Proofs.Parsing
import QueryCompiler.Proofs.Language.Readable
import QueryCompiler.Proofs.Language.Tokens
import QueryCompiler.Proofs.Language.Parsed
import QueryCompiler.Proofs.CanonicalKeys
import QueryCompiler.Proofs.Scalar.Paths
import QueryCompiler.Proofs.Scalar.Replaced
import QueryCompiler.Proofs.Scalar.Lacking
import QueryCompiler.Proofs.Artifact.Resolved
