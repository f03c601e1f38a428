import DocExpand.Engine.Expand
import DocExpand.Config.Reader
import DocExpand.Proofs.Directive
import DocExpand.Proofs.Json.Numerals
import DocExpand.Proofs.Json.Text
import DocExpand.Proofs.Locator.Store
import DocExpand.Proofs.Engine.Edits
import DocExpand.Proofs.Engine.Session
import DocExpand.Proofs.Engine.Order
import DocExpand.Proofs.Engine.Scanned
import DocExpand.Proofs.Engine.Evaluation
import DocExpand.Proofs.Engine.Partial
import DocExpand.Proofs.Engine.Applied
import DocExpand.Proofs.Json.Ordered
import DocExpand.Proofs.Engine.Turns
import DocExpand.Proofs.Engine.Pass
import DocExpand.Proofs.Engine.Paths
import DocExpand.Proofs.Engine.Resolved
import DocExpand.Proofs.Engine.Ties
import DocExpand.Proofs.Engine.Expansion
import DocExpand.Proofs.Engine.Failure
import DocExpand.Proofs.Engine.Fixpoint
import DocExpand.Proofs.Engine.Limit
import DocExpand.Proofs.Engine.Relocation
import DocExpand.Proofs.Engine.Spelling
import DocExpand.Proofs.Locator.Assign
import DocExpand.Proofs.Engine.Lockstep
import DocExpand.Proofs.Engine.Arms
import DocExpand.Proofs.Locator.Lenient
import DocExpand.Proofs.Engine.Depth
import DocExpand.Proofs.Engine.Stale
import DocExpand.Proofs.Engine.Peeling
import DocExpand.Proofs.Json.Exact
import DocExpand.Proofs.Json.Merge
import DocExpand.Proofs.Engine.Texts
import DocExpand.Proofs.Engine.Imported
import DocExpand.Proofs.Engine.Payload
import DocExpand.Proofs.Engine.Census
import DocExpand.Proofs.Engine.Frame
import DocExpand.Proofs.Engine.Choice
import DocExpand.Proofs.Locator.Pointer
import DocExpand.Proofs.Locator.Normal
import DocExpand.Proofs.Engine.Store
import DocExpand.Proofs.Engine.Encoded
import DocExpand.Proofs.Engine.Settling
import DocExpand.Proofs.Yaml.Conversion
import DocExpand.Proofs.Locator.Standard
