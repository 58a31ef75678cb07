import TaggedWire.Encoder.Session
import TaggedWire.Layout
import TaggedWire.Message
import TaggedWire.Proofs.Inside
import TaggedWire.Proofs.Parts
import TaggedWire.Tag
import TaggedWire.Typed.Datum
import TaggedWire.Typed.Typing
import TaggedWire.Value.Rebuild
import TaggedWire.Value.Sorted
import TaggedWire.Value.Steps
import TaggedWire.Value.Subvalues
import TaggedWire.Value.Table
import TaggedWire.Proofs.Refinement
import TaggedWire.Proofs.Base128
import TaggedWire.Proofs.Delimiting
import TaggedWire.Proofs.Opening
import TaggedWire.Proofs.Grammar
import TaggedWire.Proofs.Schemaless
import TaggedWire.Proofs.Shaped
import TaggedWire.Proofs.KeyOrder
import TaggedWire.Proofs.Recovery
import TaggedWire.Proofs.Sizes
import TaggedWire.Proofs.Verdict
import TaggedWire.Proofs.Depth
import TaggedWire.Proofs.Limit
import TaggedWire.Proofs.Appending
import TaggedWire.Proofs.Session
import TaggedWire.Proofs.Sorting
import TaggedWire.Proofs.Alike
import TaggedWire.Proofs.SortDeep
import TaggedWire.Proofs.Insertion
import TaggedWire.Proofs.Canonical
import TaggedWire.Base128.Calls
import TaggedWire.Proofs.Gather
import TaggedWire.Proofs.Lengths
import TaggedWire.Proofs.Acceptance
import TaggedWire.Proofs.RoundTrip
import TaggedWire.Proofs.Untagged
import TaggedWire.Proofs.Puts
import TaggedWire.Proofs.Framing
import TaggedWire.Proofs.Uniform
import TaggedWire.Proofs.CutOff
import TaggedWire.Proofs.Flattening
import TaggedWire.Proofs.Overhead
import TaggedWire.Proofs.Hopping
import TaggedWire.Proofs.Interchange
import TaggedWire.Proofs.Equality
import TaggedWire.Proofs.Causes
import TaggedWire.Proofs.Kinds
import TaggedWire.Proofs.Distinct
import TaggedWire.Buffers.Moves
import TaggedWire.Proofs.Nesting
import TaggedWire.Proofs.Presorted
import TaggedWire.Proofs.Replacement
import TaggedWire.Proofs.Text
