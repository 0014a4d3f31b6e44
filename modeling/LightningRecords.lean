import LightningRecords.Procedure.Htlc
import LightningRecords.Procedure.Walk
import LightningRecords.Store.Host
import LightningRecords.Proofs.Cbor.ReadBack
import LightningRecords.Proofs.OrderedMap
import LightningRecords.Proofs.Record.RoundTrip
import LightningRecords.Proofs.Cbor.Nesting
import LightningRecords.Proofs.Difference
import LightningRecords.Proofs.Store.Rows
import LightningRecords.Proofs.Clients.Chronicle
import LightningRecords.Proofs.Clients.Invariant
import LightningRecords.Proofs.Clients.Theorems
import LightningRecords.Proofs.Procedure.Retry
import LightningRecords.Proofs.Cbor.Limit
import LightningRecords.Proofs.Cbor.Length
import LightningRecords.Proofs.Record.Depth
import LightningRecords.Proofs.Record.Reread
import LightningRecords.Proofs.Procedure.Steady
import LightningRecords.Proofs.Procedure.Repeat
import LightningRecords.Proofs.Record.Pointwise
import LightningRecords.Proofs.Store.Room
import LightningRecords.Proofs.Store.Plain
import LightningRecords.Proofs.Store.Readable
import LightningRecords.Proofs.Store.Refinement
import LightningRecords.Proofs.Procedure.Behaves
import LightningRecords.Proofs.Clients.Behaved
import LightningRecords.Proofs.Clients.Mirror
import LightningRecords.Proofs.Clients.Channel
import LightningRecords.Proofs.Store.Window
import LightningRecords.Proofs.Procedure.Capacity
import LightningRecords.Proofs.Procedure.Frame
import LightningRecords.Proofs.Procedure.Walk
import LightningRecords.Proofs.Store.Slots
import LightningRecords.Proofs.Store.Vacant
import LightningRecords.Proofs.Hex
import LightningRecords.Proofs.Procedure.Subject
import LightningRecords.Proofs.Procedure.Spells
import LightningRecords.Proofs.Clients.Spelling
import LightningRecords.Proofs.Record.Convergence
import LightningRecords.Proofs.Procedure.History
import LightningRecords.Proofs.Procedure.HtlcHistory
import LightningRecords.Proofs.Procedure.Sightings
import LightningRecords.Proofs.Host.Moves
import LightningRecords.Proofs.Host.Steps
import LightningRecords.Proofs.Host.Sharing
import LightningRecords.Proofs.Procedure.PolicyHistory
import LightningRecords.Proofs.Procedure.Budget
import LightningRecords.Proofs.Procedure.Unreported
import LightningRecords.Proofs.Clients.Policies
import LightningRecords.Proofs.Record.Torn
import LightningRecords.Proofs.Record.Shape
import LightningRecords.Proofs.Record.Apply
import LightningRecords.Proofs.Store.Narrowing
import LightningRecords.Proofs.Store.MapSize
import LightningRecords.Proofs.Record.Classes
