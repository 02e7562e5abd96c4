import BusSchema.Files.Mount
import BusSchema.Layout.Nodes
import BusSchema.Main
import BusSchema.Wire.Bits.View
import BusSchema.Proofs.Wire.Buffer
import BusSchema.Proofs.Wire.Stream
import BusSchema.Proofs.Reassembly.History
import BusSchema.Proofs.Reassembly.Invariant
import BusSchema.Proofs.Payload.Names
import BusSchema.Proofs.Payload.Reading
import BusSchema.Proofs.Payload.Writing
import BusSchema.Proofs.Payload.RoundTrip
import BusSchema.Proofs.Payload.Agreement
import BusSchema.Proofs.Payload.Canonical
import BusSchema.Proofs.Schema.Elaboration
import BusSchema.Proofs.Schema.Sizes
import BusSchema.Proofs.Layout.Capacity
import BusSchema.Proofs.Transfer.Addressing
import BusSchema.Proofs.Transfer.Codec
import BusSchema.Proofs.Transfer.Delivery
import BusSchema.Proofs.Transfer.Loopback
import BusSchema.Proofs.Reassembly.Senders
import BusSchema.Proofs.Schema.Notation
import BusSchema.Proofs.Schema.Valid
import BusSchema.Proofs.Schema.Session
import BusSchema.Proofs.Schema.WellFormed
import BusSchema.Proofs.Layout.Lengths
import BusSchema.Proofs.Layout.Keys
import BusSchema.Proofs.Layout.Collisions
import BusSchema.Proofs.Number.Rounding
import BusSchema.Proofs.Number.WholeOrder
import BusSchema.Proofs.Files.Order
import BusSchema.Proofs.Files.Walk
import BusSchema.Proofs.Schema.Constants
import BusSchema.Proofs.Schema.Coverage
import BusSchema.Proofs.Schema.Origin
import BusSchema.Proofs.Schema.Overflow
import BusSchema.Proofs.Schema.Placement
import BusSchema.Proofs.Schema.Unions
import BusSchema.Proofs.Schema.Recursion
import BusSchema.Proofs.Transfer.Routing
import BusSchema.Proofs.Layout.Counts
import BusSchema.Proofs.Layout.Addition
import BusSchema.Proofs.Layout.Bounds
import BusSchema.Proofs.Layout.Index
import BusSchema.Proofs.Transfer.Session
import BusSchema.Proofs.Transfer.Unknown
import BusSchema.Proofs.Transfer.Containment
import BusSchema.Proofs.Payload.Walk
import BusSchema.Proofs.Payload.Dependence
import BusSchema.Proofs.Payload.Refusals
import BusSchema.Proofs.Number.Units
import BusSchema.Proofs.Number.Exact
import BusSchema.Proofs.Wire.Integers
import BusSchema.Proofs.Number.Widening
import BusSchema.Proofs.Schema.IntegerLiterals
import BusSchema.Proofs.Schema.Resolution
import BusSchema.Proofs.Schema.SoleAttribute
import BusSchema.Proofs.Text.Hex
import BusSchema.Proofs.Layout.CountWidth
import BusSchema.Proofs.Schema.CharacterLiterals
import BusSchema.Proofs.Schema.Comments
