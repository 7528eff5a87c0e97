import ObjectModel.Machine
import ObjectModel.Proofs.Memory.Frame
import ObjectModel.Proofs.Registry.Bisimulation
import ObjectModel.Proofs.Layout.Admission
import ObjectModel.Proofs.Layout.Agreement
import ObjectModel.Proofs.Layout.Faults
import ObjectModel.Proofs.Layout.Inheritance
import ObjectModel.Proofs.Memory.Blocks
import ObjectModel.Proofs.Registry.Built
import ObjectModel.Proofs.Layout.Placement
import ObjectModel.Proofs.Layout.Padding
import ObjectModel.Proofs.Value.Typing
import ObjectModel.Proofs.Value.Shape
import ObjectModel.Proofs.Value.Frame
import ObjectModel.Proofs.Value.Separation
import ObjectModel.Proofs.Value.NewValue
import ObjectModel.Proofs.Value.Triple
import ObjectModel.Proofs.Value.Paths
import ObjectModel.Proofs.Value.Creation
import ObjectModel.Proofs.Value.Compound
import ObjectModel.Proofs.Value.Views
import ObjectModel.Proofs.Value.Casts
import ObjectModel.Proofs.Value.Rework
import ObjectModel.Proofs.Value.Refresh
import ObjectModel.Proofs.Value.OpenFields
import ObjectModel.Proofs.Value.OpenUpdate
import ObjectModel.Proofs.Value.OpenWrites
import ObjectModel.Proofs.Value.Lookup
import ObjectModel.Proofs.Value.Access
import ObjectModel.Proofs.Value.Reachable
import ObjectModel.Proofs.Value.Places
import ObjectModel.Proofs.Value.Reads
import ObjectModel.Proofs.Value.OpenRuns
import ObjectModel.Proofs.Value.Chains
import ObjectModel.Proofs.Value.Transparency
import ObjectModel.Proofs.Signature.RoundTrip
import ObjectModel.Proofs.Registry.Building
import ObjectModel.Proofs.Registry.Cycles
import ObjectModel.Proofs.Value.Receivers
import ObjectModel.Proofs.Value.Conversions
import ObjectModel.Proofs.Value.FieldWrites
import ObjectModel.Proofs.Registry.Subclasses
import ObjectModel.Proofs.Layout.MethodTypes
import ObjectModel.Proofs.Layout.Overriding
import ObjectModel.Proofs.Layout.Resolution
import ObjectModel.Proofs.Layout.HashedReferences
import ObjectModel.Proofs.Value.Forwarding
import ObjectModel.Proofs.Value.Termination
import ObjectModel.Proofs.Value.Identity
import ObjectModel.Proofs.Value.InstanceViews
import ObjectModel.Proofs.Value.Failures
import ObjectModel.Proofs.Value.InStep
import ObjectModel.Proofs.Value.ViewWrites
import ObjectModel.Proofs.Value.CallChecks
import ObjectModel.Proofs.Value.BoxRoom
import ObjectModel.Proofs.Value.Tracing
import ObjectModel.Proofs.Memory.Accounting
import ObjectModel.Proofs.Memory.SlotWrites
import ObjectModel.Proofs.Signature.Registration
import ObjectModel.Proofs.Registry.ClosureTypes
import ObjectModel.Proofs.Signature.Grammar
import ObjectModel.Proofs.Value.TakenBlocks
import ObjectModel.Proofs.Value.BoxedNumbers
import ObjectModel.Proofs.Value.Order
import ObjectModel.Proofs.Value.Comparators
import ObjectModel.Proofs.Value.Methods
import ObjectModel.Proofs.Value.RoundTrips
import ObjectModel.Proofs.Value.Immutables
import ObjectModel.Proofs.Value.Variants
import ObjectModel.Proofs.Name.Hash
import ObjectModel.Proofs.Name.Table
import ObjectModel.Proofs.Value.Alignment
import ObjectModel.Proofs.Value.Arrays
