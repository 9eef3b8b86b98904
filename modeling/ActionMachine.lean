import ActionMachine.Descent
import ActionMachine.Exec.Block
import ActionMachine.Native.Catalogue
import ActionMachine.Value.Equality
import ActionMachine.Proofs.Ends
import ActionMachine.Proofs.Methods
import ActionMachine.Proofs.Dispatch
import ActionMachine.Proofs.Wraparound
import ActionMachine.Proofs.Slots
import ActionMachine.Proofs.SlotList
import ActionMachine.Proofs.Operands
import ActionMachine.Proofs.Tree
import ActionMachine.Proofs.Steps
import ActionMachine.Proofs.Holding
import ActionMachine.Proofs.Calls
import ActionMachine.Proofs.FrameStorage
import ActionMachine.Proofs.Carrying
import ActionMachine.Proofs.Isolation
import ActionMachine.Proofs.Restoration
import ActionMachine.Proofs.Permanence
import ActionMachine.Proofs.Safety
import ActionMachine.Proofs.Atomicity
import ActionMachine.Proofs.TreeOperations
import ActionMachine.Proofs.History
import ActionMachine.Proofs.ReturnSlot
import ActionMachine.Proofs.SoundHistory
import ActionMachine.Proofs.Resolution
import ActionMachine.Proofs.UndefinedScope
import ActionMachine.Proofs.Invariants
import ActionMachine.Proofs.Constants
import ActionMachine.Proofs.Templates
import ActionMachine.Proofs.ClassNumbers
import ActionMachine.Proofs.Instances
import ActionMachine.Proofs.Walks
import ActionMachine.Proofs.Aliasing
import ActionMachine.Proofs.Flatness
import ActionMachine.Proofs.Printing
import ActionMachine.Proofs.Termination
import ActionMachine.Proofs.Tolerance
import ActionMachine.Proofs.Foreign
import ActionMachine.Proofs.Views
import ActionMachine.Proofs.Pushing
import ActionMachine.Proofs.Mirroring
import ActionMachine.Proofs.Interchange
import ActionMachine.Proofs.Definitions
import ActionMachine.Proofs.Arguments
import ActionMachine.Proofs.Provenance
import ActionMachine.Proofs.Parameters
import ActionMachine.Proofs.Blocks
import ActionMachine.Proofs.Depth
import ActionMachine.Proofs.Reports
import ActionMachine.Proofs.Reopening
import ActionMachine.Proofs.Objects
import ActionMachine.Proofs.Assignment
import ActionMachine.Proofs.Equality
import ActionMachine.Proofs.Expansion
import ActionMachine.Proofs.FlatStore
import ActionMachine.Proofs.FirstMatch
