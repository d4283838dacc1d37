import Wavefront.Json.Types
import Wavefront.Layout.Channels
import Wavefront.Simulation
import Wavefront.Trace.Parting
import Wavefront.Proofs.Bank.Occupancy
import Wavefront.Proofs.Bank.Ports
import Wavefront.Proofs.Engine.Conservation
import Wavefront.Proofs.Engine.Orders
import Wavefront.Proofs.Engine.Phases
import Wavefront.Proofs.Engine.Queue
import Wavefront.Proofs.Engine.RedundantStarts
import Wavefront.Proofs.Engine.Reload
import Wavefront.Proofs.Json.ReadBack
import Wavefront.Proofs.Layout.Columns
import Wavefront.Proofs.Engine.Admission
import Wavefront.Proofs.Engine.Memory
import Wavefront.Proofs.Simulation
import Wavefront.Proofs.Store.Accounts
import Wavefront.Proofs.Store.Atomicity
import Wavefront.Proofs.Store.Bounds
import Wavefront.Proofs.Store.Isolation
import Wavefront.Proofs.Store.LogLines
import Wavefront.Proofs.Store.Replay
import Wavefront.Proofs.Store.Shadow
import Wavefront.Proofs.Store.Surfacing
import Wavefront.Proofs.Layout.Parts
import Wavefront.Proofs.Layout.IssueOrder
import Wavefront.Proofs.Diagonal
import Wavefront.Proofs.Trace.Parting
import Wavefront.Proofs.Sequencer.Resizing
