import TickCircuit.Main
import TickCircuit.Proofs.Port.Links
import TickCircuit.Proofs.Port.Shape
import TickCircuit.Proofs.Port.Resolve
import TickCircuit.Proofs.Circuit.Ports
import TickCircuit.Proofs.Circuit.Link
import TickCircuit.Proofs.Circuit.Wiring
import TickCircuit.Proofs.Port.Signal
import TickCircuit.Proofs.Gate.Connect
import TickCircuit.Proofs.Gate.Rollback
import TickCircuit.Proofs.Gate.Synchrony
import TickCircuit.Proofs.Gate.Boundary
import TickCircuit.Proofs.Interface.Merge
import TickCircuit.Proofs.Port.Types
import TickCircuit.Proofs.Gate.Build
import TickCircuit.Proofs.Gate.LinkType
import TickCircuit.Proofs.Description.LinkText
import TickCircuit.Proofs.Gate.Alike
import TickCircuit.Proofs.Gate.Running
import TickCircuit.Proofs.Gate.Describe
import TickCircuit.Proofs.Gate.RoundTrip
import TickCircuit.Proofs.Gate.Influence
import TickCircuit.Proofs.Interface.Accepts
import TickCircuit.Proofs.Gate.Stable
import TickCircuit.Proofs.Gate.Typing
import TickCircuit.Proofs.Gate.Snapshot
import TickCircuit.Proofs.Port.Occupancy
import TickCircuit.Proofs.Text.Split
import TickCircuit.Proofs.Text.Count
import TickCircuit.Proofs.Interface.Rendering
import TickCircuit.Proofs.Grammar.RoundTrip
import TickCircuit.Proofs.Registry.RoundTrip
import TickCircuit.Proofs.Value.Labels
import TickCircuit.Proofs.Gate.Spelling
import TickCircuit.Proofs.Gate.Driven
import TickCircuit.Proofs.Gate.Saving
import TickCircuit.Proofs.Gate.Expansion
import TickCircuit.Proofs.Port.Mirror
import TickCircuit.Proofs.Gate.Pipeline
import TickCircuit.Proofs.Gate.Settling
import TickCircuit.Proofs.Port.DryRun
import TickCircuit.Proofs.Port.Retyping
import TickCircuit.Proofs.Gate.Host
import TickCircuit.Proofs.Gate.AtRest
import TickCircuit.Proofs.Port.Delivery
import TickCircuit.Proofs.Port.Reading
import TickCircuit.Proofs.Gate.Removal
import TickCircuit.Proofs.Gate.Addition
import TickCircuit.Proofs.Gate.Selection
import TickCircuit.Proofs.Gate.FreshBoundary
import TickCircuit.Proofs.Gate.Mergeable
import TickCircuit.Proofs.Interface.Extent
import TickCircuit.Proofs.Gate.Ring
import TickCircuit.Proofs.Interface.Admission
import TickCircuit.Proofs.Transform.Logic
import TickCircuit.Proofs.Grammar.NodeCount
