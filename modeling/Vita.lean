import Vita.Codec.Bounds
import Vita.Codec.Indicators
import Vita.Codec.Layout
import Vita.Codec.Packet
import Vita.Codec.PacketTheorems
import Vita.Codec.Scalar
import Vita.Codec.Structured
import Vita.Codec.StructuredTheorems
import Vita.Codec.Tiling
import Vita.Codec.WireTheorems
import Vita.Common.Feeding
import Vita.Common.FirstFit
import Vita.Common.Timeline
import Vita.Common.Trace
import Vita.Context.Publisher
import Vita.Context.PublisherMoves
import Vita.Context.PublisherTheorems
import Vita.Context.Receiver
import Vita.Context.ReceiverTheorems
import Vita.Context.RevisionTheorems
import Vita.Fields.Packet
import Vita.Fields.Structured
import Vita.Transaction.Invariants
import Vita.Transaction.Lane
import Vita.Transaction.Moves
import Vita.Transaction.Operations
import Vita.Transaction.Outcomes
import Vita.Transaction.PlanTheorems
import Vita.Transaction.Results
import Vita.Transaction.Retention
import Vita.Transaction.RetentionTheorems
import Vita.Transaction.Turns
import Vita.Transaction.Blocking
import Vita.Transaction.Calls
import Vita.Transport.StreamFramer
import Vita.Completion.Lifecycle
import Vita.Completion.Ticket
import Vita.Completion.TicketTheorems
import Vita.Codec.Prologue
import Vita.Transport.Framing
import Vita.Transaction.Observer
import Vita.Transaction.ObserverTheorems
import Vita.Transaction.Controller
import Vita.Transaction.ControllerTheorems
import Vita.Transaction.Retransmission
import Vita.Transaction.Windows
import Vita.Transaction.Ports
import Vita.Transaction.Tickets
import Vita.Transaction.Cancellation
import Vita.Transaction.Events
import Vita.Timing.SampleTimeline
import Vita.Timing.Clock
import Vita.Timing.Choice
import Vita.Common.Slots
import Vita.Transport.Submission
import Vita.Transport.Routing
import Vita.Transport.RoutingTheorems
import Vita.Transport.Host
import Vita.Transport.Loopback
import Vita.Transport.Udp
import Vita.Transport.Binding
import Vita.Transport.UdpTheorems
import Vita.Transport.ContextOrder
import Vita.Transport.LoopbackTheorems
import Vita.Transport.Delivery
import Vita.Transport.Ingress
import Vita.Transport.Dispatch
import Vita.Runtime.Send
import Vita.Transport.Counting
import Vita.Runtime.SendTheorems
import Vita.Common.BitField
import Vita.Codec.GeneralSamples
import Vita.Codec.PackedTheorems
import Vita.Common.UnitRounding
import Vita.Codec.NumericSamples
import Vita.Common.Word64
import Vita.Codec.NumericTheorems
import Vita.Codec.NumericRounding
import Vita.Codec.IeeeSamples
import Vita.Codec.IeeeTheorems
import Vita.Codec.IeeeConversion
import Vita.Codec.SampleDescriptors
import Vita.Codec.SegmentedTheorems
import Vita.Codec.Extents
import Vita.Codec.Output
import Vita.Codec.OutputTheorems
import Vita.Codec.DiagnosticTheorems
import Vita.Context.RevisionSlots
import Vita.Context.RevisionRuns
import Vita.Common.DependencyOrder
import Vita.Transaction.PlanOrder
import Vita.Common.Ownership
import Vita.Memory.LeaseTheorems
import Vita.Transaction.Acknowledgements
import Vita.Context.ReceiverData
import Vita.Context.ReceiverDataTheorems
import Vita.Common.Bisection
import Vita.Profiles.RfScene
import Vita.Profiles.RfSceneTheorems
import Vita.Profiles.Sweep
import Vita.Profiles.SweepTheorems
import Vita.Timing.CatchUp
import Vita.Transaction.ObserverHistory
import Vita.Codec.ArrayCif
import Vita.Codec.ArrayCifTheorems
import Vita.Transaction.Radio
import Vita.Transaction.Simulation
import Vita.Runtime.Association
import Vita.Runtime.AssociationTheorems
import Vita.Runtime.Boundaries
import Vita.Runtime.BoundaryTheorems
import Vita.Runtime.Observers
import Vita.Runtime.ObserversTheorems
import Vita.Transaction.Manager
import Vita.Transaction.ManagerIds
