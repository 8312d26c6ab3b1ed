import PruBridge.AtomicProgram
import PruBridge.Interleaving
import PruBridge.CircularBuffer
import PruBridge.ControlBlock
import PruBridge.Driver
import PruBridge.Firmware
import PruBridge.MachineWords
import PruBridge.Initialisation
import PruBridge.RingRefinement
import PruBridge.Operations
import PruBridge.Tracking
import PruBridge.Streaming
import PruBridge.Overflow
import PruBridge.FlowControl
import PruBridge.RoundTrip
import PruBridge.Sysfs
import PruBridge.ChannelIdentity
import PruBridge.Bounds
import PruBridge.Library
import PruBridge.ZeroDivision
import PruBridge.Publication
import PruBridge.Parties
import PruBridge.RaceSafety
import PruBridge.LostUpdate
import PruBridge.BulkTransfer
import PruBridge.SizeText
import PruBridge.Stdio
import PruBridge.Acknowledge
import PruBridge.NoData
import PruBridge.TextBuffers
import PruBridge.Validation
import PruBridge.EventRuns
import PruBridge.Lifecycle
import PruBridge.MaximalRuns
import PruBridge.InitText
import PruBridge.Extraction
import PruBridge.PythonWrite
import PruBridge.Payload
import PruBridge.FirmwareCounter
import PruBridge.Flush
import PruBridge.Simulation
import PruBridge.PointerDriver
import PruBridge.PointerAgreement
import PruBridge.BulkText
import PruBridge.PointerText
import PruBridge.Tape
import PruBridge.RunHistory
import PruBridge.Projection
import PruBridge.Independence
import PruBridge.Device
import PruBridge.ByteMemory
import PruBridge.SharedMemory
import PruBridge.Delivery
import PruBridge.DeliveryCalls
import PruBridge.InOrder
import PruBridge.StreamRounds
import PruBridge.StreamProgram
import PruBridge.StreamDelivery
import PruBridge.TimeProgram
import PruBridge.LibraryClient
import PruBridge.Fairness
import PruBridge.StreamLiveness
