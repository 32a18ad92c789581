import CiotVlc.Foundations.Runs
import CiotVlc.Foundations.Blocks
import CiotVlc.Foundations.Bytes
import CiotVlc.Foundations.Checked
import CiotVlc.Foundations.BitPack
import CiotVlc.Foundations.LineCode
import CiotVlc.Foundations.Registers
import CiotVlc.Foundations.FrameRing
import CiotVlc.Foundations.SpillRing
import CiotVlc.Foundations.LinkedQueue
import CiotVlc.Foundations.SlidingWindow
import CiotVlc.Foundations.BlockCode
import CiotVlc.Foundations.SwapRemove
import CiotVlc.Foundations.LeastScan
import CiotVlc.Foundations.KeyEquation
import CiotVlc.Foundations.BerlekampMassey
import CiotVlc.Foundations.ShiftField
import CiotVlc.Foundations.RootCode
import CiotVlc.Codec.Control
import CiotVlc.Codec.ControlList
import CiotVlc.Codec.Tables
import CiotVlc.Codec.Generator
import CiotVlc.Codec.Encode
import CiotVlc.Codec.Init
import CiotVlc.Codec.Decode
import CiotVlc.Codec.Parity
import CiotVlc.Codec.Locator
import CiotVlc.Codec.ChienSearch
import CiotVlc.Codec.ErrorValues
import CiotVlc.Codec.Repairs
import CiotVlc.Codec.Undetected
import CiotVlc.Node.Packet
import CiotVlc.Node.Status
import CiotVlc.Node.Window
import CiotVlc.Node.ArrivalOrder
import CiotVlc.Node.FirstMissing
import CiotVlc.Report.Packet
import CiotVlc.Report.Format
import CiotVlc.Report.RoundTrip
import CiotVlc.Report.SendBuffer
import CiotVlc.Report.DecodeBounds
import CiotVlc.Gateway.PacketQueue
import CiotVlc.Gateway.State
import CiotVlc.Gateway.ReceiveReport
import CiotVlc.Gateway.Dispatch
import CiotVlc.Gateway.DispatchIndex
import CiotVlc.Gateway.RfPath
import CiotVlc.Gateway.RfCounters
import CiotVlc.Gateway.RfConservation
import CiotVlc.Gateway.Admission
import CiotVlc.Gateway.TokenBucket
import CiotVlc.Gateway.VlcPath
import CiotVlc.Gateway.PayloadOwnership
import CiotVlc.Gateway.AllThreads
import CiotVlc.Gateway.KeptPackets
import CiotVlc.Gateway.ParcelNumbers
import CiotVlc.Gateway.Acknowledged
import CiotVlc.Gateway.ReportInBounds
import CiotVlc.Gateway.Timeouts
import CiotVlc.Node.WrapAround
import CiotVlc.Kernel.Packet
import CiotVlc.Kernel.Transmit
import CiotVlc.Kernel.Receive
import CiotVlc.Node.ReceiveVlc
import CiotVlc.Kernel.Transparency
import CiotVlc.Kernel.Uncorrectable
import CiotVlc.Kernel.RsLibrary
import CiotVlc.Kernel.BufferPool
import CiotVlc.Kernel.BufferChains
import CiotVlc.Kernel.Unload
import CiotVlc.Kernel.BlockLayout
import CiotVlc.Links.SameContent
import CiotVlc.Links.NodeFrames
import CiotVlc.Links.PointerQueue
import CiotVlc.Links.QueueReports
import CiotVlc.Links.LinkQuality
import CiotVlc.VlcTx.QueueSize
import CiotVlc.Pru.RxPru
import CiotVlc.Pru.RxFrames
import CiotVlc.Pru.ReceiveRing
import CiotVlc.Pru.ReceiveRingSafe
import CiotVlc.Pru.TxPru
import CiotVlc.Pru.TxPhases
import CiotVlc.Pru.TxReachable
import CiotVlc.Pru.TxPending
import CiotVlc.Pru.WordFiller
import CiotVlc.Pru.RxDecode
import CiotVlc.Pru.BodyErrors
import CiotVlc.Pru.Loopback
import CiotVlc.Pru.DamagedFrames
import CiotVlc.Pru.FrameStream
import CiotVlc.Pru.TransmitRing
import CiotVlc.Pru.TransmitRingDrift
import CiotVlc.Pru.MixedSizes
import CiotVlc.Pru.PreambleWindow
import CiotVlc.Links.AirLink
import CiotVlc.Links.PacketStream
import CiotVlc.Links.AckLoop
import CiotVlc.Links.Acknowledgements
import CiotVlc.Links.InOrder
import CiotVlc.Gateway.Scheduler
import CiotVlc.Gateway.VlcCopies
import CiotVlc.Gateway.UniqueNumbers
import CiotVlc.Gateway.TargetMask
import CiotVlc.VlcTx.Forwarding
