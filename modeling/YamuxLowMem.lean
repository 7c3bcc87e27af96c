import YamuxLowMem.HeadClosing
import YamuxLowMem.RemoteClosing
import YamuxLowMem.Credit
import YamuxLowMem.PairBytes
import YamuxLowMem.Outbound
import YamuxLowMem.InStep
import YamuxLowMem.Stranded
import YamuxLowMem.GracefulClose
import YamuxLowMem.OutboundMemory
import YamuxLowMem.InboundMemory
import YamuxLowMem.EndToEnd
import YamuxLowMem.Duplex
import YamuxLowMem.WriteErrors
import YamuxLowMem.StreamIds
import YamuxLowMem.RoundTrip
import YamuxLowMem.EndOfFile
import YamuxLowMem.FinPayload
import YamuxLowMem.WriterFifo
import YamuxLowMem.ReaderFifo
import YamuxLowMem.CanonicalHeader
import YamuxLowMem.DrainWrite
import YamuxLowMem.FrameSequence
import YamuxLowMem.WriteLevel
import YamuxLowMem.SendOverflow
import YamuxLowMem.PayloadFraming
import YamuxLowMem.DrainOrder
import YamuxLowMem.IdAllocation
import YamuxLowMem.AvailableLen
import YamuxLowMem.ViewBounds
import YamuxLowMem.InboundTurns
import YamuxLowMem.SessionFrames
import YamuxLowMem.Shutdown
import YamuxLowMem.StreamAccounts
import YamuxLowMem.Rest
import YamuxLowMem.WorldCredit
import YamuxLowMem.Delivery
import YamuxLowMem.Backpressure
import YamuxLowMem.Lib.Pipe
import YamuxLowMem.Lib.Refinement
import YamuxLowMem.Pipes
import YamuxLowMem.Agreement
import YamuxLowMem.Orphans
import YamuxLowMem.Lib.Fair
import YamuxLowMem.Willing
import YamuxLowMem.Traffic
import YamuxLowMem.Quiescence
