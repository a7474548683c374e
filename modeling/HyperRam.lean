import HyperRam.AddressMap
import HyperRam.BusTrace
import HyperRam.FlatMemory
import HyperRam.Isolation
import HyperRam.Progress
import HyperRam.RequestLoss
import HyperRam.WriteBack
import HyperRam.BusTiming
import HyperRam.ResetErase
import HyperRam.Latches
import HyperRam.ReadBurst
import HyperRam.Serial
import HyperRam.ReadLatency
import HyperRam.Recovery
import HyperRam.PhaseCounters
import HyperRam.WriteBurst
import HyperRam.DeviceWrites
import HyperRam.Memory.LineCache
import HyperRam.CachedMemory
import HyperRam.CacheTrace
import HyperRam.ServiceTime
import HyperRam.LineEcho
import HyperRam.RegisterRead
import HyperRam.RwdsPad
import HyperRam.ProbedTransfers
import HyperRam.ProbedReads
import HyperRam.Bootup
import HyperRam.Generated
