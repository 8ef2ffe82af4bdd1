import Zupt.Paths
import Zupt.Authentication
import Zupt.Publication
import Zupt.ExtractParallel
import Zupt.SlotPool.Safe
import Zupt.CompressParallel
import Zupt.TestExtract
import Zupt.Restore
import Zupt.Probing
import Zupt.Dedup
import Zupt.VaptVupt.Consumption
import Zupt.VaptVupt.Parallel
import Zupt.WorkerDecode
import Zupt.Sdk
import Zupt.VaptVupt.SelfCheck
import Zupt.VaptVupt.ParserSound
import Zupt.VaptVupt.Encoder
import Zupt.VaptVupt.CStreamAtomic
import Zupt.VaptVupt.Compaction
import Zupt.VaptVupt.OptimalParser
import Zupt.SelfWait
import Zupt.VaptVupt.BcjArm
import Zupt.VaptVupt.HuffmanKraft
import Zupt.VaptVupt.Normalize
import Zupt.LzRoundTrip
import Zupt.EncoderFailures
import Zupt.IndexExact
import Zupt.TrailerExact
import Zupt.LegacyAadMap
import Zupt.Containment
import Zupt.Mlkem.Kem
import Zupt.X25519.Ladder
import Zupt.LzhBounds
import Zupt.Terminal
import Zupt.VaptVupt.AnsTiling
import Zupt.LzhComplete
import Zupt.VaptVupt.Stripping
import Zupt.VaptVupt.CopyExact
import Zupt.Hmac
import Zupt.Keccak
import Zupt.VaptVupt.OptimalSound
import Zupt.VaptVupt.AnsContext
import Zupt.VaptVupt.SequencesRoundTrip
import Zupt.VaptVupt.StreamReuse
import Zupt.VaptVupt.FastContext
