import Lz4.Decoder.InPlace
import Lz4.Decoder.Ring
import Lz4.Decoder.Destination
import Lz4.Decoder.Partial
import Lz4.Decoder.Builds
import Lz4.Encoder.Session
import Lz4.Encoder.DestSize
import Lz4.Frame.ContentSize
import Lz4.Frame.Favor
import Lz4.Frame.Progress
import Lz4.Kernel.Visits
import Lz4.Gpu.Plan
import Lz4.Hybrid.RoundTrip
import Lz4.Hybrid.Daemon
import Lz4.Programs.Unlisted
import Lz4.Programs.WriteRegister
import Lz4.Programs.Sparse
import Lz4.Programs.CompletionPort
import Lz4.Programs.Dictionary
