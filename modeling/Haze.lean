import Haze.Proto.ResponseSync
import Haze.Proto.EncoderAgreement
import Haze.Proto.RequestParams
import Haze.RawBufferRun
import Haze.Audio.SampleListRun
import Haze.Audio.SampleArray
import Haze.Audio.Tempo
import Haze.Fs.Paths
import Haze.Cpp.ResponseAgreement
import Haze.Cpp.ObjectVariantRun
import Haze.Server.ErrorConvention
import Haze.Server.ReadLoop
import Haze.Server.Chunking
import Haze.Server.Pipeline
import Haze.Server.Answers
import Haze.Server.Registry
import Haze.Server.Instances
import Haze.Hazectl.Orphan
import Haze.Hazectl.Delivery
import Haze.Hazectl.ProtoClient
import Haze.Collections.Ledger
import Haze.Server.Interleaving
import Haze.Audio.Channels
import Haze.Audio.Samples
import Haze.Session.Ownership
import Haze.Session.SessionRun
import Haze.Server.Memory
import Haze.Server.Shutdown
import Haze.Server.Middleware
import Haze.Cpp.ResponseRoundTrip
import Haze.Server.Replies
import Haze.Hazectl.Exchange
import Haze.Proto.NotificationMemory
import Haze.Proto.RequestMemory
import Haze.Collections.Slots
import Haze.ObjectMapHeap
import Haze.Cpp.ObjectPlaces
import Haze.Cpp.ObjectMethods
