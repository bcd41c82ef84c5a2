import PineVoice.KvWritable
import PineVoice.BootSafety
import PineVoice.SliceImage
import PineVoice.FotaFinish
import PineVoice.FotaStream
import PineVoice.FlashAbPack
import PineVoice.ImageVerify
import PineVoice.PartitionLoad
import PineVoice.MtbFind
import PineVoice.PartitionRange
import PineVoice.IpcCall
import PineVoice.IpcTimeout
import PineVoice.RingBufferFifo
import PineVoice.MringbufferFifo
import PineVoice.DhcpRelease
import PineVoice.VfsRegister
import PineVoice.VfsDup
import PineVoice.VfsLocks
import PineVoice.VfsRemoved
import PineVoice.Pcm
import PineVoice.ButtonPress
import PineVoice.Rpc
import PineVoice.EventDelay
import PineVoice.AlarmTable
import PineVoice.PthreadCond
import PineVoice.PosixTimer
import PineVoice.KvBounds
import PineVoice.KvReadOnly
import PineVoice.FlashNetio
import PineVoice.Netio
import PineVoice.KeyParser
import PineVoice.DnsServer
import PineVoice.DhcpStale
import PineVoice.AudioOutput
import PineVoice.PcmRead
import PineVoice.SndCapture
import PineVoice.RecordTask
import PineVoice.MicEvents
import PineVoice.AosHashMap
import PineVoice.CliLookup
import PineVoice.WifiProv
import PineVoice.Devices
import PineVoice.UriParse
