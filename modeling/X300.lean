import X300.BinarySearch
import X300.BlockCount
import X300.ByteStuffing
import X300.CMemory
import X300.CStrings
import X300.CTokens
import X300.ChainedTable
import X300.CircleBuffer
import X300.CircleBufferFifo
import X300.DelimitedScan
import X300.FleetyFm
import X300.FleetyFmListener
import X300.FleetyKeys
import X300.FleetyKeysDevice
import X300.FleetyKeysProbe
import X300.FleetyKeysRuns
import X300.FleetyLeds
import X300.FleetyLocks
import X300.FleetySpider
import X300.FmConf
import X300.FmConfFile
import X300.FmConfLine
import X300.FmConfLoad
import X300.FmConfQuery
import X300.FmConfigure
import X300.FmHybridList
import X300.FmThresholds
import X300.GoodixTouch
import X300.IcnBridge
import X300.KernelText
import X300.LockedObject
import X300.OrderedLocks
import X300.PackedFields
import X300.RingView
import X300.RunPrefixes
import X300.ScorpionAllocation
import X300.ScorpionAyalyze
import X300.ScorpionCodec
import X300.ScorpionDecoder
import X300.ScorpionDispatch
import X300.ScorpionEncoder
import X300.ScorpionFrames
import X300.ScorpionHandlers
import X300.ScorpionNoise
import X300.ScorpionPayload
import X300.ScorpionRelay
import X300.ScorpionRoundTrip
import X300.ScorpionSegments
import X300.ScorpionSendThread
import X300.ScorpionShell
import X300.ScorpionSocket
import X300.ScorpionStacks
import X300.ScorpionUart
import X300.ScorpionUartSend
import X300.ScorpionWatchdog
import X300.SpiderService
import X300.SuAgentRequest
import X300.SuAgentServer
import X300.SysfsText
