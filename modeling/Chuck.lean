import Chuck.TimerCancellation
import Chuck.RedisParserBounds
import Chuck.RedisReplyRouting
import Chuck.RedisExecute
import Chuck.StreamTeardown
import Chuck.StreamWriteInterest
import Chuck.EventLoopKqueue
import Chuck.PacketRoundTrip
import Chuck.PacketTableRoundTrip
import Chuck.PromiseSocketRuns
import Chuck.CoroutineQueueRuns
import Chuck.RpcCalls
import Chuck.EventLoopClosures
import Chuck.PromiseFirstCall
import Chuck.PromiseContinuations
import Chuck.PromiseAll
import Chuck.RedisCommandFormat
import Chuck.ByteBufferRewrite
import Chuck.RedisLuaReplies
import Chuck.ByteBufferOverChunks
import Chuck.ObjPool
import Chuck.RedisDestroy
import Chuck.StreamDelayedClose
import Chuck.TimerWheelWrap
import Chuck.EventHandlers
import Chuck.FifoCalls
import Chuck.Bitsets
import Chuck.ByteBufferCopies
