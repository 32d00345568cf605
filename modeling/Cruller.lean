import Cruller.Bake.Exclusive
import Cruller.Bake.Failures
import Cruller.Bake.InsertionOrder
import Cruller.Bake.SourceMapRefs
import Cruller.Bake.TraceOrder
import Cruller.Coverage.Consistency
import Cruller.Cron.EarliestMinute
import Cruller.Dotenv.Precedence
import Cruller.Dotenv.References
import Cruller.Glob.Termination
import Cruller.H2.Accounting
import Cruller.H2.Reader
import Cruller.H2.ReceiveWindow
import Cruller.H2.RequestBody
import Cruller.H2.SendWindow
import Cruller.HttpTypes.ETag
import Cruller.JsPrinter.PrintedLiterals
import Cruller.Jsc.CacheRoundTrip
import Cruller.Jsc.DamagedCache
import Cruller.Jsc.SendDelivery
import Cruller.NodePath.Relative
import Cruller.Paths.JoinAbs
import Cruller.Paths.ParentOrEqual
import Cruller.Resolver.DataUrlRoundTrip
import Cruller.Rt.Completion
import Cruller.Rt.HttpRoundTrip
import Cruller.Rt.Ownership
import Cruller.Rt.Resources
import Cruller.Rt.SsrPool
import Cruller.Semver.Order
import Cruller.SourceMap.FindCache
import Cruller.SourceMap.FromVlq
import Cruller.SourceMap.Join
import Cruller.Text.ByteOrderMark
import Cruller.Text.StreamRoundTrip
import Cruller.Threading.Lossless
import Cruller.Url.PercentEncode
import Cruller.Url.QueryMaps
import Cruller.Valkey.Segmentation
import Cruller.Valkey.Timers
import Cruller.Webcore.CloneRoundTrip
import Cruller.Ws.CloseFrame
import Cruller.Ws.CopyEncoder
import Cruller.Ws.SendOrder
