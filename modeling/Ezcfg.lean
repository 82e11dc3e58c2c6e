import Ezcfg.Foundation.Runs
import Ezcfg.Context.SetEntries
import Ezcfg.RamNvram.Accounting
import Ezcfg.MetaNvram.Layout
import Ezcfg.Context.MetaFill
import Ezcfg.Json.Acceptance
import Ezcfg.Json.ChildText
import Ezcfg.Json.RoundTrip
import Ezcfg.Http.Authorization
import Ezcfg.Http.ChunkDecoding
import Ezcfg.Http.HeaderEnd
import Ezcfg.Http.RoundTrip
import Ezcfg.Agent.WorkerPool
import Ezcfg.Shm.MarketQueue
import Ezcfg.Firmware.Parts
import Ezcfg.Ubootenv.Setting
import Ezcfg.Foundation.Worklist
import Ezcfg.Ssdp.Coverage
import Ezcfg.Foundation.Forest
import Ezcfg.XmlTree.Writing
import Ezcfg.MetaNvram.ReadBack
import Ezcfg.RamNvram.Matching
import Ezcfg.Json.Recognition
import Ezcfg.Json.Cursor
import Ezcfg.Lists.NvList
import Ezcfg.BinaryTree.Reset
import Ezcfg.NvPairs.Filling
import Ezcfg.Http.Truncation
import Ezcfg.Http.ContentLength
import Ezcfg.Http.PostData
import Ezcfg.Util.Base64Encoding
import Ezcfg.Util.Base64Acceptance
import Ezcfg.Util.Sha1Digest
import Ezcfg.Util.Crc32Division
import Ezcfg.Util.Adler32
import Ezcfg.Util.UrlPaths
import Ezcfg.Util.UrlDecoding
import Ezcfg.Util.ParseArgs
import Ezcfg.Util.JavascriptVarEscaped
import Ezcfg.Context.Lookups
import Ezcfg.Context.Answering
import Ezcfg.Util.Conf
import Ezcfg.Socket.Sending
import Ezcfg.Firmware.RawWriting
import Ezcfg.Ubootenv.Listing
import Ezcfg.XmlTree.Search
import Ezcfg.XmlTree.Lengths
import Ezcfg.XmlTree.Returning
import Ezcfg.XmlTree.RoundTrip
import Ezcfg.Socket.Created
import Ezcfg.Socket.SocketList
import Ezcfg.Uuid.TimeFields
import Ezcfg.Daemon.ModuleOrder
import Ezcfg.Html.Sections
import Ezcfg.Html.PageWriters
import Ezcfg.Upnp.Reading
import Ezcfg.Ssi.Collecting
import Ezcfg.Api.NvramChange
import Ezcfg.Namespaces.Listed
import Ezcfg.Runtime.References
