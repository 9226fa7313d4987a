import Libhp.Lib.CInt
import Libhp.Io.Uio
import Libhp.Io.Wr
import Libhp.Io.WrStream
import Libhp.Lib.Framing
import Libhp.Lib.Backlog
import Libhp.Io.Rd
import Libhp.Io.RdStream
import Libhp.Io.RdDrain
import Libhp.Lib.OrdMap
import Libhp.Lib.Memmove
import Libhp.Ev.Epoll
import Libhp.Ev.Poll
import Libhp.Ev.Registry
import Libhp.Io.IoT
import Libhp.Io.IoTSpec
import Libhp.Io.IoTSeg
import Libhp.Io.IoTCb
import Libhp.Io.IoTLog
import Libhp.Lib.Run
import Libhp.Ev.Loop
import Libhp.Ev.EpollRun
import Libhp.Ev.PollRun
import Libhp.Ev.Lifetime
import Libhp.Lib.ByteOrder
import Libhp.Msg.Pm
import Libhp.Msg.PmStream
import Libhp.Http.Http
import Libhp.Http.HttpServe
import Libhp.Pub.Redis
import Libhp.Pub.PubSub
import Libhp.Pub.Sub
import Libhp.Pub.SubLife
import Libhp.Pub.SubNet
import Libhp.Pub.Deliver
import Libhp.Iocp.Iocp
import Libhp.Lib.Ledger
import Libhp.Iocp.Steps
import Libhp.Lib.Slots
import Libhp.Iocp.Ids
import Libhp.Iocp.Progress
import Libhp.Iocp.Order
import Libhp.Iocp.Ownership
import Libhp.Lib.Replica
import Libhp.Iocp.PollTable
import Libhp.Lib.Search
import Libhp.Lib.Sweep
import Libhp.Ev.Callback
import Libhp.Ev.Batch
import Libhp.Ev.Pass
import Libhp.Lib.Related
import Libhp.Io.Relate
import Libhp.Io.SameConn
import Libhp.Io.Grown
import Libhp.Ev.Backends
import Libhp.Lib.Transaction
import Libhp.Str.Buf
import Libhp.Str.Printf
import Libhp.Db.Mysql
import Libhp.Json.Cjson
import Libhp.Mqtt.Mqtt
import Libhp.Iocp.Lookup
import Libhp.Iocp.ReadDone
import Libhp.Msg.PmLength
import Libhp.Msg.PmZ
import Libhp.Lib.Text
import Libhp.Http.HttpResp
import Libhp.Ev.AddAtomic
import Libhp.Ev.PollLive
import Libhp.Ev.Dispatch
import Libhp.Lib.Lex
import Libhp.Lib.Marks
import Libhp.Io.Fresh
import Libhp.Ev.PollSlots
import Libhp.Ev.NoneSkipped
import Libhp.Io.WrPlain
import Libhp.Io.WrBatch
import Libhp.Io.WrAgree
import Libhp.Io.WrCap
import Libhp.Db.Atomic
import Libhp.Db.Autocommit
import Libhp.Pub.Session
import Libhp.Pub.History
import Libhp.Str.Mem
import Libhp.Str.ModifyHeader
import Libhp.Str.ReadBounds
import Libhp.Str.Splice
import Libhp.Str.HeaderEdit
import Libhp.Str.Dump
import Libhp.Str.Vercmp
import Libhp.Str.Find
import Libhp.Ini.Ini
import Libhp.Str.Opt
import Libhp.Str.Err
import Libhp.Ev.Inotify
import Libhp.Json.Col
import Libhp.Json.Exists
import Libhp.Json.InList
import Libhp.Json.Printed
import Libhp.Ev.InotifyRead
import Libhp.Ev.Timerfd
import Libhp.Net.ReadA
import Libhp.Lib.Cells
import Libhp.Net.ReadvA
import Libhp.Msg.Zd
import Libhp.Iocp.Pass
import Libhp.Iocp.Find
import Libhp.Lib.Ring
import Libhp.Pub.Klist
import Libhp.Pub.KlistRun
import Libhp.Pub.KlistDrain
import Libhp.Pub.SubPtr
import Libhp.Pub.SubPtrRun
import Libhp.Str.Url
import Libhp.Http.UrlQuery
import Libhp.Str.Ll2string
import Libhp.Iocp.Sockets
import Libhp.Iocp.WsaPoll
import Libhp.Iocp.WsaAgree
import Libhp.Io.Peers
import Libhp.Msg.Zc
import Libhp.Net.Writen
import Libhp.Json.Range
import Libhp.Json.Cmdline
import Libhp.Lib.Replace
import Libhp.Str.StrReplace
import Libhp.Net.Subnet
import Libhp.Json.Check
