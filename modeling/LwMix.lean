import LwMix.Base.CString
import LwMix.Base.Cut
import LwMix.Base.Disk
import LwMix.Base.Document
import LwMix.Base.Heap
import LwMix.Base.Lines
import LwMix.Base.Lts
import LwMix.Base.Network
import LwMix.Base.Numeral
import LwMix.Base.Seg
import LwMix.Base.Strtol
import LwMix.Base.Sockets
import LwMix.Base.Tokens
import LwMix.Types
import LwMix.Player.Ops
import LwMix.Player.Chain
import LwMix.Player.Walk
import LwMix.Player.Runs
import LwMix.Player.Tail
import LwMix.Player.Remove
import LwMix.Player.Blocks
import LwMix.Server.Loop
import LwMix.Server.Runs
import LwMix.Server.Roster
import LwMix.Server.Players
import LwMix.Server.Scan
import LwMix.Server.Relay
import LwMix.Server.Blocks
import LwMix.Server.CheckIn
import LwMix.Master.CheckIn
import LwMix.Master.Exchange
import LwMix.Master.Text
import LwMix.Info.Datagram
import LwMix.Info.ListReply
import LwMix.Info.ListCursor
import LwMix.Info.Reply
import LwMix.Info.Request
import LwMix.Info.Provider
import LwMix.Info.Network
import LwMix.LwMaster.Info
import LwMix.LwMaster.CheckIn
import LwMix.LwMaster.Timer
import LwMix.LwMaster.Network
import LwMix.LwMaster.Exchange
import LwMix.Config.Load
import LwMix.MinIni.Quote
import LwMix.MinIni.Entry
import LwMix.MinIni.Read
import LwMix.MinIni.Browse
import LwMix.MinIni.Cache
import LwMix.MinIni.Puts
import LwMix.MinIni.Store
import LwMix.MinIni.Files
import LwMix.MinIni.Calls
import LwMix.MinIni.Runs
import LwMix.MinIni.Long2str
import LwMix.Config.File
import LwMix.LwMaster.Config
import LwMix.Net.CreateSocket
import LwMix.Process.Threads
import LwMix.Process.Ownership
import LwMix.Process.Loop
import LwMix.Process.Held
