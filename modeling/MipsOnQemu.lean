import MipsOnQemu.Busybox.DhcpOptions
import MipsOnQemu.Lib.ThreeWayMerge
import MipsOnQemu.MyLaunch.Converge
import MipsOnQemu.Lib.TreeReader
import MipsOnQemu.Lib.Xml
import MipsOnQemu.MyLaunch.BmXml
import MipsOnQemu.MyLaunch.Snapshot
import MipsOnQemu.MyLaunch.Read
import MipsOnQemu.MyLaunch.HandleBmData
import MipsOnQemu.MyLaunch.Freshness
import MipsOnQemu.Home.Tags
import MipsOnQemu.Home.Tables
import MipsOnQemu.Home.Refusal
import MipsOnQemu.Home.Posting
import MipsOnQemu.Home.Keys
import MipsOnQemu.Home.StoreCount
import MipsOnQemu.Home.Tree
import MipsOnQemu.Home.Credentials
import MipsOnQemu.Linux.RbSteps
import MipsOnQemu.Linux.RadixRuns
import MipsOnQemu.Linux.Watermark
import MipsOnQemu.Linux.BootmemRuns
import MipsOnQemu.Linux.SemUndo
import MipsOnQemu.Linux.LockMap
import MipsOnQemu.Linux.TimerFire
import MipsOnQemu.Linux.BitmapRegion
import MipsOnQemu.Linux.BitmapShift
import MipsOnQemu.Linux.BitmapRemap
import MipsOnQemu.Linux.HrtimerForward
import MipsOnQemu.Linux.IpcIds
import MipsOnQemu.Linux.PidWalk
import MipsOnQemu.Linux.JbdRevoke
import MipsOnQemu.Linux.ResourceAlloc
import MipsOnQemu.Linux.Vmalloc
import MipsOnQemu.Linux.PipeAtomic
import MipsOnQemu.Linux.JbdRestore
import MipsOnQemu.Linux.MsgRuns
import MipsOnQemu.Linux.TextSearchBm
import MipsOnQemu.Linux.SeqFile
import MipsOnQemu.Linux.IpFragmentDrop
import MipsOnQemu.Linux.Rwsem
import MipsOnQemu.Linux.TcpSegments
import MipsOnQemu.Linux.TcpWindow
