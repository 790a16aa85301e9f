import Darwin.Boot.Rcz.RoundTrip
import Darwin.Boot.Rcz.Stream
import Darwin.Boot.Zalloc.Pool
import Darwin.Hfs.BTree.MapBits
import Darwin.Hfs.BTree.Split
import Darwin.Hfs.Catalog.IteratorCache
import Darwin.Hfs.Catalog.NodeData
import Darwin.Hfs.Catalog.Run
import Darwin.Hfs.ConvertUTFBounds
import Darwin.Hfs.FileExtentMapping.MapFileBlock
import Darwin.Hfs.FileExtentMapping.Truncate
import Darwin.Hfs.GenericMRUCache
import Darwin.Hfs.MacRoman
import Darwin.Hfs.VolumeAllocation.FirstFit
import Darwin.Ipc.Circularity.Run
import Darwin.Ipc.Entry.GrowTable
import Darwin.Ipc.Kmsg.CompatBounds
import Darwin.Ipc.Kmsg.CopyoutBody
import Darwin.Ipc.Kmsg.FastPaths
import Darwin.Ipc.Kmsg.Get
import Darwin.Ipc.LocalHash
import Darwin.Ipc.Mqueue.DeliveryRun
import Darwin.Ipc.Mqueue.Senders
import Darwin.Ipc.Port.DnRequestsRun
import Darwin.Ipc.Splay.Traverse
import Darwin.Kern.ThreadCall.FirstCome
import Darwin.Kern.ThreadCall.Orderly
import Darwin.Kern.ThreadCall.Stranded
import Darwin.Kern.Zalloc.Runs
import Darwin.Netinfo.Index.Entries
import Darwin.Netinfo.Index.Pairs
import Darwin.Netinfo.Notify.Order
import Darwin.Netinfo.Server.Authority
import Darwin.Netinfo.Server.Clone
import Darwin.Netinfo.Server.Instances
import Darwin.Netinfo.Strstore
import Darwin.Netinfo.Transfer.Check
import Darwin.Netinfo.Transfer.Switch
import Darwin.Vm.Fork.Exact
import Darwin.Vm.Map.User
import Darwin.Vm.Page.Run
