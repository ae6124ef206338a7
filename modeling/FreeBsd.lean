import FreeBsd.Db.HashOvfl
import FreeBsd.Db.HashOvflRun
import FreeBsd.Db.HashPage
import FreeBsd.Db.HashRun
import FreeBsd.Gen.Fnmatch
import FreeBsd.Gen.Vis
import FreeBsd.Kern.KernClock
import FreeBsd.Kern.SubrRlist
import FreeBsd.Kern.SysvShm
import FreeBsd.Kern.TtyRing
import FreeBsd.Kern.UipcMbuf
import FreeBsd.Kern.VfsCacheFresh
import FreeBsd.Kern.VfsCacheRun
import FreeBsd.Lib.Chain
import FreeBsd.Lib.Circular
import FreeBsd.Lib.Distinct
import FreeBsd.Lib.Exits
import FreeBsd.Lib.Fanout
import FreeBsd.Lib.Glob
import FreeBsd.Lib.Latest
import FreeBsd.Lib.Levels
import FreeBsd.Lib.Machine
import FreeBsd.Lib.Pool
import FreeBsd.Lib.Ring
import FreeBsd.Lib.Segments
import FreeBsd.Lib.Serial
import FreeBsd.Lib.Stuffing
import FreeBsd.Lib.Tailq
import FreeBsd.Lib.Tally
import FreeBsd.Lib.Tiles
import FreeBsd.Lib.Trace
import FreeBsd.Lib.Word
import FreeBsd.Locate.Code
import FreeBsd.Locate.CodeRound
import FreeBsd.Net.Bpf
import FreeBsd.Net.BpfFilter
import FreeBsd.Net.BpfMbuf
import FreeBsd.Net.BpfValidate
import FreeBsd.Net.IfPpp
import FreeBsd.Net.IfSl
import FreeBsd.Net.PppFrames
import FreeBsd.Net.PppInput
import FreeBsd.Net.SlCodec
import FreeBsd.Net.SlCompress
import FreeBsd.Net.SlLossless
import FreeBsd.Netinet.Ip
import FreeBsd.Netinet.IpOptionsSafe
import FreeBsd.Netinet.IpQueue
import FreeBsd.Netinet.IpReass
import FreeBsd.Netinet.Tcp
import FreeBsd.Netinet.TcpData
import FreeBsd.Netinet.TcpEvents
import FreeBsd.Netinet.TcpFin
import FreeBsd.Netinet.TcpInput
import FreeBsd.Netinet.TcpMoves
import FreeBsd.Netinet.TcpOutput
import FreeBsd.Netinet.TcpPredict
import FreeBsd.Netinet.TcpReass
import FreeBsd.Netinet.TcpSender
import FreeBsd.Netinet.TcpSequence
import FreeBsd.Netinet.TcpUsrreq
import FreeBsd.Nfs.SrvCache
import FreeBsd.Nfs.SrvCacheRun
import FreeBsd.Pcfs.PcfsAlloc
import FreeBsd.Pcfs.PcfsFat
import FreeBsd.Pppd.Fsm
import FreeBsd.Pppd.FsmRun
import FreeBsd.Ufs.Balloc
import FreeBsd.Ufs.Fs
import FreeBsd.Ufs.Indirtrunc
import FreeBsd.Ufs.Inode
import FreeBsd.Ufs.Itrunc
import FreeBsd.Ufs.Lockf
import FreeBsd.Ufs.LockfList
import FreeBsd.Ufs.LockfMap
import FreeBsd.Ufs.LockfRun
import FreeBsd.Ufs.LockfWait
import FreeBsd.Ufs.LockfSplit
import FreeBsd.Vm.KernLock
import FreeBsd.Vm.KernLockRun
import FreeBsd.Vm.KernLockSafe
import FreeBsd.Vm.VmMap
import FreeBsd.Vm.VmMapEntries
import FreeBsd.Vm.VmMapFind
import FreeBsd.Vm.VmMapRange
import FreeBsd.Vm.VmMapRun
import FreeBsd.Lib.Fragments
import FreeBsd.Rpc.XdrRec
import FreeBsd.Rpc.XdrRecRound
import FreeBsd.Rpc.XdrRecFaithful
import FreeBsd.Netinet.TcpOptions
import FreeBsd.Vm.VmProtect
import FreeBsd.Kern.ShmDetach
import FreeBsd.Lib.Extents
import FreeBsd.Kern.ShmLimit
import FreeBsd.Kern.MbufLength
import FreeBsd.Lib.OnesSum
import FreeBsd.Netinet.InCksum
import FreeBsd.Ufs.Lookup
import FreeBsd.Ufs.LookupPasses
import FreeBsd.Lib.Threaded
import FreeBsd.Kern.Malloc
import FreeBsd.Kern.MallocSafe
import FreeBsd.Ufs.BallocFail
import FreeBsd.Ufs.BallocAccount
import FreeBsd.Netinet.TcpWindow
import FreeBsd.Compress.Compress
import FreeBsd.Compress.Robust
import FreeBsd.Compress.Hashing
import FreeBsd.Db.BtConv
import FreeBsd.Db.BtConvPages
import FreeBsd.Db.BtPsplit
import FreeBsd.Db.BtPsplitParts
import FreeBsd.Db.Overflow
import FreeBsd.Db.OverflowRun
import FreeBsd.Db.RecFixed
import FreeBsd.Db.RecSync
import FreeBsd.Gen.Strvisx
import FreeBsd.Lib.Buckets
import FreeBsd.Lib.Lexical
import FreeBsd.Lib.Pending
import FreeBsd.Pcfs.PcfsCache
import FreeBsd.Pcfs.PcfsName
import FreeBsd.Pcfs.PcfsRoot
import FreeBsd.Pcfs.PcfsTime
import FreeBsd.Resolv.ResComp
import FreeBsd.Resolv.ResCompRound
import FreeBsd.Stdlib.Qsort
import FreeBsd.Stdlib.QsortPointers
import FreeBsd.Stdlib.Radixsort
import FreeBsd.Stdlib.RadixsortRun
import FreeBsd.Kern.KernTime
import FreeBsd.Lib.Heap
import FreeBsd.Net.SlStates
import FreeBsd.Stdlib.Heapsort
import FreeBsd.Stdlib.MallocRun
import FreeBsd.Rpc.XdrMemRun
import FreeBsd.Net.PppResync
