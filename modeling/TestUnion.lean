import TestUnion.Lts
import TestUnion.Synctest.Doit
import TestUnion.Synctest.Sound
import TestUnion.Snapstorm.Barrier
import TestUnion.Snapstorm.Sound
import TestUnion.Snapstorm.Progress
import TestUnion.CInt
import TestUnion.Fiemap.Checks
import TestUnion.Fiemap.CheckSpec
import TestUnion.Fiemap.Compare
import TestUnion.Fiemap.CompareSpec
import TestUnion.Fiemap.Create
import TestUnion.Fiemap.EndToEnd
import TestUnion.ExceptLoop
import TestUnion.FileTree
import TestUnion.PosixCalls
import TestUnion.PosixSpec
import TestUnion.WalkSpec
import TestUnion.Compilebench.Trees
import TestUnion.Compilebench.Ops
import TestUnion.Compilebench.RemoveSpec
import TestUnion.Compilebench.WriteSpec
import TestUnion.Compilebench.NativeSpec
import TestUnion.Compilebench.Books
import TestUnion.Compilebench.Exec
import TestUnion.Compilebench.TopLevel
import TestUnion.Compilebench.Contents
import TestUnion.Compilebench.Patched
import TestUnion.Fiemap.Prealloc
import TestUnion.Fiemap.WeirdHole
import TestUnion.SeekFile
import TestUnion.SparseCp
import TestUnion.Carry
import TestUnion.Qgroups.Clean
import TestUnion.Qgroups.Dot
import TestUnion.Qgroups.Snapshots
import TestUnion.Qgroups.Once
import TestUnion.PerlRegex
import TestUnion.BtrfsDecode.Messages
import TestUnion.BtrfsDecode.Distance
import TestUnion.BtrfsDecode.Types
import TestUnion.SlabCalc
import TestUnion.Splits
import TestUnion.RewriteFile
import TestUnion.FullCheckout
import TestUnion.RandSnap
import TestUnion.ScribbleFile
import TestUnion.FileFlags
import TestUnion.TestSnapgit
import TestUnion.GitBuildTest
import TestUnion.Packed
import TestUnion.FiemapPy
import TestUnion.OverrideOrder
import TestUnion.Compilebench.PathOrder
import TestUnion.Compilebench.SeenDirs
import TestUnion.PosixCwd
import TestUnion.CreatUnlink
import TestUnion.Syncperf
import TestUnion.PathStats
import TestUnion.AccountTime
import TestUnion.Rounding
import TestUnion.WriteJunk
import TestUnion.GitAging.Order
import TestUnion.Synctest.Emptied
import TestUnion.Compilebench.Charges
import TestUnion.Compilebench.Raises
import TestUnion.Compilebench.Timing
import TestUnion.Compilebench.Completes
import TestUnion.Compilebench.Reduced
import TestUnion.Compilebench.Ends
import TestUnion.MakedirsSpec
import TestUnion.Compilebench.NativeTotal
import TestUnion.Synctest.Life
import TestUnion.Synctest.FilesLive
import TestUnion.Synctest.Removed
import TestUnion.Synctest.Descriptors
import TestUnion.Fiemap.Main
import TestUnion.Fiemap.Products
import TestUnion.Fiemap.Rounds
import TestUnion.LowestFree
import TestUnion.InPlace
import TestUnion.Salsa
import TestUnion.Seeker
import TestUnion.Seekmark.Threads
import TestUnion.Seekmark.Offsets
import TestUnion.Seekmark.Fill
import TestUnion.WriteAfterChecksum.Msync
import TestUnion.WriteAfterChecksum.Workers
import TestUnion.Compilebench.Replay
import TestUnion.Compilebench.ReadDataset
import TestUnion.Interleaved
import TestUnion.StressSh
import TestUnion.GitAging.Chains
import TestUnion.LxoSnaptest
import TestUnion.RsyncSnap
