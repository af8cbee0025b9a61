import SkewHash.Addresses
import SkewHash.Bounds
import SkewHash.BloomDisk
import SkewHash.WriterMove
import SkewHash.ShuffleInOrder
import SkewHash.Prefetch
import SkewHash.SameFile
import SkewHash.SeedStatus
import SkewHash.BuilderEnds
import SkewHash.Disk
import SkewHash.Patched
import SkewHash.Cuda.PerfectHashtable
import SkewHash.Cuda.FetchRun
import SkewHash.Cuda.SameReplies
import SkewHash.IndexTable
import SkewHash.Unfinished
import SkewHash.Cuda.ChunkThreads
