import Mftt.ActiveSpace
import Mftt.BlockCacheRuns
import Mftt.BootLayout
import Mftt.BuddyCoalescing
import Mftt.BufferedWrites
import Mftt.DentryRuns
import Mftt.Descriptors
import Mftt.DriverOrder
import Mftt.Execve
import Mftt.FatTimes
import Mftt.FatWalks
import Mftt.FdtProbers
import Mftt.ForkAndWait
import Mftt.FreshMemory
import Mftt.FullPaths
import Mftt.Itoa
import Mftt.LeastRecent
import Mftt.MemoryCopies
import Mftt.PageAllocation
import Mftt.PageMetadata
import Mftt.PathResolution
import Mftt.PipeCreation
import Mftt.PlicEnables
import Mftt.ProberNames
import Mftt.ProgramBreak
import Mftt.RawDisks
import Mftt.RbNeighbours
import Mftt.ReadOnlyPages
import Mftt.RoundRobin
import Mftt.SequentialReads
import Mftt.ShortNames
