import Pintos.Arithmetic
import Pintos.BinarySearch
import Pintos.CommandLine
import Pintos.ConditionSignals
import Pintos.DirectoryMap
import Pintos.FailedCreate
import Pintos.FormatString
import Pintos.HashIteration
import Pintos.HeapContents
import Pintos.InterruptQueue
import Pintos.ListSort
import Pintos.LoadedImage
import Pintos.LowMemory
import Pintos.MessageBoxes
import Pintos.PageAllocator
import Pintos.PartitionTable
import Pintos.RealTimeClock
import Pintos.RoundRobin
import Pintos.UntrustedHeaders
import Pintos.WarehouseArrays
import Pintos.WarehouseBatch
import Pintos.WarehousePlanning
import Pintos.WarehouseProgress
import Pintos.WarehouseSearch
import Pintos.WarehouseTermination
