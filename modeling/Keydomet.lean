import Keydomet.Lib.Reads
import Keydomet.Lib.Views
import Keydomet.Lib.Objects
import Keydomet.Lib.MovedObjects
import Keydomet.Lib.References
import Keydomet.Lib.Sort
import Keydomet.Lib.Maps
import Keydomet.Lib.Terminators
import Keydomet.Lib.StaticCounters
import Keydomet.Lib.StringReads
import Keydomet.Bench.UseRate
import Keydomet.Bench.ContainerCache
import Keydomet.Bench.Hits
import Keydomet.Bench.Reports
import Keydomet.Bench.LoopCost
import Keydomet.Bench.MinBench
