import ThingsDB.Changes.Missing
import ThingsDB.Changes.Run
import ThingsDB.Changes.Once
import ThingsDB.Changes.Calm
import ThingsDB.Relations.Replica
import ThingsDB.Opr.Division
import ThingsDB.Enums.Consistent
import ThingsDB.Preopr
import ThingsDB.Util.Capacity
import ThingsDB.Lists.Tuples
import ThingsDB.Gc.Safe
import ThingsDB.Typed.Maps
import ThingsDB.Typed.Writes
import ThingsDB.Typed.Convert
import ThingsDB.Instances.Align
import ThingsDB.Closures.Scope
import ThingsDB.Types.Acyclic
import ThingsDB.Types.Exact
import ThingsDB.Types.Resolve
import ThingsDB.Types.Defaults
import ThingsDB.Types.Restrict
import ThingsDB.Util.QueueList
import ThingsDB.Imap.Unused
import ThingsDB.Imap.Compare
import ThingsDB.Smap.Finite
import ThingsDB.Request.Answered
import ThingsDB.Qbind.Operations
import ThingsDB.Lists.Slice
import ThingsDB.Lists.Splice
import ThingsDB.Lists.Remove
import ThingsDB.Tasks.Timer
import ThingsDB.Archives.Disk
import ThingsDB.Instances.Cache
import ThingsDB.Tasks.Owner
import ThingsDB.Tasks.Fits
import ThingsDB.Tasks.Cancel
