import Rejig.Lib.Prog
import Rejig.Lib.Slots
import Rejig.Lib.Transition
import Rejig.Lib.HashMap
import Rejig.Lib.Walk
import Rejig.Lib.Cache
import Rejig.Numeral
import Rejig.KeyList
import Rejig.KeySet
import Rejig.SlabClass
import Rejig.Recycle
import Rejig.Item
import Rejig.Memory
import Rejig.Store
import Rejig.Iq
import Rejig.Co
import Rejig.Ascii
import Rejig.Service
import Rejig.Exec
import Rejig.Effect
import Rejig.IqEffect
import Rejig.Header
import Rejig.RequestEffect
import Rejig.History
import Rejig.Lease
import Rejig.Fill
import Rejig.Trans
import Rejig.Exclusive
import Rejig.Config
import Rejig.Stable
import Rejig.Records
import Rejig.Orderly
import Rejig.Address
import Rejig.Flush
import Rejig.KeyLines
import Rejig.Expiry
import Rejig.Clock
import Rejig.Token
import Rejig.Frame
import Rejig.Release
import Rejig.Commit
import Rejig.Turn
import Rejig.Abort
import Rejig.Isolation
import Rejig.Invalidation
import Rejig.WriteThrough
import Rejig.Counter
import Rejig.Line
import Rejig.LineNumber
import Rejig.Fields
import Rejig.FieldSafety
import Rejig.Client
import Rejig.Wire
import Rejig.ValueLine
import Rejig.MemcachedLease
import Rejig.Session
import Rejig.Sight
import Rejig.SessionEffect
import Rejig.SessionRefines
import Rejig.SessionService
import Rejig.SessionRecords
import Rejig.SessionInvariant
import Rejig.SessionAbort
import Rejig.Connection
import Rejig.Assignment
import Rejig.Balance
import Rejig.Coordinator
import Rejig.SessionOwner
import Rejig.SessionRefusal
import Rejig.Room
import Rejig.SessionUpdate
import Rejig.Readers
import Rejig.SessionLoss
import Rejig.SessionValidation
import Rejig.SessionExclusion
