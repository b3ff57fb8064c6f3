import ScheduleCenter.Base.Trans
import ScheduleCenter.Base.Counting
import ScheduleCenter.Base.RwLock
import ScheduleCenter.Base.LockSections
import ScheduleCenter.Base.Reads
import ScheduleCenter.Base.Residue
import ScheduleCenter.AccountMgr
import ScheduleCenter.Locks
import ScheduleCenter.Server
import ScheduleCenter.Steps
import ScheduleCenter.VoteTask
import ScheduleCenter.VoteTarget
import ScheduleCenter.WaitLoop
import ScheduleCenter.Callers
import ScheduleCenter.Ownership
import ScheduleCenter.Repeat
import ScheduleCenter.Returns
import ScheduleCenter.Solo
import ScheduleCenter.Busy
import ScheduleCenter.Framing
import ScheduleCenter.Replies
import ScheduleCenter.Base.Monitor
import ScheduleCenter.WorkQueue
import ScheduleCenter.Connected
import ScheduleCenter.OneThread
import ScheduleCenter.Reported
import ScheduleCenter.Base.Decimal
import ScheduleCenter.Base.JsonText
import ScheduleCenter.Commands
import ScheduleCenter.Base.Outcome
import ScheduleCenter.PropertyTree
import ScheduleCenter.HandleRead
import ScheduleCenter.Base.Base64
import ScheduleCenter.TaskText
import ScheduleCenter.Base.WriteThrough
import ScheduleCenter.Database
import ScheduleCenter.Slots
import ScheduleCenter.Base.Draw
import ScheduleCenter.Availability
import ScheduleCenter.DailyTask
import ScheduleCenter.Base.Footprint
import ScheduleCenter.ReceivedBytes
import ScheduleCenter.Base.SqlText
import ScheduleCenter.Statements
import ScheduleCenter.DeviceDatabase
import ScheduleCenter.Base.JsonObject
import ScheduleCenter.WorkLoop
import ScheduleCenter.Base.Questions
import ScheduleCenter.PhonePool
import ScheduleCenter.Base.MapReads
import ScheduleCenter.Base.OrderedKeys
import ScheduleCenter.Lookups
import ScheduleCenter.SessionLookups
import ScheduleCenter.AccountCalls
import ScheduleCenter.MidnightReset
import ScheduleCenter.Base.Mutexes
import ScheduleCenter.Base.TwoPhase
import ScheduleCenter.AccountSections
import ScheduleCenter.CounterLocks
import ScheduleCenter.Pipeline
import ScheduleCenter.AtRest
import ScheduleCenter.SentCommands
import ScheduleCenter.Base.Prefixed
import ScheduleCenter.ScheduleLink
import ScheduleCenter.PhoneRefinement
import ScheduleCenter.Base.Proactor
import ScheduleCenter.SessionTimers
import ScheduleCenter.Instances
import ScheduleCenter.Restarts
import ScheduleCenter.VoteLedger
import ScheduleCenter.LockedServer
