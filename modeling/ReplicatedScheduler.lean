import ReplicatedScheduler.Handover
import ReplicatedScheduler.PendingCalls
import ReplicatedScheduler.Service
import ReplicatedScheduler.Transfer
import ReplicatedScheduler.StateTransfer
import ReplicatedScheduler.Wedge
import ReplicatedScheduler.ClientFailures
import ReplicatedScheduler.Serving
import ReplicatedScheduler.Replies
import ReplicatedScheduler.Failover
import ReplicatedScheduler.ServiceOrder
import ReplicatedScheduler.WireFormat
import ReplicatedScheduler.Departures
import ReplicatedScheduler.JoinFailures
import ReplicatedScheduler.Lib.Circulation
import ReplicatedScheduler.Lib.Simulation
import ReplicatedScheduler.Spread.Packing
import ReplicatedScheduler.Spread.StoreInvariant
import ReplicatedScheduler.Spread.RingDaemon
import ReplicatedScheduler.Spread.RingInvariant
import ReplicatedScheduler.Spread.Delivery
import ReplicatedScheduler.Spread.Stream
import ReplicatedScheduler.Deployment
import ReplicatedScheduler.Lib.Bytes
import ReplicatedScheduler.Spread.Header
import ReplicatedScheduler.Lib.SkipList
import ReplicatedScheduler.Spread.Groups
import ReplicatedScheduler.Spread.Views
import ReplicatedScheduler.Spread.GroupTable
import ReplicatedScheduler.Spread.HandedUp
import ReplicatedScheduler.Spread.Sessions
import ReplicatedScheduler.Spread.SessionInvariant
import ReplicatedScheduler.Spread.Membership
