import Parrhesia.Lib.Machine
import Parrhesia.Lib.HashMap
import Parrhesia.Lib.Broadcast
import Parrhesia.Lib.History
import Parrhesia.Lib.Roster
import Parrhesia.Lib.TokenBucket
import Parrhesia.Lib.Origins
import Parrhesia.Lib.Base64
import Parrhesia.Lib.JsonString
import Parrhesia.Lib.Json
import Parrhesia.Lib.JsonRecord
import Parrhesia.Lib.Linear
import Parrhesia.Lib.Restart
import Parrhesia.Admission
import Parrhesia.Eviction
import Parrhesia.RateBound
import Parrhesia.Db
import Parrhesia.State
import Parrhesia.Store
import Parrhesia.Steps
import Parrhesia.Rows
import Parrhesia.Members
import Parrhesia.Logs
import Parrhesia.Creator
import Parrhesia.Atomic
import Parrhesia.Isolation
import Parrhesia.Replay
import Parrhesia.Expiry
import Parrhesia.Passwords
import Parrhesia.Messages
import Parrhesia.Session
import Parrhesia.Moves
import Parrhesia.Server
import Parrhesia.Gate
import Parrhesia.Script
import Parrhesia.Ending
import Parrhesia.Sockets
import Parrhesia.Delivery
import Parrhesia.Membership
import Parrhesia.Limiter
import Parrhesia.Hearing
import Parrhesia.Wire
import Parrhesia.Relay
import Parrhesia.Transit
import Parrhesia.Activity
import Parrhesia.Slots
import Parrhesia.Table
import Parrhesia.Permits
import Parrhesia.HashVerify
import Parrhesia.Spending
import Parrhesia.Guessing
import Parrhesia.Rooms
import Parrhesia.Protection
import Parrhesia.Retry
import Parrhesia.Heartbeat
import Parrhesia.Cleanup
import Parrhesia.Doors
import Parrhesia.Entrance
import Parrhesia.Protocol
import Parrhesia.Synchrony
import Parrhesia.Progress
import Parrhesia.Restart
import Parrhesia.Identity
import Parrhesia.Tolls
import Parrhesia.Growth
