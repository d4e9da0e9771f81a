import Aquifer.Dispatch.Exact
import Aquifer.Core.Claims
import Aquifer.Dispatch.Webhook
import Aquifer.Core.Recovered
import Aquifer.Dispatch.Identity
import Aquifer.Storage.Counts
import Aquifer.Storage.Ledger
import Aquifer.Dispatch.Drain
import Aquifer.Storage.Reload
import Aquifer.Cluster.Capacity
import Aquifer.Cluster.Forward
import Aquifer.Dispatch.IdleInstance
import Aquifer.Cluster.HandBack
import Aquifer.Dispatch.Shrink
import Aquifer.Core.Redirect
import Aquifer.L8.Challenge
import Aquifer.Websocket.Export
import Aquifer.Websocket.Follower
import Aquifer.Core.Streams
import Aquifer.Websocket.Scheduler
import Aquifer.Dispatch.Deadlines
import Aquifer.Storage.Insertion
import Aquifer.Storage.Pages
import Aquifer.Websocket.Reconnect
import Aquifer.Dispatch.FairShare
import Aquifer.Dispatch.PoolEviction
import Aquifer.Core.InboundRate
import Aquifer.Cluster.Rebalance
import Aquifer.Dispatch.Configured
import Aquifer.Dispatch.Destination
import Aquifer.L8.Encrypt
import Aquifer.Websocket.Relay
import Aquifer.Core.KeyClaims
import Aquifer.Dispatch.DeadTarget
