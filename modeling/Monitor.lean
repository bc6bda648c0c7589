import Monitor.Gorilla.ValueField
import Monitor.Gorilla.Untrusted
import Monitor.Models.AppendEntries
import Monitor.Models.Committed
import Monitor.Hash.Successors
import Monitor.Quic.Canonical
import Monitor.Quic.Subscriptions
import Monitor.Quic.Connections
import Monitor.TopK.Announcements
import Monitor.TopK.Exact
import Monitor.TopK.Batching
import Monitor.Raft.RequestVote
import Monitor.Queue.Conservation
import Monitor.Service.Acknowledgement
import Monitor.Service.KafkaConsumer
import Monitor.Storage.Batch
import Monitor.Storage.PointRead
import Monitor.Service.Statistics
import Monitor.LockFree.SingleProducer
import Monitor.LockFree.Sequential
import Monitor.Analysis.Rate
import Monitor.Analysis.Alerts
import Monitor.Raft.Crash
import Monitor.Raft.Counters
import Monitor.Radix.Queries
import Monitor.PrefixTree.Transfer
import Monitor.Timer.Cancel
import Monitor.Timer.Accuracy
import Monitor.Auth.Identity
import Monitor.Auth.Roles
import Monitor.Host.Maintenance
import Monitor.Host.AutoScaling
import Monitor.Host.Limit
import Monitor.Host.EventPath
import Monitor.Host.Discovery
import Monitor.Agent.Revival
import Monitor.Agent.HealthChecks
import Monitor.Window.Resizing
import Monitor.Window.Contents
import Monitor.Websocket.Deadlock
import Monitor.Websocket.SendChannels
import Monitor.Alerts.AlertFilter
import Monitor.Epoll.Accounting
import Monitor.Epoll.Buffers
import Monitor.Simd.Kernels
import Monitor.Queue.Counters
import Monitor.Gorilla.Fields
import Monitor.Radix.Labels
import Monitor.Window.Cleanup
import Monitor.Agent.CpuUsage
import Monitor.Service.IncrementalPush
