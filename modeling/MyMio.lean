import MyMio.Foundations.StepSystem
import MyMio.Foundations.DoublyLinked
import MyMio.Foundations.BrokenQueue
import MyMio.Foundations.BitField
import MyMio.Foundations.Ledger
import MyMio.Foundations.Tally
import MyMio.Foundations.Values
import MyMio.Event.Ready
import MyMio.Net.Connection
import MyMio.Net.Conservation
import MyMio.Net.Close
import MyMio.Net.ReadStream
import MyMio.Net.Unread
import MyMio.Net.Acceptor
import MyMio.Net.TcpServer
import MyMio.Selector.Epoll
import MyMio.Selector.Dispatch
import MyMio.Selector.Descriptors
import MyMio.Selector.Buffer
import MyMio.Selector.Handle
import MyMio.Selector.Asked
import MyMio.Selector.Associate
import MyMio.Net.Lifecycle
import MyMio.Timer.Model
import MyMio.Timer.Wheel
import MyMio.Timer.Cursor
import MyMio.Timer.Deadlines
import MyMio.Timer.Handles
import MyMio.Timer.Represent
import MyMio.Timer.Cached
import MyMio.Timer.Wakeup
import MyMio.Timer.Readiness
import MyMio.Timer.Event
import MyMio.Timer.Arithmetic
import MyMio.Timer.Termination
import MyMio.Net.Connector
import MyMio.Queue.Model
import MyMio.Queue.Sound
import MyMio.Queue.Fifo
import MyMio.Queue.Sequential
import MyMio.Queue.Closing
import MyMio.Queue.Sleep
import MyMio.Queue.Pending
import MyMio.Node.State
import MyMio.Node.Fields
import MyMio.Node.Model
import MyMio.Node.Ownership
import MyMio.Lock.Poll1
import MyMio.Lock.LockWord
import MyMio.Node.Delivery
import MyMio.Queue.Order
import MyMio.Node.Frame
import MyMio.Node.Tokens
import MyMio.Node.Oneshot
import MyMio.Net.EnqueueJob
import MyMio.Foundations.EdgeTriggered
import MyMio.Foundations.Firsts
import MyMio.Net.JobOrder
import MyMio.Net.JobBatch
import MyMio.Net.JobRuns
import MyMio.Net.JobArguments
import MyMio.Node.Drain
import MyMio.Queue.Draining
import MyMio.Node.Shares
import MyMio.Node.Accounts
import MyMio.Node.Dropping
import MyMio.Node.Sharing
import MyMio.Node.Counting
import MyMio.Node.Events
import MyMio.Queue.Until
import MyMio.Queue.Awakener
import MyMio.Node.PutBack
import MyMio.Lock.Pollers
