import Niuchacz.Queue.Model
import Niuchacz.Queue.Mutex
import Niuchacz.Queue.View
import Niuchacz.Queue.Fifo
import Niuchacz.Lib.CondVar
import Niuchacz.Queue.Wakeup
import Niuchacz.DoublyLinkedList.Links
import Niuchacz.DoublyLinkedList.Refine
import Niuchacz.DoublyLinkedList.Sequential
import Niuchacz.DoublyLinkedList.Accounting
import Niuchacz.DoublyLinkedList.Concurrent
import Niuchacz.DoublyLinkedList.RingWork
import Niuchacz.DoublyLinkedList.Ownership
import Niuchacz.DoublyLinkedList.Preserve
import Niuchacz.DoublyLinkedList.RefCount
import Niuchacz.Psmgr.Model
import Niuchacz.Psmgr.Balance
import Niuchacz.Bst.Model
import Niuchacz.Lib.SearchTree
import Niuchacz.Bst.Refine
import Niuchacz.Cardinality
import Niuchacz.Database.Handle
import Niuchacz.CmdManager.Commands
import Niuchacz.Lib.Memory
import Niuchacz.Queue.Returns
import Niuchacz.CmdManager.Jobs
import Niuchacz.Psmgr.Handshake
import Niuchacz.Queue.Statistics
import Niuchacz.Queue.Clients
import Niuchacz.Queue.Shutdown
import Niuchacz.Bst.Delete
import Niuchacz.PacketAnalyze.Get
import Niuchacz.Lib.Numerals
import Niuchacz.PacketAnalyze.Attribution
import Niuchacz.PacketAnalyze.Exec
import Niuchacz.Bst.Insert
import Niuchacz.Bst.Lookup
import Niuchacz.Bst.Remove
import Niuchacz.Lib.Access
import Niuchacz.PacketAnalyze.Frame
import Niuchacz.Lib.Blocks
import Niuchacz.Capture
import Niuchacz.Lib.Transaction
import Niuchacz.Oracle.Model
import Niuchacz.Oracle.DownloadFiles
import Niuchacz.Oracle.Actions
import Niuchacz.Oracle.Schedule
import Niuchacz.Cardinality.Registers
import Niuchacz.Cardinality.Estimate
import Niuchacz.PacketAnalyze.Decode
import Niuchacz.DoublyLinkedList.Lookup
import Niuchacz.Database.Status
import Niuchacz.Queue.Sizes
import Niuchacz.Lib.Crc
import Niuchacz.Queue.Corruption
import Niuchacz.DoublyLinkedList.Query
import Niuchacz.Oracle.Heartbeat
import Niuchacz.Lib.Delimited
import Niuchacz.ExportFile
import Niuchacz.Lib.Streaming
import Niuchacz.Hash
import Niuchacz.Queue.Copy
import Niuchacz.Timer.Order
import Niuchacz.Lib.Keyed
import Niuchacz.Art.Children
import Niuchacz.Art.Model
import Niuchacz.Art.Lookup
import Niuchacz.Art.Insert
import Niuchacz.Art.Delete
import Niuchacz.Art.Iter
import Niuchacz.Lib.Refinement
import Niuchacz.Art.Runs
import Niuchacz.Statistics
import Niuchacz.Lib.Handover
import Niuchacz.Queue.Handover
import Niuchacz.CmdManager.Pipeline
import Niuchacz.Sniffer
import Niuchacz.DoublyLinkedList.Completion
import Niuchacz.DoublyLinkedList.Spinlock
import Niuchacz.DoublyLinkedList.Recount
import Niuchacz.Psmgr.Stop
import Niuchacz.PacketAnalyze.Stored
import Niuchacz.ImportPcap
