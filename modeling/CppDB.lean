import CppDB.Lib.Vec
import CppDB.Lib.Machine
import CppDB.Lib.Trace
import CppDB.Lib.Census
import CppDB.Lib.CondVar
import CppDB.Lib.Chain
import CppDB.Lib.Linked
import CppDB.Lib.Forest
import CppDB.Lib.Assoc
import CppDB.Lib.Cyclic
import CppDB.Lib.Total
import CppDB.Lib.Scan
import CppDB.Lib.Outcome
import CppDB.Lib.Lines
import CppDB.Lib.Descent
import CppDB.Lib.Blame
import CppDB.Lib.Registry
import CppDB.Lib.Linearize
import CppDB.Lib.Sessions
import CppDB.Lib.Logged
import CppDB.Basic
import CppDB.Structures.BTree.Model
import CppDB.Structures.BTree.Shape
import CppDB.Structures.BTree.Restructure
import CppDB.Structures.BTree.Rebalance
import CppDB.Structures.BTree.Insert
import CppDB.Structures.BTree.Remove
import CppDB.Structures.BTree.Traverse
import CppDB.Structures.BTree.Balanced
import CppDB.Structures.BTree.Refinement
import CppDB.Structures.BTree.Invariant
import CppDB.Structures.BTree.Definition
import CppDB.Structures.BTree.Calls
import CppDB.Structures.BTree.SinglePass
import CppDB.Structures.BTree.Visits
import CppDB.Structures.HashMap.Model
import CppDB.Structures.HashMap.Probing
import CppDB.Structures.HashMap.Operations
import CppDB.Structures.HashMap.Refinement
import CppDB.Structures.HashMap.Occupancy
import CppDB.Structures.HashMap.Churn
import CppDB.Structures.LRUCache.Model
import CppDB.Structures.LRUCache.Recency
import CppDB.Structures.LRUCache.Refinement
import CppDB.Structures.LRUCache.Inclusion
import CppDB.Concurrency.RWLock
import CppDB.Concurrency.RWLockProgress
import CppDB.Concurrency.ThreadPool
import CppDB.Concurrency.LockFreeQueue
import CppDB.Concurrency.LockFreeQueueLifetime
import CppDB.Memory.SharedPtr.Model
import CppDB.Memory.SharedPtr.Counting
import CppDB.Memory.SharedPtr.Discipline
import CppDB.Memory.UniquePtr.Model
import CppDB.Memory.UniquePtr.Ownership
import CppDB.Memory.UniquePtr.Destructors
import CppDB.Storage.PoolAllocator.Layout
import CppDB.Storage.PoolAllocator.Model
import CppDB.Storage.PoolAllocator.FreeList
import CppDB.Storage.PoolAllocator.Programs
import CppDB.Core.Value
import CppDB.Core.Numeral
import CppDB.Core.Schema
import CppDB.Core.Row
import CppDB.Core.SharedRow
import CppDB.Core.Table.Model
import CppDB.Core.Table.Coherence
import CppDB.Core.Table.Refinement
import CppDB.Core.Table.Concurrency
import CppDB.Core.Table.Progress
import CppDB.Core.Table.Linearizability
import CppDB.Core.Table.Hits
import CppDB.Core.Database
import CppDB.Query.Ast
import CppDB.Query.Lexer.Model
import CppDB.Query.Lexer.Stream
import CppDB.Query.Lexer.Seams
import CppDB.Query.Lexer.Lexemes
import CppDB.Query.Lexer.Errors
import CppDB.Query.Parser.Model
import CppDB.Query.Parser.Grammar
import CppDB.Query.Parser.Correctness
import CppDB.Query.Parser.Blame
import CppDB.Query.Parser.Errors
import CppDB.Query.Texts
import CppDB.Query.Executor.Fetch
import CppDB.Query.Executor.Meaning
import CppDB.Query.Executor.Statements
import CppDB.Query.Executor.Agreement
import CppDB.Query.Executor.Execute
import CppDB.Query.Executor.Failure
import CppDB.Query.Executor.Columns
import CppDB.Query.Executor.Texts
import CppDB.Query.Executor.Replies
import CppDB.Query.Executor.Printing
import CppDB.Query.Executor.Concurrency
import CppDB.Query.Executor.Relational
import CppDB.Query.Executor.Laws
import CppDB.Query.Executor.Rewording
import CppDB.Network.EventLoop
import CppDB.Network.Connection
import CppDB.Network.Framing
import CppDB.Network.Strand
import CppDB.Network.Limits
import CppDB.Network.Server
import CppDB.Network.Service
import CppDB.Network.Drain
import CppDB.Network.Dialogue
