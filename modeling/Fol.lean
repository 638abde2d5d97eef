import Fol.HashTrie.Ownership
import Fol.VecTrie.Typed
import Fol.Escape.LetChainScope
import Fol.Escape.Aliases
import Fol.Escape.Coverage
import Fol.World.ClassFacts
import Fol.World.RecordGuard
import Fol.World.InstallGuard
import Fol.World.Notification
import Fol.Emit.NumericSound
import Fol.Emit.Resolution
import Fol.Emit.LoopMeaning
import Fol.Emit.Quoting
import Fol.Persistence.RecordRuns
import Fol.Emit.Literals
import Fol.Collections.PriorityDict
import Fol.Stm.Commutes
import Fol.Agents.Orderly
import Fol.Async.Stuck
import Fol.Async.Transduced
import Fol.Transducers.Agreement
import Fol.Workers.Reducers
import Fol.Zip.Sessions
import Fol.HashTrie.Buckets
import Fol.SortedDict.Listing
import Fol.SortedDict.TransientTheorems
import Fol.Atoms.Linearized
import Fol.Agents.Waiting
import Fol.Collections.ListSizes
import Fol.Collections.Nested
import Fol.Dispatch.Ranks
import Fol.Emit.ConditionalThreads
import Fol.Emit.Capture
import Fol.Emit.Shorthand
import Fol.SortedDict.UniversalKeys
import Fol.Dispatch.Preferences
import Fol.Async.Alts
import Fol.Zip.Walks
import Fol.Persistence.KeywordCache
import Fol.Queue.Seque
import Fol.Values.DiffTheorems
import Fol.Collections.LazyWalks
import Fol.Numbers.BitRotate
import Fol.Numbers.Rationalize
import Fol.Strings.Split
import Fol.Collections.Partition
import Fol.Collections.Reshape
import Fol.Escape.Children
import Fol.Workers.Ledger
import Fol.Async.Publication
