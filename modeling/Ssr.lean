import Ssr.Interleaving
import Ssr.Chain
import Ssr.Map
import Ssr.Cfifo
import Ssr.CfifoOrder
import Ssr.CfifoOwnership
import Ssr.CfifoAnswers
import Ssr.CfifoSize
import Ssr.Linearizability
import Ssr.LateDecisions
import Ssr.ClaimedCells
import Ssr.CallHistory
import Ssr.SeenStates
import Ssr.CellCalls
import Ssr.Clifo
import Ssr.ClifoSlots
import Ssr.ClifoConserves
import Ssr.ClifoOrder
import Ssr.Rcu
import Ssr.RcuGrace
import Ssr.RcuQueue
import Ssr.RcuClients
import Ssr.RcuRound
import Ssr.Hazard
import Ssr.HazardProtect
import Ssr.HazardPending
import Ssr.List
import Ssr.ListStructure
import Ssr.ValueCells
import Ssr.ListValues
import Ssr.SkipList
import Ssr.SkipListLevels
import Ssr.SkipListValues
import Ssr.Active
import Ssr.ActiveCounts
import Ssr.Txn
import Ssr.TxnLists
import Ssr.TxnHelping
import Ssr.TxnSnapshot
import Ssr.TxnOrder
import Ssr.TxnAbort
import Ssr.TxnSteps
import Ssr.TxnAgreement
import Ssr.TxnVerdict
import Ssr.TxnAsserts
import Ssr.Migration
import Ssr.Hashtable
import Ssr.HashtableChain
import Ssr.HashtablePersists
import Ssr.HashtableCalls
import Ssr.HashtableCount
import Ssr.HashtableCopy
import Ssr.HashtableMap
import Ssr.HashtableMoves
import Ssr.HashtableIter
import Ssr.HashtableReferences
import Ssr.HashtableIterBegin
import Ssr.HashtableWalk
import Ssr.HashtableAppended
import Ssr.HashtableSuccessors
import Ssr.HashtableKeys
import Ssr.HashtableOwnership
import Ssr.Sequential
import Ssr.CfifoWrap
import Ssr.SortedMap
import Ssr.MapCalls
import Ssr.ListCalls
import Ssr.Towers
import Ssr.FrozenChain
import Ssr.SkipListCalls
import Ssr.Nstring
import Ssr.StringCalls
import Ssr.ListStrings
import Ssr.SkipListStrings
import Ssr.StringMaps
import Ssr.MarkedChain
import Ssr.ListSearch
import Ssr.SkipListSearch
import Ssr.Iteration
import Ssr.SkipListIter
import Ssr.LinkedChain
import Ssr.ListRcu
import Ssr.ListHistory
import Ssr.ListLinear
import Ssr.SkipListChains
import Ssr.SkipListReclaim
import Ssr.SkipListPointers
import Ssr.SkipListRcu
import Ssr.SkipListBlind
import Ssr.SkipListHistory
import Ssr.SkipListSettles
import Ssr.SkipListLinear
import Ssr.ListIter
import Ssr.UnsafeSkipList
import Ssr.MapAgreement
import Ssr.Placement
import Ssr.Mem
import Ssr.MemInv
import Ssr.MemSteps
import Ssr.MemPlaces
import Ssr.HashtableGrows
import Ssr.HashtableSteps
import Ssr.HashtableKnows
import Ssr.HashtableHistory
import Ssr.HashtableGuarantee
import Ssr.HashtableRuns
import Ssr.HashtableSlots
import Ssr.HashtablePlaces
import Ssr.HashtableLinear
import Ssr.RcuOnce
import Ssr.HashtableReach
import Ssr.HashtableReclaim
import Ssr.HashtableTally
import Ssr.HashtableAtRest
import Ssr.Cmpool
import Ssr.CmpoolOwned
import Ssr.Lwt
