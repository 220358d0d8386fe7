/-
The lock manager.

Every call runs under one latch, so it is one step, up to the point where it
waits on a condition variable. A call whose wait predicate already holds goes on
at once, any other leaves the transaction blocked until a later step finds the
predicate true. A lock call looks at the queue of its object and comes to a
`Verdict`; what happens next is the same for all nine calls.
-/
import Rmdb.Defs
import Rmdb.Transaction.Gap
import Mathlib.Data.List.AList

namespace Rmdb.Lock

open Function

/-! ## Requests and queues -/

abbrev TxnId := Nat

def int32Max : TxnId := 2147483647

inductive TransactionState where
  | default
  | growing
  | shrinking
  | committed
  | aborted
  deriving DecidableEq, Repr

def TransactionState.ended : TransactionState → Bool
  | .committed => true
  | .aborted => true
  | _ => false

inductive AbortReason where
  | lockOnShrinking
  | upgradeConflict
  | deadlockPrevention
  deriving DecidableEq, Repr

inductive LockMode where
  | intentionShared
  | intentionExclusive
  | shared
  | sIX
  | exclusive
  deriving DecidableEq, Repr

inductive GroupLockMode where
  | nonLock
  | is
  | ix
  | s
  | six
  | x
  deriving DecidableEq, Repr

/-- `static_cast<int>` of a group mode. -/
def GroupLockMode.rank : GroupLockMode → Nat
  | nonLock => 0
  | is => 1
  | ix => 2
  | s => 3
  | six => 4
  | x => 5

def GroupLockMode.max (a b : GroupLockMode) : GroupLockMode := if a.rank < b.rank then b else a

def LockMode.group : LockMode → GroupLockMode
  | intentionShared => .is
  | intentionExclusive => .ix
  | shared => .s
  | sIX => .six
  | exclusive => .x

structure LockRequest where
  txn : TxnId
  mode : LockMode
  granted : Bool
  deriving DecidableEq, Repr

/-- `upgrading_` is left out: nothing reads or writes it. -/
structure LockRequestQueue where
  requests : List LockRequest := []
  group : GroupLockMode := .nonLock
  sharedNum : Int := 0
  ixNum : Int := 0
  oldest : TxnId := int32Max
  deriving DecidableEq, Repr

def updateFirst (t : TxnId) (f : LockRequest → LockRequest) : List LockRequest → List LockRequest
  | [] => []
  | r :: rs => if r.txn = t then f r :: rs else r :: updateFirst t f rs

def updateLast (t : TxnId) (f : LockRequest → LockRequest) (rs : List LockRequest) : List LockRequest :=
  (updateFirst t f rs.reverse).reverse

def LockRequest.grant (r : LockRequest) : LockRequest := { r with granted := true }

namespace LockRequestQueue

def own (q : LockRequestQueue) (t : TxnId) : Option LockRequest := q.requests.find? fun r => r.txn = t

def addWaiting (q : LockRequestQueue) (t : TxnId) (mode : LockMode) : LockRequestQueue :=
  { q with requests := q.requests ++ [⟨t, mode, false⟩], oldest := t }

def addGranted (q : LockRequestQueue) (t : TxnId) (mode : LockMode) : LockRequestQueue :=
  { q with requests := q.requests ++ [⟨t, mode, true⟩], oldest := if t < q.oldest then t else q.oldest }

/-! ### The wait predicates, as far as they look at the queue -/

def noExclusive (q : LockRequestQueue) (t : TxnId) : Bool :=
  q.requests.all fun r => r.txn = t || !(r.mode = .exclusive && r.granted)

def noGranted (q : LockRequestQueue) (t : TxnId) : Bool := q.requests.all fun r => r.txn = t || !r.granted

def noGrantedBefore (q : LockRequestQueue) (t : TxnId) : Bool :=
  (q.requests.takeWhile fun r => r.txn ≠ t).all fun r => !r.granted

/-- Only waiting shared requests come before the first one of `t`. -/
def onlySharedBefore (q : LockRequestQueue) (t : TxnId) : Bool :=
  (q.requests.takeWhile fun r => r.txn ≠ t).all fun r => r.mode = .shared && !r.granted

/-- The queue without the requests of `t`, as `unlock` leaves it. -/
def release (q : LockRequestQueue) (t : TxnId) : LockRequestQueue :=
  let rest := q.requests.filter fun r => r.txn ≠ t
  { requests := rest
    group := rest.foldl (fun g r => g.max r.mode.group) .is
    sharedNum := q.sharedNum - (q.requests.filter fun r => r.txn = t && (r.mode = .shared || r.mode = .sIX)).length
    ixNum :=
      q.ixNum - (q.requests.filter fun r => r.txn = t && (r.mode = .intentionExclusive || r.mode = .sIX)).length
    oldest := rest.foldl (fun o r => if r.txn < o then r.txn else o) int32Max }

end LockRequestQueue

/-! ## The lock table -/

/-- What `LockDataId::operator==` compares: a gap counts by its hash. -/
inductive LockDataId (Ix : Type) where
  | table (fd : Nat)
  | record (fd : Nat) (rid : Rid)
  | gap (fd : Nat) (ix : Ix) (hash : UInt64)
  deriving DecidableEq

def LockDataId.onIndex {Ix : Type} [DecidableEq Ix] (ix : Ix) : LockDataId Ix → Bool
  | .gap _ ix' _ => ix' = ix
  | _ => false

structure Entry (V : Type) where
  gap : Gap V
  queue : LockRequestQueue
  deriving DecidableEq

/-- Both `lock_table_` and `gap_lock_table_`, which are looked up by id: the
map of one index holds the ids of its gaps. The order of the entries stands
for the order in which the unordered map is gone through. -/
abbrev LockTable (Ix V : Type) [DecidableEq Ix] := AList fun _ : LockDataId Ix => Entry V

/-- What the lock manager takes from elsewhere. -/
class GapData (Ix V : Type) where
  /-- `std::hash<Gap>` -/
  hash : Gap V → UInt64
  /-- The columns `isSafeInGap` reads from the buffer of a key: it looks for
  each column at its offset in the record. -/
  columnsOf : Ix → List V → List V

/-- Integer keys of one index, for runs on fixed inputs. -/
instance : GapData Unit Int where
  hash g := g.foldl (fun h c =>
    let l := (c.left.map fun b => b.2.toNat + 1).getD 0
    let r := (c.right.map fun b => b.2.toNat + 1).getD 0
    31 * h + UInt64.ofNat (1000 * l + r)) 7
  columnsOf _ key := key

/-- The calls, with the file of the table. -/
inductive Call (Ix V : Type) where
  | sharedOnGap (fd : Nat) (ix : Ix) (gap : Gap V)
  | exclusiveOnGap (fd : Nat) (ix : Ix) (gap : Gap V)
  | safeInGap (fd : Nat) (ix : Ix) (key : List V)
  | sharedOnRecord (fd : Nat) (rid : Rid)
  | exclusiveOnRecord (fd : Nat) (rid : Rid)
  | sharedOnTable (fd : Nat)
  | exclusiveOnTable (fd : Nat)
  | isOnTable (fd : Nat)
  | ixOnTable (fd : Nat)

section

variable {Ix V : Type} [DecidableEq Ix] [Index.IxCmp V] [GapData Ix V]

namespace Call

def gap : Call Ix V → Gap V
  | sharedOnGap _ _ g => g
  | exclusiveOnGap _ _ g => g
  | safeInGap _ ix key => .ofKey (GapData.columnsOf ix key)
  | _ => []

def id (c : Call Ix V) : LockDataId Ix :=
  match c with
  | sharedOnGap fd ix g => .gap fd ix (GapData.hash Ix g)
  | exclusiveOnGap fd ix g => .gap fd ix (GapData.hash Ix g)
  | safeInGap fd ix _ => .gap fd ix (GapData.hash Ix c.gap)
  | sharedOnRecord fd rid => .record fd rid
  | exclusiveOnRecord fd rid => .record fd rid
  | sharedOnTable fd => .table fd
  | exclusiveOnTable fd => .table fd
  | isOnTable fd => .table fd
  | ixOnTable fd => .table fd

def mode : Call Ix V → LockMode
  | sharedOnGap .. => .shared
  | exclusiveOnGap .. => .exclusive
  | safeInGap .. => .exclusive
  | sharedOnRecord .. => .shared
  | exclusiveOnRecord .. => .exclusive
  | sharedOnTable .. => .shared
  | exclusiveOnTable .. => .exclusive
  | isOnTable .. => .intentionShared
  | ixOnTable .. => .intentionExclusive

/-- `isSafeInGap` and `lock_IX_on_table` do not begin with `check_lock`. -/
def checksLock : Call Ix V → Bool
  | safeInGap .. => false
  | ixOnTable .. => false
  | _ => true

end Call

def Entry.heldByOther (e : Entry V) (t : TxnId) : Bool := e.queue.requests.any fun r => r.txn ≠ t && r.granted

/-- The overlap test of the gap calls. A shared request looks only at queues
whose group mode is `X`. -/
def Entry.blocks (e : Entry V) (mode : LockMode) (t : TxnId) (g : Gap V) : Bool :=
  (if mode = .shared then e.queue.group = .x else e.queue.group ≠ .nonLock) && g.isCoincide e.gap && e.heldByOther t

namespace LockTable

def gaps (T : LockTable Ix V) (ix : Ix) : List (Σ _ : LockDataId Ix, Entry V) := T.entries.filter fun e => e.1.onIndex ix

def queue (T : LockTable Ix V) (id : LockDataId Ix) : LockRequestQueue := ((T.lookup id).map Entry.queue).getD {}

def store (T : LockTable Ix V) (id : LockDataId Ix) (g : Gap V) (q : LockRequestQueue) : LockTable Ix V :=
  T.insert id ⟨((T.lookup id).map Entry.gap).getD g, q⟩

/-- The first queue that the loop over the overlapping gaps stops at. -/
def blocker? (T : LockTable Ix V) (mode : LockMode) (t : TxnId) (ix : Ix) (g : Gap V) : Option (Entry V) :=
  ((T.gaps ix).find? fun e => e.2.blocks mode t g).map Sigma.snd

end LockTable

/-! ## The calls -/

inductive Verdict (Ix : Type) where
  /-- The transaction has the lock already. -/
  | held
  /-- Its request is raised in place. -/
  | upgrade (q : LockRequestQueue)
  /-- The request is granted, and the object goes into the lock set. -/
  | grant (q : LockRequestQueue)
  /-- The request is in the queue and waits there. -/
  | wait (q : LockRequestQueue)
  /-- `isSafeInGap` waits on the queue of another gap. -/
  | waitOn (id : LockDataId Ix)
  /-- The age test throws. -/
  | refuse
  | returnFalse
  /-- An assertion fails, or the loop of `isSafeInGap` goes round for ever with the latch in its hands. -/
  | stuck

/-- The age test: a transaction waits only for younger ones. -/
def waitDie (t : TxnId) (oldest : TxnId) (v : Verdict Ix) : Verdict Ix := if t > oldest then .refuse else v

def lockSharedOnGap (T : LockTable Ix V) (t : TxnId) (fd : Nat) (ix : Ix) (g : Gap V) : Verdict Ix :=
  match T.lookup (.gap fd ix (GapData.hash Ix g)) with
  | some e =>
    match e.queue.own t with
    | some r => if r.granted then .held else .stuck
    | none =>
      if e.queue.group = .x then waitDie t e.queue.oldest (.wait (e.queue.addWaiting t .shared))
      else
        -- granted beside whatever holds an overlapping gap
        let q := e.queue.addGranted t .shared
        .grant { q with group := .s, sharedNum := q.sharedNum + 1 }
  | none =>
    let new : LockRequestQueue := {}
    match T.blocker? .shared t ix g with
    | some b => waitDie t b.queue.oldest (.wait (new.addWaiting t .shared))
    | none => .grant { new.addGranted t .shared with group := .s, sharedNum := 1 }

def lockExclusiveOnGap (T : LockTable Ix V) (t : TxnId) (fd : Nat) (ix : Ix) (g : Gap V) : Verdict Ix :=
  let b := T.blocker? .exclusive t ix g
  waitDie t ((b.map fun b => b.queue.oldest).getD t) <|
  match T.lookup (.gap fd ix (GapData.hash Ix g)) with
  | some e =>
    match e.queue.own t with
    | some r =>
      if !r.granted then .stuck
      else if r.mode = .exclusive then .held
      else if r.mode ≠ .shared then .stuck
      else if e.queue.sharedNum = 1 ∧ b.isNone then
        .upgrade
          { e.queue with
            requests := updateFirst t (fun r => { r with mode := .exclusive }) e.queue.requests
            sharedNum := 0
            group := .x }
      else
        waitDie t e.queue.oldest <| .wait
          { e.queue with
            requests := updateFirst t (fun r => { r with granted := false, mode := .exclusive }) e.queue.requests
            oldest := t }
    | none =>
      if e.queue.group ≠ .nonLock then waitDie t e.queue.oldest (.wait (e.queue.addWaiting t .exclusive))
      else
        -- the overlapping gap that was found is forgotten here
        .grant { e.queue.addGranted t .exclusive with group := .x }
  | none =>
    let new : LockRequestQueue := {}
    if b.isSome then .wait (new.addWaiting t .exclusive) else .grant { new.addGranted t .exclusive with group := .x }

/-- One round of the loop. -/
def isSafeInGap (T : LockTable Ix V) (st : TransactionState) (t : TxnId) (fd : Nat) (ix : Ix) (key : List V) : Verdict Ix :=
  match (T.gaps ix).find? fun e => e.2.gap.isInGap key && e.2.heldByOther t with
  | some b => waitDie t b.2.queue.oldest (if st = .aborted then .returnFalse else .waitOn b.1)
  | none =>
    match T.lookup (.gap fd ix (GapData.hash Ix (.ofKey (GapData.columnsOf ix key)))) with
    | some e => if e.queue.requests.any fun r => r.txn = t && r.granted then .held else .stuck
    | none => .grant { requests := [⟨t, .exclusive, true⟩], group := .x, oldest := t }

def lockSharedOnRecord (q : LockRequestQueue) (t : TxnId) : Verdict Ix :=
  match q.own t with
  | some r => if r.granted then .held else .stuck
  | none =>
    if q.group = .x ∨ q.group = .ix ∨ q.group = .six then waitDie t q.oldest (.wait (q.addWaiting t .shared))
    else .grant { q.addGranted t .shared with group := .s, sharedNum := q.sharedNum + 1 }

def lockExclusiveOnRecord (q : LockRequestQueue) (t : TxnId) : Verdict Ix :=
  match q.own t with
  | some r =>
    if !r.granted then .stuck
    else if r.mode = .exclusive then .held
    else if r.mode = .shared ∧ q.requests.length = 1 then
      .upgrade
        { q with
          requests := updateFirst t (fun r => { r with mode := .exclusive }) q.requests
          group := .x
          sharedNum := 0 }
    else if r.mode ≠ .shared then .stuck
    else waitDie t q.oldest (.wait (q.addWaiting t .exclusive))
  | none =>
    if q.group ≠ .nonLock then waitDie t q.oldest (.wait (q.addWaiting t .exclusive))
    else .grant { q.addGranted t .exclusive with group := .x }

def lockSharedOnTable (q : LockRequestQueue) (t : TxnId) : Verdict Ix :=
  match q.own t with
  | some r => if r.mode = .shared ∨ r.mode = .sIX ∨ r.mode = .exclusive then .held else .stuck
  | none =>
    if q.group = .x ∨ q.group = .ix ∨ q.group = .six then waitDie t q.oldest (.wait (q.addWaiting t .shared))
    else .grant { q.addGranted t .shared with group := .s, sharedNum := q.sharedNum + 1 }

def lockExclusiveOnTable (q : LockRequestQueue) (t : TxnId) : Verdict Ix :=
  match q.own t with
  | some r =>
    if r.mode = .exclusive then .held
    else if q.sharedNum = 1 then
      -- whatever mode the own request has
      .upgrade
        { q with
          requests := updateFirst t (fun r => { r with mode := .exclusive }) q.requests
          group := .x }
    else
      waitDie t q.oldest <| .wait
        { q with
          requests := updateFirst t (fun r => { r with granted := false, mode := .exclusive }) q.requests
          oldest := t }
  | none =>
    if q.group ≠ .nonLock then waitDie t q.oldest (.wait (q.addWaiting t .exclusive))
    else .grant { q.addGranted t .exclusive with group := .x }

def lockISOnTable (q : LockRequestQueue) (t : TxnId) : Verdict Ix :=
  match q.own t with
  | some r => if r.granted then .held else .stuck
  | none =>
    if q.group = .x then waitDie t q.oldest (.wait (q.addWaiting t .intentionShared))
    else .grant { q.addGranted t .intentionShared with group := if q.group = .nonLock then .is else q.group }

def lockIXOnTable (q : LockRequestQueue) (t : TxnId) : Verdict Ix :=
  match q.own t with
  | some r =>
    if r.mode = .sIX ∨ r.mode = .intentionExclusive ∨ r.mode = .exclusive then .held
    else if r.mode = .shared ∧ q.sharedNum = 1 then
      .upgrade
        { q with
          requests := updateFirst t (fun r => { r with mode := .sIX }) q.requests
          group := .six
          ixNum := q.ixNum + 1 }
    else if r.mode = .intentionShared ∧ (q.group = .is ∨ q.group = .ix) then
      .upgrade
        { q with
          requests := updateFirst t (fun r => { r with mode := .intentionExclusive }) q.requests
          group := .ix
          ixNum := q.ixNum + 1 }
    else waitDie t q.oldest (.wait (q.addWaiting t .intentionExclusive))
  | none =>
    if q.group = .x ∨ q.group = .s ∨ q.group = .six then waitDie t q.oldest (.wait (q.addWaiting t .intentionExclusive))
    else .grant { q.addGranted t .intentionExclusive with group := .ix, ixNum := q.ixNum + 1 }

def verdict (T : LockTable Ix V) (st : TransactionState) (t : TxnId) (c : Call Ix V) : Verdict Ix :=
  match c with
  | .sharedOnGap fd ix g => lockSharedOnGap T t fd ix g
  | .exclusiveOnGap fd ix g => lockExclusiveOnGap T t fd ix g
  | .safeInGap fd ix key => isSafeInGap T st t fd ix key
  | .sharedOnRecord .. => lockSharedOnRecord (T.queue c.id) t
  | .exclusiveOnRecord .. => lockExclusiveOnRecord (T.queue c.id) t
  | .sharedOnTable .. => lockSharedOnTable (T.queue c.id) t
  | .exclusiveOnTable .. => lockExclusiveOnTable (T.queue c.id) t
  | .isOnTable .. => lockISOnTable (T.queue c.id) t
  | .ixOnTable .. => lockIXOnTable (T.queue c.id) t

/-- The wait predicate of a call that waits in its own queue. -/
def ready (T : LockTable Ix V) (t : TxnId) (c : Call Ix V) : Bool :=
  let q := T.queue c.id
  match c with
  | .sharedOnGap _ ix g => q.noExclusive t && (T.blocker? .shared t ix g).isNone
  | .exclusiveOnGap _ ix g => q.noGranted t && (T.blocker? .exclusive t ix g).isNone
  | .safeInGap .. => false
  | .sharedOnRecord .. => q.noExclusive t
  | .exclusiveOnRecord .. => q.noGrantedBefore t
  | .sharedOnTable .. => q.noExclusive t
  | .exclusiveOnTable .. => q.noGranted t
  | .isOnTable .. => q.onlySharedBefore t
  | .ixOnTable .. => q.noGrantedBefore t

/-- What a call does to its queue when the wait is over. -/
def granted (t : TxnId) (c : Call Ix V) (q : LockRequestQueue) : LockRequestQueue :=
  let first := updateFirst t LockRequest.grant q.requests
  let last := updateLast t LockRequest.grant q.requests
  match c with
  | .sharedOnGap .. => { q with requests := last, group := .s, sharedNum := q.sharedNum + 1 }
  | .exclusiveOnGap .. => { q with requests := last, group := .x }
  | .safeInGap .. => q
  | .sharedOnRecord .. => { q with requests := last, group := .max .s q.group, sharedNum := q.sharedNum + 1 }
  | .exclusiveOnRecord .. => { q with requests := first, group := .x }
  | .sharedOnTable .. =>
    { q with
      requests := last
      group := if q.group = .ix then .six else .max .s q.group
      sharedNum := q.sharedNum + 1 }
  | .exclusiveOnTable .. => { q with requests := last, group := .x }
  | .isOnTable .. => { q with requests := first, group := if q.group = .nonLock then .is else q.group }
  | .ixOnTable .. =>
    { q with requests := first, group := if q.group = .s then .six else .max .ix q.group, ixNum := q.ixNum + 1 }

/-! ## The state and its steps -/

structure Txn (Ix : Type) where
  state : TransactionState := .default
  lockSet : List (LockDataId Ix) := []

structure Wait (Ix V : Type) where
  call : Call Ix V
  id : LockDataId Ix

/-- `told` is not in the source: the locks that calls have said their
transaction holds, until it gives them back. -/
structure LockManager (Ix V : Type) [DecidableEq Ix] where
  table : LockTable Ix V := ∅
  txns : TxnId → Txn Ix := fun _ => {}
  waiting : TxnId → Option (Wait Ix V) := fun _ => none
  told : List (TxnId × LockDataId Ix × LockMode) := []

inductive Reply where
  | ret (b : Bool)
  | throw (reason : AbortReason)
  | blocked
  deriving DecidableEq, Repr

inductive Step (Ix V : Type) [DecidableEq Ix] where
  | call (t : TxnId) (c : Call Ix V)
  /-- The blocked call of `t` finds its predicate true. -/
  | wake (t : TxnId)
  | unlock (t : TxnId) (id : LockDataId Ix)
  /-- The end of `commit` and `abort`: the lock set is cleared and the state set. -/
  | finish (t : TxnId) (st : TransactionState)
  /-- The table may come in another order. -/
  | rehash (T : LockTable Ix V)

namespace LockManager

def setState (s : LockManager Ix V) (t : TxnId) (st : TransactionState) : LockManager Ix V :=
  { s with txns := update s.txns t { s.txns t with state := st } }

def store (s : LockManager Ix V) (c : Call Ix V) (q : LockRequestQueue) : LockManager Ix V :=
  { s with table := s.table.store c.id c.gap q }

def setWaiting (s : LockManager Ix V) (t : TxnId) (w : Option (Wait Ix V)) : LockManager Ix V :=
  { s with waiting := update s.waiting t w }

def addLock (s : LockManager Ix V) (t : TxnId) (id : LockDataId Ix) : LockManager Ix V :=
  { s with txns := update s.txns t { s.txns t with lockSet := (s.txns t).lockSet.insert id } }

def tell (s : LockManager Ix V) (t : TxnId) (c : Call Ix V) : Reply × LockManager Ix V :=
  (.ret true, { s with told := (t, c.id, c.mode) :: s.told })

def grantNow (s : LockManager Ix V) (t : TxnId) (c : Call Ix V) : Reply × LockManager Ix V :=
  ((s.store c (granted t c (s.table.queue c.id))).addLock t c.id).tell t c

def acquire (s : LockManager Ix V) (t : TxnId) (c : Call Ix V) : Option (Reply × LockManager Ix V) :=
  match verdict s.table (s.txns t).state t c with
  | .held => some (s.tell t c)
  | .upgrade q => some ((s.store c q).tell t c)
  | .grant q => some (((s.store c q).addLock t c.id).tell t c)
  | .wait q =>
    let s := s.store c q
    if ready s.table t c then some (s.grantNow t c) else some (.blocked, s.setWaiting t (some ⟨c, c.id⟩))
  | .waitOn id => some (.blocked, s.setWaiting t (some ⟨c, id⟩))
  | .refuse => some (.throw .deadlockPrevention, s)
  | .returnFalse => some (.ret false, s)
  | .stuck => none

/-- `check_lock`: the state to go on in, or the reply. -/
def checkLock : TransactionState → Except Reply TransactionState
  | .committed => .error (.ret false)
  | .aborted => .error (.ret false)
  | .shrinking => .error (.throw .lockOnShrinking)
  | .default => .ok .growing
  | .growing => .ok .growing

/-- A blocked transaction makes no call. -/
def call (s : LockManager Ix V) (t : TxnId) (c : Call Ix V) : Option (Reply × LockManager Ix V) :=
  if (s.waiting t).isSome then none
  else if c.checksLock then
    match checkLock (s.txns t).state with
    | .error r => some (r, s)
    | .ok st => (s.setState t st).acquire t c
  else s.acquire t c

def wake (s : LockManager Ix V) (t : TxnId) : Option (Reply × LockManager Ix V) :=
  match s.waiting t with
  | none => none
  | some w =>
    match w.call with
    | .safeInGap .. =>
      -- the queue may be gone by now
      if (s.table.queue w.id).noGranted t then (s.setWaiting t none).acquire t w.call else none
    | _ => if ready s.table t w.call then some ((s.setWaiting t none).grantNow t w.call) else none

def removeRequests (s : LockManager Ix V) (t : TxnId) (id : LockDataId Ix) : LockManager Ix V :=
  match s.table.lookup id with
  | none => s
  | some e =>
    if (e.queue.own t).isNone then s
    else
      let q := e.queue.release t
      { s with
        table := if q.requests.isEmpty then s.table.erase id else s.table.insert id { e with queue := q }
        told := s.told.filter fun h => ¬(h.1 = t ∧ h.2.1 = id) }

def unlock (s : LockManager Ix V) (t : TxnId) (id : LockDataId Ix) : Option (Reply × LockManager Ix V) :=
  if (s.waiting t).isSome then none
  else if (s.txns t).state.ended then some (.ret false, s)
  else
    let s := if (s.txns t).state = .growing then s.setState t .shrinking else s
    some (.ret true, s.removeRequests t id)

def finish (s : LockManager Ix V) (t : TxnId) (st : TransactionState) : Option (Reply × LockManager Ix V) :=
  if (s.waiting t).isSome ∨ ¬st.ended then none
  else some (.ret true, { s with txns := update s.txns t { state := st, lockSet := [] } })

def step [DecidableEq V] (s : LockManager Ix V) : Step Ix V → Option (Reply × LockManager Ix V)
  | .call t c => s.call t c
  | .wake t => s.wake t
  | .unlock t id => s.unlock t id
  | .finish t st => s.finish t st
  | .rehash T => if T.entries.Perm s.table.entries then some (.ret true, { s with table := T }) else none

end LockManager

end

end Rmdb.Lock
