/-
`AggregateExecutor`: groups in a hash table, and a record for each.

`COUNT` goes on in the number of a running value, `SUM` in its bytes, `MIN` and
`MAX` in both. A record has the keys of the group, where the select list has one
of them, and the aggregates behind them; `HAVING` is tested on the numbers.
-/
import Rmdb.Optimizer.Planner
import Rmdb.Execution.UpdateSets

namespace Rmdb.Execution

open Index
open Optimizer (AggType)

/-! ## Values -/

structure AggValue where
  type : ColType
  intVal : UInt32
  strVal : List UInt8
  raw : List UInt8
  deriving DecidableEq

/-- `compare(a, b, col_len, col_type)` -/
def compareAs (a b : List UInt8) (colLen : Nat) : ColType → Int
  | .int => ixCompareCol .int a b
  | .float => ixCompareCol .float a b
  | .string => memcmp colLen a b

namespace AggValue

def ofCol (c : ColMeta) (rec : List UInt8) : AggValue :=
  match c.type with
  | .string => ⟨.string, 0, c.read rec, c.read rec⟩
  | t => ⟨t, wordOf (c.read rec), [], bytesOf (wordOf (c.read rec))⟩

def one : AggValue := ⟨.int, 1, [], bytesOf 1⟩

def blank : AggValue := ⟨.int, 0, [], []⟩

/-- `operator==`, by which a key is found. Of the numbers a NaN is not one's own
equal, and the two zeros are equal. -/
def same (v w : AggValue) : Bool :=
  v.type = w.type && match v.type with
    | .int => v.intVal == w.intVal
    | .float => !isNaN v.raw && !isNaN w.raw && readFloat v.raw == readFloat w.raw
    | .string => v.strVal == w.strVal

/-- A case of `combineAggregateValues`. -/
def combine [FloatOps] (agg : AggType) (lhs rhs : AggValue) : Except RMDBError AggValue :=
  match agg with
  | .count => .ok { lhs with intVal := lhs.intVal + 1 }
  | .max => .ok (if compareAs lhs.raw rhs.raw lhs.strVal.length lhs.type < 0 then rhs else lhs)
  | .min => .ok (if compareAs lhs.raw rhs.raw lhs.strVal.length lhs.type > 0 then rhs else lhs)
  | .sum => (add lhs.raw rhs.raw lhs.type).map fun raw => { lhs with raw := raw }
  | .col => .ok lhs

end AggValue

/-- An aggregate of a column: an item of the select list, or the left side of a
condition of `HAVING`. -/
structure AggItem where
  agg : AggType
  col : ColMeta

/-- What a row puts in for an item, which is also what a group begins with. -/
def AggItem.input (it : AggItem) (rec : List UInt8) : AggValue :=
  match it.agg with
  | .count => .one
  | .col => .blank
  | _ => .ofCol it.col rec

def AggItem.written (it : AggItem) (v : AggValue) : List UInt8 :=
  match it.agg with
  | .col => []
  | .count => (bytesOf v.intVal).take it.col.len
  | _ => v.raw.take it.col.len

/-- The column of an item as the constructor looks it up. A `COUNT` has the type
and the length of an `INT`, whatever it counts. -/
def AggItem.lookup (cols : List Col) (agg : AggType) (target : TabCol) : Option AggItem :=
  if agg = .count ∧ target.tabName = "" ∧ target.colName = "" then some ⟨agg, .intAt "" 4⟩
  else (getCol cols target).map fun c =>
    if agg = .count ∧ c.col.type ≠ .int then ⟨agg, .intAt c.col.name 4⟩ else ⟨agg, c.col⟩

structure Having extends AggItem where
  op : CompOp
  rhsVal : AggValue

/-! ## The hash table -/

/-- `AggregateValue` -/
structure AggEntry where
  values : List AggValue
  havingValues : List AggValue

/-- `combineAggregateValues`, for the select list or for `HAVING`. -/
def combineAll [FloatOps] (items : List AggItem) (vals inputs : List AggValue) : Except RMDBError (List AggValue) :=
  (items.zip (vals.zip inputs)).mapM fun (it, lhs, rhs) => lhs.combine it.agg rhs

structure TableOrder where
  order : List (List AggValue × AggEntry) → List (List AggValue × AggEntry)
  perm : ∀ table, (order table).Perm table

def TableOrder.inserted : TableOrder := ⟨id, fun _ => .refl _⟩

structure AggregateExecutor (σ : Type) where
  prev : Executor σ
  items : List AggItem
  groupBys : List ColMeta
  having : List Having
  tableOrder : TableOrder

namespace AggregateExecutor

variable {σ : Type} (ex : AggregateExecutor σ)

/-- The constructor. A column that is not found is an exception. -/
def make (prev : Executor σ) (sels : List (AggType × TabCol)) (groupBys : List TabCol)
    (having : List ((AggType × TabCol) × CompOp × AggValue)) (tableOrder : TableOrder) :
    Option (AggregateExecutor σ) := do
  let items ← sels.mapM fun sel => AggItem.lookup prev.cols sel.1 sel.2
  let having ← having.mapM fun cond =>
    (AggItem.lookup prev.cols cond.1.1 cond.1.2).map fun it => { it with op := cond.2.1, rhsVal := cond.2.2 }
  let groupBys ← groupBys.mapM fun col => (getCol prev.cols col).map Col.col
  some { prev, items, groupBys, having, tableOrder }

def hasGroupCol : Bool := ex.items.any fun it => it.agg = .col

def tupleLen : Nat := (ex.items.map fun it => it.col.len).sum

def keysOf (rec : List UInt8) : List AggValue := ex.groupBys.map fun c => .ofCol c rec

def inputOf (rec : List UInt8) : AggEntry where
  values := ex.items.map fun it => it.input rec
  havingValues := ex.having.map fun cond => cond.input rec

/-- `insertCombine`; what a group begins with is the input of its first row. -/
def insertCombine [FloatOps] (keys : List AggValue) (input : AggEntry) :
    List (List AggValue × AggEntry) → Except RMDBError (List (List AggValue × AggEntry))
  | [] => .ok [(keys, input)]
  | (ks, e) :: table =>
    if (ks.zip keys).all (fun (v, w) => v.same w) then do
      let values ← combineAll ex.items e.values input.values
      let havingValues ← combineAll (ex.having.map Having.toAggItem) e.havingValues input.havingValues
      .ok ((ks, ⟨values, havingValues⟩) :: table)
    else (insertCombine keys input table).map fun table => (ks, e) :: table

def build [FloatOps] : Nat → σ → List (List AggValue × AggEntry) → Option (List (List AggValue × AggEntry) × σ)
  | 0, _, _ => none
  | fuel + 1, s, table =>
    if ex.prev.isEnd s then some (table, s)
    else do
      let (rec, s) ← ex.prev.next s
      let table ← (ex.insertCombine (ex.keysOf rec) (ex.inputOf rec) table).toOption
      let s ← ex.prev.nextTuple s
      build fuel s table

/-- `cmp_cond`: an `INT` is compared by its number, which is copied over the
bytes first. Values of different types are an exception. -/
def cmpCond (lhs : AggValue) (cond : Having) : Option Bool :=
  if lhs.type ≠ cond.rhsVal.type then none
  else
    let data := if lhs.type = .int then bytesOf lhs.intVal else lhs.raw
    some (cond.op.test (compareAs data cond.rhsVal.raw lhs.strVal.length lhs.type))

def passes : List (AggValue × Having) → Option Bool
  | [] => some true
  | (v, cond) :: rest => do
    let ok ← cmpCond v cond
    if ok then passes rest else some false

def seek : List (List AggValue × AggEntry) → Option (List (List AggValue × AggEntry))
  | [] => some []
  | e :: entries => do
    let ok ← passes (e.2.havingValues.zip ex.having)
    if ok then some (e :: entries) else seek entries

/-! ## The records -/

structure State (σ : Type) where
  prev : σ
  entries : List (List AggValue × AggEntry)
  isEmptyTable : Bool

/-- The flag of an empty table is set, and not set back. -/
def beginTuple [FloatOps] (fuel : Nat) (s : State σ) : Option (State σ) := do
  let prev ← ex.prev.beginTuple s.prev
  let (table, prev) ← ex.build fuel prev []
  let entries := ex.tableOrder.order table
  let isEmptyTable := s.isEmptyTable || (entries.isEmpty && !(!ex.groupBys.isEmpty && ex.hasGroupCol))
  let entries ← ex.seek entries
  some ⟨prev, entries, isEmptyTable⟩

def nextTuple (s : State σ) : Option (State σ) :=
  if s.isEmptyTable then some { s with isEmptyTable := false }
  else (ex.seek s.entries.tail).map fun entries => { s with entries := entries }

def isEnd (s : State σ) : Bool := if s.isEmptyTable then false else s.entries.isEmpty

/-- The bytes that are copied for a group, one `memcpy` behind the other: all
keys if the select list has one, then the aggregates. -/
def record (e : List AggValue × AggEntry) : List UInt8 :=
  (if ex.hasGroupCol then (e.1.zip ex.groupBys).flatMap fun (v, c) => v.raw.take c.len else []) ++
    (ex.items.zip e.2.values).flatMap fun (it, v) => it.written v

/-- `Next`: the bytes that are written into the record. For an empty table
there is only a zero for each `COUNT`. -/
def next (s : State σ) : Option (List UInt8 × State σ) :=
  if s.isEmptyTable then
    if ex.items.all fun it => it.agg = .count then some (ex.items.flatMap fun _ => bytesOf 0, s) else none
  else s.entries.head?.map fun e => (ex.record e, s)

def iter [FloatOps] (fuel : Nat) : Iter (State σ) (List UInt8) where
  beginTuple := ex.beginTuple fuel
  nextTuple := ex.nextTuple
  isEnd := isEnd
  next := ex.next

def entryIter [FloatOps] (fuel : Nat) : Iter (State σ) (List AggValue × AggEntry) :=
  { ex.iter fuel with next := fun s => if s.isEmptyTable then none else s.entries.head?.map fun e => (e, s) }

/-- The offsets of `ProjectionExecutor` over this executor: the columns of the
select list, one behind the other. -/
def projOffset (i : Nat) : Nat := ((ex.items.take i).map fun it => it.col.len).sum

end AggregateExecutor

end Rmdb.Execution
