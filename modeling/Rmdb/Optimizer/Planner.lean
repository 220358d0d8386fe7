/-
The planner, as far as a `SELECT` goes: how the conditions are given to the
tables, which index a table is scanned through, how the tables are joined, and
where a sort is put.

Subqueries are left out, and with them the conditions that hold one.
-/
import Rmdb.Execution.JoinCond

namespace Rmdb.Execution

def Cond.names (c : Cond) (col : TabCol) : Bool := c.lhsCol = col || c.rhsCol = col

def CompOp.swap : CompOp → CompOp
  | .eq => .eq
  | .ne => .ne
  | .lt => .gt
  | .gt => .lt
  | .le => .ge
  | .ge => .le

def Cond.swap (c : Cond) : Cond := { c with lhsCol := c.rhsCol, rhsCol := c.lhsCol, op := c.op.swap }

end Rmdb.Execution

namespace Rmdb.Optimizer

open Execution

inductive AggType where
  | count
  | max
  | min
  | sum
  | col
  deriving DecidableEq, Repr

structure ScanPlan where
  isIndexScan : Bool
  tabName : String
  conds : List Cond
  indexColNames : List String
  asc : Bool
  deriving DecidableEq, Repr

inductive JoinTag where
  | nestLoop
  | sortMerge
  deriving DecidableEq, Repr

inductive Plan where
  | scan (s : ScanPlan)
  | join (tag : JoinTag) (left right : Plan) (conds : List Cond)
  | sort (subplan : Plan) (selCol : TabCol) (isDesc : Bool)
  deriving DecidableEq, Repr

/-- What the planner reads and writes of a `Query` and its `SelectStmt`. -/
structure Query where
  tables : List String
  conds : List Cond
  aggTypes : List AggType
  asc : Bool
  limit : Int
  hasSort : Bool
  sortBys : TabCol
  isDesc : Bool
  deriving DecidableEq, Repr

/-- What it reads besides: the columns of the indexes of each table, the two
knobs, and the order in which a hash table is gone through. -/
structure Planner where
  indexes : String → List (List String)
  enableNestedloopJoin : Bool
  enableSortmergeJoin : Bool
  unordered : List Cond → List Cond
  unordered_perm : ∀ conds, (unordered conds).Perm conds

/-! ## The index of a scan -/

def indexSet (conds : List Cond) : List String := (conds.map fun c => c.lhsCol.colName).eraseDups

def condOf (conds : List Cond) (col : String) : Option Cond := conds.find? fun c => c.lhsCol.colName = col

/-- `repelicate_conds_map`: `emplace` keeps what is there, so a third condition
on a column is not in it. -/
def repeatOf (conds : List Cond) (col : String) : Option Cond := (conds.filter fun c => c.lhsCol.colName = col)[1]?

def matched (conds : List Cond) (ix : List String) : List String := ix.takeWhile fun col => col ∈ indexSet conds

def equals (conds : List Cond) (ix : List String) : Nat :=
  (matched conds ix).countP fun col => (condOf conds col).any fun c => c.op = .eq

structure Choice where
  maxLen : Nat
  maxEquals : Nat
  indexColNames : List String

def Choice.turn (conds : List Cond) (s : Choice) (ix : List String) : Choice :=
  let curLen := (matched conds ix).length
  if s.maxLen < curLen ∧ curLen < conds.length then { s with maxLen := curLen, indexColNames := ix }
  else if curLen = conds.length then
    if s.indexColNames = [] then { s with maxLen := curLen, indexColNames := ix }
    else if s.maxEquals < equals conds ix then ⟨curLen, equals conds ix, ix⟩
    else { s with maxLen := curLen }
  else s

namespace Planner

variable (p : Planner)

def chooseIndex (tabName : String) (conds : List Cond) : List String :=
  ((p.indexes tabName).foldl (Choice.turn conds) ⟨0, 0, []⟩).indexColNames

/-- `fed_conds`: those of the index, the others, and the second ones. -/
def fedConds (ix : List String) (conds : List Cond) : List Cond :=
  (ix.eraseDups.filter fun col => col ∈ indexSet conds).filterMap (condOf conds) ++
    p.unordered (((indexSet conds).filter fun col => col ∉ ix).filterMap (condOf conds)) ++
    p.unordered ((indexSet conds).filterMap (repeatOf conds))

/-- `get_index_cols`: `none` when there is no index, and then the conditions
stay as they are. -/
def getIndexCols (tabName : String) (conds : List Cond) : Option (List String × List Cond) :=
  if conds = [] ∨ p.indexes tabName = [] then none
  else
    let ix := p.chooseIndex tabName conds
    if ix = [] then none else some (ix, p.fedConds ix conds)

end Planner

/-! ## The scans -/

/-- Whether `pop_conds` gives a condition to a table. The second case does not
look at the table. -/
def popped (tabName : String) (c : Cond) : Bool :=
  (tabName = c.lhsCol.tabName && c.isRhsVal) || c.lhsCol.tabName = c.rhsCol.tabName

/-- `pop_conds`: the conditions of the table, and those that are left. -/
def popConds (conds : List Cond) (tabName : String) : List Cond × List Cond :=
  (conds.filter (popped tabName), conds.filter fun c => !popped tabName c)

/-- `MIN` and `MAX` become a scan that ends after the first row. -/
def Query.minMax (q : Query) : Query :=
  match q.aggTypes with
  | [.min] => { q with asc := true, limit := 1, aggTypes := [.col] }
  | [.max] => { q with asc := false, limit := 1, aggTypes := [.col] }
  | _ => q

namespace Planner

variable (p : Planner)

def scanTable (q : Query) (tabName : String) : ScanPlan × Query :=
  let (currConds, conds) := popConds q.conds tabName
  let q := { q with conds := conds }
  match p.getIndexCols tabName currConds with
  | none => (⟨false, tabName, currConds, [], true⟩, q)
  | some (ix, currConds) =>
    let q := if currConds.length ≤ ix.length then q.minMax else q
    let q := if q.hasSort ∧ currConds.any fun c => c.names q.sortBys then { q with hasSort := false } else q
    (⟨true, tabName, currConds, ix, q.asc⟩, q)

def scanTables : Query → List String → List ScanPlan × Query
  | q, [] => ([], q)
  | q, tabName :: tables =>
    let (scan, q) := p.scanTable q tabName
    let (scans, q) := scanTables q tables
    (scan :: scans, q)

end Planner

/-! ## The joins -/

/-- `push_conds`: 3 when the condition was put somewhere, 1 or 2 when the table
of its left or right side is here. It does not look below a sort. -/
def pushConds (cond : Cond) : Plan → Nat × Plan
  | .scan s =>
    (if s.tabName = cond.lhsCol.tabName then 1 else if s.tabName = cond.rhsCol.tabName then 2 else 0, .scan s)
  | .join tag left right conds =>
    let (leftRes, left) := pushConds cond left
    if leftRes = 3 then (3, .join tag left right conds)
    else
      let (rightRes, right) := pushConds cond right
      if rightRes = 3 then (3, .join tag left right conds)
      else if leftRes = 0 ∨ rightRes = 0 then (leftRes + rightRes, .join tag left right conds)
      else (3, .join tag left right (conds ++ [if leftRes = 2 then cond.swap else cond]))
  | .sort subplan selCol isDesc => (0, .sort subplan selCol isDesc)

/-- The tables that were popped, by number and by name. `joined_tables` begins
with as many empty names as there are tables. -/
structure Popped where
  scantbl : List Nat
  joinedTables : List String
  deriving DecidableEq, Repr

/-- `pop_scan`; `none` is the null pointer. -/
def popScan (scans : List ScanPlan) (table : String) (s : Popped) : Option ScanPlan × Popped :=
  match scans.findIdx? fun scan => scan.tabName = table with
  | some i => (scans[i]?, ⟨i :: s.scantbl, s.joinedTables ++ [table]⟩)
  | none => (none, s)

namespace Planner

variable (p : Planner)

/-- A scan of the first join is turned into an index scan when there is an
index on the join column. The join condition goes to the front of its
conditions. -/
def indexJoin (scan : ScanPlan) (tabName : String) (joinConds : List Cond) : ScanPlan × List Cond :=
  if scan.isIndexScan then (scan, joinConds)
  else
    match p.getIndexCols tabName joinConds with
    | none => (scan, joinConds)
    | some (ix, fed) =>
      ({ scan with isIndexScan := true, conds := fed.take 1 ++ scan.conds, indexColNames := ix }, fed)

/-- A child of the first join. The four branches on the tags put a sort over
each child that is not an index scan. -/
def sortChild (sorts : Bool) (scan : ScanPlan) (col : TabCol) (isDesc : Bool) : Plan :=
  if sorts ∧ ¬ scan.isIndexScan then .sort (.scan scan) col isDesc else .scan scan

def isOrdered : Plan → Bool
  | .scan s => s.isIndexScan
  | .join .. => false
  | .sort .. => true

/-- Which join is built; `none` is the exception that none is selected. -/
def joinTag (left right : Plan) : Option JoinTag :=
  if p.enableNestedloopJoin then some .nestLoop
  else if p.enableSortmergeJoin then some (if isOrdered left && isOrdered right then .sortMerge else .nestLoop)
  else none

/-- The first join; `none` is an exception or a null pointer that is read. -/
def firstJoin (q : Query) (scans : List ScanPlan) (cond : Cond) : Option (Plan × Popped × Query) := do
  let s : Popped := ⟨[], List.replicate q.tables.length ""⟩
  let (left, s) := popScan scans cond.lhsCol.tabName s
  let (right, s) := popScan scans cond.rhsCol.tabName s
  let (left, joinConds) := p.indexJoin (← left) cond.lhsCol.tabName [cond]
  -- the sides are exchanged, the operator is not
  let rightConds := joinConds.map fun c => { c with lhsCol := c.rhsCol, rhsCol := c.lhsCol }
  let (right, _) := p.indexJoin (← right) cond.rhsCol.tabName rightConds
  let sorts := q.hasSort && joinConds.any fun c => c.names q.sortBys
  let left := sortChild sorts left cond.lhsCol q.isDesc
  let right := sortChild sorts right cond.rhsCol q.isDesc
  let tag ← p.joinTag left right
  some (.join tag left right joinConds, s, if sorts then { q with hasSort := false } else q)

/-- A condition after the first; `none` is a null pointer in the plan. -/
def laterJoin (scans : List ScanPlan) (s : Plan × Popped) (cond : Cond) : Option (Plan × Popped) :=
  let (plan, s) := s
  let (left, s) :=
    if cond.lhsCol.tabName ∈ s.joinedTables then (none, s) else popScan scans cond.lhsCol.tabName s
  let isneedreverse : Bool := cond.rhsCol.tabName ∉ s.joinedTables
  let (right, s) := if isneedreverse then popScan scans cond.rhsCol.tabName s else (none, s)
  match left, right with
  | some left, some right =>
    some (.join .nestLoop (.join .nestLoop (.scan left) (.scan right) [cond]) plan [], s)
  | some left, none => if isneedreverse then none else some (.join .nestLoop (.scan left) plan [cond], s)
  | none, some right => some (.join .nestLoop (.scan right) plan [cond.swap], s)
  | none, none => some ((pushConds cond plan).2, s)

def joinRest (scantbl : List Nat) : List ScanPlan → Nat → Plan → Plan
  | [], _, plan => plan
  | scan :: scans, i, plan =>
    joinRest scantbl scans (i + 1) (if i ∈ scantbl then plan else .join .nestLoop (.scan scan) plan [])

def joinScans (scans : List ScanPlan) (q : Query) : Option (Plan × Query) :=
  match scans, q.conds with
  | [], _ => none
  | [scan], _ => some (.scan scan, q)
  | scan :: scans, [] => some (joinRest [0] (scan :: scans) 0 (.scan scan), { q with conds := [] })
  | scans, cond :: conds => do
    let (plan, s, q) ← p.firstJoin q scans cond
    let (plan, s) ← conds.foldlM (laterJoin scans) (plan, s)
    some (joinRest s.scantbl scans 0 plan, { q with conds := [] })

def makeOneRel (q : Query) : Option (Plan × Query) :=
  let (scans, q) := p.scanTables q q.tables
  p.joinScans scans q

end Planner

def generateSortPlan (q : Query) (plan : Plan) : Plan :=
  if q.hasSort then .sort plan q.sortBys q.isDesc else plan

def Planner.physicalOptimization (p : Planner) (q : Query) : Option (Plan × Query) := do
  let (plan, q) ← p.makeOneRel q
  some (generateSortPlan q plan, q)

end Rmdb.Optimizer
