/-
Statements, transactions and the client's requests.

A session has the tables, the write set of its transaction and whether that is an
explicit one. `INSERT`, `DELETE` and `UPDATE` go through the analyser, the portal
and their executor; `client_handler` reports an `RMDBError` and goes on, and
commits after each statement outside of an explicit transaction. The scan runs
before the executor, so a statement has the rids it gave.
-/
import Rmdb.Execution.Row

namespace Rmdb.Execution

open Index Record

abbrev Schema := List TabMeta

def Schema.getTable (S : Schema) (tabName : String) : Except RMDBError (Fin S.length) :=
  match (List.finRange S.length).find? fun t => (S.get t).name = tabName with
  | some t => .ok t
  | none => .error (.tableNotFound tabName)

/-- `WriteRecord`: what `abort` takes back. -/
inductive WriteRecord where
  | insert (tabName : String) (rid : Rid) (rec : List UInt8)
  | delete (tabName : String) (rid : Rid) (rec : List UInt8)
  | update (tabName : String) (rid : Rid) (old updated : List UInt8) (isSetIndexKey : Bool)

abbrev Db (S : Schema) := (t : Fin S.length) → Table (S.get t)

/-- The write set has the last record first. -/
structure Session (S : Schema) where
  db : Db S
  writeSet : List WriteRecord
  txnMode : Bool

def Session.create (S : Schema) : Session S where
  db t := .create (S.get t)
  writeSet := []
  txnMode := false

variable {S : Schema} {α : Type}

abbrev SesExec (S : Schema) := Exec Fault (Session S)

def onTable (t : Fin S.length) (x : TabExec (S.get t) α) : SesExec S α :=
  .zoom (fun s => s.db t) (fun T s => { s with db := Function.update s.db t T }) x

def ofExcept (x : Except RMDBError α) : SesExec S α := .ofExcept (x.mapError .rmdb)

def appendWriteRecord (w : WriteRecord) : SesExec S Unit := .modify fun s => { s with writeSet := w :: s.writeSet }

/-! ## Statements -/

inductive ScanBy where
  | seq
  | index (colNames : List String)

/-- What a scan gave: no record comes twice. -/
abbrev Rids := { rids : List Rid // rids.Nodup }

structure SetExpr where
  colName : String
  rhs : Value
  isIncr : Bool

/-- `safe` is the lock manager's answer for the gap of each index. -/
inductive Stmt where
  | insert (tabName : String) (values : List Value) (safe : String → Bool)
  | delete (tabName : String) (rids : Rids)
  | update (tabName : String) (sets : List SetExpr) (scan : ScanBy) (rids : Rids)

section

variable [FloatOps]

def makeRecord (m : TabMeta) (values : List Value) : Except RMDBError (List UInt8) :=
  (m.cols.zip values).foldlM (fun rec (col, val) => (col.rawOf val).map fun raw => col.write rec raw)
    (List.replicate m.recordSize 0)

def insertStmt (tabName : String) (values : List Value) (safe : String → Bool) : SesExec S Unit := do
  let t ← ofExcept (S.getTable tabName)
  if values.length ≠ (S.get t).cols.length then .raise (.rmdb .invalidValueCount)
  else do
    let rec ← ofExcept (makeRecord (S.get t) values)
    let rid ← onTable t (insertNext safe rec)
    appendWriteRecord (.insert tabName rid rec)

def deleteStmt (tabName : String) (rids : Rids) : SesExec S Unit := do
  let t ← ofExcept (S.getTable tabName)
  rids.val.forM fun rid => do
    let rec ← onTable t (deleteNext rid)
    appendWriteRecord (.delete tabName rid rec)

/-- `Analyze::do_analyze` of the clauses: columns exist, types agree, strings fit. -/
def analyzeSets (m : TabMeta) (sets : List SetExpr) : Except RMDBError (List SetClause) :=
  sets.mapM fun set => do
    let col ← m.getCol set.colName
    let raw ← col.rawOf set.rhs
    .ok { col := col, raw := raw, isIncr := set.isIncr }

/-- `Portal::start`: whether the executor is to maintain the indexes. With an
index scan only the columns of that index are looked at. -/
def isSetIndexKey (m : TabMeta) (scan : ScanBy) (sets : List SetClause) : Except RMDBError Bool :=
  match scan with
  | .seq => .ok true
  | .index colNames => (m.getIndexMeta colNames).map fun ix => sets.any fun set => set.col.name ∈ ix.colNames

def updateStmt (tabName : String) (sets : List SetExpr) (scan : ScanBy) (rids : Rids) : SesExec S Unit := do
  let t ← ofExcept (S.getTable tabName)
  let sets ← ofExcept (analyzeSets (S.get t) sets)
  let isSetIndexKey ← ofExcept (isSetIndexKey (S.get t) scan sets)
  rids.val.forM fun rid => do
    let (old, updated) ← onTable t (updateNext sets isSetIndexKey rid)
    appendWriteRecord (.update tabName rid old updated isSetIndexKey)

def Stmt.run : Stmt → SesExec S Unit
  | .insert tabName values safe => insertStmt tabName values safe
  | .delete tabName rids => deleteStmt tabName rids
  | .update tabName sets scan rids => updateStmt tabName sets scan rids

end

/-! ## Transactions -/

def WriteRecord.tabName : WriteRecord → String
  | .insert tabName _ _ => tabName
  | .delete tabName _ _ => tabName
  | .update tabName _ _ _ _ => tabName

def WriteRecord.undo {m : TabMeta} : WriteRecord → TabExec m Unit
  | .insert _ rid rec => rollbackInsert rid rec
  | .delete _ rid rec => rollbackDelete rid rec
  | .update _ rid old updated isSetIndexKey => rollbackUpdate rid old updated isSetIndexKey

def rollback (w : WriteRecord) : SesExec S Unit := do
  let t ← ofExcept (S.getTable w.tabName)
  onTable t w.undo

def Session.endTxn (s : Session S) : Session S := { s with writeSet := [], txnMode := false }

def commit : SesExec S Unit := .modify Session.endTxn

def abort : SesExec S Unit := do
  let writeSet ← .asks Session.writeSet
  writeSet.forM rollback
  .modify Session.endTxn

/-! ## The client's requests -/

inductive Request where
  | begin
  | stmt (st : Stmt)
  | commit
  | abort

def Request.run [FloatOps] : Request → SesExec S Unit
  | .begin => .modify fun s => { s with txnMode := true }
  | .stmt st => st.run
  | .commit => Execution.commit
  | .abort => Execution.abort

def Session.autoCommit (s : Session S) : Session S := if s.txnMode = false then s.endTxn else s

def clientHandler [FloatOps] (s : Session S) (r : Request) : Option (Option RMDBError × Session S) :=
  match r.run s with
  | (.ok (), s') => some (none, s'.autoCommit)
  | (.error (.rmdb e), s') => some (some e, s'.autoCommit)
  | (.error .crash, _) => none

end Rmdb.Execution
