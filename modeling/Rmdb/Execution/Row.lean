/-
One row of a table: what the executors do for it, and how `abort` takes it back.

A table is a heap file and the indexes over it.
-/
import Rmdb.Index.Map
import Rmdb.Lib.Exec
import Rmdb.Record.Heap
import Rmdb.System.Meta

namespace Rmdb.Execution

open Index Record

/-- How a program ends that does not return: with an exception of class
`RMDBError`, or with an access that the process does not survive. -/
inductive Fault where
  | rmdb (e : RMDBError)
  | crash

structure Table (m : TabMeta) where
  fh : RmFileHandle
  ihs : (i : Fin m.indexes.length) → IxIndexHandle (Key (m.ix i).keyCols) (btreeOrder (m.ix i).keyCols)

def Table.create (m : TabMeta) : Table m where
  fh := .createFile m.recordSize
  ihs i := openIndex (m.ix i).newFile

variable {m : TabMeta} {α : Type}

abbrev TabExec (m : TabMeta) := Exec Fault (Table m)

/-! ## The calls the executors make -/

def onFile (f : RmFileHandle → Except RMDBError (α × RmFileHandle)) : TabExec m α := fun T =>
  match f T.fh with
  | .ok (a, fh) => (.ok a, { T with fh := fh })
  | .error e => (.error (.rmdb e), T)

def onIndex (i : Fin m.indexes.length)
    (f : IxIndexHandle (Key (m.ix i).keyCols) (btreeOrder (m.ix i).keyCols) →
      Option (α × IxIndexHandle (Key (m.ix i).keyCols) (btreeOrder (m.ix i).keyCols))) : TabExec m α := fun T =>
  match f (T.ihs i) with
  | some (a, ih) => (.ok a, { T with ihs := Function.update T.ihs i ih })
  | none => (.error .crash, T)

def getRecord (rid : Rid) : TabExec m (List UInt8) := onFile fun fh => (fh.getRecord rid).map fun rec => (rec, fh)

def insertRecord (buf : List UInt8) : TabExec m Rid := onFile fun fh => fh.insertRecord buf

def insertRecordAt (rid : Rid) (buf : List UInt8) : TabExec m Unit :=
  onFile fun fh => (fh.insertRecordAt rid buf).map fun fh => ((), fh)

def deleteRecord (rid : Rid) : TabExec m Unit := onFile fun fh => (fh.deleteRecord rid).map fun fh => ((), fh)

def updateRecord (rid : Rid) (buf : List UInt8) : TabExec m Unit :=
  onFile fun fh => (fh.updateRecord rid buf).map fun fh => ((), fh)

def isUnique (i : Fin m.indexes.length) (key : Key (m.ix i).keyCols) : TabExec m (Bool × Option Rid) :=
  onIndex i fun ih => (ih.isUnique key).map fun r => (r, ih)

def insertEntry (i : Fin m.indexes.length) (key : Key (m.ix i).keyCols) (rid : Rid) : TabExec m Unit :=
  onIndex i fun ih => (ih.insertEntry key rid).map fun (_, ih) => ((), ih)

def deleteEntry (i : Fin m.indexes.length) (key : Key (m.ix i).keyCols) : TabExec m Unit :=
  onIndex i fun ih => (ih.deleteEntry key).map fun (_, ih) => ((), ih)

/-- `for (auto& [ix_name, index] : tab_.indexes)` -/
def forIndexes (f : Fin m.indexes.length → TabExec m Unit) : TabExec m Unit := (List.finRange _).forM f

/-! ## One row -/

/-- `InsertExecutor::Next` once the record is made up. `safe` is the lock
manager's answer (`isSafeInGap`) for the gap of each index. -/
def insertNext (safe : String → Bool) (rec : List UInt8) : TabExec m Rid := do
  forIndexes fun i => do
    let (unique, _) ← isUnique i ((m.ix i).key rec)
    if safe (m.ix i).name = false ∨ unique = false then .raise (.rmdb (.nonUniqueIndex [(m.ix i).name])) else pure ()
  let rid ← insertRecord rec
  forIndexes fun i => insertEntry i ((m.ix i).key rec) rid
  pure rid

def deleteNext (rid : Rid) : TabExec m (List UInt8) := do
  let rec ← getRecord rid
  forIndexes fun i => deleteEntry i ((m.ix i).key rec)
  deleteRecord rid
  pure rec

structure SetClause where
  col : ColMeta
  raw : List UInt8
  isIncr : Bool

def SetClause.apply [FloatOps] (rec : List UInt8) (set : SetClause) : Except RMDBError (List UInt8) :=
  if set.isIncr then (add (set.col.read rec) set.raw set.col.type).map fun v => set.col.write rec v
  else .ok (set.col.write rec set.raw)

def setAll [FloatOps] (sets : List SetClause) (rec : List UInt8) : Except RMDBError (List UInt8) :=
  sets.foldlM SetClause.apply rec

def checkUnique (rid : Rid) (updated : List UInt8) : TabExec m Unit :=
  forIndexes fun i => do
    let (unique, found) ← isUnique i ((m.ix i).key updated)
    if unique = false ∧ found ≠ some rid then .raise (.rmdb (.nonUniqueIndex [(m.ix i).name])) else pure ()

def updateNext [FloatOps] (sets : List SetClause) (isSetIndexKey : Bool) (rid : Rid) :
    TabExec m (List UInt8 × List UInt8) := do
  let old ← getRecord rid
  let updated ← .ofExcept ((setAll sets old).mapError .rmdb)
  .when isSetIndexKey do
    checkUnique rid updated
    forIndexes fun i => do
      deleteEntry i ((m.ix i).key old)
      insertEntry i ((m.ix i).key updated) rid
  updateRecord rid updated
  pure (old, updated)

/-! ## Taking a row back: the cases of `TransactionManager::abort` -/

def rollbackInsert (rid : Rid) (rec : List UInt8) : TabExec m Unit := do
  deleteRecord rid
  forIndexes fun i => deleteEntry i ((m.ix i).key rec)

def rollbackDelete (rid : Rid) (rec : List UInt8) : TabExec m Unit := do
  insertRecordAt rid rec
  forIndexes fun i => insertEntry i ((m.ix i).key rec) rid

def rollbackUpdate (rid : Rid) (old updated : List UInt8) (isSetIndexKey : Bool) : TabExec m Unit := do
  updateRecord rid old
  .when isSetIndexKey do
    forIndexes fun i => do
      deleteEntry i ((m.ix i).key updated)
      insertEntry i ((m.ix i).key old) rid

end Rmdb.Execution
