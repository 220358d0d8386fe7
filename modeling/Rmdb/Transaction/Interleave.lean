/-
Several transactions on one table.

Each step is one row of a statement, a commit or an abort. `delete_record`
frees a slot at once, and an `INSERT` of another transaction may take it before
the delete is final. `abort` then puts the old record into a slot of another's.

Where no transaction comes near what stands in another's write set, an abort
leaves the others' rows alone: that is `Undo.LogsOK`, of the records by their
rids and the keys of the indexes. The chain of free pages is not looked at.
-/
import Rmdb.Lib.Undo
import Rmdb.Transaction.Rollback
import Rmdb.Transaction.LockManager

namespace Rmdb

open Function List Index Undo

/-! ## Slots, whatever the chain -/

namespace Record

theorem RmPage.firstFree_free {pg : RmPage} {n : Nat} (h : pg.firstFree n < n) : pg.slots (pg.firstFree n : Int) = none := by
  rw [RmPage.firstFree] at h ⊢
  cases hfind : (List.range n).find? fun i : Nat => (pg.slots i).isNone with
  | none => simp [hfind] at h
  | some i => simpa [hfind] using List.find?_some hfind

namespace RmFileHandle

/-- The slot that `insert_record` takes. -/
def nextRid (h : RmFileHandle) : Option Rid :=
  match h.createPageHandle with
  | .ok (p, h) => some ⟨p, (h.pages p).firstFree h.numRecordsPerPage⟩
  | .error _ => none

variable {h : RmFileHandle}

theorem createPageHandle_eq {h' : RmFileHandle} {p : Int} (hstart : 0 ≤ h.numPages) (hcreate : h.createPageHandle = .ok (p, h')) :
    0 ≤ p ∧ p < h'.numPages ∧ h.numPages ≤ h'.numPages ∧ h'.numRecordsPerPage = h.numRecordsPerPage ∧ h'.live = h.live := by
  rw [createPageHandle] at hcreate
  split_ifs at hcreate with hnone
  · cases hcreate
    refine ⟨hstart, by simp, by simp, rfl, funext fun rid => ?_⟩
    by_cases hp : rid.pageNo = h.numPages
    · simp [live, hp]
    · have hlt : rid.pageNo < h.numPages + 1 ↔ rid.pageNo < h.numPages := by omega
      simp [live, hp, hlt]
  · rw [fetchPageHandle] at hcreate
    split_ifs at hcreate with hrange
    · simp at hcreate
    · rw [ok_bind] at hcreate
      cases hcreate
      exact ⟨by omega, by omega, le_rfl, rfl, rfl⟩

theorem insertRecord_eq (hstart : 0 ≤ h.numPages) {rid : Rid} (hnext : h.nextRid = some rid)
    (hslot : rid.slotNo < h.numRecordsPerPage) (buf : List UInt8) :
    ∃ h', h.insertRecord buf = .ok (rid, h') ∧ h.live rid = none ∧ h'.live = update h.live rid (some buf) ∧
      h.numPages ≤ h'.numPages ∧ 0 ≤ rid.pageNo ∧ rid.pageNo < h'.numPages := by
  rw [nextRid] at hnext
  cases hcreate : h.createPageHandle with
  | error e => simp [hcreate] at hnext
  | ok r =>
    obtain ⟨p, h₁⟩ := r
    simp only [hcreate, Option.some.injEq] at hnext
    obtain ⟨h0, hp, hle, hper, hlive⟩ := createPageHandle_eq hstart hcreate
    subst hnext
    have hslot : ((h₁.pages p).firstFree h₁.numRecordsPerPage : Int) < h.numRecordsPerPage := hslot
    have hfree : (h₁.pages p).slots ((h₁.pages p).firstFree h₁.numRecordsPerPage : Int) = none :=
      RmPage.firstFree_free (by omega)
    refine ⟨h₁.fillSlot ⟨p, (h₁.pages p).firstFree h₁.numRecordsPerPage⟩ buf, by simp [insertRecord, hcreate],
      ?_, ?_, ?_, h0, ?_⟩
    · rw [← hlive, live]
      simp [hfree]
    · rw [← hlive]
      exact live_fillSlot h0 hp buf
    · rw [fillSlot_eq]
      exact hle
    · rw [fillSlot_eq]
      exact hp

variable {r : List UInt8}

theorem deleteRecord_eq {rid : Rid} (hlive : h.live rid = some r) :
    ∃ h', h.deleteRecord rid = .ok h' ∧ h'.live = update h.live rid none ∧ h'.numPages = h.numPages := by
  obtain ⟨h0, hp, hslot, hfetch⟩ := live_some hlive
  refine ⟨h.clearSlot rid, by simp [deleteRecord, hfetch, hslot], live_clearSlot h0 hp, ?_⟩
  rw [clearSlot_eq]
  rfl

theorem updateRecord_eq {rid : Rid} (hlive : h.live rid = some r) (buf : List UInt8) :
    ∃ h', h.updateRecord rid buf = .ok h' ∧ h'.live = update h.live rid (some buf) ∧ h'.numPages = h.numPages := by
  obtain ⟨h0, hp, hslot, hfetch⟩ := live_some hlive
  exact ⟨h.writeSlot rid buf, by simp [updateRecord, hfetch, hslot], live_setPage h0 hp rfl, rfl⟩

theorem insertRecordAt_eq {rid : Rid} (h0 : 0 ≤ rid.pageNo) (hp : rid.pageNo < h.numPages) (buf : List UInt8) :
    ∃ h', h.insertRecordAt rid buf = .ok h' ∧ h'.live = update h.live rid (some buf) ∧ h'.numPages = h.numPages := by
  have hfetch : h.fetchPageHandle rid.pageNo = .ok (h.pages rid.pageNo) := by rw [fetchPageHandle, if_neg (by omega)]
  cases hslot : (h.pages rid.pageNo).slots rid.slotNo with
  | none =>
    refine ⟨h.fillSlot rid buf, by simp [insertRecordAt, hfetch, hslot], live_fillSlot h0 hp buf, ?_⟩
    rw [fillSlot_eq]
    rfl
  | some r => exact ⟨h.writeSlot rid buf, by simp [insertRecordAt, hfetch, hslot], live_setPage h0 hp rfl, rfl⟩

end RmFileHandle

end Record

namespace Execution

open Record Exec

variable {m : TabMeta}

/-! ## Rows, whatever the chain -/

section Rows

variable {T : Table m} {A : Content m} {rid : Rid} {rec old updated : List UInt8}

theorem insertNext_carries (h : T.Carries A) (hstart : 0 ≤ T.fh.numPages) (hnext : T.fh.nextRid = some rid)
    (hslot : rid.slotNo < T.fh.numRecordsPerPage) (safe : String → Bool) :
    wp (insertNext safe rec)
      (fun rid' T' => rid' = rid ∧ A.live rid = none ∧ (∀ i, A.map i ((m.ix i).key rec) = none) ∧
        T'.Carries (A.insert rid rec) ∧ T.fh.numPages ≤ T'.fh.numPages ∧ 0 ≤ rid.pageNo ∧ rid.pageNo < T'.fh.numPages)
      (fun e T' => T' = T ∧ ∃ err, e = .rmdb err) T := by
  rw [insertNext, wp_bind]
  refine wp_mono (wp_forIndexes_check (P := fun i => A.map i ((m.ix i).key rec) = none) fun i => ?_) ?_ fun _ _ h => h
  · rw [wp_bind, wp_isUnique (h.map i)]
    simp only
    split_ifs with hc
    · exact ⟨rfl, _, rfl⟩
    · exact ⟨rfl, by simpa using fun hne => hc (.inr hne)⟩
  · intro _ T₁ hT₁
    obtain ⟨rfl, hfree⟩ := hT₁
    obtain ⟨fh, hins, hdead, hlive, hle, h0, hp⟩ := RmFileHandle.insertRecord_eq hstart hnext hslot rec
    rw [h.live] at hdead hlive
    rw [wp_bind, insertRecord, wp_onFile hins, wp_bind]
    refine wp_mono (wp_insertEntries (T := { T₁ with fh := fh }) h.map _ rid) ?_ fun _ _ h => h
    intro _ T' hT'
    have hfh : T'.fh = fh := hT'.1
    refine ⟨rfl, hdead, hfree, ⟨hfh ▸ hlive, fun i => ?_⟩, hfh ▸ hle, h0, hfh ▸ hp⟩
    have hmap := hT'.2 i
    rwa [addEntry_of_none (hfree i)] at hmap

theorem deleteNext_carries (h : T.Carries A) (rid : Rid) :
    wp (deleteNext rid)
      (fun rec T' => A.live rid = some rec ∧ T'.Carries (A.delete rid rec) ∧ T'.fh.numPages = T.fh.numPages)
      (fun e T' => T' = T ∧ ∃ err, e = .rmdb err) T := by
  rw [deleteNext, wp_bind]
  refine wp_getRecord h (fun rec hrec => ?_) fun _ err => ⟨rfl, err, rfl⟩
  rw [wp_bind]
  refine wp_mono (wp_deleteEntries h.map _) ?_ fun _ _ h => h
  intro _ T₁ hT₁
  obtain ⟨fh, hdel, hlive, hnum⟩ := RmFileHandle.deleteRecord_eq (h.live ▸ hrec)
  rw [h.live] at hlive
  rw [wp_bind, deleteRecord, wp_onFile (a := ()) (by rw [hT₁.1, hdel]; rfl)]
  exact ⟨hrec, ⟨hlive, hT₁.2⟩, hnum⟩

theorem updateNext_carries [FloatOps] (h : T.Carries A) (sets : List SetClause) (isSetIndexKey : Bool) (rid : Rid) :
    wp (updateNext sets isSetIndexKey rid)
      (fun r T' => A.live rid = some r.1 ∧ setAll sets r.1 = .ok r.2 ∧ (isSetIndexKey = true → A.Free rid r.2) ∧
        T'.Carries (A.update rid r.1 r.2 isSetIndexKey) ∧ T'.fh.numPages = T.fh.numPages)
      (fun e T' => T' = T ∧ ∃ err, e = .rmdb err) T := by
  rw [updateNext, wp_bind]
  refine wp_getRecord h (fun old hold => ?_) fun _ err => ⟨rfl, err, rfl⟩
  rw [wp_bind]
  cases hset : setAll sets old with
  | error err => exact ⟨rfl, err, rfl⟩
  | ok updated =>
    refine wp_ofExcept (fun a ha => ?_) fun e he => by simp [Except.mapError] at he
    obtain rfl : updated = a := by simpa [Except.mapError] using ha
    rw [wp_bind]
    refine wp_mono (maintain_spec h isSetIndexKey fun _ _ err => ⟨rfl, err, rfl⟩) ?_ fun _ _ h => h
    intro _ T₁ hT₁
    obtain ⟨hfh, hmap, hfree⟩ := hT₁
    obtain ⟨fh, hupd, hlive, hnum⟩ := RmFileHandle.updateRecord_eq (h.live ▸ hold) updated
    rw [h.live] at hlive
    rw [wp_bind, updateRecord, wp_onFile (a := ()) (by rw [hfh, hupd]; rfl)]
    exact ⟨hold, hset, hfree, ⟨hlive, hmap⟩, hnum⟩

theorem rollbackInsert_carries (h : T.Carries A) (hlive : A.live rid = some rec) :
    wp (rollbackInsert rid rec) (fun _ T' => T'.Carries (A.delete rid rec) ∧ T'.fh.numPages = T.fh.numPages)
      (fun _ _ => False) T := by
  obtain ⟨fh, hdel, hlive', hnum⟩ := RmFileHandle.deleteRecord_eq (h.live ▸ hlive)
  rw [h.live] at hlive'
  rw [rollbackInsert, wp_bind, deleteRecord, wp_onFile (a := ()) (by rw [hdel]; rfl)]
  refine wp_mono (wp_deleteEntries (T := { T with fh := fh }) h.map _) (fun _ T' hT' => ?_) fun _ _ h => h
  have hfh : T'.fh = fh := hT'.1
  exact ⟨⟨hfh ▸ hlive', hT'.2⟩, hfh ▸ hnum⟩

theorem rollbackDelete_carries (h : T.Carries A) (h0 : 0 ≤ rid.pageNo) (hp : rid.pageNo < T.fh.numPages)
    (hfree : ∀ i, A.map i ((m.ix i).key rec) = none) :
    wp (rollbackDelete rid rec) (fun _ T' => T'.Carries (A.insert rid rec) ∧ T'.fh.numPages = T.fh.numPages)
      (fun _ _ => False) T := by
  obtain ⟨fh, hins, hlive', hnum⟩ := RmFileHandle.insertRecordAt_eq h0 hp rec
  rw [h.live] at hlive'
  rw [rollbackDelete, wp_bind, insertRecordAt, wp_onFile (a := ()) (by rw [hins]; rfl)]
  refine wp_mono (wp_insertEntries (T := { T with fh := fh }) h.map _ rid) (fun _ T' hT' => ?_) fun _ _ h => h
  have hfh : T'.fh = fh := hT'.1
  refine ⟨⟨hfh ▸ hlive', fun i => ?_⟩, hfh ▸ hnum⟩
  have hmap := hT'.2 i
  rwa [addEntry_of_none (hfree i)] at hmap

theorem rollbackUpdate_carries (h : T.Carries A) (hlive : A.live rid = some updated) (isSetIndexKey : Bool) :
    wp (rollbackUpdate rid old updated isSetIndexKey)
      (fun _ T' => T'.Carries (A.update rid updated old isSetIndexKey) ∧ T'.fh.numPages = T.fh.numPages)
      (fun _ _ => False) T := by
  obtain ⟨fh, hupd, hlive', hnum⟩ := RmFileHandle.updateRecord_eq (h.live ▸ hlive) old
  rw [h.live] at hlive'
  rw [rollbackUpdate, wp_bind, updateRecord, wp_onFile (a := ()) (by rw [hupd]; rfl)]
  refine wp_when (fun hc => ?_) fun hc => ?_
  · refine wp_mono (wp_replaceEntries (T := { T with fh := fh }) h.map _ _ rid) (fun _ T' hT' => ?_) fun _ _ h => h
    have hfh : T'.fh = fh := hT'.1
    refine ⟨⟨hfh ▸ hlive', fun i => ?_⟩, hfh ▸ hnum⟩
    simpa only [Content.update, hc, if_true] using hT'.2 i
  · exact ⟨⟨hlive', fun i => by simpa [Content.update, hc] using h.map i⟩, hnum⟩

end Rows

/-! ## Several transactions -/

open Lock (TxnId)

def WriteRecord.write : WriteRecord → Write Rid (List UInt8)
  | .insert _ rid rec => ⟨rid, none, some rec⟩
  | .delete _ rid rec => ⟨rid, some rec, none⟩
  | .update _ rid old updated _ => ⟨rid, some old, some updated⟩

/-- A table and the write sets on it. `owner` has the transaction that
inserted or last updated the record at a rid, and a write set remembers whose
the record was before. -/
structure Shared (m : TabMeta) where
  table : Table m
  log : TxnId → List (WriteRecord × Option TxnId)
  owner : Rid → Option TxnId

inductive RowStep where
  | insert (t : TxnId) (rec : List UInt8) (safe : String → Bool)
  | delete (t : TxnId) (rid : Rid)
  | update (t : TxnId) (sets : List SetClause) (isSetIndexKey : Bool) (rid : Rid)
  | commit (t : TxnId)
  | abort (t : TxnId)

namespace Shared

def record (s : Shared m) (T : Table m) (t : TxnId) (w : WriteRecord) (owner : Option TxnId) : Shared m where
  table := T
  log := update s.log t ((w, s.owner w.write.row) :: s.log t)
  owner := update s.owner w.write.row owner

def finish {α : Type} (s : Shared m) (f : α → Table m → Shared m) : Except Fault α × Table m → Option (Option RMDBError × Shared m)
  | (.ok a, T) => some (none, f a T)
  | (.error (.rmdb e), T) => some (some e, { s with table := T })
  | (.error .crash, _) => none

def step [FloatOps] (s : Shared m) : RowStep → Option (Option RMDBError × Shared m)
  | .insert t rec safe => s.finish (fun rid T => s.record T t (.insert m.name rid rec) (some t)) (insertNext safe rec s.table)
  | .delete t rid => s.finish (fun rec T => s.record T t (.delete m.name rid rec) none) (deleteNext rid s.table)
  | .update t sets isSetIndexKey rid =>
    s.finish (fun r T => s.record T t (.update m.name rid r.1 r.2 isSetIndexKey) (some t))
      (updateNext sets isSetIndexKey rid s.table)
  | .commit t => some (none, { s with log := update s.log t [] })
  | .abort t =>
    s.finish (fun _ T =>
      { table := T
        log := update s.log t []
        owner := (s.log t).foldl (fun o w => update o w.1.write.row w.2) s.owner })
      ((s.log t).forM (fun w => w.1.undo) s.table)

def writes (s : Shared m) (t : TxnId) : List (Write Rid (List UInt8)) := (s.log t).map fun w => w.1.write

end Shared

def rowKey (m : TabMeta) (i : Fin m.indexes.length) (rec : List UInt8) : Key (m.ix i).keyCols := (m.ix i).key rec

/-- The step touches no row and takes no key that stands in the write set of
another transaction. An `INSERT` finds a free slot, and an `UPDATE` that
leaves the indexes alone changes no key. -/
def KeepsOff [FloatOps] (s : Shared m) : RowStep → Prop
  | .insert t rec _ => ∃ rid, s.table.fh.nextRid = some rid ∧ rid.slotNo < s.table.fh.numRecordsPerPage ∧
      ∀ u ≠ t, ¬ Touched (s.writes u) rid ∧ Apart (rowKey m) (s.writes u) rec
  | .delete t rid => ∀ u ≠ t, ¬ Touched (s.writes u) rid
  | .update t sets isSetIndexKey rid => (∀ u ≠ t, ¬ Touched (s.writes u) rid) ∧
      ∀ old updated, s.table.fh.live rid = some old → setAll sets old = .ok updated →
        (∀ u ≠ t, Apart (rowKey m) (s.writes u) updated) ∧
          (isSetIndexKey = false → ∀ i, rowKey m i updated = rowKey m i old)
  | .commit _ => True
  | .abort _ => True

def WriteRecord.KeepsKeys (m : TabMeta) : WriteRecord → Prop
  | .update _ _ old updated isSetIndexKey => isSetIndexKey = false → ∀ i, rowKey m i updated = rowKey m i old
  | _ => True

structure SharedOK (s : Shared m) : Prop where
  start : 0 ≤ s.table.fh.numPages
  rows : ∃ A, s.table.Carries A ∧ A.Agree ∧ LogsOK (rowKey m) A.live s.writes
  pages : ∀ t, ∀ w ∈ s.log t, 0 ≤ w.1.write.row.pageNo ∧ w.1.write.row.pageNo < s.table.fh.numPages
  keys : ∀ t, ∀ w ∈ s.log t, w.1.KeepsKeys m
  owner : ∀ t rid, Touched (s.writes t) rid → s.owner rid = some t ∨ s.owner rid = none

theorem Content.Agree.distinct {A : Content m} (h : A.Agree) : Distinct (rowKey m) A.live := by
  intro i r r' a b ha hb hkey
  have hr := h.key ha i
  rw [show (m.ix i).key a = (m.ix i).key b from hkey, h.key hb i] at hr
  exact (Option.some.inj hr).symm

section Undo

variable {T : Table m} {A : Content m} {logs : TxnId → List (Write Rid (List UInt8))} {t : TxnId} {w : WriteRecord}
  {ws : List (Write Rid (List UInt8))}

/-- No other record has a key of the row that a transaction is to put back. -/
theorem old_free (hA : A.Agree) (hlogs : LogsOK (rowKey m) A.live logs) (ht : logs t = w.write :: ws) {old : List UInt8}
    (hold : w.write.old = some old) : A.Free w.write.row old := by
  intro i
  cases hmap : A.map i ((m.ix i).key old) with
  | none => exact .inl rfl
  | some rid =>
    obtain ⟨rec, hrec, hkey⟩ := (hA i _ rid).1 hmap
    by_cases hrid : rid = w.write.row
    · exact .inr (by rw [hrid])
    · exact absurd hkey.symm (hlogs.old_apart ht hold hrid hrec i)

theorem undo_carries (hT : T.Carries A) (hA : A.Agree) (hlogs : LogsOK (rowKey m) A.live logs)
    (ht : logs t = w.write :: ws) (h0 : 0 ≤ w.write.row.pageNo) (hp : w.write.row.pageNo < T.fh.numPages)
    (hkeys : w.KeepsKeys m) :
    wp w.undo
      (fun _ T' => ∃ A', T'.Carries A' ∧ A'.Agree ∧ A'.live = update A.live w.write.row w.write.old ∧
        T'.fh.numPages = T.fh.numPages)
      (fun _ _ => False) T := by
  have hnew := (hlogs.undo ht).1
  cases w with
  | insert tab rid rec =>
    exact wp_mono (rollbackInsert_carries hT hnew) (fun _ T' h => ⟨_, h.1, hA.delete hnew, rfl, h.2⟩) fun _ _ h => h
  | delete tab rid rec =>
    -- the row is not there, so no entry can lead to it
    have hfree : ∀ i, A.map i ((m.ix i).key rec) = none := fun i => by
      refine (old_free hA hlogs ht rfl i).resolve_right fun hmap => ?_
      obtain ⟨_, hlive, -⟩ := (hA i _ _).1 hmap
      exact Option.some_ne_none _ (hlive.symm.trans hnew)
    exact wp_mono (rollbackDelete_carries hT h0 hp hfree) (fun _ T' h => ⟨_, h.1, hA.insert hnew hfree, rfl, h.2⟩)
      fun _ _ h => h
  | update tab rid old updated isSetIndexKey =>
    exact wp_mono (rollbackUpdate_carries hT hnew isSetIndexKey)
      (fun _ T' h => ⟨_, h.1, hA.update hnew (fun _ => old_free hA hlogs ht rfl) fun hc i => (hkeys hc i).symm, rfl, h.2⟩)
      fun _ _ h => h

theorem undoAll_carries : ∀ {l : List (WriteRecord × Option TxnId)} {T : Table m} {A : Content m}
    {logs : TxnId → List (Write Rid (List UInt8))}, T.Carries A → A.Agree → LogsOK (rowKey m) A.live logs →
    logs t = l.map (fun w => w.1.write) →
    (∀ w ∈ l, 0 ≤ w.1.write.row.pageNo ∧ w.1.write.row.pageNo < T.fh.numPages) → (∀ w ∈ l, w.1.KeepsKeys m) →
    wp (l.forM fun w => w.1.undo)
      (fun _ T' => ∃ A', T'.Carries A' ∧ A'.Agree ∧ LogsOK (rowKey m) A'.live (update logs t []) ∧
        T'.fh.numPages = T.fh.numPages ∧ ∀ rid, ¬ Touched (logs t) rid → A'.live rid = A.live rid)
      (fun _ _ => False) T
  | [], T, A, logs, hT, hA, hlogs, ht, _, _ => ⟨A, hT, hA, hlogs.drop t, rfl, fun _ _ => rfl⟩
  | w :: l, T, A, logs, hT, hA, hlogs, ht, hpages, hkeys => by
    change wp (w.1.undo >>= fun _ => l.forM fun w => w.1.undo) _ _ T
    rw [wp_bind]
    obtain ⟨h0, hp⟩ := hpages w mem_cons_self
    refine wp_mono (undo_carries hT hA hlogs ht h0 hp (hkeys w mem_cons_self)) ?_ fun _ _ h => h
    intro _ T₁ ⟨A₁, hT₁, hA₁, hlive, hnum⟩
    have hlogs₁ := (hlogs.undo ht).2
    rw [← hlive] at hlogs₁
    refine wp_mono (undoAll_carries hT₁ hA₁ hlogs₁ (update_self ..)
      (fun w' hw' => hnum ▸ hpages w' (mem_cons_of_mem _ hw')) fun w' hw' => hkeys w' (mem_cons_of_mem _ hw'))
      ?_ fun _ _ h => h
    intro _ T₂ ⟨A₂, hT₂, hA₂, hlogs₂, hnum₂, hrest⟩
    rw [update_idem] at hlogs₂
    refine ⟨A₂, hT₂, hA₂, hlogs₂, hnum₂.trans hnum, fun rid hrid => ?_⟩
    rw [ht, map_cons, touched_cons, not_or] at hrid
    rw [hrest rid (by rw [update_self]; exact hrid.2), hlive, update_of_ne (Ne.symm hrid.1)]

end Undo

section Steps

variable {s : Shared m} {t : TxnId} {w : WriteRecord} {owner : Option TxnId} {T : Table m} {A A' : Content m}

theorem writes_record : (s.record T t w owner).writes = update s.writes t (w.write :: s.writes t) := by
  funext u
  by_cases hu : u = t
  · subst hu
    simp [Shared.writes, Shared.record]
  · simp [Shared.writes, Shared.record, hu]

theorem mem_log_record {u : TxnId} {w' : WriteRecord × Option TxnId} (h : w' ∈ (s.record T t w owner).log u) :
    w'.1 = w ∨ w' ∈ s.log u := by
  by_cases hu : u = t
  · subst hu
    simp only [Shared.record, update_self, mem_cons] at h
    rcases h with rfl | h
    · exact .inl rfl
    · exact .inr h
  · simp only [Shared.record] at h
    rw [update_of_ne hu] at h
    exact .inr h

/-- A row was written that is in no other write set, with keys that are in none. -/
theorem SharedOK.record (h : SharedOK s) (hlogs : LogsOK (rowKey m) A.live s.writes) (hT : T.Carries A') (hA' : A'.Agree)
    (hlive : A'.live = update A.live w.write.row w.write.new) (hold : A.live w.write.row = w.write.old)
    (hnum : s.table.fh.numPages ≤ T.fh.numPages)
    (hpage : 0 ≤ w.write.row.pageNo ∧ w.write.row.pageNo < T.fh.numPages) (hkeys : w.KeepsKeys m)
    (howner : owner = some t ∨ owner = none) (hrow : ∀ u ≠ t, ¬ Touched (s.writes u) w.write.row)
    (hapart : ∀ u ≠ t, ∀ rec, w.write.new = some rec → Apart (rowKey m) (s.writes u) rec) :
    SharedOK (s.record T t w owner) where
  start := h.start.trans hnum
  rows := by
    refine ⟨A', hT, hA', ?_⟩
    rw [writes_record, hlive]
    exact hlogs.write hold (hlive ▸ hA'.distinct) hrow hapart
  pages u w' hw' := by
    rcases mem_log_record hw' with hw' | hw'
    · rw [hw']
      exact hpage
    · exact ⟨(h.pages u w' hw').1, (h.pages u w' hw').2.trans_le hnum⟩
  keys u w' hw' := by
    rcases mem_log_record hw' with hw' | hw'
    · rw [hw']
      exact hkeys
    · exact h.keys u w' hw'
  owner u rid hrid := by
    rw [writes_record] at hrid
    by_cases hr : rid = w.write.row
    · subst hr
      have hut : u = t := by
        by_contra hut
        rw [update_of_ne hut] at hrid
        exact hrow u hut hrid
      simpa [Shared.record, hut] using howner
    · simp only [Shared.record, update_of_ne hr]
      refine h.owner u rid ?_
      by_cases hut : u = t
      · subst hut
        rw [update_self, touched_cons] at hrid
        exact hrid.resolve_left (Ne.symm hr)
      · rwa [update_of_ne hut] at hrid

theorem writes_end (f : Rid → Option TxnId) (T : Table m) :
    ({ table := T, log := update s.log t [], owner := f } : Shared m).writes = update s.writes t [] := by
  funext u
  by_cases hu : u = t
  · subst hu
    simp [Shared.writes]
  · simp [Shared.writes, hu]

theorem mem_log_of_end {u : TxnId} {w : WriteRecord × Option TxnId} (hw : w ∈ update s.log t [] u) : w ∈ s.log u := by
  by_cases hut : u = t
  · subst hut
    simp at hw
  · rwa [update_of_ne hut] at hw

theorem foldl_owner_of_not_touched {rid : Rid} : ∀ {l : List (WriteRecord × Option TxnId)} {o : Rid → Option TxnId},
    ¬ Touched (l.map fun w => w.1.write) rid →
    l.foldl (fun o w => update o w.1.write.row w.2) o rid = o rid
  | [], _, _ => rfl
  | w :: l, o, h => by
    rw [map_cons, touched_cons, not_or] at h
    rw [foldl_cons, foldl_owner_of_not_touched h.2, update_of_ne (Ne.symm h.1)]

theorem SharedOK.finish {α : Type} {x : TabExec m α} {Q : α → Table m → Prop} {f : α → Table m → Shared m} (h : SharedOK s)
    (hx : wp x Q (fun e T => T = s.table ∧ ∃ err, e = .rmdb err) s.table) (hf : ∀ a T, Q a T → SharedOK (f a T)) :
    ∃ b s', s.finish f (x s.table) = some (b, s') ∧ SharedOK s' := by
  rw [wp] at hx
  split at hx
  next a T hrun =>
    rw [hrun]
    exact ⟨none, f a T, rfl, hf a T hx⟩
  next e T hrun =>
    obtain ⟨rfl, err, rfl⟩ := hx
    rw [hrun]
    exact ⟨some err, s, rfl, h⟩

/-- A transaction that aborts takes back its own rows. The rows that are not
in its write set are what they were. -/
theorem SharedOK.abort [FloatOps] (h : SharedOK s) (hT : s.table.Carries A) (hA : A.Agree)
    (hlogs : LogsOK (rowKey m) A.live s.writes) (t : TxnId) :
    ∃ s' A', s.step (.abort t) = some (none, s') ∧ SharedOK s' ∧ s'.table.Carries A' ∧ A'.Agree ∧
      ∀ rid, ¬ Touched (s.writes t) rid → A'.live rid = A.live rid := by
  have hundo := undoAll_carries (l := s.log t) hT hA hlogs rfl (h.pages t) (h.keys t)
  rw [Shared.step]
  rw [wp] at hundo
  split at hundo
  next a T hrun =>
    obtain ⟨A', hT', hA', hlogs', hnum, hlive⟩ := hundo
    rw [hrun]
    refine ⟨_, A', rfl, ⟨h.start.trans hnum.ge, ⟨A', hT', hA', ?_⟩, fun u w hw => ?_, fun u w hw => ?_,
      fun u rid hrid => ?_⟩, hT', hA', hlive⟩
    · rw [writes_end]
      exact hlogs'
    · exact hnum ▸ h.pages u w (mem_log_of_end hw)
    · exact h.keys u w (mem_log_of_end hw)
    · rw [writes_end] at hrid
      by_cases hut : u = t
      · subst hut
        rw [update_self] at hrid
        exact absurd hrid not_touched_nil
      · rw [update_of_ne hut] at hrid
        have hnot : ¬ Touched (s.writes t) rid := hlogs.rows u t rid hut hrid
        have howner := foldl_owner_of_not_touched (o := s.owner) hnot
        have hold := h.owner u rid hrid
        rwa [← howner] at hold
  next => exact hundo.elim

theorem SharedOK.commit (h : SharedOK s) (t : TxnId) : SharedOK { s with log := update s.log t [] } := by
  obtain ⟨A, hT, hA, hlogs⟩ := h.rows
  refine ⟨h.start, ⟨A, hT, hA, ?_⟩, fun u w hw => h.pages u w (mem_log_of_end hw),
    fun u w hw => h.keys u w (mem_log_of_end hw), fun u rid hrid => h.owner u rid ?_⟩
  · rw [writes_end]
    exact hlogs.drop t
  · obtain ⟨w, hw, hrow⟩ := hrid
    obtain ⟨w', hw', rfl⟩ := mem_map.1 hw
    exact ⟨_, mem_map.2 ⟨w', mem_log_of_end hw', rfl⟩, hrow⟩

theorem SharedOK.step [FloatOps] (h : SharedOK s) {a : RowStep} (ha : KeepsOff s a) :
    ∃ b s', s.step a = some (b, s') ∧ SharedOK s' := by
  obtain ⟨A, hT, hA, hlogs⟩ := h.rows
  cases a with
  | insert t rec safe =>
    obtain ⟨rid, hnext, hslot, hoff⟩ := ha
    refine h.finish (insertNext_carries hT h.start hnext hslot safe) ?_
    rintro _ T ⟨rfl, hdead, hfree, hT', hnum, hpage⟩
    exact h.record hlogs hT' (hA.insert hdead hfree) rfl hdead hnum hpage trivial (.inl rfl) (fun u hu => (hoff u hu).1)
      fun u hu rec' hrec' => Option.some.inj hrec' ▸ (hoff u hu).2
  | delete t rid =>
    refine h.finish (deleteNext_carries hT rid) fun rec T ⟨hlive, hT', hnum⟩ => ?_
    have hpage := RmFileHandle.live_some (hT.live ▸ hlive)
    exact h.record hlogs hT' (hA.delete hlive) rfl hlive hnum.ge ⟨hpage.1, hnum ▸ hpage.2.1⟩ trivial (.inr rfl) ha
      fun _ _ _ hrec => absurd hrec (by simp [WriteRecord.write])
  | update t sets isSetIndexKey rid =>
    refine h.finish (updateNext_carries hT sets isSetIndexKey rid) ?_
    rintro ⟨old, updated⟩ T ⟨hlive, hset, hfree, hT', hnum⟩
    obtain ⟨hapart, hkeys⟩ := ha.2 old updated (hT.live ▸ hlive) hset
    have hpage := RmFileHandle.live_some (hT.live ▸ hlive)
    exact h.record hlogs hT' (hA.update hlive hfree hkeys) rfl hlive hnum.ge ⟨hpage.1, hnum ▸ hpage.2.1⟩ hkeys (.inl rfl)
      ha.1 fun u hu rec hrec => Option.some.inj hrec ▸ hapart u hu
  | commit t => exact ⟨_, _, rfl, h.commit t⟩
  | abort t =>
    obtain ⟨s', -, hs', hok, -⟩ := h.abort hT hA hlogs t
    exact ⟨none, s', hs', hok⟩

end Steps

def Shared.start (T : Table m) (owner : Rid → Option TxnId) : Shared m := ⟨T, fun _ => [], owner⟩

theorem sharedOK_start {T : Table m} (hT : T.Agrees) (hstart : 0 ≤ T.fh.numPages) (owner : Rid → Option TxnId) :
    SharedOK (.start T owner) := by
  obtain ⟨A, hA, hagree⟩ := hT
  exact ⟨hstart, ⟨A, hA.carries, hagree, .init hagree.distinct⟩, fun _ _ hw => absurd hw not_mem_nil,
    fun _ _ hw => absurd hw not_mem_nil, fun _ _ h => absurd h not_touched_nil⟩

def twoInserts : List RowStep :=
  [.insert 1 [1, 0, 0, 0, 2, 0, 0, 0] fun _ => true, .insert 2 [5, 0, 0, 0, 6, 0, 0, 0] fun _ => true]

set_option maxRecDepth 10000 in
theorem twoInserts_keepsOff :
    Run.Along (@Shared.step tabA noFloats) (@KeepsOff tabA noFloats) (.start (Table.create tabA) fun _ => none) twoInserts := by
  refine ⟨⟨⟨1, 0⟩, by decide +kernel, by decide +kernel, fun u _ => ⟨not_touched_nil, apart_nil⟩⟩, fun b s hs => ?_⟩
  obtain ⟨T, hrun, hnext, hslot⟩ : ∃ T, insertNext (fun _ => true) [1, 0, 0, 0, 2, 0, 0, 0] (Table.create tabA) =
      (.ok ⟨1, 0⟩, T) ∧ T.fh.nextRid = some ⟨1, 1⟩ ∧ (1 : Int) < T.fh.numRecordsPerPage :=
    ⟨_, rfl, by decide +kernel, by decide +kernel⟩
  have hs' : (Shared.start (Table.create tabA) fun _ => none).record T 1 (.insert "t" ⟨1, 0⟩ [1, 0, 0, 0, 2, 0, 0, 0])
      (some 1) = s := by
    simp only [Shared.step, Shared.start, hrun, Shared.finish, Option.some.injEq, Prod.mk.injEq] at hs
    exact hs.2
  subst hs'
  refine ⟨⟨⟨1, 1⟩, hnext, hslot, fun u _ => ?_⟩, fun _ _ _ => trivial⟩
  rw [writes_record]
  by_cases hu : u = 1
  · subst hu
    rw [update_self, touched_cons, apart_cons]
    refine ⟨not_or.2 ⟨by decide, not_touched_nil⟩, fun b hb => ?_, apart_nil⟩
    obtain rfl : [1, 0, 0, 0, 2, 0, 0, 0] = b := by simpa [Write.Image, WriteRecord.write] using hb
    decide +kernel
  · rw [update_of_ne hu]
    exact ⟨not_touched_nil, apart_nil⟩

/-- `INSERT` of (1, 2), by a transaction that ends. The next one deletes the
record, and the one after that inserts (5, 6). -/
def slotReused : List RowStep :=
  [.insert 0 [1, 0, 0, 0, 2, 0, 0, 0] fun _ => true, .commit 0, .delete 1 ⟨1, 0⟩,
    .insert 2 [5, 0, 0, 0, 6, 0, 0, 0] fun _ => true]

end Execution

end Rmdb
