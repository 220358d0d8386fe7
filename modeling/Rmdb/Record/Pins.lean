/-
The pins of a table file.

`fetch_page_handle` pins the page in the pool, and each operation on a record
unpins it behind its last access. Whether the pool has a frame for a page is a
parameter. `RecordNotFoundError` is raised between the two: it passes over the
unpin, and in `delete_record` over the unlatch too.
-/
import Rmdb.Record.File

namespace Rmdb.Record

open Exec Function

structure PinnedFile extends RmFile where
  /-- `pin_count_` of the pages in the pool. -/
  pins : Int → Nat

abbrev PinExec := Exec Stop PinnedFile

namespace PinnedFile

def onFile {α : Type} : FileExec α → PinExec α := zoom toRmFile fun f s => { s with toRmFile := f }

/-- `pooled` are the pages that `fetch_page` has or finds a frame for. -/
def fetchPageHandle (pooled : Int → Bool) (pageNo : Int) : PinExec PageData := do
  let pg ← onFile (RmFile.fetchPageHandle pageNo)
  if pooled pageNo = false then raise (.rmdb (.pageNotExist pageNo))
  modify fun s => { s with pins := update s.pins pageNo (s.pins pageNo + 1) }
  pure pg

def unpinPage (pageNo : Int) : PinExec Unit :=
  modify fun s => { s with pins := update s.pins pageNo (s.pins pageNo - 1) }

/-- An operation on a record between the fetch of its page and the unpin. The operation
has the fetch in it once more, which does not change anything but for the pin. -/
def onRecord {α : Type} (pooled : Int → Bool) (rid : Rid) (op : FileExec α) : PinExec α := do
  let _ ← fetchPageHandle pooled rid.pageNo
  let a ← onFile op
  unpinPage rid.pageNo
  pure a

def getRecord (pooled : Int → Bool) (rid : Rid) : PinExec (List UInt8) := onRecord pooled rid (RmFile.getRecord rid)

def deleteRecord (pooled : Int → Bool) (rid : Rid) : PinExec Unit := onRecord pooled rid (RmFile.deleteRecord rid)

def updateRecord (pooled : Int → Bool) (rid : Rid) (buf : List UInt8) : PinExec Unit :=
  onRecord pooled rid (RmFile.updateRecord rid buf)

/-! ## What an error leaves behind -/

def Releases {α : Type} (op : PinExec α) (rid : Rid) (s : PinnedFile) : Prop :=
  wp op (fun _ _ => True) (fun e s' => e = .rmdb (.recordNotFound rid) → s'.pins = s.pins ∧ s'.latched = s.latched) s

def Fetchable (pooled : Int → Bool) (s : PinnedFile) (pageNo : Int) : Prop :=
  (0 ≤ pageNo ∧ pageNo < s.hdr.numPages) ∧ pooled pageNo = true

def Absent (pooled : Int → Bool) (s : PinnedFile) (rid : Rid) : Prop :=
  Fetchable pooled s rid.pageNo ∧ Bitmap.isSet (s.pages rid.pageNo).data rid.slotNo.toNat = false

section

variable {pooled : Int → Bool} {s : PinnedFile} {rid : Rid} {α : Type} {op : FileExec α}

theorem wp_fetchPageHandle {Q : PageData → PinnedFile → Prop} {E : Stop → PinnedFile → Prop} (pageNo : Int) :
    wp (fetchPageHandle pooled pageNo) Q E s ↔
      (Fetchable pooled s pageNo →
        Q (s.pages pageNo) { s with pins := update s.pins pageNo (s.pins pageNo + 1) }) ∧
      (¬ Fetchable pooled s pageNo → E (.rmdb (.pageNotExist pageNo)) s) := by
  simp only [fetchPageHandle, onFile, RmFile.fetchPageHandle, wp_bind, wp_zoom, wp_asks]
  by_cases hrange : pageNo ≥ s.hdr.numPages ∨ pageNo < 0
  · have hno : ¬ Fetchable pooled s pageNo := fun h => by have := h.1; omega
    simp [hrange, hno]
  · have hin : 0 ≤ pageNo ∧ pageNo < s.hdr.numPages := by omega
    cases hpooled : pooled pageNo with
    | false => simp [hrange, Fetchable, hpooled]
    | true => simp [hrange, Fetchable, hpooled, hin]

theorem releases_onRecord : Releases (onRecord pooled rid op) rid s ↔
    (Fetchable pooled s rid.pageNo →
      wp op (fun _ _ => True) (fun e _ => e ≠ .rmdb (.recordNotFound rid)) s.toRmFile) := by
  rw [Releases, onRecord, wp_bind, wp_fetchPageHandle]
  simp [onFile, wp_zoom, unpinPage]

theorem Fetchable.wp {Q : PageData → RmFile → Prop} {E : Stop → RmFile → Prop} {pageNo : Int}
    (h : Fetchable pooled s pageNo) :
    wp (RmFile.fetchPageHandle pageNo) Q E s.toRmFile ↔ Q (s.pages pageNo) s.toRmFile := by
  have hrange : ¬ (pageNo ≥ s.hdr.numPages ∨ pageNo < 0) := by have := h.1; omega
  simp [RmFile.fetchPageHandle, hrange]

theorem releases_getRecord : Releases (getRecord pooled rid) rid s ↔ ¬ Absent pooled s rid := by
  rw [getRecord, releases_onRecord, Absent, not_and]
  refine forall_congr' fun h => ?_
  rw [RmFile.getRecord, wp_bind, h.wp]
  cases hset : Bitmap.isSet (s.pages rid.pageNo).data rid.slotNo.toNat <;> simp

theorem releases_updateRecord (buf : List UInt8) :
    Releases (updateRecord pooled rid buf) rid s ↔ ¬ Absent pooled s rid := by
  rw [updateRecord, releases_onRecord, Absent, not_and]
  refine forall_congr' fun h => ?_
  rw [RmFile.updateRecord, wp_bind, h.wp]
  cases hset : Bitmap.isSet (s.pages rid.pageNo).data rid.slotNo.toNat <;> simp [RmFile.copySlot, RmFile.setPage]

theorem releases_deleteRecord :
    Releases (deleteRecord pooled rid) rid s ↔ ¬ (Absent pooled s rid ∧ rid.pageNo ∉ s.latched) := by
  rw [deleteRecord, releases_onRecord, Absent, and_assoc, not_and]
  refine forall_congr' fun h => ?_
  rw [RmFile.deleteRecord, wp_bind, h.wp, wp_bind, RmFile.wLatch, wp_bind, wp_asks]
  by_cases hlatch : rid.pageNo ∈ s.latched
  · simp [hlatch]
  · cases hset : Bitmap.isSet (s.pages rid.pageNo).data rid.slotNo.toNat with
    | false => simp [hlatch]
    | true =>
      simp only [hlatch, if_false, wp_modify, wp_bind, wp_asks, RmFile.setPage, Bool.true_eq_false, false_and,
        not_false_iff, iff_true]
      exact wp_when (fun _ => by simp [RmFile.releasePageHandle, RmFile.setPage, RmFile.setFirstFree, RmFile.wUnlatch])
        fun _ => by simp [RmFile.wUnlatch]

end

/-- The operations leave nothing behind exactly when the page cannot be fetched or has
the record, or when `delete_record` has to wait for the latch. -/
theorem releases_iff (pooled : Int → Bool) (s : PinnedFile) (rid : Rid) (buf : List UInt8) :
    (Releases (getRecord pooled rid) rid s ↔ ¬ Absent pooled s rid) ∧
    (Releases (updateRecord pooled rid buf) rid s ↔ ¬ Absent pooled s rid) ∧
    (Releases (deleteRecord pooled rid) rid s ↔ ¬ (Absent pooled s rid ∧ rid.pageNo ∉ s.latched)) :=
  ⟨releases_getRecord, releases_updateRecord buf, releases_deleteRecord⟩

def emptyTable : PinnedFile :=
  { RmFile.newFile 4 with hdr := { RmFile.createFile 4 with numPages := 2 }, pins := fun _ => 0 }

/-- `redo` of two `DELETE`s whose records are gone: the first leaves the page pinned and
latched, the second waits for the latch forever. -/
theorem delete_twice : ∃ s, deleteRecord (fun _ => true) ⟨1, 0⟩ emptyTable = (.error (.rmdb (.recordNotFound ⟨1, 0⟩)), s) ∧
    s.pins 1 = 1 ∧ s.latched = [1] ∧ ¬ Releases (deleteRecord (fun _ => true) ⟨1, 0⟩) ⟨1, 0⟩ emptyTable ∧
    (deleteRecord (fun _ => true) ⟨1, 0⟩ s).1 = .error .deadlock := by
  refine ⟨_, rfl, rfl, rfl, fun h => ?_, rfl⟩
  exact absurd (h rfl).2 (by decide)

end PinnedFile

end Rmdb.Record
