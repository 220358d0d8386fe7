/-
A table file over whole runs.

The file may be closed and opened again between two calls. As long as
`delete_record` and `update_record` are given rids of records, or of pages that
do not exist, and a positional insert that fills a page fills the first of the
chain, the file is a map from rids to records and has room for the next one.
-/
import Rmdb.Record.File
import Rmdb.Lib.Run

namespace Rmdb.Record

open Option Function Exec

inductive Call where
  | insert (buf : List UInt8)
  | delete (rid : Rid)
  | update (rid : Rid) (buf : List UInt8)
  | insertAt (rid : Rid) (buf : List UInt8)
  | reopen

inductive Reply where
  | rid (rid : Rid)
  | done
  | error (e : RMDBError)
  deriving DecidableEq, Repr

namespace RmFile

def closeFile (f : RmFile) : RmFileHdr × (Int → PageData) := (f.hdr, f.pages)

def reply {α : Type} (x : FileExec α) (g : α → Reply) (f : RmFile) : Option (Reply × RmFile) :=
  match x f with
  | (.ok a, f') => some (g a, f')
  | (.error (.rmdb e), f') => some (.error e, f')
  | (.error .deadlock, _) => none

/-- The file closed and opened again. A latch that is held stays with the
frame, whichever page is put there next: that is not followed. -/
def reopen (f : RmFile) : Option (Reply × RmFile) :=
  if f.latched = [] then some (.done, openFile f.closeFile.1 f.closeFile.2) else none

def step (f : RmFile) : Call → Option (Reply × RmFile)
  | .insert buf => reply (insertRecord buf) .rid f
  | .delete rid => reply (deleteRecord rid) (fun _ => .done) f
  | .update rid buf => reply (updateRecord rid buf) (fun _ => .done) f
  | .insertAt rid buf => reply (insertRecordAt rid buf) (fun _ => .done) f
  | .reopen => f.reopen

end RmFile

def contents : List (Call × Reply) → Rid → Option (List UInt8)
  | [] => fun _ => none
  | (.insert buf, .rid rid) :: trace => update (contents trace) rid (some buf)
  | (.delete rid, .done) :: trace => update (contents trace) rid none
  | (.update rid buf, .done) :: trace => update (contents trace) rid (some buf)
  | (.insertAt rid buf, .done) :: trace => update (contents trace) rid (some buf)
  | _ :: trace => contents trace

def RmFile.HasPage (f : RmFile) (pageNo : Int) : Prop := 0 ≤ pageNo ∧ pageNo < f.hdr.numPages

def RmFile.isRecord (f : RmFile) (rid : Rid) : Bool := Bitmap.isSet (f.pages rid.pageNo).data rid.slotNo.toNat

/-- Buffers have the size of a record, rids are such as a record may have, and
positional inserts go to pages that are there. -/
def Call.Proper (f : RmFile) : Call → Prop
  | .insert buf => buf.length = f.hdr.recordSize
  | .delete rid => InRange f.hdr.numRecordsPerPage rid
  | .update rid buf => InRange f.hdr.numRecordsPerPage rid ∧ buf.length = f.hdr.recordSize
  | .insertAt rid buf => InRange f.hdr.numRecordsPerPage rid ∧ f.HasPage rid.pageNo ∧ buf.length = f.hdr.recordSize
  | .reopen => True

/-- No slot without a record is deleted or updated: that leaves the page
latched, or pinned. A page that a positional insert fills is the first of the
chain. -/
def Call.Sound (f : RmFile) : Call → Prop
  | .delete rid => f.HasPage rid.pageNo → f.isRecord rid = true
  | .update rid _ => f.HasPage rid.pageNo → f.isRecord rid = true
  | .insertAt rid _ => f.isRecord rid = false → (f.pages rid.pageNo).numRecords + 1 = f.hdr.numRecordsPerPage →
      f.hdr.firstFreePageNo = rid.pageNo
  | _ => True

/-! ## What a run keeps -/

/-- The file shows the records that the calls left, and no latch is held. -/
def Kept (L : Layout) (trace : List (Call × Reply)) (f : RmFile) : Prop :=
  ∃ h, Shows f h ∧ TableOK h ∧ f.latched = [] ∧ f.hdr.toLayout = L ∧ h.live = contents trace

theorem RmFile.reply_of_wp {α : Type} {x : FileExec α} {g : α → Reply} {f : RmFile} {Q : α → RmFile → Prop}
    {E : Stop → RmFile → Prop} (h : wp x Q E f) (hE : ∀ f', ¬ E .deadlock f') :
    ∃ r f', reply x g f = some (r, f') ∧ ((∃ a, r = g a ∧ Q a f') ∨ ∃ e, r = .error e ∧ E (.rmdb e) f') := by
  unfold wp at h
  unfold reply
  split at h
  · next a f' hx => exact ⟨g a, f', by rw [hx], .inl ⟨a, rfl, h⟩⟩
  · next e f' hx =>
    cases e with
    | rmdb e => exact ⟨.error e, f', by rw [hx], .inr ⟨e, rfl, h⟩⟩
    | deadlock => exact absurd h (hE f')

section

variable {L : Layout} {trace : List (Call × Reply)} {f : RmFile} {rid : Rid} {buf : List UInt8}

theorem Kept.insert (hk : Kept L trace f) (hbuf : buf.length = f.hdr.recordSize) :
    ∃ r f', f.step (.insert buf) = some (r, f') ∧ Kept L ((.insert buf, r) :: trace) f' := by
  obtain ⟨h, hs, ok, hlatch, hL, hlive⟩ := hk
  obtain ⟨r, f', hreply, hcase⟩ := RmFile.reply_of_wp (g := .rid) (hs.insertRecord ok hlatch hbuf) fun _ => id
  refine ⟨r, f', hreply, ?_⟩
  obtain ⟨rid, rfl, h', hinsert, hafter⟩ | ⟨_, _, hfalse⟩ := hcase
  · obtain ⟨rid', h'', hinsert', -, -, hlive', -⟩ := ok.toHeapOK.insertRecord buf
    obtain ⟨rfl, rfl⟩ : rid' = rid ∧ h'' = h' := by simpa [hinsert'] using hinsert
    exact ⟨h'', hafter.shows, hafter.ok, hafter.latched, hafter.layout.trans hL, by rw [hlive', hlive, contents]⟩
  · exact hfalse.elim

theorem Kept.delete (hk : Kept L trace f) (hr : InRange f.hdr.numRecordsPerPage rid)
    (hrec : f.HasPage rid.pageNo → f.isRecord rid = true) :
    ∃ r f', f.step (.delete rid) = some (r, f') ∧ Kept L ((.delete rid, r) :: trace) f' := by
  obtain ⟨h, hs, ok, hlatch, hL, hlive⟩ := hk
  have hr' : InRange h.numRecordsPerPage rid := hs.per ▸ hr
  obtain ⟨r, f', hreply, hcase⟩ := RmFile.reply_of_wp (g := fun _ => .done) (hs.deleteRecord hr' ok hlatch)
    fun _ hE => by simp at hE
  refine ⟨r, f', hreply, ?_⟩
  obtain ⟨_, rfl, hsome, h', hdelete, hafter⟩ | ⟨e, rfl, hnone, ⟨_, rfl⟩ | ⟨⟨h0, hlt⟩, _⟩⟩ := hcase
  · obtain ⟨rec, hrec'⟩ := ne_none_iff_exists'.1 hsome
    obtain ⟨h'', hdelete', -, hlive', -⟩ := ok.toHeapOK.deleteRecord hrec'
    obtain rfl : h'' = h' := by simpa [hdelete'] using hdelete
    exact ⟨h'', hafter.shows, hafter.ok, hafter.latched, hafter.layout.trans hL, by rw [hlive', hlive, contents]⟩
  · exact ⟨h, hs, ok, hlatch, hL, hlive⟩
  · have hset := hrec ⟨h0, hs.numPages ▸ hlt⟩
    obtain ⟨-, -, -, hsome, -⟩ := hs.slot hr' h0 hlt
    rw [hnone, ← RmFile.isRecord, hset] at hsome
    cases hsome

theorem Kept.update (hk : Kept L trace f) (hr : InRange f.hdr.numRecordsPerPage rid)
    (hbuf : buf.length = f.hdr.recordSize) :
    ∃ r f', f.step (.update rid buf) = some (r, f') ∧ Kept L ((.update rid buf, r) :: trace) f' := by
  obtain ⟨h, hs, ok, hlatch, hL, hlive⟩ := hk
  have hr' : InRange h.numRecordsPerPage rid := hs.per ▸ hr
  obtain ⟨r, f', hreply, hcase⟩ := RmFile.reply_of_wp (g := fun _ => .done) (hs.updateRecord hr' ok hlatch hbuf)
    fun _ hE => by simp at hE
  refine ⟨r, f', hreply, ?_⟩
  obtain ⟨_, rfl, hsome, h', hupdate, hafter⟩ | ⟨e, rfl, hnone, rfl, _⟩ := hcase
  · obtain ⟨rec, hrec'⟩ := ne_none_iff_exists'.1 hsome
    obtain ⟨h'', hupdate', -, hlive', -⟩ := ok.toHeapOK.updateRecord hrec' buf
    obtain rfl : h'' = h' := by simpa [hupdate'] using hupdate
    exact ⟨h'', hafter.shows, hafter.ok, hafter.latched, hafter.layout.trans hL, by rw [hlive', hlive, contents]⟩
  · exact ⟨h, hs, ok, hlatch, hL, hlive⟩

variable {h : RmFileHandle}

theorem RmFileHandle.live_insertRecordAt {h' : RmFileHandle} (h0 : 0 ≤ rid.pageNo) (hlt : rid.pageNo < h.numPages)
    (hinsert : h.insertRecordAt rid buf = .ok h') : h'.live = update h.live rid (some buf) := by
  rw [RmFileHandle.insertRecordAt, RmFileHandle.fetchPageHandle, if_neg (by omega), ok_bind] at hinsert
  split at hinsert
  · cases hinsert
    exact RmFileHandle.live_fillSlot h0 hlt buf
  · cases hinsert
    exact RmFileHandle.live_setPage h0 hlt rfl

theorem Kept.insertAt (hk : Kept L trace f) (hr : InRange f.hdr.numRecordsPerPage rid) (hpage : f.HasPage rid.pageNo)
    (hbuf : buf.length = f.hdr.recordSize)
    (hhead : f.isRecord rid = false → (f.pages rid.pageNo).numRecords + 1 = f.hdr.numRecordsPerPage →
      f.hdr.firstFreePageNo = rid.pageNo) :
    ∃ r f', f.step (.insertAt rid buf) = some (r, f') ∧ Kept L ((.insertAt rid buf, r) :: trace) f' := by
  obtain ⟨h, hs, ok, hlatch, hL, hlive⟩ := hk
  have hr' : InRange h.numRecordsPerPage rid := hs.per ▸ hr
  obtain ⟨h0, hlt⟩ := hpage
  rw [← hs.numPages] at hlt
  obtain ⟨hp, -, -, hsome, -⟩ := hs.slot hr' h0 hlt
  obtain ⟨c, hc⟩ := ok.chain
  -- the page that is filled is the first of the chain
  have hfirst : h.live rid = none → (h.pages rid.pageNo).numRecords + 1 = h.numRecordsPerPage →
      ∃ c', c = rid.pageNo :: c' := by
    intro hnone hfull
    rw [hnone] at hsome
    have hfirst := hhead hsome.symm (by rw [← (hs.page _ hp hlt).count, ← hs.per]; omega)
    rw [← hs.first] at hfirst
    cases c with
    | nil =>
      have hstop : h.firstFreePageNo = noPage := hc.links
      rw [hfirst, noPage] at hstop
      omega
    | cons q c => exact ⟨c, by rw [← hfirst, hc.links.1]⟩
  obtain ⟨r, f', hreply, hcase⟩ := RmFile.reply_of_wp (g := fun _ => .done)
    (hs.insertRecordAt hr' ok hlatch hbuf hc h0 hlt hfirst) fun _ => id
  refine ⟨r, f', hreply, ?_⟩
  obtain ⟨_, rfl, h', hinsert, hafter⟩ | ⟨_, _, hfalse⟩ := hcase
  · refine ⟨h', hafter.shows, hafter.ok, hafter.latched, hafter.layout.trans hL, ?_⟩
    rw [RmFileHandle.live_insertRecordAt h0 hlt hinsert, hlive, contents]
  · exact hfalse.elim

theorem Kept.step (hk : Kept L trace f) {c : Call} (hproper : c.Proper f) (hsound : c.Sound f) :
    ∃ r f', f.step c = some (r, f') ∧ Kept L ((c, r) :: trace) f' := by
  cases c with
  | insert buf => exact hk.insert hproper
  | delete rid => exact hk.delete hproper hsound
  | update rid buf => exact hk.update hproper.1 hproper.2
  | insertAt rid buf => exact hk.insertAt hproper.1 hproper.2.1 hproper.2.2 hsound
  | reopen =>
    obtain ⟨h, hs, ok, hlatch, hL, hlive⟩ := hk
    refine ⟨.done, .openFile f.hdr f.pages, by rw [RmFile.step, RmFile.reopen, if_pos hlatch]; rfl, h, ?_, ok, rfl,
      hL, hlive⟩
    exact ⟨hs.covers, hs.per, hs.numPages, rfl, hs.first, hs.page⟩

variable {recordSize : Nat}

theorem kept_newFile (hsize : recordSize ≤ maxRecordSize) :
    Kept (Layout.make recordSize) [] (.newFile recordSize) :=
  ⟨_, .newFile recordSize, .createFile hsize, rfl, rfl, by
    funext rid
    exact RmFileHandle.live_createFile recordSize rid⟩

/-- A run of sound calls: none blocks, and what they left is to be seen. -/
theorem kept_run (hsize : recordSize ≤ maxRecordSize) {calls : List Call}
    (hcalls : Run.Along RmFile.step (fun f c => c.Proper f ∧ c.Sound f) (.newFile recordSize) calls) :
    ∃ trace f, Run.run RmFile.step (.newFile recordSize) calls = some (trace, f) ∧
      Kept (Layout.make recordSize) trace f := by
  obtain ⟨trace, f, hrun, hk, -⟩ := Run.run_total (R := Kept (Layout.make recordSize)) (kept_newFile hsize)
    (fun trace f c hk hc => hk.step hc.1 hc.2) calls hcalls
  exact ⟨trace, f, hrun, hk⟩

/-! ## The file as a map -/

/-- The file has the records of the trace: `get_record` returns them,
`get_record`, `delete_record` and `update_record` raise an error where there is
none and only there, and `insert_record` finds a rid without a record and
leaves the others. -/
structure IsMap (trace : List (Call × Reply)) (f : RmFile) : Prop where
  get : ∀ rid rec, InRange f.hdr.numRecordsPerPage rid →
    (contents trace rid = some rec ↔ (RmFile.getRecord rid f).1 = .ok rec)
  getError : ∀ rid, InRange f.hdr.numRecordsPerPage rid → contents trace rid = none →
    (RmFile.getRecord rid f).1 = .error (.rmdb (.recordNotFound rid)) ∨
      (RmFile.getRecord rid f).1 = .error (.rmdb (.pageNotExist rid.pageNo))
  delete : ∀ rid, InRange f.hdr.numRecordsPerPage rid →
    (contents trace rid = none ↔ ∃ e, (RmFile.deleteRecord rid f).1 = .error (.rmdb e))
  update : ∀ rid buf, InRange f.hdr.numRecordsPerPage rid → buf.length = f.hdr.recordSize →
    (contents trace rid = none ↔ ∃ e, (RmFile.updateRecord rid buf f).1 = .error (.rmdb e))
  insert : ∀ buf, buf.length = f.hdr.recordSize → ∃ rid f', RmFile.insertRecord buf f = (.ok rid, f') ∧
    contents trace rid = none ∧ firstRecordPage ≤ rid.pageNo ∧ 0 ≤ rid.slotNo ∧ rid.slotNo < f.hdr.numRecordsPerPage ∧
    ∀ r rec, InRange f.hdr.numRecordsPerPage r → r ≠ rid →
      ((RmFile.getRecord r f').1 = .ok rec ↔ (RmFile.getRecord r f).1 = .ok rec)

theorem RmFile.fst_of_wp {α : Type} {x : FileExec α} {f : RmFile} {Q : α → RmFile → Prop} {E : Stop → RmFile → Prop}
    (h : wp x Q E f) : (∃ a, (x f).1 = .ok a ∧ Q a (x f).2) ∨ ∃ e, (x f).1 = .error e ∧ E e (x f).2 := by
  unfold wp at h
  split at h
  · next a f' hx => exact .inl ⟨a, by rw [hx], by rwa [hx]⟩
  · next e f' hx => exact .inr ⟨e, by rw [hx], by rwa [hx]⟩

theorem Shows.getRecord_fst (hs : Shows f h) (hr : InRange f.hdr.numRecordsPerPage rid) :
    (∃ rec, h.live rid = some rec ∧ (RmFile.getRecord rid f).1 = .ok rec) ∨
      h.live rid = none ∧ ((RmFile.getRecord rid f).1 = .error (.rmdb (.recordNotFound rid)) ∨
        (RmFile.getRecord rid f).1 = .error (.rmdb (.pageNotExist rid.pageNo))) := by
  obtain ⟨rec, hx, -, hlive⟩ | ⟨e, hx, -, hnone, he⟩ := RmFile.fst_of_wp (hs.getRecord (hs.per ▸ hr))
  · exact .inl ⟨rec, hlive, hx⟩
  · refine .inr ⟨hnone, ?_⟩
    obtain rfl | rfl := he
    · exact .inl hx
    · exact .inr hx

theorem Shows.getRecord_ok_iff (hs : Shows f h) (hr : InRange f.hdr.numRecordsPerPage rid)
    (rec : List UInt8) : (RmFile.getRecord rid f).1 = .ok rec ↔ h.live rid = some rec := by
  obtain ⟨rec', hrec, hx⟩ | ⟨hnone, hx | hx⟩ := hs.getRecord_fst hr
  · rw [hrec, hx, some.injEq, Except.ok.injEq]
  · simp [hnone, hx]
  · simp [hnone, hx]

theorem Kept.isMap (hk : Kept L trace f) : IsMap trace f := by
  obtain ⟨h, hs, ok, hlatch, -, hlive⟩ := hk
  refine ⟨fun rid rec hr => ?_, fun rid hr hnone => ?_, fun rid hr => ?_, fun rid buf hr hbuf => ?_, fun buf hbuf => ?_⟩
  · rw [← hlive, hs.getRecord_ok_iff hr]
  · rw [← hlive] at hnone
    obtain ⟨rec, hrec, -⟩ | ⟨-, hx⟩ := hs.getRecord_fst hr
    · simp [hnone] at hrec
    · exact hx
  · rw [← hlive]
    obtain ⟨_, hx, hsome, -⟩ | ⟨e, hx, hnone, he⟩ := RmFile.fst_of_wp (hs.deleteRecord (hs.per ▸ hr) ok hlatch)
    · simp [hx, hsome]
    · obtain ⟨rfl, -⟩ | ⟨-, rfl, -⟩ := he <;> simp [hx, hnone]
  · rw [← hlive]
    obtain ⟨_, hx, hsome, -⟩ | ⟨e, hx, hnone, -, he⟩ := RmFile.fst_of_wp (hs.updateRecord (hs.per ▸ hr) ok hlatch hbuf)
    · simp [hx, hsome]
    · obtain rfl | rfl := he <;> simp [hx, hnone]
  · obtain ⟨rid, hx, h', hinsert, hafter⟩ | ⟨_, _, hfalse⟩ := RmFile.fst_of_wp (hs.insertRecord ok hlatch hbuf)
    · obtain ⟨rid', h'', hinsert', -, hnone, hlive', -⟩ := ok.toHeapOK.insertRecord buf
      obtain ⟨rfl, rfl⟩ : rid' = rid ∧ h'' = h' := by simpa [hinsert'] using hinsert
      have hrec : h''.live rid' = some buf := by rw [hlive', update_self]
      obtain ⟨h0, hlt, hslot, -⟩ := RmFileHandle.live_some hrec
      have hrange := (hafter.ok.counted _ h0 hlt).range rid'.slotNo (by simp [hslot])
      rw [hafter.shows.per, hafter.layout] at hrange
      refine ⟨rid', _, Prod.ext hx rfl, hlive ▸ hnone, hafter.ok.behind_of_live hrec, hrange.1, hrange.2,
        fun r rec hr hne => ?_⟩
      have hr' : InRange (RmFile.insertRecord buf f).2.hdr.numRecordsPerPage r := by rwa [hafter.layout]
      rw [hafter.shows.getRecord_ok_iff hr', hs.getRecord_ok_iff hr, hlive', update_of_ne hne]
    · exact hfalse.elim

/-- For records of every size, and every run of calls whose deletes and updates
are of records or of pages that do not exist: no call blocks, and the file is
the map of what was written. -/
theorem run_isMap (recordSize : Nat) (hsize : recordSize ≤ maxRecordSize) (calls : List Call)
    (hcalls : Run.Along RmFile.step (fun f c => c.Proper f ∧ c.Sound f) (.newFile recordSize) calls) :
    ∃ trace f, Run.run RmFile.step (.newFile recordSize) calls = some (trace, f) ∧ IsMap trace f := by
  obtain ⟨trace, f, hrun, hk⟩ := kept_run hsize hcalls
  exact ⟨trace, f, hrun, hk.isMap⟩

end

instance (n : Nat) (rid : Rid) : Decidable (InRange n rid) :=
  decidable_of_iff (rid.pageNo ≠ 0 ∧ 0 ≤ rid.slotNo ∧ rid.slotNo < n)
    ⟨fun h => ⟨h.1, h.2.1, h.2.2⟩, fun h => ⟨h.page, h.nonneg, h.lt⟩⟩

instance (f : RmFile) (pageNo : Int) : Decidable (f.HasPage pageNo) :=
  inferInstanceAs (Decidable (0 ≤ pageNo ∧ pageNo < f.hdr.numPages))

instance (f : RmFile) : (c : Call) → Decidable (c.Proper f)
  | .insert buf => inferInstanceAs (Decidable (buf.length = f.hdr.recordSize))
  | .delete rid => inferInstanceAs (Decidable (InRange f.hdr.numRecordsPerPage rid))
  | .update rid buf =>
    inferInstanceAs (Decidable (InRange f.hdr.numRecordsPerPage rid ∧ buf.length = f.hdr.recordSize))
  | .insertAt rid buf => inferInstanceAs
      (Decidable (InRange f.hdr.numRecordsPerPage rid ∧ f.HasPage rid.pageNo ∧ buf.length = f.hdr.recordSize))
  | .reopen => .isTrue trivial

instance (f : RmFile) : (c : Call) → Decidable (c.Sound f)
  | .delete rid => inferInstanceAs (Decidable (f.HasPage rid.pageNo → f.isRecord rid = true))
  | .update rid _ => inferInstanceAs (Decidable (f.HasPage rid.pageNo → f.isRecord rid = true))
  | .insertAt rid _ => inferInstanceAs (Decidable (f.isRecord rid = false →
      (f.pages rid.pageNo).numRecords + 1 = f.hdr.numRecordsPerPage → f.hdr.firstFreePageNo = rid.pageNo))
  | .insert _ => .isTrue trivial
  | .reopen => .isTrue trivial

def someCalls : List Call :=
  [.insert [1, 2], .insert [3, 4], .reopen, .update ⟨1, 0⟩ [5, 6], .delete ⟨1, 1⟩, .delete ⟨7, 0⟩]

theorem someCalls_isMap : ∃ trace f, Run.run RmFile.step (.newFile 2) someCalls = some (trace, f) ∧ IsMap trace f :=
  run_isMap 2 (by decide) someCalls (by decide +kernel)

def blockingCalls : List Call := [.insert [1, 2], .delete ⟨1, 1⟩]

/-- A record that is not there is deleted, which raises an error and leaves the
page latched: the next `insert_record` never returns. -/
theorem blockingCalls_not_isMap : ∃ trace f, Run.run RmFile.step (.newFile 2) blockingCalls = some (trace, f) ∧
    Run.Along RmFile.step (fun f c => c.Proper f) (.newFile 2) blockingCalls ∧
      (RmFile.insertRecord [3, 4] f).1 = .error .deadlock ∧ ¬ IsMap trace f := by
  have hrun : (Run.run RmFile.step (.newFile 2) blockingCalls).any (fun r =>
      r.2.hdr.recordSize = 2 ∧ (RmFile.insertRecord [3, 4] r.2).1 = .error .deadlock) = true := by decide +kernel
  obtain ⟨⟨trace, f⟩, hrun, hcheck⟩ := any_eq_true _ _ |>.1 hrun
  obtain ⟨hsize, hblocks⟩ := of_decide_eq_true hcheck
  refine ⟨trace, f, hrun, by decide +kernel, hblocks, fun hmap => ?_⟩
  obtain ⟨rid, f', hinsert, -⟩ := hmap.insert [3, 4] hsize.symm
  rw [hinsert] at hblocks
  cases hblocks

/-! ## The chain -/

def RmFile.Links (f : RmFile) : Int → List Int → Prop
  | p, [] => p = noPage
  | p, q :: c => p = q ∧ RmFile.Links f (f.pages q).nextFreePageNo c

/-- Every page on the chain exists and has a free slot, and `insert_record`
takes a free slot of a page. -/
structure ChainSound (f : RmFile) : Prop where
  chain : ∃ c, f.Links f.hdr.firstFreePageNo c ∧
    ∀ p ∈ c, f.HasPage p ∧ ∃ i < f.hdr.numRecordsPerPage, Bitmap.isSet (f.pages p).data i = false
  insert : ∀ buf, buf.length = f.hdr.recordSize → ∃ rid f', RmFile.insertRecord buf f = (.ok rid, f') ∧
    0 ≤ rid.slotNo ∧ rid.slotNo < f.hdr.numRecordsPerPage ∧ (f.HasPage rid.pageNo → f.isRecord rid = false)

theorem Shows.links {f : RmFile} {h : RmFileHandle} (hs : Shows f h) : ∀ {c : List Int} {p : Int}, h.Links p c →
    (∀ q ∈ c, firstRecordPage ≤ q ∧ q < h.numPages) → f.Links p c
  | [], _, hc, _ => hc
  | q :: c, _, hc, hmem => by
    obtain ⟨hq, hlt⟩ := hmem q (by simp)
    refine ⟨hc.1, ?_⟩
    rw [← (hs.page q hq hlt).next]
    exact hs.links hc.2 fun r hr => hmem r (by simp [hr])

theorem Kept.chainSound {L : Layout} {trace : List (Call × Reply)} {f : RmFile} (hk : Kept L trace f) :
    ChainSound f := by
  have hmap := hk.isMap
  obtain ⟨h, hs, ok, hlatch, -, hlive⟩ := hk
  obtain ⟨c, hc⟩ := ok.chain
  have hmem : ∀ p ∈ c, firstRecordPage ≤ p ∧ p < h.numPages := fun p hp => ⟨ok.behind c hc p hp, (hc.free p hp).2.1⟩
  refine ⟨⟨c, hs.first ▸ hs.links hc.links hmem, fun p hp => ?_⟩, fun buf hbuf => ?_⟩
  · obtain ⟨h0, hlt, hcount⟩ := hc.free p hp
    obtain ⟨hslot, hfree⟩ := (ok.counted p h0 hlt).firstFree_spec hcount
    rw [hs.per] at hslot hfree
    refine ⟨⟨h0, hs.numPages ▸ hlt⟩, _, hslot, ?_⟩
    rw [(hs.page p (hmem p hp).1 hlt).isSet_eq hslot, hfree]
    rfl
  · obtain ⟨rid, f', hinsert, hnone, hpage, h0, hlt, -⟩ := hmap.insert buf hbuf
    refine ⟨rid, f', hinsert, h0, hlt, fun ⟨hp0, hplt⟩ => ?_⟩
    have hr : InRange h.numRecordsPerPage rid := by
      refine ⟨fun hzero => ?_, h0, hs.per ▸ hlt⟩
      rw [hzero, firstRecordPage] at hpage
      omega
    obtain ⟨-, -, -, hsome, -⟩ := hs.slot hr hp0 (hs.numPages ▸ hplt)
    rw [hlive, hnone] at hsome
    exact hsome.symm

/-- Inserts, deletes and positional inserts in any order, with the file closed
and opened in between: as long as a positional insert that fills a page fills
the first of the chain, and what is deleted is there, the chain is sound. -/
theorem run_chainSound (recordSize : Nat) (hsize : recordSize ≤ maxRecordSize) (calls : List Call)
    (hcalls : Run.Along RmFile.step (fun f c => c.Proper f ∧ c.Sound f) (.newFile recordSize) calls) :
    ∃ trace f, Run.run RmFile.step (.newFile recordSize) calls = some (trace, f) ∧ ChainSound f := by
  obtain ⟨trace, f, hrun, hk⟩ := kept_run hsize hcalls
  exact ⟨trace, f, hrun, hk.chainSound⟩

def twoPages (buf : List UInt8) : List Call := List.replicate 14 (.insert buf) ++ [.delete ⟨1, 0⟩, .delete ⟨2, 0⟩]

/-- The records are put back, the one deleted last first. -/
theorem twoPages_chainSound : ∃ trace f, Run.run RmFile.step (.newFile 512) (twoPages (List.replicate 512 0) ++
    [.insertAt ⟨2, 0⟩ (List.replicate 512 0), .insertAt ⟨1, 0⟩ (List.replicate 512 0)]) = some (trace, f) ∧
      ChainSound f :=
  run_chainSound 512 (by decide) _ (by decide +kernel)

/-- They are put back in the order they were deleted in, as two transactions
may do: page 2 is filled last, and page 1, which is full, becomes the first of
the chain. The next record goes behind its last slot. -/
theorem twoPages_not_chainSound : ∃ trace f, Run.run RmFile.step (.newFile 512) (twoPages (List.replicate 512 0) ++
    [.insertAt ⟨1, 0⟩ (List.replicate 512 0), .insertAt ⟨2, 0⟩ (List.replicate 512 0)]) = some (trace, f) ∧
      f.hdr.numRecordsPerPage = 7 ∧ (RmFile.insertRecord (List.replicate 512 0) f).1 = .ok ⟨1, 7⟩ ∧ ¬ ChainSound f := by
  have hrun : (Run.run RmFile.step (.newFile 512) (twoPages (List.replicate 512 0) ++
      [.insertAt ⟨1, 0⟩ (List.replicate 512 0), .insertAt ⟨2, 0⟩ (List.replicate 512 0)])).any (fun r =>
      r.2.hdr.recordSize = 512 ∧ r.2.hdr.numRecordsPerPage = 7 ∧
        (RmFile.insertRecord (List.replicate 512 0) r.2).1 = .ok ⟨1, 7⟩) = true := by decide +kernel
  obtain ⟨⟨trace, f⟩, hrun, hcheck⟩ := any_eq_true _ _ |>.1 hrun
  obtain ⟨hsize, hseven, hbehind⟩ := of_decide_eq_true hcheck
  refine ⟨trace, f, hrun, hseven, hbehind, fun hsound => ?_⟩
  obtain ⟨rid, f', hinsert, -, hlt, -⟩ := hsound.insert (List.replicate 512 0) (by rw [List.length_replicate, hsize])
  rw [hinsert] at hbehind
  cases hbehind
  rw [hseven] at hlt
  exact absurd hlt (by decide)

end Rmdb.Record
