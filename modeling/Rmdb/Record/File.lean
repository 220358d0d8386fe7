/-
The operations on a table file, page by page and with the latches.

`RmFile` is the open file: the header in memory, the pages with their bytes, and
the write latches that are held. `Shows f h` says that `h` is what is to be seen
of it: the calls do what the operations of `RmFileHandle` do, as long as no latch
is held. `delete_record` raises `RecordNotFoundError` with the latch held, and
the next call that wants it does not return.
-/
import Rmdb.Record.Page
import Rmdb.Lib.Exec

namespace Rmdb.Record

open Option Function List

structure PageData where
  nextFreePageNo : Int
  numRecords : Int
  data : Bytes

structure RmFileHdr extends Layout where
  numPages : Int
  firstFreePageNo : Int

/-- An open table file. `nextPageNo` is the file's counter in the disk manager,
`latched` are the pages whose write latch is held. -/
structure RmFile where
  hdr : RmFileHdr
  nextPageNo : Int
  pages : Int → PageData
  latched : List Int

inductive Stop where
  | rmdb (e : RMDBError)
  | deadlock
  deriving DecidableEq, Repr

abbrev FileExec := Exec Stop RmFile

namespace RmFile

/-! ## `RmManager` -/

def createFile (recordSize : Nat) : RmFileHdr :=
  { Layout.make recordSize with numPages := firstRecordPage, firstFreePageNo := noPage }

/-- `open_file`: the header is read, and new pages are counted from where it says. -/
def openFile (hdr : RmFileHdr) (pages : Int → PageData) : RmFile :=
  { hdr := hdr, nextPageNo := hdr.numPages, pages := pages, latched := [] }

def emptyPage : PageData := ⟨noPage, 0, fun _ => 0⟩

def newFile (recordSize : Nat) : RmFile := openFile (createFile recordSize) fun _ => emptyPage

/-! ## Pages and latches -/

def wLatch (pageNo : Int) : FileExec Unit := do
  let latched ← .asks RmFile.latched
  if pageNo ∈ latched then .raise .deadlock else .modify fun f => { f with latched := pageNo :: f.latched }

def wUnlatch (pageNo : Int) : FileExec Unit := .modify fun f => { f with latched := f.latched.erase pageNo }

def setPage (pageNo : Int) (pg : PageData) : FileExec Unit :=
  .modify fun f => { f with pages := update f.pages pageNo pg }

def setFirstFree (pageNo : Int) : FileExec Unit :=
  .modify fun f => { f with hdr := { f.hdr with firstFreePageNo := pageNo } }

def fetchPageHandle (pageNo : Int) : FileExec PageData := do
  let hdr ← .asks RmFile.hdr
  if pageNo ≥ hdr.numPages ∨ pageNo < 0 then .raise (.rmdb (.pageNotExist pageNo)) else .asks fun f => f.pages pageNo

/-- `new_page` clears the memory; `create_new_page_handle` sets the page's header. -/
def createNewPageHandle : FileExec Int := do
  let pageNo ← .asks RmFile.nextPageNo
  .modify fun f => { f with
    nextPageNo := pageNo + 1
    pages := update f.pages pageNo emptyPage
    hdr := { f.hdr with numPages := f.hdr.numPages + 1, firstFreePageNo := pageNo } }
  pure pageNo

def createPageHandle : FileExec Int := do
  let first ← .asks fun f => f.hdr.firstFreePageNo
  if first = noPage then createNewPageHandle
  else do
    let _ ← fetchPageHandle first
    pure first

/-! ## Records -/

def getRecord (rid : Rid) : FileExec (List UInt8) := do
  let pg ← fetchPageHandle rid.pageNo
  if Bitmap.isSet pg.data rid.slotNo.toNat = false then .raise (.rmdb (.recordNotFound rid))
  else .asks fun f => f.hdr.getSlot pg.data rid.slotNo.toNat

/-- A bit is set and counted; a page that is full then is left out of the chain. -/
def takeSlot (pageNo : Int) (slotNo : Nat) : FileExec Unit := do
  let pg ← .asks fun f => f.pages pageNo
  let hdr ← .asks RmFile.hdr
  setPage pageNo { pg with numRecords := pg.numRecords + 1, data := Bitmap.set pg.data slotNo }
  .when (pg.numRecords + 1 = hdr.numRecordsPerPage) (setFirstFree pg.nextFreePageNo)

def copySlot (pageNo : Int) (slotNo : Nat) (buf : List UInt8) : FileExec Unit := do
  let pg ← .asks fun f => f.pages pageNo
  let hdr ← .asks RmFile.hdr
  setPage pageNo { pg with data := hdr.putSlot pg.data slotNo buf }

def insertRecord (buf : List UInt8) : FileExec Rid := do
  let pageNo ← createPageHandle
  wLatch pageNo
  let slotNo ← .asks fun f => Bitmap.firstBit false (f.pages pageNo).data f.hdr.numRecordsPerPage
  takeSlot pageNo slotNo
  wUnlatch pageNo
  copySlot pageNo slotNo buf
  pure ⟨pageNo, slotNo⟩

def insertRecordAt (rid : Rid) (buf : List UInt8) : FileExec Unit := do
  let pg ← fetchPageHandle rid.pageNo
  wLatch rid.pageNo
  .when (!Bitmap.isSet pg.data rid.slotNo.toNat) (takeSlot rid.pageNo rid.slotNo.toNat)
  wUnlatch rid.pageNo
  copySlot rid.pageNo rid.slotNo.toNat buf

def releasePageHandle (pageNo : Int) : FileExec Unit := do
  let pg ← .asks fun f => f.pages pageNo
  let first ← .asks fun f => f.hdr.firstFreePageNo
  setPage pageNo { pg with nextFreePageNo := first }
  setFirstFree pageNo

/-- The exception leaves the page latched. -/
def deleteRecord (rid : Rid) : FileExec Unit := do
  let pg ← fetchPageHandle rid.pageNo
  wLatch rid.pageNo
  let hdr ← .asks RmFile.hdr
  if Bitmap.isSet pg.data rid.slotNo.toNat = false then .raise (.rmdb (.recordNotFound rid))
  else do
    setPage rid.pageNo { pg with numRecords := pg.numRecords - 1, data := Bitmap.reset pg.data rid.slotNo.toNat }
    .when (pg.numRecords = hdr.numRecordsPerPage) (releasePageHandle rid.pageNo)
    wUnlatch rid.pageNo

def updateRecord (rid : Rid) (buf : List UInt8) : FileExec Unit := do
  let pg ← fetchPageHandle rid.pageNo
  if Bitmap.isSet pg.data rid.slotNo.toNat = false then .raise (.rmdb (.recordNotFound rid))
  else copySlot rid.pageNo rid.slotNo.toNat buf

end RmFile

/-! ## What is to be seen of a file -/

/-- A slot whose bit is set has its bytes, another has none. -/
structure ShowsPage (L : Layout) (pg : PageData) (a : RmPage) : Prop where
  next : a.nextFreePageNo = pg.nextFreePageNo
  count : (a.numRecords : Int) = pg.numRecords
  slots : ∀ i : Nat, i < L.numRecordsPerPage →
    a.slots i = if Bitmap.isSet pg.data i then some (L.getSlot pg.data i) else none

namespace ShowsPage

variable {L : Layout} {pg : PageData} {a : RmPage} {i : Nat} {buf : List UInt8}

theorem firstFree (h : ShowsPage L pg a) :
    a.firstFree L.numRecordsPerPage = Bitmap.firstBit false pg.data L.numRecordsPerPage := by
  unfold RmPage.firstFree Bitmap.firstBit
  congr 1
  refine List.find?_congr fun i hi => ?_
  rw [h.slots i (mem_range.1 hi)]
  cases Bitmap.isSet pg.data i <;> rfl

theorem isSet_eq (h : ShowsPage L pg a) (hi : i < L.numRecordsPerPage) :
    Bitmap.isSet pg.data i = (a.slots i).isSome := by
  rw [h.slots i hi]
  cases Bitmap.isSet pg.data i <;> rfl

theorem slots_putSlot (h : ShowsPage L pg a) (hL : L.Covers) {data : Bytes} (hbuf : buf.length = L.recordSize)
    (hset : ∀ j, Bitmap.isSet data j = (decide (j = i) || Bitmap.isSet pg.data j))
    (hdata : ∀ j, L.getSlot data j = L.getSlot pg.data j) (j : Nat) (hj : j < L.numRecordsPerPage) :
    update a.slots (i : Int) (some buf) j =
      if Bitmap.isSet (L.putSlot data i buf) j then some (L.getSlot (L.putSlot data i buf) j) else none := by
  rw [Layout.isSet_putSlot (hL j hj), hset]
  by_cases hji : j = i
  · subst hji
    simp [Layout.getSlot_putSlot_self hbuf]
  · have hne : (j : Int) ≠ i := by omega
    rw [update_of_ne hne, h.slots j hj, Layout.getSlot_putSlot_of_ne hji, hdata]
    simp [hji]

theorem fill (h : ShowsPage L pg a) (hL : L.Covers) (hi : i < L.numRecordsPerPage) (hbuf : buf.length = L.recordSize) :
    ShowsPage L { pg with numRecords := pg.numRecords + 1, data := L.putSlot (Bitmap.set pg.data i) i buf }
      { a with numRecords := a.numRecords + 1, slots := update a.slots (i : Int) (some buf) } where
  next := h.next
  count := by simp [h.count]
  slots := h.slots_putSlot hL hbuf
    (fun j => by
      by_cases hji : j = i
      · simp [hji]
      · simp [hji, Bitmap.isSet_set_of_ne hji])
    fun _ => Layout.getSlot_set (hL i hi)

theorem write (h : ShowsPage L pg a) (hL : L.Covers) (hset : Bitmap.isSet pg.data i = true)
    (hbuf : buf.length = L.recordSize) :
    ShowsPage L { pg with data := L.putSlot pg.data i buf }
      { a with slots := update a.slots (i : Int) (some buf) } where
  next := h.next
  count := h.count
  slots := h.slots_putSlot hL hbuf
    (fun j => by
      by_cases hji : j = i
      · simp [hji, hset]
      · simp [hji])
    fun _ => rfl

theorem clear (h : ShowsPage L pg a) (hL : L.Covers) (hi : i < L.numRecordsPerPage) (hpos : 0 < a.numRecords)
    (next : Int) :
    ShowsPage L { pg with nextFreePageNo := next, numRecords := pg.numRecords - 1, data := Bitmap.reset pg.data i }
      { nextFreePageNo := next, numRecords := a.numRecords - 1, slots := update a.slots (i : Int) none } where
  next := rfl
  count := by
    have := h.count
    simp only
    omega
  slots := fun j hj => by
    by_cases hji : j = i
    · subst hji
      simp
    · have hne : (j : Int) ≠ i := by omega
      simp only [update_of_ne hne, h.slots j hj, Bitmap.isSet_reset_of_ne hji, Layout.getSlot_reset (hL i hi)]

end ShowsPage

structure InRange (numRecordsPerPage : Nat) (rid : Rid) : Prop where
  page : rid.pageNo ≠ 0
  nonneg : 0 ≤ rid.slotNo
  lt : rid.slotNo < numRecordsPerPage

structure Shows (f : RmFile) (h : RmFileHandle) : Prop where
  covers : f.hdr.Covers
  per : h.numRecordsPerPage = f.hdr.numRecordsPerPage
  numPages : h.numPages = f.hdr.numPages
  nextPage : f.nextPageNo = f.hdr.numPages
  first : h.firstFreePageNo = f.hdr.firstFreePageNo
  page : ∀ p, firstRecordPage ≤ p → p < h.numPages → ShowsPage f.hdr.toLayout (f.pages p) (h.pages p)

structure TableOK (h : RmFileHandle) : Prop extends h.HeapOK where
  begun : firstRecordPage ≤ h.numPages
  header : ∀ i, (h.pages 0).slots i = none
  behind : ∀ c, h.FreeChain c → ∀ p ∈ c, firstRecordPage ≤ p

section

variable {h h' : RmFileHandle} {rid : Rid} {rec : List UInt8} {c : List Int}

theorem TableOK.change (ok : TableOK h) (ok' : h'.HeapOK) {p : Int} (hp : firstRecordPage ≤ p)
    (hnum : h.numPages ≤ h'.numPages) (hsame : ∀ q, q ≠ p → h'.pages q = h.pages q) (hc : h'.FreeChain c)
    (hbehind : ∀ q ∈ c, firstRecordPage ≤ q) : TableOK h' := by
  refine ⟨ok', ok.begun.trans hnum, fun i => ?_, fun c' hc' => hc'.unique hc ▸ hbehind⟩
  have hne : (0 : Int) ≠ p := by
    simp only [firstRecordPage] at hp
    omega
  rw [hsame 0 hne]
  exact ok.header i

theorem TableOK.createPageHandle (ok : TableOK h) :
    ∃ p c h₁, h.createPageHandle = .ok (p, h₁) ∧ TableOK h₁ ∧ h₁.FreeChain (p :: c) := by
  obtain ⟨p, c, h₁, hcreate, ext, hchain⟩ := ok.toHeapOK.createPageHandle
  refine ⟨p, c, h₁, hcreate, ?_, hchain⟩
  unfold RmFileHandle.createPageHandle at hcreate
  split at hcreate
  · cases hcreate
    refine ok.change (ext.ok ok.toHeapOK) ok.begun (by simp) (fun q hq => update_of_ne hq _ _)
      ok.freeChain_createNewPage fun q hq => ?_
    rw [mem_singleton.1 hq]
    exact ok.begun
  · cases hf : h.fetchPageHandle h.firstFreePageNo with
    | error e => simp [hf] at hcreate
    | ok pg =>
      rw [hf, ok_bind] at hcreate
      cases hcreate
      exact ok

theorem TableOK.fillSlot (ok : TableOK h) (hc : h.FreeChain c) (hp : firstRecordPage ≤ rid.pageNo)
    (hlt : rid.pageNo < h.numPages) (hslot : 0 ≤ rid.slotNo ∧ rid.slotNo < h.numRecordsPerPage)
    (hfree : (h.pages rid.pageNo).slots rid.slotNo = none)
    (hhead : (h.pages rid.pageNo).numRecords + 1 = h.numRecordsPerPage → ∃ c', c = rid.pageNo :: c')
    (buf : List UInt8) : TableOK (h.fillSlot rid buf) := by
  have h0 : 0 ≤ rid.pageNo := by
    simp only [firstRecordPage] at hp
    omega
  have hcount := (ok.counted _ h0 hlt).lt_of_free hslot hfree
  have heq := h.fillSlot_eq rid buf
  refine ok.change (ok.toHeapOK.fillSlot hc h0 hlt hslot hfree hhead buf) hp (heq ▸ le_rfl)
    (fun q hq => heq ▸ RmFileHandle.setPage_of_ne _ _ hq) (hc.fill rid buf hcount hhead) fun q hq => ?_
  split_ifs at hq
  · exact ok.behind c hc q (mem_of_mem_tail hq)
  · exact ok.behind c hc q hq

theorem TableOK.behind_of_live (ok : TableOK h) (hlive : h.live rid = some rec) : firstRecordPage ≤ rid.pageNo := by
  obtain ⟨h0, -, hslot, -⟩ := RmFileHandle.live_some hlive
  have hne : rid.pageNo ≠ 0 := fun h0 => by simp [h0, ok.header] at hslot
  simp only [firstRecordPage]
  omega

theorem TableOK.clearSlot (ok : TableOK h) (hlive : h.live rid = some rec) : TableOK (h.clearSlot rid) := by
  obtain ⟨h0, hlt, hslot, -⟩ := RmFileHandle.live_some hlive
  have hused : (h.pages rid.pageNo).slots rid.slotNo ≠ none := by simp [hslot]
  have hp := ok.behind_of_live hlive
  obtain ⟨c, hc⟩ := ok.chain
  have heq := h.clearSlot_eq rid
  refine ok.change (ok.toHeapOK.clearSlot hlive) hp (heq ▸ le_rfl) (fun q hq => heq ▸ RmFileHandle.setPage_of_ne _ _ hq)
    (hc.clear h0 hlt ((ok.counted _ h0 hlt).clear hused 0).1) fun q hq => ?_
  split_ifs at hq
  · rcases mem_cons.1 hq with rfl | hq
    · exact hp
    · exact ok.behind c hc q hq
  · exact ok.behind c hc q hq

theorem TableOK.writeSlot (ok : TableOK h) (hlive : h.live rid = some rec) (buf : List UInt8) :
    TableOK (h.writeSlot rid buf) := by
  obtain ⟨-, -, hslot, hfetch⟩ := RmFileHandle.live_some hlive
  obtain ⟨c, hc⟩ := ok.chain
  obtain ⟨h', hupdate, ok', -⟩ := ok.toHeapOK.updateRecord hlive buf
  have heq : h.writeSlot rid buf = h' := by simpa [RmFileHandle.updateRecord, hfetch, hslot] using hupdate
  exact ok.change (heq ▸ ok') (ok.behind_of_live hlive) le_rfl (fun q hq => RmFileHandle.setPage_of_ne _ _ hq)
    (hc.writeSlot rid buf) (ok.behind c hc)

end

namespace Shows

open Exec RmFile

variable {f : RmFile} {h : RmFileHandle} {buf : List UInt8} {p : Int} {rid : Rid}

theorem setPage (hs : Shows f h) {pg : PageData} {a : RmPage} (hpg : ShowsPage f.hdr.toLayout pg a) :
    Shows { f with pages := update f.pages p pg } (h.setPage p a) where
  covers := hs.covers
  per := hs.per
  numPages := hs.numPages
  nextPage := hs.nextPage
  first := hs.first
  page := fun q hq hlt => by
    by_cases hqp : q = p
    · subst hqp
      simpa using hpg
    · rw [RmFileHandle.setPage_of_ne _ _ hqp]
      simpa only [update_of_ne hqp] using hs.page q hq hlt

theorem setFirst (hs : Shows f h) (first : Int) :
    Shows { f with hdr := { f.hdr with firstFreePageNo := first } } { h with firstFreePageNo := first } :=
  ⟨hs.covers, hs.per, hs.numPages, hs.nextPage, rfl, hs.page⟩

variable {E : Stop → RmFile → Prop} {i : Nat}

theorem fetchPageHandle (hs : Shows f h) {Q : PageData → RmFile → Prop}
    (hok : h.fetchPageHandle p = .ok (h.pages p) → 0 ≤ p → p < h.numPages → Q (f.pages p) f)
    (herr : h.fetchPageHandle p = .error (.pageNotExist p) → E (.rmdb (.pageNotExist p)) f) :
    wp (RmFile.fetchPageHandle p) Q E f := by
  unfold RmFile.fetchPageHandle RmFileHandle.fetchPageHandle at *
  simp only [wp_bind, wp_asks]
  rw [← hs.numPages]
  split
  · next hout => exact herr (if_pos hout)
  · next hin => exact hok (if_neg hin) (by omega) (by omega)

theorem isSet_emptyPage (i : Nat) : Bitmap.isSet emptyPage.data i = false := by simp [Bitmap.isSet, emptyPage]

theorem createPageHandle (hs : Shows f h) (ok : TableOK h) {Q : Int → RmFile → Prop}
    (hQ : ∀ p c f₁ h₁, h.createPageHandle = .ok (p, h₁) → Shows f₁ h₁ → TableOK h₁ → h₁.FreeChain (p :: c) →
      f₁.latched = f.latched → f₁.hdr.toLayout = f.hdr.toLayout → Q p f₁) :
    wp RmFile.createPageHandle Q E f := by
  obtain ⟨p, c, h₁, hcreate, ok₁, hchain⟩ := ok.createPageHandle
  have hcase := hcreate
  unfold RmFileHandle.createPageHandle at hcase
  unfold RmFile.createPageHandle
  simp only [wp_bind, wp_asks]
  rw [← hs.first]
  split
  · next hnone =>
    rw [if_pos hnone] at hcase
    cases hcase
    have hnext : f.nextPageNo = h.numPages := hs.nextPage.trans hs.numPages.symm
    simp only [RmFile.createNewPageHandle, wp_bind, wp_asks, wp_modify, wp_pure, hnext]
    refine hQ _ c _ _ hcreate ?_ ok₁ hchain rfl rfl
    refine ⟨hs.covers, hs.per, ?_, ?_, rfl, fun q hq hlt => ?_⟩
    · simp [hs.numPages]
    · simp [hs.numPages]
    · by_cases hqn : q = h.numPages
      · subst hqn
        simp only [update_self]
        exact ⟨rfl, rfl, fun i _ => by simp [isSet_emptyPage]⟩
      · simp only [update_of_ne hqn] at hlt ⊢
        exact hs.page q hq (by omega)
  · next hsome =>
    rw [if_neg hsome] at hcase
    rw [wp_bind]
    refine hs.fetchPageHandle (fun hfetch _ _ => ?_) fun hfetch => ?_
    · rw [hfetch] at hcase
      cases hcase
      exact hQ _ c f h hcreate hs ok hchain rfl rfl
    · rw [hfetch] at hcase
      cases hcase

theorem live_none (hfetch : h.fetchPageHandle rid.pageNo = .error (.pageNotExist rid.pageNo)) : h.live rid = none := by
  unfold RmFileHandle.fetchPageHandle at hfetch
  split at hfetch
  · rw [RmFileHandle.live, if_neg (by omega)]
  · cases hfetch

def filled (f : RmFile) (p : Int) (i : Nat) (buf : List UInt8) : RmFile :=
  { f with
    pages := update f.pages p
      { f.pages p with
        numRecords := (f.pages p).numRecords + 1
        data := f.hdr.putSlot (Bitmap.set (f.pages p).data i) i buf }
    hdr := { f.hdr with
      firstFreePageNo :=
        if (f.pages p).numRecords + 1 = f.hdr.numRecordsPerPage then (f.pages p).nextFreePageNo
        else f.hdr.firstFreePageNo } }

variable {Q : Unit → RmFile → Prop}

theorem wp_takeSlot :
    wp (takeSlot p i) (fun _ f₁ => wp (wUnlatch p) (fun _ f₂ => wp (copySlot p i buf) Q E f₂) E f₁) E
      { f with latched := p :: f.latched } ↔ Q () (filled f p i buf) := by
  unfold takeSlot copySlot wUnlatch RmFile.setPage setFirstFree
  simp only [wp_bind, wp_asks, wp_modify, Exec.when, decide_eq_true_eq]
  unfold filled
  by_cases hfull : (f.pages p).numRecords + 1 = f.hdr.numRecordsPerPage
  · simp [hfull]
  · simp [hfull]

theorem filled_shows (hs : Shows f h) (hp : firstRecordPage ≤ p) (hlt : p < h.numPages)
    (hi : i < h.numRecordsPerPage) (hbuf : buf.length = f.hdr.recordSize) :
    Shows (filled f p i buf) (h.fillSlot ⟨p, i⟩ buf) := by
  have hpg := hs.page p hp hlt
  have hiff : (f.pages p).numRecords + 1 = f.hdr.numRecordsPerPage ↔
      (h.pages p).numRecords + 1 = h.numRecordsPerPage := by
    rw [← hpg.count, ← hs.per]
    omega
  have := (hs.setPage (p := p) (hpg.fill hs.covers (hs.per ▸ hi) hbuf)).setFirst
    (if (f.pages p).numRecords + 1 = f.hdr.numRecordsPerPage then (f.pages p).nextFreePageNo else f.hdr.firstFreePageNo)
  rw [RmFileHandle.fillSlot_eq]
  simpa only [filled, hiff, hpg.next, hs.first] using this

def cleared (f : RmFile) (p : Int) (i : Nat) : RmFile :=
  { f with
    pages := update f.pages p
      { nextFreePageNo :=
          if (f.pages p).numRecords = f.hdr.numRecordsPerPage then f.hdr.firstFreePageNo else (f.pages p).nextFreePageNo
        numRecords := (f.pages p).numRecords - 1
        data := Bitmap.reset (f.pages p).data i }
    hdr := { f.hdr with
      firstFreePageNo := if (f.pages p).numRecords = f.hdr.numRecordsPerPage then p else f.hdr.firstFreePageNo } }

theorem wp_giveSlot : wp (do
      RmFile.setPage p
        { f.pages p with numRecords := (f.pages p).numRecords - 1, data := Bitmap.reset (f.pages p).data i }
      .when ((f.pages p).numRecords = f.hdr.numRecordsPerPage) (releasePageHandle p)
      wUnlatch p) Q E { f with latched := p :: f.latched } ↔ Q () (cleared f p i) := by
  unfold releasePageHandle RmFile.setPage setFirstFree wUnlatch
  simp only [wp_bind, wp_modify, Exec.when, decide_eq_true_eq]
  unfold cleared
  by_cases hfull : (f.pages p).numRecords = f.hdr.numRecordsPerPage
  · simp [hfull]
  · simp [hfull]

theorem cleared_shows (hs : Shows f h) (hp : firstRecordPage ≤ p) (hlt : p < h.numPages)
    (hi : i < f.hdr.numRecordsPerPage) (hpos : 0 < (h.pages p).numRecords) :
    Shows (cleared f p i) (h.clearSlot ⟨p, i⟩) := by
  have hpg := hs.page p hp hlt
  have hiff : (f.pages p).numRecords = f.hdr.numRecordsPerPage ↔ (h.pages p).numRecords = h.numRecordsPerPage := by
    rw [← hpg.count, ← hs.per]
    omega
  have := (hs.setPage (p := p) (hpg.clear hs.covers hi hpos
      (if (h.pages p).numRecords = h.numRecordsPerPage then h.firstFreePageNo else
        (h.pages p).nextFreePageNo))).setFirst
    (if (h.pages p).numRecords = h.numRecordsPerPage then p else h.firstFreePageNo)
  rw [RmFileHandle.clearSlot_eq]
  simpa only [cleared, hiff, hpg.next, hs.first] using this

/-- What the calls leave: an intact file that shows `h'`, and no latch. -/
structure After (f f' : RmFile) (h' : RmFileHandle) : Prop where
  shows : Shows f' h'
  ok : TableOK h'
  layout : f'.hdr.toLayout = f.hdr.toLayout
  latched : f'.latched = []

theorem insertRecord (hs : Shows f h) (ok : TableOK h) (hlatch : f.latched = [])
    (hbuf : buf.length = f.hdr.recordSize) :
    wp (RmFile.insertRecord buf) (fun rid f' => ∃ h', h.insertRecord buf = .ok (rid, h') ∧ After f f' h')
      (fun _ _ => False) f := by
  unfold RmFile.insertRecord
  rw [wp_bind]
  refine hs.createPageHandle ok fun p c f₁ h₁ hcreate hs₁ ok₁ hc hlatch₁ hlayout => ?_
  obtain ⟨h0, hlt, hcount⟩ := hc.free p (by simp)
  have hp := ok₁.behind _ hc p (by simp)
  obtain ⟨hslot, hfree⟩ := (ok₁.counted p h0 hlt).firstFree_spec hcount
  have hfirst : Bitmap.firstBit false (f₁.pages p).data f₁.hdr.numRecordsPerPage = (h₁.pages p).firstFree
    h₁.numRecordsPerPage := by
    rw [hs₁.per, (hs₁.page p hp hlt).firstFree]
  rw [hlatch] at hlatch₁
  unfold wLatch
  simp only [wp_bind, wp_asks, hlatch₁, not_mem_nil, if_false, wp_modify, hfirst, wp_pure]
  rw [← hlatch₁, wp_takeSlot]
  refine ⟨h₁.fillSlot ⟨p, (h₁.pages p).firstFree h₁.numRecordsPerPage⟩ buf, ?_, ?_, ?_, hlayout, hlatch₁⟩
  · simp [RmFileHandle.insertRecord, hcreate]
  · exact filled_shows hs₁ hp hlt hslot (by rw [hbuf, hlayout])
  · exact ok₁.fillSlot hc hp hlt ⟨by simp, by simpa using hslot⟩ hfree (fun _ => ⟨c, rfl⟩) buf

section

variable (hs : Shows f h) (hr : InRange h.numRecordsPerPage rid)
include hs hr

theorem slot (h0 : 0 ≤ rid.pageNo) (hlt : rid.pageNo < h.numPages) :
    firstRecordPage ≤ rid.pageNo ∧ ((rid.slotNo.toNat : Nat) : Int) = rid.slotNo ∧
      rid.slotNo.toNat < f.hdr.numRecordsPerPage ∧
      (h.live rid).isSome = Bitmap.isSet (f.pages rid.pageNo).data rid.slotNo.toNat ∧
      (Bitmap.isSet (f.pages rid.pageNo).data rid.slotNo.toNat = true →
        h.live rid = some (f.hdr.getSlot (f.pages rid.pageNo).data rid.slotNo.toNat)) := by
  have hp : firstRecordPage ≤ rid.pageNo := by
    have := hr.page
    simp only [firstRecordPage]
    omega
  have hnat := Int.toNat_of_nonneg hr.nonneg
  have hlt' : rid.slotNo.toNat < f.hdr.numRecordsPerPage := by
    have := hr.lt
    rw [hs.per] at this
    omega
  have hpg := hs.page _ hp hlt
  have hlive : h.live rid = (h.pages rid.pageNo).slots (rid.slotNo.toNat : Int) := by
    rw [hnat, RmFileHandle.live, if_pos ⟨h0, hlt⟩]
  rw [hlive, ← hpg.isSet_eq hlt', hpg.slots _ hlt']
  exact ⟨hp, hnat, hlt', rfl, fun hset => if_pos hset⟩

theorem getRecord : wp (RmFile.getRecord rid) (fun rec f' => f' = f ∧ h.live rid = some rec)
    (fun e f' => f' = f ∧ h.live rid = none ∧
    (e = .rmdb (.recordNotFound rid) ∨ e = .rmdb (.pageNotExist rid.pageNo))) f := by
  unfold RmFile.getRecord
  rw [wp_bind]
  refine hs.fetchPageHandle (fun _ h0 hlt => ?_) fun hfetch => ?_
  · obtain ⟨-, -, -, hsome, hrec⟩ := hs.slot hr h0 hlt
    split
    · next hset => exact ⟨rfl, isSome_eq_false_iff.1 (hsome.trans hset) |> isNone_iff_eq_none.1, .inl rfl⟩
    · next hset => exact ⟨rfl, hrec (by simpa using hset)⟩
  · exact ⟨rfl, live_none hfetch, .inr rfl⟩

theorem not_live_of_isSet (h0 : 0 ≤ rid.pageNo) (hlt : rid.pageNo < h.numPages)
    (hset : Bitmap.isSet (f.pages rid.pageNo).data rid.slotNo.toNat = false) : h.live rid = none := by
  obtain ⟨-, -, -, hsome, -⟩ := hs.slot hr h0 hlt
  rw [hset] at hsome
  exact isNone_iff_eq_none.1 (isSome_eq_false_iff.1 hsome)

/-- `delete_record` gives up the slot of a record. Where there is none it raises
an error, on a page that exists with the latch held. -/
theorem deleteRecord (ok : TableOK h) (hlatch : f.latched = []) : wp (RmFile.deleteRecord rid)
    (fun _ f' => h.live rid ≠ none ∧ ∃ h', h.deleteRecord rid = .ok h' ∧ After f f' h')
    (fun e f' => h.live rid = none ∧ (e = .rmdb (.pageNotExist rid.pageNo) ∧ f' = f ∨
      (0 ≤ rid.pageNo ∧ rid.pageNo < h.numPages) ∧ e = .rmdb (.recordNotFound rid) ∧
        f' = { f with latched := [rid.pageNo] })) f := by
  unfold RmFile.deleteRecord
  rw [wp_bind]
  refine hs.fetchPageHandle (fun hfetch h0 hlt => ?_) fun hfetch => ⟨live_none hfetch, .inl ⟨rfl, rfl⟩⟩
  unfold wLatch
  simp only [wp_bind, wp_asks, hlatch, not_mem_nil, if_false, wp_modify]
  split
  · next hset => exact ⟨not_live_of_isSet hs hr h0 hlt hset, .inr ⟨⟨h0, hlt⟩, rfl, rfl⟩⟩
  · next hset =>
    obtain ⟨hp, hnat, hi, -, hrec⟩ := hs.slot hr h0 hlt
    have hlive := hrec (by simpa using hset)
    obtain ⟨-, -, hslot, -⟩ := RmFileHandle.live_some hlive
    have hpos := ((ok.counted _ h0 hlt).clear (i := rid.slotNo) (by simp [hslot]) 0).1
    have hdelete : h.deleteRecord rid = .ok (h.clearSlot rid) := by simp [RmFileHandle.deleteRecord, hfetch, hslot]
    have hshows := hs.cleared_shows hp hlt hi hpos
    rw [hnat] at hshows
    rw [← hlatch, wp_giveSlot]
    exact ⟨by simp [hlive], _, hdelete, hshows, ok.clearSlot hlive, rfl, hlatch⟩

theorem wp_copySlot (ok : TableOK h) (hlatch : f.latched = []) {rec : List UInt8} (hlive : h.live rid = some rec)
    (hbuf : buf.length = f.hdr.recordSize) :
    wp (copySlot rid.pageNo rid.slotNo.toNat buf) (fun _ f' => After f f' (h.writeSlot rid buf))
      (fun _ _ => False) f := by
  obtain ⟨h0, hlt, -, -⟩ := RmFileHandle.live_some hlive
  obtain ⟨hp, hnat, -, hsome, -⟩ := hs.slot hr h0 hlt
  have hset : Bitmap.isSet (f.pages rid.pageNo).data rid.slotNo.toNat = true := by rw [← hsome, hlive]; rfl
  have hshows := hs.setPage (p := rid.pageNo) ((hs.page _ hp hlt).write hs.covers hset hbuf)
  rw [hnat] at hshows
  unfold copySlot RmFile.setPage
  simp only [wp_bind, wp_asks, wp_modify]
  exact ⟨hshows, ok.writeSlot hlive buf, rfl, hlatch⟩

theorem updateRecord (ok : TableOK h) (hlatch : f.latched = []) (hbuf : buf.length = f.hdr.recordSize) :
    wp (RmFile.updateRecord rid buf)
      (fun _ f' => h.live rid ≠ none ∧ ∃ h', h.updateRecord rid buf = .ok h' ∧ After f f' h')
      (fun e f' => h.live rid = none ∧ f' = f ∧
        (e = .rmdb (.recordNotFound rid) ∨ e = .rmdb (.pageNotExist rid.pageNo))) f := by
  unfold RmFile.updateRecord
  rw [wp_bind]
  refine hs.fetchPageHandle (fun hfetch h0 hlt => ?_) fun hfetch => ⟨live_none hfetch, rfl, .inr rfl⟩
  split
  · next hset => exact ⟨not_live_of_isSet hs hr h0 hlt hset, rfl, .inl rfl⟩
  · next hset =>
    obtain ⟨-, -, -, -, hrec⟩ := hs.slot hr h0 hlt
    have hlive := hrec (by simpa using hset)
    obtain ⟨-, -, hslot, -⟩ := RmFileHandle.live_some hlive
    refine wp_mono (hs.wp_copySlot hr ok hlatch hlive hbuf) (fun _ f' hafter => ⟨by simp [hlive], _, ?_, hafter⟩) nofun
    simp [RmFileHandle.updateRecord, hfetch, hslot]

theorem insertRecordAt (ok : TableOK h) (hlatch : f.latched = []) (hbuf : buf.length = f.hdr.recordSize) {c : List Int}
    (hc : h.FreeChain c) (h0 : 0 ≤ rid.pageNo) (hlt : rid.pageNo < h.numPages)
    (hhead : h.live rid = none → (h.pages rid.pageNo).numRecords + 1 = h.numRecordsPerPage → ∃ c',
    c = rid.pageNo :: c') :
    wp (RmFile.insertRecordAt rid buf) (fun _ f' => ∃ h', h.insertRecordAt rid buf = .ok h' ∧ After f f' h')
      (fun _ _ => False) f := by
  unfold RmFile.insertRecordAt
  rw [wp_bind]
  obtain ⟨hp, hnat, hi, -, hrec⟩ := hs.slot hr h0 hlt
  refine hs.fetchPageHandle (fun hfetch _ _ => ?_) fun hfetch => by
    rw [RmFileHandle.fetchPageHandle, if_neg (by omega)] at hfetch
    cases hfetch
  unfold wLatch
  simp only [wp_bind, wp_asks, hlatch, not_mem_nil, if_false, wp_modify, Exec.when]
  cases hset : Bitmap.isSet (f.pages rid.pageNo).data rid.slotNo.toNat with
  | true =>
    have hlive := hrec hset
    obtain ⟨-, -, hslot, -⟩ := RmFileHandle.live_some hlive
    unfold wUnlatch
    simp only [Bool.not_true, Bool.false_eq_true, if_false, wp_pure, wp_modify, erase_cons_head]
    rw [← hlatch]
    refine wp_mono (hs.wp_copySlot hr ok hlatch hlive hbuf) (fun _ f' hafter => ⟨_, ?_, hafter⟩) fun _ _ h => h
    simp [RmFileHandle.insertRecordAt, hfetch, hslot]
  | false =>
    have hnone := not_live_of_isSet hs hr h0 hlt hset
    have hslot : (h.pages rid.pageNo).slots rid.slotNo = none := by
      rwa [RmFileHandle.live, if_pos ⟨h0, hlt⟩] at hnone
    have hfilled := filled_shows hs hp hlt (hs.per ▸ hi) hbuf
    rw [hnat] at hfilled
    simp only [Bool.not_false, if_true]
    rw [← hlatch, wp_takeSlot]
    refine ⟨h.fillSlot rid buf, ?_, hfilled, ?_, rfl, hlatch⟩
    · simp [RmFileHandle.insertRecordAt, hfetch, hslot]
    · exact ok.fillSlot hc hp hlt ⟨hr.nonneg, hr.lt⟩ hslot (hhead hnone) buf

end

theorem newFile (recordSize : Nat) : Shows (newFile recordSize) (.createFile recordSize) where
  covers := Layout.make_covers recordSize
  per := rfl
  numPages := rfl
  nextPage := rfl
  first := rfl
  page := fun p _ _ => ⟨rfl, rfl, fun i _ =>
    by simp [RmFileHandle.createFile, RmFile.newFile, openFile, isSet_emptyPage]⟩

end Shows

theorem TableOK.createFile {recordSize : Nat} (hsize : recordSize ≤ maxRecordSize) :
    TableOK (.createFile recordSize) where
  toHeapOK := .createFile hsize
  begun := le_rfl
  header := fun _ => rfl
  behind := fun c hc p hp => by
    have hnil : RmFileHandle.FreeChain (.createFile recordSize) [] := ⟨rfl, .nil, by simp⟩
    rw [hc.unique hnil] at hp
    cases hp

end Rmdb.Record
