/-
Heap files: the records of a table, in slots of pages.

A slot in use has its bytes and another has none, for nothing reads the bytes of
a slot that is not in use. Pages with a free slot are chained from
`first_free_page_no`. `HeapOK` is what the operations keep. `Ext h h'` says that
`h'` is `h` with some more empty pages: where an insert that is taken back leads.
-/
import Rmdb.Defs
import Rmdb.Lib.Post

namespace Rmdb.Record

open Function

def firstRecordPage : Int := 1

structure RmPage where
  nextFreePageNo : Int
  numRecords : Nat
  slots : Int → Option (List UInt8)

/-- `RmFileHandle` with its `RmFileHdr`. Page numbers come from
`DiskManager::allocate_page`, whose counter for the file is `num_pages`. -/
structure RmFileHandle where
  numRecordsPerPage : Nat
  numPages : Int
  firstFreePageNo : Int
  pages : Int → RmPage

/-- `BITMAP_WIDTH`, `sizeof(RmFileHdr)` and `RM_MAX_RECORD_SIZE` -/
def bitmapWidth : Nat := 8
def sizeofFileHdr : Nat := 20
def maxRecordSize : Nat := 512

namespace RmFileHandle

def createFile (recordSize : Nat) : RmFileHandle where
  numRecordsPerPage := (bitmapWidth * (pageSize - 1 - sizeofFileHdr) + 1) / (1 + recordSize * bitmapWidth)
  numPages := firstRecordPage
  firstFreePageNo := noPage
  pages := fun _ => { nextFreePageNo := noPage, numRecords := 0, slots := fun _ => none }

def fetchPageHandle (h : RmFileHandle) (pageNo : Int) : Except RMDBError RmPage :=
  if pageNo ≥ h.numPages ∨ pageNo < 0 then .error (.pageNotExist pageNo) else .ok (h.pages pageNo)

def setPage (h : RmFileHandle) (pageNo : Int) (pg : RmPage) : RmFileHandle :=
  { h with pages := update h.pages pageNo pg }

def getRecord (h : RmFileHandle) (rid : Rid) : Except RMDBError (List UInt8) := do
  let pg ← h.fetchPageHandle rid.pageNo
  match pg.slots rid.slotNo with
  | none => .error (.recordNotFound rid)
  | some rec => .ok rec

def createNewPageHandle (h : RmFileHandle) : Int × RmFileHandle :=
  (h.numPages,
    { h with
      numPages := h.numPages + 1
      firstFreePageNo := h.numPages
      pages := update h.pages h.numPages
        { nextFreePageNo := noPage, numRecords := 0, slots := fun _ => none } })

/-- The page the next record goes to. -/
def createPageHandle (h : RmFileHandle) : Except RMDBError (Int × RmFileHandle) :=
  if h.firstFreePageNo = noPage then .ok h.createNewPageHandle
  else do
    let _ ← h.fetchPageHandle h.firstFreePageNo
    .ok (h.firstFreePageNo, h)

/-- `release_page_handle`: a page that was full goes to the front of the chain. -/
def releasePageHandle (h : RmFileHandle) (pageNo : Int) : RmFileHandle :=
  { h.setPage pageNo { h.pages pageNo with nextFreePageNo := h.firstFreePageNo } with firstFreePageNo := pageNo }

end RmFileHandle

/-- `Bitmap::first_bit(false, …)`: the first free slot, or `n` when there is none. -/
def RmPage.firstFree (pg : RmPage) (n : Nat) : Nat :=
  ((List.range n).find? fun i : Nat => (pg.slots i).isNone).getD n

namespace RmFileHandle

def fillSlot (h : RmFileHandle) (rid : Rid) (buf : List UInt8) : RmFileHandle :=
  let pg := h.pages rid.pageNo
  let h := h.setPage rid.pageNo
    { pg with numRecords := pg.numRecords + 1, slots := update pg.slots rid.slotNo (some buf) }
  if pg.numRecords + 1 = h.numRecordsPerPage then { h with firstFreePageNo := pg.nextFreePageNo } else h

def writeSlot (h : RmFileHandle) (rid : Rid) (buf : List UInt8) : RmFileHandle :=
  let pg := h.pages rid.pageNo
  h.setPage rid.pageNo { pg with slots := update pg.slots rid.slotNo (some buf) }

def insertRecord (h : RmFileHandle) (buf : List UInt8) : Except RMDBError (Rid × RmFileHandle) := do
  let (pageNo, h) ← h.createPageHandle
  let rid := ⟨pageNo, (h.pages pageNo).firstFree h.numRecordsPerPage⟩
  .ok (rid, h.fillSlot rid buf)

def insertRecordAt (h : RmFileHandle) (rid : Rid) (buf : List UInt8) : Except RMDBError RmFileHandle := do
  let pg ← h.fetchPageHandle rid.pageNo
  match pg.slots rid.slotNo with
  | none => .ok (h.fillSlot rid buf)
  | some _ => .ok (h.writeSlot rid buf)

def clearSlot (h : RmFileHandle) (rid : Rid) : RmFileHandle :=
  let pg := h.pages rid.pageNo
  let h := h.setPage rid.pageNo
    { pg with numRecords := pg.numRecords - 1, slots := update pg.slots rid.slotNo none }
  if pg.numRecords = h.numRecordsPerPage then h.releasePageHandle rid.pageNo else h

def deleteRecord (h : RmFileHandle) (rid : Rid) : Except RMDBError RmFileHandle := do
  let pg ← h.fetchPageHandle rid.pageNo
  match pg.slots rid.slotNo with
  | none => .error (.recordNotFound rid)
  | some _ => .ok (h.clearSlot rid)

def updateRecord (h : RmFileHandle) (rid : Rid) (buf : List UInt8) : Except RMDBError RmFileHandle := do
  let pg ← h.fetchPageHandle rid.pageNo
  match pg.slots rid.slotNo with
  | none => .error (.recordNotFound rid)
  | some _ => .ok (h.writeSlot rid buf)

def live (h : RmFileHandle) (rid : Rid) : Option (List UInt8) :=
  if 0 ≤ rid.pageNo ∧ rid.pageNo < h.numPages then (h.pages rid.pageNo).slots rid.slotNo else none

/-! ## What the operations keep -/

def Links (h : RmFileHandle) : Int → List Int → Prop
  | p, [] => p = noPage
  | p, q :: c => p = q ∧ Links h (h.pages q).nextFreePageNo c

/-- The pages on the chain exist and have a free slot. -/
structure FreeChain (h : RmFileHandle) (c : List Int) : Prop where
  links : h.Links h.firstFreePageNo c
  nodup : c.Nodup
  free : ∀ p ∈ c, 0 ≤ p ∧ p < h.numPages ∧ (h.pages p).numRecords < h.numRecordsPerPage

/-- The slots in use are below `n`, and counted. -/
structure Counted (n : Nat) (pg : RmPage) : Prop where
  range : ∀ i, pg.slots i ≠ none → 0 ≤ i ∧ i < n
  count : pg.numRecords = ((Finset.range n).filter fun i : Nat => pg.slots i ≠ none).card

structure HeapOK (h : RmFileHandle) : Prop where
  pos : 0 < h.numRecordsPerPage
  start : 0 ≤ h.numPages
  counted : ∀ p, 0 ≤ p → p < h.numPages → Counted h.numRecordsPerPage (h.pages p)
  chain : ∃ c, FreeChain h c

structure Ext (h h' : RmFileHandle) : Prop where
  per : h'.numRecordsPerPage = h.numRecordsPerPage
  le : h.numPages ≤ h'.numPages
  same : ∀ p, 0 ≤ p → p < h.numPages →
    (h'.pages p).slots = (h.pages p).slots ∧ (h'.pages p).numRecords = (h.pages p).numRecords
  empty : ∀ p, h.numPages ≤ p → p < h'.numPages →
    (h'.pages p).slots = (fun _ => none) ∧ (h'.pages p).numRecords = 0
  chain : ∃ c e, FreeChain h c ∧ FreeChain h' (c ++ e)

variable {h h' g : RmFileHandle} {n : Nat} {pg : RmPage} {i p : Int} {c : List Int} {rid : Rid} {rec r : List UInt8}

theorem HeapOK.ext_refl (ok : HeapOK h) : Ext h h := by
  obtain ⟨c, hc⟩ := ok.chain
  exact ⟨rfl, le_rfl, fun _ _ _ => ⟨rfl, rfl⟩, fun p h1 h2 => absurd h2 h1.not_gt, c, [], hc, by simpa using hc⟩

theorem Ext.live_eq (ext : Ext h h') : h'.live = h.live := by
  funext rid
  have hle := ext.le
  by_cases hold : 0 ≤ rid.pageNo ∧ rid.pageNo < h.numPages
  · rw [live, live, if_pos hold, if_pos ⟨hold.1, by omega⟩, (ext.same _ hold.1 hold.2).1]
  · rw [live, live, if_neg hold]
    split_ifs with hnew
    · rw [(ext.empty _ (by omega) hnew.2).1]
    · rfl

theorem Counted.empty (hs : pg.slots = fun _ => none) (hn : pg.numRecords = 0) : Counted n pg :=
  ⟨fun i hi => absurd (by rw [hs]) hi, by simp [hs, hn]⟩

theorem Counted.congr {pg' : RmPage} (h : Counted n pg) (hs : pg'.slots = pg.slots)
    (hn : pg'.numRecords = pg.numRecords) : Counted n pg' :=
  ⟨hs ▸ h.range, by rw [hn, hs]; exact h.count⟩

theorem Ext.ok (ext : Ext h h') (ok : HeapOK h) : HeapOK h' := by
  obtain ⟨c, e, -, hc⟩ := ext.chain
  refine ⟨by rw [ext.per]; exact ok.pos, ok.start.trans ext.le, fun p h0 hp => ?_, c ++ e, hc⟩
  rw [ext.per]
  by_cases hold : p < h.numPages
  · exact (ok.counted p h0 hold).congr (ext.same p h0 hold).1 (ext.same p h0 hold).2
  · exact .empty (ext.empty p (by omega) hp).1 (ext.empty p (by omega) hp).2

theorem live_createFile (recordSize : Nat) (rid : Rid) : (createFile recordSize).live rid = none := by
  rw [live]
  split_ifs <;> rfl

theorem HeapOK.createFile {recordSize : Nat} (h : recordSize ≤ maxRecordSize) : HeapOK (createFile recordSize) := by
  refine ⟨?_, by simp [RmFileHandle.createFile, firstRecordPage], fun p _ _ => .empty rfl rfl, [], rfl, .nil, by simp⟩
  refine Nat.div_pos ?_ (by omega)
  simp only [maxRecordSize] at h
  simp only [bitmapWidth, pageSize, sizeofFileHdr]
  omega

/-! ## Slots -/

theorem Counted.fill (h : Counted n pg) (hi : 0 ≤ i ∧ i < n) (hfree : pg.slots i = none)
    (buf : List UInt8) (next : Int) :
    Counted n ⟨next, pg.numRecords + 1, update pg.slots i (some buf)⟩ := by
  obtain ⟨k, rfl⟩ := Int.eq_ofNat_of_zero_le hi.1
  refine ⟨fun j hj => ?_, ?_⟩
  · by_cases hjk : j = k
    · exact hjk ▸ hi
    · exact h.range j (by simpa [hjk] using hj)
  · have hset : ((Finset.range n).filter fun j : Nat => update pg.slots (k : Int) (some buf) j ≠ none) =
        insert k ((Finset.range n).filter fun j : Nat => pg.slots j ≠ none) := by
      ext j
      by_cases hjk : j = k
      · subst hjk
        simp
        omega
      · have : (j : Int) ≠ k := by omega
        simp [hjk, this]
    rw [hset, Finset.card_insert_of_notMem (by simp [hfree]), h.count]

theorem Counted.clear (h : Counted n pg) (hused : pg.slots i ≠ none) (next : Int) :
    0 < pg.numRecords ∧ Counted n ⟨next, pg.numRecords - 1, update pg.slots i none⟩ := by
  have hi := h.range i hused
  obtain ⟨k, rfl⟩ := Int.eq_ofNat_of_zero_le hi.1
  have hmem : k ∈ (Finset.range n).filter fun j : Nat => pg.slots j ≠ none := by
    simp [hused]
    omega
  refine ⟨by rw [h.count]; exact Finset.card_pos.2 ⟨k, hmem⟩, fun j hj => ?_, ?_⟩
  · by_cases hjk : j = k
    · exact hjk ▸ hi
    · exact h.range j (by simpa [hjk] using hj)
  · have hset : ((Finset.range n).filter fun j : Nat => update pg.slots (k : Int) none j ≠ none) =
        ((Finset.range n).filter fun j : Nat => pg.slots j ≠ none).erase k := by
      ext j
      by_cases hjk : j = k
      · subst hjk
        simp
      · have : (j : Int) ≠ k := by omega
        simp [hjk, this]
    rw [hset, Finset.card_erase_of_mem hmem, h.count]

theorem Counted.write (h : Counted n pg) (hused : pg.slots i ≠ none) (buf : List UInt8) :
    Counted n { pg with slots := update pg.slots i (some buf) } := by
  have hsame : ∀ j, update pg.slots i (some buf) j ≠ none ↔ pg.slots j ≠ none := by
    intro j
    by_cases hji : j = i
    · subst hji
      simpa using hused
    · simp [hji]
  refine ⟨fun j hj => h.range j ((hsame j).1 hj), ?_⟩
  simp only [hsame]
  exact h.count

theorem Counted.firstFree_spec (h : Counted n pg) (hn : pg.numRecords < n) :
    pg.firstFree n < n ∧ pg.slots (pg.firstFree n : Int) = none := by
  obtain ⟨i, hi, hfree⟩ : ∃ i, i < n ∧ pg.slots (i : Int) = none := by
    by_contra hall
    push Not at hall
    have hfull : ((Finset.range n).filter fun i : Nat => pg.slots i ≠ none) = Finset.range n := by
      refine Finset.filter_true_of_mem fun i hi => hall i (Finset.mem_range.1 hi)
    rw [h.count, hfull, Finset.card_range] at hn
    exact lt_irrefl _ hn
  obtain ⟨j, hj⟩ : ∃ j, (List.range n).find? (fun i : Nat => (pg.slots i).isNone) = some j := by
    rw [← Option.isSome_iff_exists, List.find?_isSome]
    exact ⟨i, by simpa using hi, by simp [hfree]⟩
  rw [RmPage.firstFree, hj, Option.getD_some]
  have hmem := List.mem_of_find?_eq_some hj
  have hnone := List.find?_some hj
  exact ⟨by simpa using hmem, by simpa using hnone⟩

/-! ## Chains -/

theorem Links.congr : ∀ {c : List Int} {p : Int}, h.Links p c →
    (∀ q ∈ c, (h'.pages q).nextFreePageNo = (h.pages q).nextFreePageNo) → h'.Links p c
  | [], _, hc, _ => hc
  | q :: c, _, hc, hnext => by
    refine ⟨hc.1, ?_⟩
    rw [hnext q (by simp)]
    exact hc.2.congr fun r hr => hnext r (by simp [hr])

theorem Links.setPage {q : Int} (hc : h.Links p c)
    (hnext : q ∈ c → pg.nextFreePageNo = (h.pages q).nextFreePageNo) : (h.setPage q pg).Links p c := by
  refine hc.congr fun r hr => ?_
  by_cases hrq : r = q
  · subst hrq
    simp [RmFileHandle.setPage, hnext hr]
  · simp [RmFileHandle.setPage, hrq]

@[simp] theorem setPage_self (h : RmFileHandle) (p : Int) (pg : RmPage) : (h.setPage p pg).pages p = pg := by
  simp [setPage]

theorem setPage_of_ne (h : RmFileHandle) {q : Int} (pg : RmPage) (hqp : q ≠ p) :
    (h.setPage p pg).pages q = h.pages q := by simp [setPage, hqp]

@[simp] theorem setPage_numPages (h : RmFileHandle) (p : Int) (pg : RmPage) : (h.setPage p pg).numPages = h.numPages := rfl

@[simp] theorem setPage_per (h : RmFileHandle) (p : Int) (pg : RmPage) :
    (h.setPage p pg).numRecordsPerPage = h.numRecordsPerPage := rfl

@[simp] theorem setPage_firstFree (h : RmFileHandle) (p : Int) (pg : RmPage) :
    (h.setPage p pg).firstFreePageNo = h.firstFreePageNo := rfl

theorem live_setPage {v : Option (List UInt8)} (h0 : 0 ≤ rid.pageNo)
    (hlt : rid.pageNo < h.numPages) (hs : pg.slots = update (h.pages rid.pageNo).slots rid.slotNo v) :
    (h.setPage rid.pageNo pg).live = update h.live rid v := by
  funext r
  by_cases hr : r = rid
  · subst hr
    simp [live, h0, hlt, hs]
  · rw [update_of_ne hr]
    by_cases hp : r.pageNo = rid.pageNo
    · have hslot : r.slotNo ≠ rid.slotNo := fun hslot => hr (by cases r; cases rid; simp_all)
      simp [live, hp, hs, hslot]
    · simp [live, setPage_of_ne _ _ hp]

theorem live_congr (hp : h'.pages = h.pages) (hn : h'.numPages = h.numPages) : h'.live = h.live := by
  funext r
  simp [live, hp, hn]

theorem live_some (hlive : h.live rid = some rec) :
    0 ≤ rid.pageNo ∧ rid.pageNo < h.numPages ∧ (h.pages rid.pageNo).slots rid.slotNo = some rec ∧
      h.fetchPageHandle rid.pageNo = .ok (h.pages rid.pageNo) := by
  rw [live] at hlive
  split_ifs at hlive with hp
  refine ⟨hp.1, hp.2, hlive, ?_⟩
  rw [fetchPageHandle, if_neg (by omega)]

theorem getRecord_eq (hlive : h.live rid = some rec) : h.getRecord rid = .ok rec := by
  obtain ⟨-, -, hslot, hfetch⟩ := live_some hlive
  simp [getRecord, hfetch, hslot]

theorem live_of_getRecord (hget : h.getRecord rid = .ok rec) : h.live rid = some rec := by
  rw [getRecord, fetchPageHandle] at hget
  by_cases hp : rid.pageNo ≥ h.numPages ∨ rid.pageNo < 0
  · simp [if_pos hp] at hget
  · rw [if_neg hp, ok_bind] at hget
    rw [live, if_pos (by omega)]
    cases hslot : (h.pages rid.pageNo).slots rid.slotNo with
    | none => simp [hslot] at hget
    | some r =>
      rw [hslot] at hget
      cases hget
      rfl

theorem Links.unique : ∀ {c c' : List Int} {p : Int}, h.Links p c → h.Links p c' →
    (∀ q ∈ c, 0 ≤ q) → (∀ q ∈ c', 0 ≤ q) → c = c'
  | [], [], _, _, _, _, _ => rfl
  | [], q :: c', p, hc, hc', _, h' => by
    have hq := h' q (by simp)
    rw [← hc'.1, show p = noPage from hc, noPage] at hq
    omega
  | q :: c, [], p, hc, hc', h, _ => by
    have hq := h q (by simp)
    rw [← hc.1, show p = noPage from hc', noPage] at hq
    omega
  | q :: c, q' :: c', _, hc, hc', h, h' => by
    obtain ⟨rfl, hc⟩ := hc
    obtain ⟨rfl, hc'⟩ := hc'
    rw [hc.unique hc' (fun r hr => h r (by simp [hr])) fun r hr => h' r (by simp [hr])]

theorem FreeChain.unique {c' : List Int} (hc : FreeChain h c) (hc' : FreeChain h c') : c = c' :=
  hc.links.unique hc'.links (fun q hq => (hc.free q hq).1) fun q hq => (hc'.free q hq).1

theorem Ext.trans {h₁ h₂ h₃ : RmFileHandle} (ok : HeapOK h₁) (h₁₂ : Ext h₁ h₂) (h₂₃ : Ext h₂ h₃) : Ext h₁ h₃ := by
  obtain ⟨c, e, hc, hce⟩ := h₁₂.chain
  obtain ⟨d, e', hd, hde⟩ := h₂₃.chain
  obtain rfl := hd.unique hce
  have hle := h₁₂.le
  have hle' := h₂₃.le
  have hstart := ok.start
  refine ⟨h₂₃.per.trans h₁₂.per, hle.trans hle', fun p h0 hp => ?_, fun p hp hp' => ?_, c, e ++ e', hc, ?_⟩
  · have h1 := h₁₂.same p h0 hp
    have h2 := h₂₃.same p h0 (by omega)
    exact ⟨h2.1.trans h1.1, h2.2.trans h1.2⟩
  · by_cases hmid : p < h₂.numPages
    · have h1 := h₁₂.empty p hp hmid
      have h2 := h₂₃.same p (by omega) hmid
      exact ⟨h2.1.trans h1.1, h2.2.trans h1.2⟩
    · exact h₂₃.empty p (by omega) hp'
  · simpa using hde

/-! ## Taking a slot and giving it up -/

theorem fillSlot_eq (h : RmFileHandle) (rid : Rid) (buf : List UInt8) :
    h.fillSlot rid buf =
      { h.setPage rid.pageNo
          { h.pages rid.pageNo with
            numRecords := (h.pages rid.pageNo).numRecords + 1
            slots := update (h.pages rid.pageNo).slots rid.slotNo (some buf) } with
        firstFreePageNo :=
          if (h.pages rid.pageNo).numRecords + 1 = h.numRecordsPerPage then (h.pages rid.pageNo).nextFreePageNo
          else h.firstFreePageNo } := by
  unfold fillSlot
  by_cases hfull : (h.pages rid.pageNo).numRecords + 1 = h.numRecordsPerPage
  · simp [hfull]
  · simp [hfull, setPage]

theorem clearSlot_eq (h : RmFileHandle) (rid : Rid) :
    h.clearSlot rid =
      { h.setPage rid.pageNo
          { nextFreePageNo :=
              if (h.pages rid.pageNo).numRecords = h.numRecordsPerPage then h.firstFreePageNo
              else (h.pages rid.pageNo).nextFreePageNo
            numRecords := (h.pages rid.pageNo).numRecords - 1
            slots := update (h.pages rid.pageNo).slots rid.slotNo none } with
        firstFreePageNo :=
          if (h.pages rid.pageNo).numRecords = h.numRecordsPerPage then rid.pageNo else h.firstFreePageNo } := by
  unfold clearSlot
  by_cases hfull : (h.pages rid.pageNo).numRecords = h.numRecordsPerPage
  · simp [hfull, releasePageHandle, setPage]
  · simp [hfull, setPage]

/-- The chain after a slot was taken; where that fills the page, it was the first one. -/
theorem FreeChain.fill (hc : FreeChain h c) (rid : Rid) (buf : List UInt8)
    (hlt : (h.pages rid.pageNo).numRecords < h.numRecordsPerPage)
    (hhead : (h.pages rid.pageNo).numRecords + 1 = h.numRecordsPerPage → ∃ c', c = rid.pageNo :: c') :
    FreeChain (h.fillSlot rid buf)
      (if (h.pages rid.pageNo).numRecords + 1 = h.numRecordsPerPage then c.tail else c) := by
  rw [fillSlot_eq]
  split_ifs with hfull
  · obtain ⟨c, rfl⟩ := hhead hfull
    have hnd := List.nodup_cons.1 hc.nodup
    have hne : ∀ q ∈ c, q ≠ rid.pageNo := fun q hq hqp => hnd.1 (hqp ▸ hq)
    refine ⟨?_, hnd.2, fun q hq => ?_⟩
    · refine Links.congr (h := h) hc.links.2 fun q hq => ?_
      simp only [setPage_of_ne _ _ (hne q hq)]
    · have := hc.free q (List.mem_cons_of_mem _ hq)
      simpa [setPage_of_ne _ _ (hne q hq)] using this
  · refine ⟨hc.links.setPage fun _ => rfl, hc.nodup, fun q hq => ?_⟩
    have := hc.free q hq
    by_cases hqp : q = rid.pageNo
    · subst hqp
      refine ⟨this.1, this.2.1, ?_⟩
      simp only [setPage_self, setPage_per]
      omega
    · simpa [setPage_of_ne _ _ hqp] using this

theorem FreeChain.clear (hc : FreeChain h c)
    (h0 : 0 ≤ rid.pageNo) (hp : rid.pageNo < h.numPages) (hpos : 0 < (h.pages rid.pageNo).numRecords) :
    FreeChain (h.clearSlot rid)
      (if (h.pages rid.pageNo).numRecords = h.numRecordsPerPage then rid.pageNo :: c else c) := by
  have hfree : ∀ q ∈ c, ∀ pg : RmPage, pg.numRecords = (h.pages rid.pageNo).numRecords - 1 →
      0 ≤ q ∧ q < h.numPages ∧ ((h.setPage rid.pageNo pg).pages q).numRecords < h.numRecordsPerPage := by
    intro q hq pg hpg
    have := hc.free q hq
    by_cases hqp : q = rid.pageNo
    · subst hqp
      refine ⟨this.1, this.2.1, ?_⟩
      rw [setPage_self, hpg]
      omega
    · rwa [setPage_of_ne _ _ hqp]
  rw [clearSlot_eq]
  split_ifs with hfull
  · -- a full page is not on the chain
    have hnot : rid.pageNo ∉ c := fun hmem => by have := hc.free _ hmem; omega
    refine ⟨⟨rfl, ?_⟩, List.nodup_cons.2 ⟨hnot, hc.nodup⟩, fun q hq => ?_⟩
    · rw [setPage_self]
      refine Links.congr (h := h) hc.links fun q hq => ?_
      have hqp : q ≠ rid.pageNo := fun hqp => hnot (hqp ▸ hq)
      simp only [setPage_of_ne _ _ hqp]
    · rcases List.mem_cons.1 hq with rfl | hq
      · refine ⟨h0, hp, ?_⟩
        simp only [setPage_self, setPage_per]
        omega
      · exact hfree q hq _ rfl
  · exact ⟨hc.links.setPage fun _ => rfl, hc.nodup, fun q hq => hfree q hq _ rfl⟩

theorem FreeChain.writeSlot (hc : FreeChain h c) (rid : Rid) (buf : List UInt8) :
    FreeChain (h.writeSlot rid buf) c := by
  refine ⟨hc.links.setPage fun _ => rfl, hc.nodup, fun q hq => ?_⟩
  have := hc.free q hq
  by_cases hqp : q = rid.pageNo
  · subst hqp
    rwa [RmFileHandle.writeSlot, setPage_self]
  · rwa [RmFileHandle.writeSlot, setPage_of_ne _ _ hqp]

theorem live_fillSlot (h0 : 0 ≤ rid.pageNo) (hp : rid.pageNo < h.numPages)
    (buf : List UInt8) : (h.fillSlot rid buf).live = update h.live rid (some buf) := by
  rw [fillSlot_eq]
  exact (live_congr (h := h.setPage rid.pageNo _) rfl rfl).trans (live_setPage h0 hp rfl)

theorem live_clearSlot (h0 : 0 ≤ rid.pageNo) (hp : rid.pageNo < h.numPages) :
    (h.clearSlot rid).live = update h.live rid none := by
  rw [clearSlot_eq]
  exact (live_congr (h := h.setPage rid.pageNo _) rfl rfl).trans (live_setPage h0 hp rfl)

/-- A page with a free slot in use below `n` has a slot to give. -/
theorem Counted.lt_of_free (hc : Counted n pg) (hi : 0 ≤ i ∧ i < n)
    (hfree : pg.slots i = none) : pg.numRecords < n := by
  have hle := (hc.fill hi hfree [] 0).count
  have hcard := Finset.card_filter_le (Finset.range n)
    fun j : Nat => update pg.slots i (some ([] : List UInt8)) j ≠ none
  rw [Finset.card_range] at hcard
  simp only at hle
  omega

theorem Counted.slots_none (hc : Counted n pg) (hzero : pg.numRecords = 0) (i : Int) : pg.slots i = none := by
  by_contra hne
  obtain ⟨hpos, hlt⟩ := hc.range i hne
  obtain ⟨j, rfl⟩ := Int.eq_ofNat_of_zero_le hpos
  have hcard := hc.count
  rw [hzero, eq_comm, Finset.card_eq_zero, Finset.filter_eq_empty_iff] at hcard
  exact hcard (Finset.mem_range.2 (by omega)) hne

theorem HeapOK.setPage (ok : HeapOK h)
    (hpg : Counted h.numRecordsPerPage pg) (q : Int) (h0 : 0 ≤ q) (hq : q < h.numPages) :
    Counted h.numRecordsPerPage ((h.setPage p pg).pages q) := by
  by_cases hqp : q = p
  · subst hqp
    rwa [setPage_self]
  · rw [setPage_of_ne _ _ hqp]
    exact ok.counted q h0 hq

/-- A free slot of a page is taken; where that fills the page, it was the first on the chain. -/
theorem HeapOK.fillSlot (ok : HeapOK h) (hc : FreeChain h c)
    (h0 : 0 ≤ rid.pageNo) (hp : rid.pageNo < h.numPages) (hslot : 0 ≤ rid.slotNo ∧ rid.slotNo < h.numRecordsPerPage)
    (hfree : (h.pages rid.pageNo).slots rid.slotNo = none)
    (hhead : (h.pages rid.pageNo).numRecords + 1 = h.numRecordsPerPage → ∃ c', c = rid.pageNo :: c')
    (buf : List UInt8) : HeapOK (h.fillSlot rid buf) := by
  have hcounted := ok.counted _ h0 hp
  have hchain := hc.fill rid buf (hcounted.lt_of_free hslot hfree) hhead
  refine ⟨?_, ?_, ?_, _, hchain⟩
  · rw [fillSlot_eq]; exact ok.pos
  · rw [fillSlot_eq]; exact ok.start
  · rw [fillSlot_eq]
    exact ok.setPage (hcounted.fill hslot hfree buf _)

theorem HeapOK.clearSlot (ok : HeapOK h) (hlive : h.live rid = some r) : HeapOK (h.clearSlot rid) := by
  obtain ⟨h0, hp, hslot, -⟩ := live_some hlive
  have hused : (h.pages rid.pageNo).slots rid.slotNo ≠ none := by simp [hslot]
  have hcounted := ok.counted _ h0 hp
  obtain ⟨c, hc⟩ := ok.chain
  have hchain := hc.clear h0 hp (hcounted.clear hused 0).1
  refine ⟨?_, ?_, ?_, _, hchain⟩
  · rw [clearSlot_eq]; exact ok.pos
  · rw [clearSlot_eq]; exact ok.start
  · rw [clearSlot_eq]
    exact ok.setPage (hcounted.clear hused _).2

theorem Ext.setPage {h₁ g₁ : RmFileHandle} {pg' : RmPage} (ext : Ext h₁ g)
    (hnum : h₁.numPages = h.numPages) (hper : h₁.numRecordsPerPage = h.numRecordsPerPage)
    (hpages : h₁.pages = update h.pages p pg) (hnum' : g₁.numPages = g.numPages)
    (hper' : g₁.numRecordsPerPage = g.numRecordsPerPage) (hpages' : g₁.pages = update g.pages p pg')
    (hp : p < h.numPages) (hsame : (g.pages p).slots = pg.slots → (g.pages p).numRecords = pg.numRecords →
      pg'.slots = (h.pages p).slots ∧ pg'.numRecords = (h.pages p).numRecords)
    (hchain : ∀ c₁ e, FreeChain h₁ c₁ → FreeChain g (c₁ ++ e) → ∃ c, FreeChain h c ∧ FreeChain g₁ (c ++ e)) :
    Ext h g₁ := by
  obtain ⟨c₁, e, hc₁, hce⟩ := ext.chain
  obtain ⟨c, hc, hce'⟩ := hchain c₁ e hc₁ hce
  refine ⟨by rw [hper', ext.per, hper], by rw [hnum', ← hnum]; exact ext.le, fun q h0 hq => ?_, fun q hq hq' => ?_,
    c, e, hc, hce'⟩
  · have hext := ext.same q h0 (by rwa [hnum])
    rw [hpages'] at *
    rw [hpages] at hext
    by_cases hqp : q = p
    · subst hqp
      rw [update_self] at hext ⊢
      exact hsame hext.1 hext.2
    · rwa [update_of_ne hqp] at hext ⊢
  · rw [hpages', update_of_ne (by omega)]
    exact ext.empty q (by rwa [hnum]) (by rwa [← hnum'])

theorem Ext.clearSlot_fillSlot (ok : HeapOK h) (hc : FreeChain h c)
    (h0 : 0 ≤ rid.pageNo) (hp : rid.pageNo < h.numPages) (hslot : 0 ≤ rid.slotNo ∧ rid.slotNo < h.numRecordsPerPage)
    (hfree : (h.pages rid.pageNo).slots rid.slotNo = none)
    (hhead : (h.pages rid.pageNo).numRecords + 1 = h.numRecordsPerPage → ∃ c', c = rid.pageNo :: c')
    {buf : List UInt8} (ext : Ext (h.fillSlot rid buf) g) : Ext h (g.clearSlot rid) := by
  have hlt := (ok.counted _ h0 hp).lt_of_free hslot hfree
  have hfill := hc.fill rid buf hlt hhead
  have hper := ext.per
  have hle := ext.le
  have hat := ext.same rid.pageNo h0 (by rw [fillSlot_eq]; exact hp)
  rw [fillSlot_eq] at hper hle hat
  simp only [setPage_self, setPage_per, setPage_numPages] at hper hle hat
  refine ext.setPage (by rw [fillSlot_eq]; rfl)
    (by rw [fillSlot_eq]; rfl) (by rw [fillSlot_eq]; rfl) (by rw [clearSlot_eq]; rfl) (by rw [clearSlot_eq]; rfl)
    (by rw [clearSlot_eq]; rfl) hp (fun hs hn => ⟨?_, ?_⟩) fun c₁ e hc₁ hce => ⟨c, hc, ?_⟩
  · simp only at hs ⊢
    rw [hs, update_idem, ← hfree, update_eq_self]
  · simp only at hn ⊢
    omega
  · have hclear := hce.clear h0 (by omega) (by omega)
    obtain rfl := hc₁.unique hfill
    rw [hat.2, hper] at hclear
    split_ifs at hclear with hfull
    · obtain ⟨c', rfl⟩ := hhead hfull
      exact hclear
    · exact hclear

theorem Ext.fillSlot_clearSlot (ok : HeapOK h)
    (hlive : h.live rid = some r) (ext : Ext (h.clearSlot rid) g) : Ext h (g.fillSlot rid r) := by
  obtain ⟨h0, hp, hslot, -⟩ := live_some hlive
  have hused : (h.pages rid.pageNo).slots rid.slotNo ≠ none := by simp [hslot]
  have hpos := ((ok.counted _ h0 hp).clear hused 0).1
  obtain ⟨c, hc⟩ := ok.chain
  have hclear := hc.clear h0 hp hpos
  have hper := ext.per
  have hle := ext.le
  have hat := ext.same rid.pageNo h0 (by rw [clearSlot_eq]; exact hp)
  rw [clearSlot_eq] at hper hle hat
  simp only [setPage_self, setPage_per, setPage_numPages] at hper hle hat
  have hmax := ((ok.counted _ h0 hp).clear hused 0).2.lt_of_free ((ok.counted _ h0 hp).range _ hused) (by simp)
  simp only at hmax
  refine ext.setPage (by rw [clearSlot_eq]; rfl)
    (by rw [clearSlot_eq]; rfl) (by rw [clearSlot_eq]; rfl) (by rw [fillSlot_eq]; rfl) (by rw [fillSlot_eq]; rfl)
    (by rw [fillSlot_eq]; rfl) hp (fun hs hn => ⟨?_, ?_⟩) fun c₁ e hc₁ hce => ⟨c, hc, ?_⟩
  · simp only at hs ⊢
    rw [hs, update_idem, ← hslot, update_eq_self]
  · simp only at hn ⊢
    omega
  · obtain rfl := hc₁.unique hclear
    have hfill := hce.fill rid r (by omega) fun hfull =>
      ⟨c ++ e, by rw [if_pos (by omega), List.cons_append]⟩
    rw [hat.2, hper, show (h.pages rid.pageNo).numRecords - 1 + 1 = (h.pages rid.pageNo).numRecords by omega] at hfill
    split_ifs at hfill with hfull <;> exact hfill

/-! ## The operations -/

theorem HeapOK.freeChain_createNewPage (ok : HeapOK h) : FreeChain h.createNewPageHandle.2 [h.numPages] := by
  have hstart := ok.start
  have hpos := ok.pos
  refine ⟨⟨rfl, by simp [createNewPageHandle, Links]⟩, by simp, fun q hq => ?_⟩
  rw [List.mem_singleton.1 hq]
  exact ⟨hstart, by simp [createNewPageHandle], by simpa [createNewPageHandle] using hpos⟩

/-- The page the next record goes to is the first on the chain, if need be a new one. -/
theorem HeapOK.createPageHandle (ok : HeapOK h) :
    ∃ p c h', h.createPageHandle = .ok (p, h') ∧ Ext h h' ∧ FreeChain h' (p :: c) := by
  obtain ⟨c, hc⟩ := ok.chain
  cases c with
  | nil =>
    have hnone : h.firstFreePageNo = noPage := hc.links
    have hnew := ok.freeChain_createNewPage
    refine ⟨h.numPages, [], h.createNewPageHandle.2, by rw [RmFileHandle.createPageHandle, if_pos hnone]; rfl,
      ⟨rfl, by simp [createNewPageHandle], fun p _ hp => ?_, fun p hp hp' => ?_, [], _, hc, hnew⟩, hnew⟩
    · simp [createNewPageHandle, hp.ne]
    · obtain rfl : p = h.numPages := by simp only [createNewPageHandle] at hp'; omega
      simp [createNewPageHandle]
  | cons p c =>
    have hfirst : h.firstFreePageNo = p := hc.links.1
    have hfree := hc.free p (by simp)
    have hne : h.firstFreePageNo ≠ noPage := by rw [hfirst, noPage]; omega
    refine ⟨p, c, h, ?_, ok.ext_refl, hc⟩
    rw [RmFileHandle.createPageHandle, if_neg hne, fetchPageHandle, if_neg (by omega), ok_bind, hfirst]

/-- `insert_record` finds a slot, and `delete_record` takes it back. -/
theorem HeapOK.insertRecord (ok : HeapOK h) (buf : List UInt8) :
    ∃ rid h', h.insertRecord buf = .ok (rid, h') ∧ HeapOK h' ∧ h.live rid = none ∧
      h'.live = update h.live rid (some buf) ∧
      ∀ g', Ext h' g' → ∃ g, g'.deleteRecord rid = .ok g ∧ Ext h g := by
  obtain ⟨p, c, h₁, hcreate, ext, hc⟩ := ok.createPageHandle
  have ok₁ := ext.ok ok
  obtain ⟨h0, hp, hlt⟩ := hc.free p (by simp)
  obtain ⟨hslot, hfree⟩ := (ok₁.counted p h0 hp).firstFree_spec hlt
  obtain ⟨rid, hrid⟩ : ∃ rid : Rid, rid = ⟨p, (h₁.pages p).firstFree h₁.numRecordsPerPage⟩ := ⟨_, rfl⟩
  have hhead : (h₁.pages p).numRecords + 1 = h₁.numRecordsPerPage → ∃ c', p :: c = p :: c' := fun _ => ⟨c, rfl⟩
  refine ⟨rid, h₁.fillSlot rid buf, by simp [RmFileHandle.insertRecord, hcreate, hrid], ?_, ?_, ?_, fun g' ext' => ?_⟩
  · subst hrid
    exact ok₁.fillSlot hc h0 hp ⟨by simp, by simpa using hslot⟩ hfree hhead buf
  · rw [← ext.live_eq, live]
    subst hrid
    simp [hfree]
  · rw [← ext.live_eq]
    subst hrid
    exact live_fillSlot h0 hp buf
  · have hlive : g'.live rid = some buf := by
      rw [ext'.live_eq]
      subst hrid
      rw [live_fillSlot h0 hp, update_self]
    obtain ⟨-, -, hused, hfetch⟩ := live_some hlive
    refine ⟨g'.clearSlot rid, by simp [RmFileHandle.deleteRecord, hfetch, hused], ?_⟩
    subst hrid
    exact ext.trans ok (ext'.clearSlot_fillSlot ok₁ hc h0 hp ⟨by simp, by simpa using hslot⟩ hfree hhead)

/-- `delete_record` frees the slot, and `insert_record` at the slot puts the record back. -/
theorem HeapOK.deleteRecord (ok : HeapOK h) (hlive : h.live rid = some r) :
    ∃ h', h.deleteRecord rid = .ok h' ∧ HeapOK h' ∧ h'.live = update h.live rid none ∧
      ∀ g', Ext h' g' → ∃ g, g'.insertRecordAt rid r = .ok g ∧ Ext h g := by
  obtain ⟨h0, hp, hslot, hfetch⟩ := live_some hlive
  refine ⟨h.clearSlot rid, by simp [RmFileHandle.deleteRecord, hfetch, hslot], ok.clearSlot hlive, live_clearSlot h0 hp,
    fun g' ext => ⟨g'.fillSlot rid r, ?_, ext.fillSlot_clearSlot ok hlive⟩⟩
  have hle : h.numPages ≤ g'.numPages := by
    have := ext.le
    rwa [clearSlot_eq] at this
  have hnone : g'.live rid = none := by rw [ext.live_eq, live_clearSlot h0 hp, update_self]
  rw [live, if_pos ⟨h0, by omega⟩] at hnone
  rw [insertRecordAt, fetchPageHandle, if_neg (by omega), ok_bind, hnone]

/-- `update_record` writes the slot, and with the old bytes writes it back. -/
theorem HeapOK.updateRecord (ok : HeapOK h) (hlive : h.live rid = some r) (buf : List UInt8) :
    ∃ h', h.updateRecord rid buf = .ok h' ∧ HeapOK h' ∧ h'.live = update h.live rid (some buf) ∧
      ∀ g', Ext h' g' → ∃ g, g'.updateRecord rid r = .ok g ∧ Ext h g := by
  obtain ⟨h0, hp, hslot, hfetch⟩ := live_some hlive
  have hused : (h.pages rid.pageNo).slots rid.slotNo ≠ none := by simp [hslot]
  obtain ⟨c, hc⟩ := ok.chain
  refine ⟨h.writeSlot rid buf, by simp [RmFileHandle.updateRecord, hfetch, hslot],
    ⟨ok.pos, ok.start, ok.setPage ((ok.counted _ h0 hp).write hused buf), c, hc.writeSlot rid buf⟩,
    live_setPage h0 hp rfl, fun g' ext => ?_⟩
  have hlive' : g'.live rid = some buf := by
    rw [ext.live_eq, show (h.writeSlot rid buf).live = _ from live_setPage h0 hp rfl, update_self]
  obtain ⟨-, -, hslot', hfetch'⟩ := live_some hlive'
  refine ⟨g'.writeSlot rid r, by simp [RmFileHandle.updateRecord, hfetch', hslot'],
    ext.setPage rfl rfl (by rfl) rfl rfl (by rfl) hp (fun hs hn => ⟨?_, ?_⟩) fun c₁ e hc₁ hce => ⟨c, hc, ?_⟩⟩
  · simp only at hs ⊢
    rw [hs, update_idem, ← hslot, update_eq_self]
  · exact hn
  · obtain rfl := hc₁.unique (hc.writeSlot rid buf)
    exact hce.writeSlot rid r

end RmFileHandle

end Rmdb.Record
