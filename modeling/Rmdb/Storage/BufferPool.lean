/-
The buffer pool: `BufferPoolInstance` with its clock replacer, over the page
reads and writes of the disk manager.

A pool has `n + 1` frames (`BUFFER_POOL_INSTANCE_SIZE`). A page's data is of any
type `D`, with `blank` for what `reset_memory` leaves; a file is a map from
offsets to pages, since offsets are multiples of the page size. `int` arithmetic
wraps at 32 bits. Latches are left out: every call runs alone.
-/
import Mathlib.Data.List.AList
import Mathlib.Order.Interval.Set.Disjoint
import Rmdb.Defs
import Rmdb.Lib.Exec
import Mathlib.Order.CompletePartialOrder

namespace Rmdb

open Function

structure PageId where
  fd : Int
  pageNo : Int
  deriving DecidableEq, Repr

structure Page (D : Type) where
  id : PageId
  data : D
  isDirty : Bool
  pinCount : Int

/-! ## The clock replacer -/

structure ClockReplacer (n : Nat) where
  pinCounter : Fin (n + 1) → Int
  pinned : Fin (n + 1) → Bool
  pointer : Fin (n + 1)

namespace ClockReplacer

variable {n : Nat}

/-- The `do` loop of `victim`, with the steps it has left. -/
def victimLoop : Nat → ClockReplacer n → Option (Fin (n + 1)) × ClockReplacer n
  | 0, r => (none, r)
  | steps + 1, r =>
    let r := { r with pointer := r.pointer + 1 }
    if r.pinCounter r.pointer = 0 ∧ r.pinned r.pointer = false then (some r.pointer, r)
    else
      let r := if r.pinCounter r.pointer = 0 then { r with pinned := update r.pinned r.pointer false } else r
      victimLoop steps r

def victim (r : ClockReplacer n) : Option (Fin (n + 1)) × ClockReplacer n := victimLoop (2 * (n + 1)) r

def after (r : ClockReplacer n) (k : Nat) : Fin (n + 1) := r.pointer + 1 + Fin.ofNat (n + 1) k

def Takes (r : ClockReplacer n) : Prop :=
  r.pinCounter (r.pointer + 1) = 0 ∧ r.pinned (r.pointer + 1) = false

instance (r : ClockReplacer n) : Decidable r.Takes := inferInstanceAs (Decidable (_ ∧ _))

def passed (r : ClockReplacer n) : ClockReplacer n where
  pointer := r.pointer + 1
  pinCounter := r.pinCounter
  pinned := if r.pinCounter (r.pointer + 1) = 0 then update r.pinned (r.pointer + 1) false else r.pinned

def pin (r : ClockReplacer n) (frameId : Fin (n + 1)) : ClockReplacer n :=
  let r := { r with pinCounter := update r.pinCounter frameId (wrapInt (r.pinCounter frameId + 1)) }
  if r.pinCounter frameId = 1 then { r with pinned := update r.pinned frameId true } else r

def unpin (r : ClockReplacer n) (frameId : Fin (n + 1)) : ClockReplacer n :=
  { r with pinCounter := update r.pinCounter frameId (wrapInt (r.pinCounter frameId - 1)) }

@[simp] theorem pinCounter_pin (r : ClockReplacer n) (f : Fin (n + 1)) :
    (r.pin f).pinCounter = update r.pinCounter f (wrapInt (r.pinCounter f + 1)) := by
  unfold pin
  simp only
  split <;> rfl

@[simp] theorem pinCounter_unpin (r : ClockReplacer n) (f : Fin (n + 1)) :
    (r.unpin f).pinCounter = update r.pinCounter f (wrapInt (r.pinCounter f - 1)) := rfl

end ClockReplacer

/-! ## The disk -/

abbrev Disk (D : Type) := Int → Nat → Option D

def Disk.put {D : Type} (disk : Disk D) (fd : Int) (offset : Nat) (data : D) : Disk D :=
  update disk fd (update (disk fd) offset (some data))

/-- The `off_t offset = page_no * PAGE_SIZE` of the disk manager, a product of two `int`s. -/
def pageOffset (pageNo : Int) : Int := wrapInt (pageNo * pageSize)

def Disk.at {D : Type} (disk : Disk D) (id : PageId) : Option D :=
  if 0 ≤ id.pageNo then disk id.fd (id.pageNo.toNat * pageSize) else none

/-- Page numbers whose offset is an `int`: the pages of the first 2 GiB. -/
def PageId.Addressable (id : PageId) : Prop := 0 ≤ id.pageNo ∧ id.pageNo < 2 ^ 19

instance (id : PageId) : Decidable id.Addressable := inferInstanceAs (Decidable (_ ∧ _))

theorem PageId.Addressable.pageOffset_eq {id : PageId} (h : id.Addressable) :
    pageOffset id.pageNo = (id.pageNo.toNat * pageSize : Nat) := by
  obtain ⟨h0, h1⟩ := h
  unfold pageOffset pageSize
  rw [wrapInt_of_lt (by omega) (by omega)]
  omega

/-- The bytes that `write_page` and `read_page` address. -/
def byteRange (pageNo : Int) (numBytes : Nat) : Set Int := Set.Ico (pageOffset pageNo) (pageOffset pageNo + numBytes)

/-- Two pages lie where their numbers say, and apart. -/
def PagesApart (p q : Int) : Prop :=
  pageOffset p = p * pageSize ∧ pageOffset q = q * pageSize ∧
    ∀ m ≤ pageSize, ∀ k ≤ pageSize, Disjoint (byteRange p m) (byteRange q k)

theorem pageOffset_eq_iff {p : Int} (h : 0 ≤ p) : pageOffset p = p * pageSize ↔ p < 2 ^ 19 := by
  unfold pageOffset pageSize
  constructor
  · intro heq
    have hlt := wrapInt_lt (p * (4096 : Nat))
    omega
  · intro hlt
    exact wrapInt_of_lt (by omega) (by omega)

/-- Two pages of a file are apart exactly when both are in its first 2 GiB. -/
theorem pagesApart_iff (p q : Int) (hp : 0 ≤ p ∧ p < 2 ^ 31) (hq : 0 ≤ q ∧ q < 2 ^ 31) (hne : p ≠ q) :
    PagesApart p q ↔ p < 2 ^ 19 ∧ q < 2 ^ 19 := by
  rw [PagesApart, pageOffset_eq_iff hp.1, pageOffset_eq_iff hq.1]
  refine ⟨fun h => ⟨h.1, h.2.1⟩, fun ⟨hp', hq'⟩ => ⟨hp', hq', fun m hm k hk => ?_⟩⟩
  rw [Set.disjoint_left]
  intro x hx hx'
  rw [byteRange, (pageOffset_eq_iff hp.1).2 hp', Set.mem_Ico] at hx
  rw [byteRange, (pageOffset_eq_iff hq.1).2 hq', Set.mem_Ico] at hx'
  unfold pageSize at hm hk hx hx'
  omega

theorem pagesApart_header : (0 : Int) ≠ 524287 ∧ PagesApart 0 524287 :=
  ⟨by decide, (pagesApart_iff 0 524287 (by decide) (by decide) (by decide)).2 (by decide)⟩

/-- Page 1048576 is written over the header page. -/
theorem page_over_header : pageOffset 1048576 = pageOffset 0 ∧ ¬ PagesApart 1048576 0 :=
  ⟨by decide, fun h => absurd h.1 (by decide)⟩

structure BufferPoolInstance (n : Nat) (D : Type) where
  pages : Fin (n + 1) → Page D
  pageTable : AList fun _ : PageId => Fin (n + 1)
  freeList : List (Fin (n + 1))
  replacer : ClockReplacer n
  disk : Disk D

structure PageTableOrder (n : Nat) where
  order : List (Sigma fun _ : PageId => Fin (n + 1)) → List (Sigma fun _ : PageId => Fin (n + 1))
  perm : ∀ entries, (order entries).Perm entries

namespace BufferPoolInstance

variable {n : Nat} {D : Type}

def onPage (f : Fin (n + 1)) (g : Page D → Page D) (s : BufferPoolInstance n D) : BufferPoolInstance n D :=
  { s with pages := update s.pages f (g (s.pages f)) }

@[simp] theorem pages_onPage_self (f : Fin (n + 1)) (g : Page D → Page D) (s : BufferPoolInstance n D) :
    (onPage f g s).pages f = g (s.pages f) := update_self ..

theorem pages_onPage_of_ne {f f' : Fin (n + 1)} (h : f' ≠ f) (g : Page D → Page D) (s : BufferPoolInstance n D) :
    (onPage f g s).pages f' = s.pages f' := update_of_ne h ..

def writePage (id : PageId) (data : D) : Exec RMDBError (BufferPoolInstance n D) Unit :=
  if pageOffset id.pageNo < 0 then .raise (.internalError "DiskManager::write_page: lSeek Error")
  else .modify fun s => { s with disk := s.disk.put id.fd (pageOffset id.pageNo).toNat data }

def readPage (id : PageId) (f : Fin (n + 1)) : Exec RMDBError (BufferPoolInstance n D) Unit :=
  if pageOffset id.pageNo < 0 then .raise (.internalError "DiskManager::read_page: lSeek Error")
  else do
    match ← .asks fun s => s.disk id.fd (pageOffset id.pageNo).toNat with
    | none => .raise (.internalError "DiskManager::read_page: Read Error")
    | some data => .modify (onPage f fun page => { page with data })

def findVictimPage : Exec RMDBError (BufferPoolInstance n D) (Option (Fin (n + 1))) := fun s =>
  match s.freeList with
  | [] => (.ok s.replacer.victim.1, { s with replacer := s.replacer.victim.2 })
  | f :: rest => (.ok (some f), { s with freeList := rest })

def updatePage (f : Fin (n + 1)) (newPageId : PageId) : Exec RMDBError (BufferPoolInstance n D) Unit := do
  let page ← .asks fun s => s.pages f
  .when page.isDirty do
    writePage page.id page.data
    .modify (onPage f fun page => { page with isDirty := false })
  .modify fun s => { s with pageTable := (s.pageTable.erase page.id).insert newPageId f }
  .modify (onPage f fun page => { page with id := newPageId, pinCount := 0 })

def pinFirst (f : Fin (n + 1)) (s : BufferPoolInstance n D) : BufferPoolInstance n D :=
  onPage f (fun page => { page with pinCount := 1 }) { s with replacer := s.replacer.pin f }

def fetchPage (id : PageId) : Exec RMDBError (BufferPoolInstance n D) (Option (Fin (n + 1))) := do
  match ← .asks fun s => s.pageTable.lookup id with
  | none =>
    match ← findVictimPage with
    | none => pure none
    | some f =>
      updatePage f id
      readPage id f
      .modify (pinFirst f)
      pure (some f)
  | some f =>
    .modify (onPage f fun page => { page with pinCount := wrapInt (page.pinCount + 1) })
    .modify fun s => if (s.pages f).pinCount = 1 then { s with replacer := s.replacer.pin f } else s
    pure (some f)

def unpinPage (id : PageId) (isDirty : Bool) : Exec RMDBError (BufferPoolInstance n D) Bool := do
  match ← .asks fun s => s.pageTable.lookup id with
  | none => pure false
  | some f =>
    if (← .asks fun s => (s.pages f).pinCount) = 0 then pure false
    else
      .modify (onPage f fun page => { page with pinCount := wrapInt (page.pinCount - 1) })
      .modify fun s => if (s.pages f).pinCount = 0 then { s with replacer := s.replacer.unpin f } else s
      .modify (onPage f fun page => { page with isDirty := page.isDirty || isDirty })
      pure true

/-- Write a frame back, dirty or not. -/
def flushFrame (f : Fin (n + 1)) : Exec RMDBError (BufferPoolInstance n D) Unit := do
  let page ← .asks fun s => s.pages f
  writePage page.id page.data
  .modify (onPage f fun page => { page with isDirty := false })

def flushPage (id : PageId) : Exec RMDBError (BufferPoolInstance n D) Bool := do
  match ← .asks fun s => s.pageTable.lookup id with
  | none => pure false
  | some f =>
    flushFrame f
    pure true

/-- The page number comes from the caller; the page is not looked for in the table. -/
def newPage (blank : D) (id : PageId) : Exec RMDBError (BufferPoolInstance n D) (Option (Fin (n + 1))) := do
  match ← findVictimPage with
  | none => pure none
  | some f =>
    updatePage f id
    .modify (onPage f fun page => { page with data := blank })
    .modify (pinFirst f)
    pure (some f)

/-- The frame goes back to the free list with the `id_` it had. -/
def deletePage (blank : D) (id : PageId) : Exec RMDBError (BufferPoolInstance n D) Bool := do
  match ← .asks fun s => s.pageTable.lookup id with
  | none => pure true
  | some f =>
    let page ← .asks fun s => s.pages f
    if page.pinCount > 0 then pure false
    else
      .when page.isDirty (flushFrame f)
      .modify fun s => { s with freeList := s.freeList ++ [f], pageTable := s.pageTable.erase page.id }
      .modify (onPage f fun page => { page with data := blank })
      pure true

def flushAllPages (ord : PageTableOrder n) (fd : Int) : Exec RMDBError (BufferPoolInstance n D) Unit := do
  let entries ← .asks fun s => ord.order s.pageTable.entries
  entries.forM fun entry => .when (decide (entry.1.fd = fd)) (flushFrame entry.2)

/-- One turn of the loop of `delete_all_pages`. -/
def dropPage (blank : D) (id : PageId) (f : Fin (n + 1)) (s : BufferPoolInstance n D) : BufferPoolInstance n D :=
  let s := onPage f (fun page => ⟨{ page.id with pageNo := noPage }, blank, false, 0⟩) s
  { s with freeList := s.freeList ++ [f], pageTable := s.pageTable.erase id }

def deleteAllPages (blank : D) (ord : PageTableOrder n) (fd : Int) : Exec RMDBError (BufferPoolInstance n D) Unit := do
  let entries ← .asks fun s => ord.order s.pageTable.entries
  entries.forM fun entry => .when (decide (entry.1.fd = fd)) (.modify (dropPage blank entry.1 entry.2))

/-- A new pool over the files. The file descriptor of an empty frame is never set. -/
def make (blank : D) (disk : Disk D) (unset : Fin (n + 1) → Int) : BufferPoolInstance n D where
  pages f := ⟨⟨unset f, noPage⟩, blank, false, 0⟩
  pageTable := ∅
  freeList := List.finRange (n + 1)
  replacer := ⟨fun _ => 0, fun _ => false, 0⟩
  disk := disk

end BufferPoolInstance

end Rmdb
