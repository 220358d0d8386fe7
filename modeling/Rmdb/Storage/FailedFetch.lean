/-
A page that cannot be read.

`fetch_page` gives the page a frame and an entry in the table before it reads
it. When the read fails they stay: the next `fetch_page` finds the page in the
table, and returns what was in the frame before.
-/
import Rmdb.Storage.PinCounts

namespace Rmdb.PageTable

open Exec BufferPoolInstance
open BufferPool (listOrder)

variable {n : Nat} {D : Type} {s s' : BufferPoolInstance n D} {id : PageId} {f : Fin (n + 1)}

/-- The frame that `find_victim_page` gives. -/
def frameFor (s : BufferPoolInstance n D) : Option (Fin (n + 1)) :=
  match s.freeList with
  | [] => s.replacer.victim.1
  | f :: _ => some f

def writeBack (s : BufferPoolInstance n D) (f : Fin (n + 1)) : Option (Disk D) :=
  let page := s.pages f
  if page.isDirty = false then some s.disk
  else if pageOffset page.id.pageNo < 0 then none
  else some (s.disk.put page.id.fd (pageOffset page.id.pageNo).toNat page.data)

def Missing (disk : Disk D) (id : PageId) : Prop :=
  pageOffset id.pageNo < 0 ∨ disk id.fd (pageOffset id.pageNo).toNat = none

/-- A frame can be had, and then there is no such page in the file. -/
def ReadThrows (s : BufferPoolInstance n D) (id : PageId) : Prop :=
  ∃ f ∈ frameFor s, ∃ disk ∈ writeBack s f, Missing disk id

/-- The errors of `DiskManager::read_page`. -/
def IsReadError (e : RMDBError) : Prop :=
  e = .internalError "DiskManager::read_page: lSeek Error" ∨ e = .internalError "DiskManager::read_page: Read Error"

def contentOf (s : BufferPoolInstance n D) (id : PageId) : Option D :=
  match s.pageTable.lookup id with
  | some f => some (s.pages f).data
  | none => s.disk id.fd (pageOffset id.pageNo).toNat

/-- If the page cannot be read, it is not in the table, no page of the table has
lost its content, and the page is not given with other content later on. -/
def NoTrace (s : BufferPoolInstance n D) (id : PageId) : Prop :=
  ∀ e s', fetchPage id s = (.error e, s') → IsReadError e →
    s'.pageTable.lookup id = none ∧
    (∀ id' g, s.pageTable.lookup id' = some g → contentOf s' id' = contentOf s id') ∧
    ∀ f s'', fetchPage id s' = (.ok (some f), s'') →
      s'.disk id.fd (pageOffset id.pageNo).toNat = some (s''.pages f).data

theorem wp_updatePage_any {Q : Unit → BufferPoolInstance n D → Prop} {E : RMDBError → BufferPoolInstance n D → Prop}
    (hQ : ∀ disk ∈ writeBack s f, ∀ s', s'.pageTable.lookup id = some f → (s'.pages f).data = (s.pages f).data →
      s'.disk = disk → Q () s')
    (hE : writeBack s f = none → E (.internalError "DiskManager::write_page: lSeek Error") s) :
    wp (updatePage f id) Q E s := by
  unfold updatePage
  simp only [wp_bind, wp_asks, wp_modify]
  refine wp_when (fun hd => ?_) fun hd => ?_
  · rw [wp_bind]
    unfold writePage
    split
    · next hoff => exact hE (by simp [writeBack, hd, hoff])
    · next hoff =>
      have hback : writeBack s f =
          some (s.disk.put (s.pages f).id.fd (pageOffset (s.pages f).id.pageNo).toNat (s.pages f).data) := by
        unfold writeBack
        rw [if_neg (by simp [hd]), if_neg hoff]
      exact hQ _ hback _ (AList.lookup_insert _) (by simp [onPage]) rfl
  · exact hQ s.disk (by simp [writeBack, hd]) _ (AList.lookup_insert _) (by simp [onPage]) rfl

theorem wp_findVictimPage_frame : wp findVictimPage
    (fun r s' => frameFor s = r ∧ writeBack s' = writeBack s) (fun _ _ => False) s := by
  unfold wp frameFor
  cases hfree : s.freeList with
  | nil => rw [findVictimPage_nil hfree]; exact ⟨rfl, rfl⟩
  | cons f rest => rw [findVictimPage_cons hfree]; exact ⟨rfl, rfl⟩

/-- A page that is in no frame: either the read throws, and the page is in the table
with what the frame had; or no read throws. -/
theorem wp_fetchPage_miss (hnone : s.pageTable.lookup id = none) : wp (fetchPage id) (fun _ _ => ¬ ReadThrows s id)
    (fun e s' => ReadThrows s id ∧ IsReadError e ∧ s'.pageTable.lookup id ≠ none ∨
      ¬ ReadThrows s id ∧ ¬ IsReadError e) s := by
  unfold fetchPage
  simp only [wp_bind, wp_asks, hnone]
  refine wp_mono wp_findVictimPage_frame (fun r s₁ hr => ?_) fun _ _ h => h.elim
  obtain ⟨hframe, hback⟩ := hr
  cases r with
  | none =>
    intro hthrows
    obtain ⟨f, hf, -⟩ := hthrows
    simp [hframe] at hf
  | some f =>
    -- What is in the frame is written back first; after that the frame is the page's.
    rw [wp_bind]
    refine wp_updatePage_any (fun disk hd s₂ hl _ hs₂ => ?_) fun hw => .inr ⟨?_, by simp [IsReadError]⟩
    · have hthrows : ReadThrows s id ↔ Missing disk id := by
        unfold ReadThrows
        rw [hframe, ← hback]
        simp [Option.mem_def.mp hd]
      rw [wp_bind]
      unfold readPage
      split
      · next hoff => exact .inl ⟨hthrows.mpr (.inl hoff), .inl rfl, by simp [hl]⟩
      · next hoff =>
        rw [wp_bind, wp_asks, hs₂]
        cases hpage : disk id.fd (pageOffset id.pageNo).toNat with
        | none => exact .inl ⟨hthrows.mpr (.inr hpage), .inr rfl, by simp [hl]⟩
        | some data => exact fun h => (hthrows.mp h).elim hoff (by simp [hpage])
    · intro hthrows
      obtain ⟨g, hg, disk, hd, -⟩ := hthrows
      rw [hframe] at hg
      cases hg
      simp [← hback, hw] at hd

/-- A failed fetch leaves no trace exactly where no read throws: otherwise the page
is in the table. -/
theorem fetchPage_noTrace (s : BufferPoolInstance n D) (id : PageId) (hnone : s.pageTable.lookup id = none) :
    NoTrace s id ↔ ¬ ReadThrows s id := by
  have hmiss := wp_fetchPage_miss hnone
  unfold wp at hmiss
  constructor
  · intro h hthrows
    split at hmiss
    · exact hmiss hthrows
    · next e s' hf =>
      obtain ⟨_, he, hl⟩ | ⟨hno, _⟩ := hmiss
      · exact hl (h e s' hf he).1
      · exact hno hthrows
  · intro hno e s' hf he
    rw [hf] at hmiss
    obtain ⟨hthrows, _⟩ | ⟨_, hne⟩ := hmiss
    · exact absurd hthrows hno
    · exact absurd he hne

def oneFrame : BufferPoolInstance 0 Nat :=
  make 0 (fun fd offset => if fd = 3 ∧ offset = 0 then some 7 else none) fun _ => 0

theorem fetchPage_noTrace_oneFrame : NoTrace oneFrame ⟨3, 0⟩ := by
  refine (fetchPage_noTrace oneFrame ⟨3, 0⟩ (by decide +kernel)).2 ?_
  intro ⟨f, hf, disk, hdisk, hmissing⟩
  cases hf
  cases hdisk
  revert hmissing
  unfold Missing
  decide +kernel

/-- Page 0 is in the frame and no longer pinned. There is no page 5: it is fetched in
vain, and when it is fetched again it is page 0. -/
theorem missing_page_given : ∃ trace s s' s'', Run.run (step 0 listOrder) oneFrame
      [.fetchPage ⟨3, 0⟩, .unpinPage ⟨3, 0⟩ false] = some (trace, s) ∧
    fetchPage ⟨3, 5⟩ s = (.error (.internalError "DiskManager::read_page: Read Error"), s') ∧
    s'.pageTable.lookup ⟨3, 5⟩ = some 0 ∧ fetchPage ⟨3, 5⟩ s' = (.ok (some 0), s'') ∧
    (s''.pages 0).data = 7 ∧ ¬ NoTrace s ⟨3, 5⟩ := by
  refine ⟨_, _, _, _, rfl, rfl, by decide +kernel, rfl, by decide +kernel, fun h => ?_⟩
  exact absurd (h _ _ rfl (.inr rfl)).1 (by decide +kernel)

end Rmdb.PageTable
