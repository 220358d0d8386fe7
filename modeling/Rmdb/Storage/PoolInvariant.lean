/-
The invariant of a buffer pool and its clients' ledger.

`Placed` is about the frames, the table, the free list, the replacer and the
pins; `Kept` is about where the last content of a page is. For each change a
call makes there is one lemma on either.
-/
import Rmdb.Storage.Clients
import Rmdb.Storage.PoolSteps

namespace Rmdb.BufferPool

open Function Exec BufferPoolInstance

variable {C D : Type} {n : Nat}

def Ledger.pinsOn (L : Ledger C n D) (f : Fin (n + 1)) : Nat := L.pins.countP fun p => p.frame = f

structure Placed (s : BufferPoolInstance n D) (L : Ledger C n D) : Prop where
  ids : ∀ id f, s.pageTable.lookup id = some f → (s.pages f).id = id ∧ id.Addressable
  free : ∀ f ∈ s.freeList, (s.pages f).id.pageNo = noPage ∧ (s.pages f).isDirty = false
  nodup : s.freeList.Nodup
  covers : ∀ f, f ∈ s.freeList ∨ s.pageTable.lookup (s.pages f).id = some f
  pins : ∀ f, (s.pages f).pinCount = L.pinsOn f ∧ L.pinsOn f < 2 ^ 31
  counter : ∀ f, s.replacer.pinCounter f = if L.pinsOn f = 0 then 0 else 1
  held : ∀ p ∈ L.pins, s.pageTable.lookup p.page = some p.frame

variable {s s' : BufferPoolInstance n D} {L L' : Ledger C n D} {id : PageId} {f : Fin (n + 1)} {c : C}

theorem not_addressable_of_noPage (h : id.pageNo = noPage) : ¬ id.Addressable := by
  intro ha
  have h0 := ha.1
  unfold noPage at h
  omega

theorem pinsOn_eq_zero : L.pinsOn f = 0 ↔ ∀ p ∈ L.pins, p.frame ≠ f := by
  unfold Ledger.pinsOn
  rw [List.countP_eq_zero]
  simp

theorem pinsOn_pinned (g : Fin (n + 1)) : (L.pinned c id f).pinsOn g = L.pinsOn g + if f = g then 1 else 0 := by
  unfold Ledger.pinsOn Ledger.pinned
  rw [List.countP_cons]
  simp

namespace Placed

variable (hp : Placed s L)

include hp

theorem eq_of_lookup {id' : PageId} (h : s.pageTable.lookup id = some f) (h' : s.pageTable.lookup id' = some f) :
    id = id' := by
  rw [← (hp.ids id f h).1, ← (hp.ids id' f h').1]

theorem not_free (h : s.pageTable.lookup id = some f) : f ∉ s.freeList := by
  intro hf
  obtain ⟨hid, ha⟩ := hp.ids id f h
  exact not_addressable_of_noPage (hid ▸ (hp.free f hf).1) ha

theorem lookup_of_not_free (h : f ∉ s.freeList) : s.pageTable.lookup (s.pages f).id = some f :=
  (hp.covers f).resolve_left h

theorem ids_ne {g : Fin (n + 1)} (hfg : f ≠ g) (hf : (s.pages f).id.pageNo ≠ noPage) :
    (s.pages f).id ≠ (s.pages g).id := by
  intro heq
  have hf' := hp.lookup_of_not_free (f := f) fun h => hf (hp.free f h).1
  have hg' := hp.lookup_of_not_free (f := g) fun h => hf (heq ▸ (hp.free g h).1)
  rw [← heq, hf'] at hg'
  exact hfg (Option.some.inj hg')

theorem pinsOn_of_free (h : f ∈ s.freeList) : L.pinsOn f = 0 := by
  rw [pinsOn_eq_zero]
  intro p hpin hf
  exact hp.not_free (hf ▸ hp.held p hpin) h

theorem pinsOn_eq_zero_iff (hl : s.pageTable.lookup id = some f) : L.pinsOn f = 0 ↔ ∀ p ∈ L.pins, p.page ≠ id := by
  rw [pinsOn_eq_zero]
  constructor
  · intro h p hpin hid
    have hl' := hp.held p hpin
    rw [hid, hl] at hl'
    exact h p hpin (Option.some.inj hl').symm
  · intro h p hpin hf
    exact h p hpin (hp.eq_of_lookup (hf ▸ hp.held p hpin) hl)

theorem of_pins (hpins : L'.pins = L.pins) : Placed s L' := by
  have hon : ∀ g, L'.pinsOn g = L.pinsOn g := fun g => by unfold Ledger.pinsOn; rw [hpins]
  refine ⟨hp.ids, hp.free, hp.nodup, hp.covers, fun g => ?_, fun g => ?_, fun p hpin => hp.held p (hpins ▸ hpin)⟩
  · rw [hon]
    exact hp.pins g
  · rw [hon]
    exact hp.counter g

end Placed

/-! ## A frame for a page that is in none -/

/-- `find_victim_page` has given `f`: it is unpinned, and no longer free. -/
structure Vacant (s : BufferPoolInstance n D) (L : Ledger C n D) (f : Fin (n + 1)) (s' : BufferPoolInstance n D) :
    Prop where
  pages : s'.pages = s.pages
  pageTable : s'.pageTable = s.pageTable
  disk : s'.disk = s.disk
  counter : s'.replacer.pinCounter = s.replacer.pinCounter
  unpinned : L.pinsOn f = 0
  taken : f ∉ s'.freeList
  rest : ∀ g, g ≠ f → (g ∈ s'.freeList ↔ g ∈ s.freeList)
  nodup : s'.freeList.Nodup

/-- The table when `f` has been given the page `id`: what `f` held is no longer in it. -/
theorem Placed.lookup_seated (h : Placed s L) (hnone : s.pageTable.lookup id = none) (data : D) (id' : PageId)
    (g : Fin (n + 1)) : (s.seated f id data).pageTable.lookup id' = some g ↔
      (id' = id ∧ g = f) ∨ (g ≠ f ∧ s.pageTable.lookup id' = some g) := by
  unfold BufferPoolInstance.seated
  simp only
  by_cases hid : id' = id
  · rw [hid, AList.lookup_insert, hnone]
    simp [eq_comm]
  · rw [AList.lookup_insert_ne hid]
    by_cases hold : id' = (s.pages f).id
    · rw [hold, AList.lookup_erase]
      refine ⟨fun hl => (by cases hl), fun hl => ?_⟩
      obtain ⟨heq, -⟩ | ⟨hg, hl⟩ := hl
      · exact absurd (hold.trans heq) hid
      · -- another frame does not hold the page of `f`
        obtain ⟨heq, ha⟩ := h.ids _ g hl
        exact absurd heq.symm (h.ids_ne hg.symm fun hno => not_addressable_of_noPage hno ha)
    · rw [AList.lookup_erase_ne hold]
      refine ⟨fun hl => .inr ⟨fun hg => hold ?_, hl⟩, fun hl => ?_⟩
      · rw [← hg, (h.ids id' g hl).1]
      · obtain ⟨heq, -⟩ | ⟨-, hl⟩ := hl
        · exact absurd heq hid
        · exact hl

namespace Vacant

variable (hv : Vacant s L f s')

include hv

theorem lookup_seated (h : Placed s L) (hnone : s.pageTable.lookup id = none) (data : D) (id' : PageId)
    (g : Fin (n + 1)) : (s'.seated f id data).pageTable.lookup id' = some g ↔
      (id' = id ∧ g = f) ∨ (g ≠ f ∧ s.pageTable.lookup id' = some g) := by
  rw [← h.lookup_seated hnone data]
  unfold BufferPoolInstance.seated
  rw [hv.pages, hv.pageTable]

theorem pages_seated (id : PageId) (data : D) (g : Fin (n + 1)) (hg : g ≠ f) :
    (s'.seated f id data).pages g = s.pages g := by
  rw [← hv.pages]
  exact update_of_ne hg ..

theorem evicted_eq : s'.evicted f = s.evicted f := by
  unfold BufferPoolInstance.evicted
  rw [hv.pages, hv.disk]

/-- A frame that is written back on its way out holds a page. -/
theorem addressable_of_dirty (h : Placed s L) (hd : (s'.pages f).isDirty = true) : (s'.pages f).id.Addressable := by
  rw [hv.pages] at hd ⊢
  have hfree : f ∉ s.freeList := fun hf => by simp [(h.free f hf).2] at hd
  exact (h.ids _ _ (h.lookup_of_not_free hfree)).2

theorem placed (h : Placed s L) (hid : id.Addressable) (hnone : s.pageTable.lookup id = none) (data : D) :
    Placed (s'.seated f id data) (L.pinned c id f) := by
  have hself : (s'.seated f id data).pages f = ⟨id, data, false, 1⟩ := pages_seated_self data
  have hother := hv.pages_seated id data
  have hlook := hv.lookup_seated h hnone data
  constructor
  case ids =>
    intro id' g hl
    obtain ⟨rfl, rfl⟩ | ⟨hg, hl⟩ := (hlook id' g).1 hl
    · exact ⟨by rw [hself], hid⟩
    · rw [hother g hg]
      exact h.ids id' g hl
  case free =>
    intro g hg
    have hne : g ≠ f := fun heq => hv.taken (heq ▸ hg)
    rw [hother g hne]
    exact h.free g ((hv.rest g hne).1 hg)
  case nodup => exact hv.nodup
  case covers =>
    intro g
    by_cases hg : g = f
    · rw [hg, hself]
      exact .inr ((hlook id f).2 (.inl ⟨rfl, rfl⟩))
    · rw [hother g hg]
      obtain hfree | hl := h.covers g
      · exact .inl ((hv.rest g hg).2 hfree)
      · exact .inr ((hlook _ g).2 (.inr ⟨hg, hl⟩))
  case pins =>
    intro g
    rw [pinsOn_pinned]
    by_cases hg : g = f
    · rw [hg, hself, hv.unpinned]
      simp
    · rw [hother g hg, if_neg (Ne.symm hg)]
      exact h.pins g
  case counter =>
    intro g
    change (s'.replacer.pin f).pinCounter g = _
    rw [pinsOn_pinned, ClockReplacer.pinCounter_pin, hv.counter]
    by_cases hg : g = f
    · rw [hg, update_self, h.counter, hv.unpinned, if_pos rfl, if_pos rfl]
      rfl
    · rw [update_of_ne hg, h.counter, if_neg (Ne.symm hg), Nat.add_zero]
  case held =>
    intro p hp
    obtain rfl | hp := List.mem_cons.1 hp
    · exact (hlook id f).2 (.inl ⟨rfl, rfl⟩)
    · exact (hlook _ _).2 (.inr ⟨pinsOn_eq_zero.1 hv.unpinned p hp, h.held p hp⟩)

end Vacant

/-! ## Where the last content of a page is -/

theorem evicted_at_other (hp : Placed s L) (hl : s.pageTable.lookup id ≠ some f) :
    (s.evicted f).at id = s.disk.at id := by
  unfold BufferPoolInstance.evicted
  split
  · next hd =>
    -- a dirty frame is in the table
    have hfree : f ∉ s.freeList := fun h => by simp [(hp.free f h).2] at hd
    have hl' := hp.lookup_of_not_free hfree
    exact Disk.at_write_of_ne _ (hp.ids _ _ hl').2 (fun heq => hl (by rw [heq, hl'])) _
  · rfl

section

variable [DecidableEq C]

/-- A page in a frame has its last content there, one that is in no frame has
it on disk. A frame that is not dirty holds what is on disk, unless a client
has yet to report a modification. -/
structure Kept (s : BufferPoolInstance n D) (L : Ledger C n D) : Prop where
  unsaved : ∀ c id, (c, id) ∈ L.unsaved → 0 < L.held c id
  content : ∀ id f, s.pageTable.lookup id = some f → L.content id = some (s.pages f).data
  clean : ∀ id f, s.pageTable.lookup id = some f → (s.pages f).isDirty = false → (∀ c, (c, id) ∉ L.unsaved) →
    s.disk.at id = L.content id
  flushed : ∀ id f, s.pageTable.lookup id = some f → id.fd ∈ L.flushed → s.disk.at id = L.content id
  away : ∀ id : PageId, id.Addressable → s.pageTable.lookup id = none → s.disk.at id = L.content id

theorem Kept.not_unsaved (hk : Kept s L) (h : ∀ p ∈ L.pins, p.page ≠ id) : (c, id) ∉ L.unsaved := by
  intro hc
  have hpos := hk.unsaved c id hc
  unfold Ledger.held at hpos
  rw [List.countP_pos_iff] at hpos
  obtain ⟨p, hp, hpage⟩ := hpos
  simp only [decide_eq_true_eq] at hpage
  exact h p hp hpage.2

theorem held_pinned (c' : C) (id' : PageId) : L.held c' id' ≤ (L.pinned c id f).held c' id' := by
  unfold Ledger.held Ledger.pinned
  rw [List.countP_cons]
  omega

theorem held_pinned_self : 0 < (L.pinned c id f).held c id := by
  unfold Ledger.held Ledger.pinned
  rw [List.countP_cons]
  simp

/-- When an unpinned frame has been written back, its page is on disk. -/
theorem Kept.evicted_at (hk : Kept s L) (hp : Placed s L) (hf : L.pinsOn f = 0)
    (hl : s.pageTable.lookup id = some f) : (s.evicted f).at id = L.content id := by
  obtain ⟨hid, ha⟩ := hp.ids id f hl
  unfold BufferPoolInstance.evicted
  cases hd : (s.pages f).isDirty with
  | true =>
    rw [if_pos rfl, hid, Disk.at_write_self _ ha]
    exact (hk.content id f hl).symm
  | false =>
    rw [if_neg Bool.false_ne_true]
    exact hk.clean id f hl hd fun c => hk.not_unsaved ((hp.pinsOn_eq_zero_iff hl).1 hf)

/-- The frame gets the page `id` with the content it has in `L'`, which is
`L` or `L` with that page modified. -/
theorem Vacant.kept (hv : Vacant s L f s') (hk : Kept s L) (hp : Placed s L) {data : D}
    (hnone : s.pageTable.lookup id = none) (hpins : L'.pins = L.pins) (hdata : L'.content id = some data)
    (hcontent : ∀ id', id' ≠ id → L'.content id' = L.content id')
    (hunsaved : ∀ c' id', (c', id') ∈ L'.unsaved → (c', id') ∈ L.unsaved ∨ (c', id') = (c, id))
    (hsaved : ∀ c' id', (c', id') ∈ L.unsaved → (c', id') ∈ L'.unsaved) (hflushed : ∀ fd ∈ L'.flushed, fd ∈ L.flushed)
    (hdisk : (∀ c', (c', id) ∉ L'.unsaved) ∨ id.fd ∈ L'.flushed → s.disk.at id = some data) :
    Kept (s'.seated f id data) (L'.pinned c id f) := by
  have hself : (s'.seated f id data).pages f = ⟨id, data, false, 1⟩ := pages_seated_self data
  have hother := hv.pages_seated id data
  have hlook := hv.lookup_seated hp hnone data
  have hne : ∀ id' g, s.pageTable.lookup id' = some g → id' ≠ id := by
    intro id' g hl heq
    rw [heq, hnone] at hl
    cases hl
  have hdisk' : (s'.seated f id data).disk = s.evicted f := hv.evicted_eq
  have hkeep : ∀ id' g, g ≠ f → s.pageTable.lookup id' = some g →
      (s'.seated f id data).disk.at id' = s.disk.at id' := by
    intro id' g hg hl
    rw [hdisk']
    exact evicted_at_other hp fun hl' => hg (Option.some.inj (hl.symm.trans hl'))
  have hnew : (s'.seated f id data).disk.at id = s.disk.at id := by
    rw [hdisk']
    exact evicted_at_other hp (by rw [hnone]; exact nofun)
  constructor
  case unsaved =>
    intro c' id' hc
    obtain hc | heq := hunsaved c' id' hc
    · refine (hk.unsaved c' id' hc).trans_le ?_
      unfold Ledger.held
      rw [← hpins]
      exact held_pinned c' id'
    · cases heq
      exact held_pinned_self
  case content =>
    intro id' g hl
    obtain ⟨rfl, rfl⟩ | ⟨hg, hl⟩ := (hlook id' g).1 hl
    · rw [hself]
      exact hdata
    · rw [hother g hg]
      exact (hcontent id' (hne id' g hl)).trans (hk.content id' g hl)
  case clean =>
    intro id' g hl hd hc
    obtain ⟨rfl, rfl⟩ | ⟨hg, hl⟩ := (hlook id' g).1 hl
    · exact hnew.trans ((hdisk (.inl hc)).trans hdata.symm)
    · rw [hother g hg] at hd
      rw [hkeep id' g hg hl, hk.clean id' g hl hd fun c' h => hc c' (hsaved c' id' h)]
      exact (hcontent id' (hne id' g hl)).symm
  case flushed =>
    intro id' g hl hfd
    obtain ⟨rfl, rfl⟩ | ⟨hg, hl⟩ := (hlook id' g).1 hl
    · exact hnew.trans ((hdisk (.inr hfd)).trans hdata.symm)
    · rw [hkeep id' g hg hl, hk.flushed id' g hl (hflushed _ hfd)]
      exact (hcontent id' (hne id' g hl)).symm
  case away =>
    intro id' ha hl
    have hid : id' ≠ id := by
      intro heq
      rw [heq, (hlook id f).2 (.inl ⟨rfl, rfl⟩)] at hl
      cases hl
    refine Eq.trans ?_ (hcontent id' hid).symm
    rw [hdisk']
    cases hl' : s.pageTable.lookup id' with
    | none =>
      rw [evicted_at_other hp (by rw [hl']; exact nofun)]
      exact hk.away id' ha hl'
    | some g =>
      have hg : g = f := by
        by_contra hg
        rw [(hlook id' g).2 (.inr ⟨hg, hl'⟩)] at hl
        cases hl
      exact hk.evicted_at hp hv.unpinned (hg ▸ hl')

end

end Rmdb.BufferPool
