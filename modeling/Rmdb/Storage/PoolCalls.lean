/-
Each call of a client keeps the invariant of the buffer pool.
-/
import Rmdb.Storage.PoolInvariant

namespace Rmdb.BufferPool

open Function List Exec BufferPoolInstance

variable {C D : Type} {n : Nat}
variable {s s' : BufferPoolInstance n D} {L L' : Ledger C n D} {id : PageId} {f : Fin (n + 1)} {c : C}

theorem Placed.of_same (h : Placed s L) (htable : s'.pageTable = s.pageTable) (hfree : s'.freeList = s.freeList)
    (hid : ∀ g, (s'.pages g).id = (s.pages g).id)
    (hdirty : ∀ g ∈ s.freeList, (s'.pages g).isDirty = (s.pages g).isDirty)
    (hpins : ∀ g, (s'.pages g).pinCount = L'.pinsOn g ∧ L'.pinsOn g < 2 ^ 31)
    (hcounter : ∀ g, s'.replacer.pinCounter g = if L'.pinsOn g = 0 then 0 else 1)
    (hheld : ∀ p ∈ L'.pins, s.pageTable.lookup p.page = some p.frame) : Placed s' L' := by
  constructor
  case ids =>
    intro id g hl
    rw [htable] at hl
    rw [hid]
    exact h.ids id g hl
  case free =>
    intro g hg
    rw [hfree] at hg
    rw [hid, hdirty g hg]
    exact h.free g hg
  case nodup =>
    rw [hfree]
    exact h.nodup
  case covers =>
    intro g
    rw [hfree, hid, htable]
    exact h.covers g
  case pins => exact hpins
  case counter => exact hcounter
  case held =>
    rw [htable]
    exact hheld

/-- A change of the frame of a page that leaves which page it is and its pins. -/
theorem Placed.onPage (h : Placed s L) (hl : s.pageTable.lookup id = some f) {u : Page D → Page D}
    (hid : ∀ page, (u page).id = page.id) (hpin : ∀ page, (u page).pinCount = page.pinCount) (disk : Disk D) :
    Placed (onPage f u { s with disk }) L := by
  have hself := pages_onPage_self f u { s with disk }
  have hother := fun g (hg : g ≠ f) => pages_onPage_of_ne hg u { s with disk }
  refine h.of_same rfl rfl (fun g => ?_) (fun g hg => ?_) (fun g => ?_) h.counter h.held
  · by_cases hg : g = f
    · rw [hg, hself, hid]
    · rw [hother g hg]
  · rw [hother g fun heq => h.not_free hl (heq ▸ hg)]
  · by_cases hg : g = f
    · rw [hg, hself, hpin]
      exact h.pins f
    · rw [hother g hg]
      exact h.pins g

/-! ## Pins -/

theorem Placed.repin (h : Placed s L) (hl : s.pageTable.lookup id = some f) {page : Page D}
    (htable : s'.pageTable = s.pageTable) (hfree : s'.freeList = s.freeList)
    (hpages : s'.pages = update s.pages f page) (hid : page.id = (s.pages f).id)
    (hself : page.pinCount = L'.pinsOn f ∧ L'.pinsOn f < 2 ^ 31) (hrest : ∀ g, g ≠ f → L'.pinsOn g = L.pinsOn g)
    (hcounter : s'.replacer.pinCounter = update s.replacer.pinCounter f (if L'.pinsOn f = 0 then 0 else 1))
    (hheld : ∀ p ∈ L'.pins, s.pageTable.lookup p.page = some p.frame) : Placed s' L' := by
  have hat : s'.pages f = page := by rw [hpages, update_self]
  have hother : ∀ g, g ≠ f → s'.pages g = s.pages g := fun g hg => by rw [hpages, update_of_ne hg]
  refine h.of_same htable hfree (fun g => ?_) (fun g hg => ?_) (fun g => ?_) (fun g => ?_) hheld
  · by_cases hg : g = f
    · rw [hg, hat, hid]
    · rw [hother g hg]
  · rw [hother g fun heq => h.not_free hl (heq ▸ hg)]
  · by_cases hg : g = f
    · rw [hg, hat]
      exact hself
    · rw [hother g hg, hrest g hg]
      exact h.pins g
  · rw [hcounter]
    by_cases hg : g = f
    · rw [hg, update_self]
    · rw [update_of_ne hg, hrest g hg]
      exact h.counter g

theorem Placed.hit (h : Placed s L) (hl : s.pageTable.lookup id = some f) (hfew : (s.pages f).pinCount < 2 ^ 31 - 1) :
    Placed (s.hit f) (L.pinned c id f) := by
  obtain ⟨hcount, -⟩ := h.pins f
  have hwrap : wrapInt ((s.pages f).pinCount + 1) = L.pinsOn f + 1 := by
    rw [hcount] at hfew ⊢
    exact wrapInt_of_lt (by omega) (by omega)
  have hon : (L.pinned c id f).pinsOn f = L.pinsOn f + 1 := by
    rw [pinsOn_pinned, if_pos rfl]
  refine h.repin hl rfl rfl rfl rfl ⟨?_, ?_⟩ (fun g hg => ?_) ?_ ?_
  · rw [hwrap, hon]
    rfl
  · rw [hon]
    omega
  · rw [pinsOn_pinned, if_neg (Ne.symm hg), Nat.add_zero]
  · -- the replacer is told of the first pin only
    have h0 := h.counter f
    rw [hon, if_neg (Nat.succ_ne_zero _)]
    unfold BufferPoolInstance.hit
    rw [hwrap]
    split
    · next hfirst =>
      rw [if_pos (by omega)] at h0
      rw [ClockReplacer.pinCounter_pin, h0]
      rfl
    · next hmore =>
      rw [if_neg (by omega)] at h0
      rw [← h0, update_eq_self]
  · intro p hp
    obtain rfl | hp := mem_cons.1 hp
    · exact hl
    · exact h.held p hp

section

variable [DecidableEq C]

theorem exists_unpinned (h : 0 < L.held c id) : ∃ p ∈ L.pins, p.client = c ∧ p.page = id ∧
    ∀ (q : Pin C n → Bool) (isDirty : Bool),
      L.pins.countP q = (L.unpinned c id isDirty).pins.countP q + if q p then 1 else 0 := by
  obtain ⟨p, hp, hown⟩ := countP_pos_iff.1 h
  obtain ⟨a, l₁, l₂, -, ha, hl, he⟩ :=
    exists_of_eraseP (p := fun p : Pin C n => p.client = c ∧ p.page = id) hp hown
  simp only [decide_eq_true_eq] at ha
  refine ⟨a, by rw [hl]; simp, ha.1, ha.2, fun q isDirty => ?_⟩
  unfold Ledger.unpinned
  rw [he, hl]
  simp only [countP_append, countP_cons]
  omega

theorem Placed.released (h : Placed s L) (hl : s.pageTable.lookup id = some f) (hheld : 0 < L.held c id)
    (isDirty : Bool) : Placed (s.released f isDirty) (L.unpinned c id isDirty) := by
  obtain ⟨hcount, hfew⟩ := h.pins f
  obtain ⟨p, hp, -, hpage, hcut⟩ := exists_unpinned hheld
  have hframe : p.frame = f := Option.some.inj ((h.held p hp).symm.trans (hpage ▸ hl))
  have hon : ∀ g, L.pinsOn g = (L.unpinned c id isDirty).pinsOn g + if f = g then 1 else 0 := by
    intro g
    have hg := hcut (fun p => p.frame = g) isDirty
    rw [hframe] at hg
    simpa [Ledger.pinsOn] using hg
  have hself := hon f
  rw [if_pos rfl] at hself
  have hwrap : wrapInt ((s.pages f).pinCount - 1) = (L.unpinned c id isDirty).pinsOn f := by
    rw [hcount, wrapInt_of_lt (by omega) (by omega)]
    omega
  refine h.repin hl rfl rfl rfl rfl ⟨hwrap, by omega⟩ (fun g hg => ?_) ?_ ?_
  · have hrest := hon g
    rw [if_neg (Ne.symm hg)] at hrest
    omega
  · have h0 := h.counter f
    rw [if_neg (by omega)] at h0
    unfold BufferPoolInstance.released
    rw [hwrap]
    split
    · next hlast =>
      rw [if_pos (by omega), ClockReplacer.pinCounter_unpin, h0]
      rfl
    · next hmore => rw [if_neg (by omega), ← h0, update_eq_self]
  · intro q hq
    exact h.held q (mem_of_mem_eraseP hq)

theorem Kept.of_same (h : Kept s L) (htable : s'.pageTable = s.pageTable)
    (hdata : ∀ g, (s'.pages g).data = (s.pages g).data) (hdisk : s'.disk = s.disk)
    (hcontent : L'.content = L.content) (hflushed : L'.flushed = L.flushed)
    (hunsaved : ∀ c id, (c, id) ∈ L'.unsaved → 0 < L'.held c id)
    (hclean : ∀ id g, s.pageTable.lookup id = some g → (s'.pages g).isDirty = false → (∀ c, (c, id) ∉ L'.unsaved) →
      (s.pages g).isDirty = false ∧ ∀ c, (c, id) ∉ L.unsaved) : Kept s' L' := by
  constructor
  case unsaved => exact hunsaved
  case content =>
    intro id g hl
    rw [hdata, hcontent]
    exact h.content id g (htable ▸ hl)
  case clean =>
    intro id g hl hd hc
    rw [htable] at hl
    obtain ⟨hd, hc⟩ := hclean id g hl hd hc
    rw [hdisk, hcontent]
    exact h.clean id g hl hd hc
  case flushed =>
    intro id g hl hfd
    rw [hflushed] at hfd
    rw [hdisk, hcontent]
    exact h.flushed id g (htable ▸ hl) hfd
  case away =>
    intro id ha hl
    rw [hdisk, hcontent]
    exact h.away id ha (htable ▸ hl)

theorem Kept.hit (h : Kept s L) : Kept (s.hit f) (L.pinned c id f) := by
  have hpages : ∀ g, ((s.hit f).pages g).data = (s.pages g).data ∧
      ((s.hit f).pages g).isDirty = (s.pages g).isDirty := by
    intro g
    unfold BufferPoolInstance.hit
    by_cases hg : g = f
    · rw [hg]
      simp
    · simp [hg]
  refine h.of_same rfl (fun g => (hpages g).1) rfl rfl rfl (fun c' id' hc => ?_) fun id' g _ hd hc => ⟨?_, hc⟩
  · exact (h.unsaved c' id' hc).trans_le (held_pinned c' id')
  · exact (hpages g).2 ▸ hd

/-- The pin is given up when the modifications of `c` are reported, or another pin is left. -/
theorem Kept.released (h : Kept s L) (hl : s.pageTable.lookup id = some f) {isDirty : Bool}
    (hheld : 0 < L.held c id) (hreport : isDirty = true ∨ (c, id) ∉ L.unsaved ∨ 2 ≤ L.held c id) :
    Kept (s.released f isDirty) (L.unpinned c id isDirty) := by
  obtain ⟨p, -, hclient, hpage, hcut⟩ := exists_unpinned hheld
  have hpages : ∀ g, ((s.released f isDirty).pages g).data = (s.pages g).data ∧
      ((s.released f isDirty).pages g).isDirty =
        ((s.pages g).isDirty || (decide (g = f) && isDirty)) := by
    intro g
    unfold BufferPoolInstance.released
    by_cases hg : g = f
    · rw [hg]
      simp
    · simp [hg]
  have hmem : ∀ c' id', (c', id') ∈ (L.unpinned c id isDirty).unsaved ↔
      (c', id') ∈ L.unsaved ∧ (isDirty = true → (c', id') ≠ (c, id)) := by
    intro c' id'
    unfold Ledger.unpinned
    cases isDirty with
    | false => simp
    | true => simp only [if_true, mem_filter, decide_eq_true_eq, forall_const]
  refine h.of_same rfl (fun g => (hpages g).1) rfl rfl rfl (fun c' id' hc => ?_) (fun id' g hl' hd hc => ?_)
  · obtain ⟨hc, hne⟩ := (hmem c' id').1 hc
    have hpos := h.unsaved c' id' hc
    have hcount := hcut (fun p => p.client = c' ∧ p.page = id') isDirty
    unfold Ledger.held at hpos ⊢
    rw [hclient, hpage] at hcount
    by_cases heq : c = c' ∧ id = id'
    · obtain ⟨rfl, rfl⟩ := heq
      -- not all is reported, so another pin is left
      have htwo : 2 ≤ L.held c id := by
        obtain hd | hnot | htwo := hreport
        · exact absurd rfl (hne hd)
        · exact absurd hc hnot
        · exact htwo
      unfold Ledger.held at htwo
      simp only [and_self, decide_true, if_true] at hcount
      omega
    · simp only [heq, decide_false, Bool.false_eq_true, if_false, Nat.add_zero] at hcount
      omega
  · rw [(hpages g).2, Bool.or_eq_false_iff] at hd
    refine ⟨hd.1, fun c' hc' => ?_⟩
    by_cases hg : g = f
    · have hdirty : isDirty = false := by simpa [hg] using hd.2
      exact hc c' ((hmem c' id').2 ⟨hc', fun h => by rw [hdirty] at h; cases h⟩)
    · refine hc c' ((hmem c' id').2 ⟨hc', fun _ heq => hg ?_⟩)
      cases heq
      exact Option.some.inj (hl'.symm.trans hl)

/-! ## Contents -/

theorem Kept.disk_written (h : Kept s L) (hp : Placed s L) (hl : s.pageTable.lookup id = some f) :
    (s.written f).disk.at id = L.content id := by
  obtain ⟨hid, ha⟩ := hp.ids id f hl
  change (s.disk.write (s.pages f).id (s.pages f).data).at id = _
  rw [hid, Disk.at_write_self _ ha, h.content id f hl]

omit [DecidableEq C] in
theorem Placed.disk_written (hp : Placed s L) (hl : s.pageTable.lookup id = some f) {id' : PageId} (hne : id' ≠ id) :
    (s.written f).disk.at id' = s.disk.at id' := by
  obtain ⟨hid, ha⟩ := hp.ids id f hl
  change (s.disk.write (s.pages f).id (s.pages f).data).at id' = _
  rw [hid, Disk.at_write_of_ne _ ha hne]

theorem Kept.written (h : Kept s L) (hp : Placed s L) (hl : s.pageTable.lookup id = some f) : Kept (s.written f) L := by
  have hself := h.disk_written hp hl
  have hother := fun id' (hne : id' ≠ id) => hp.disk_written hl hne
  constructor
  case unsaved => exact h.unsaved
  case content =>
    intro id' g hl'
    rw [data_written]
    exact h.content id' g hl'
  case clean =>
    intro id' g hl' hd hc
    by_cases hid : id' = id
    · rw [hid]
      exact hself
    · have hg : g ≠ f := fun heq => hid (hp.eq_of_lookup (heq ▸ hl') hl)
      rw [hother id' hid]
      unfold BufferPoolInstance.written at hd
      rw [pages_onPage_of_ne hg] at hd
      exact h.clean id' g hl' hd hc
  case flushed =>
    intro id' g hl' hfd
    by_cases hid : id' = id
    · rw [hid]
      exact hself
    · rw [hother id' hid]
      exact h.flushed id' g hl' hfd
  case away =>
    intro id' ha hl'
    rw [hother id' fun heq => by rw [heq] at hl'; exact absurd (hl'.symm.trans hl) nofun]
    exact h.away id' ha hl'

theorem Kept.modified (h : Kept s L) (hp : Placed s L) (hl : s.pageTable.lookup id = some f) (hheld : 0 < L.held c id)
    (data : D) : Kept (onPage f (fun page => { page with data }) s) (L.modified c id data) := by
  have hne : ∀ id' g, s.pageTable.lookup id' = some g → id' ≠ id →
      (onPage f (fun page => { page with data }) s).pages g = s.pages g := by
    intro id' g hl' hid
    exact pages_onPage_of_ne (fun heq => hid (hp.eq_of_lookup (heq ▸ hl') hl)) ..
  have hcontent : ∀ id', id' ≠ id → (L.modified c id data).content id' = L.content id' :=
    fun id' hid => update_of_ne hid ..
  constructor
  case unsaved =>
    intro c' id' hc
    obtain heq | hc := mem_cons.1 hc
    · cases heq
      exact hheld
    · exact h.unsaved c' id' hc
  case content =>
    intro id' g hl'
    by_cases hid : id' = id
    · have hg : g = f := Option.some.inj (hl'.symm.trans (hid ▸ hl))
      rw [hid, hg, pages_onPage_self]
      exact update_self ..
    · rw [hne id' g hl' hid, hcontent id' hid]
      exact h.content id' g hl'
  case clean =>
    intro id' g hl' hd hc
    have hid : id' ≠ id := fun heq => hc c (heq ▸ mem_cons_self)
    rw [hne id' g hl' hid] at hd
    rw [hcontent id' hid]
    exact h.clean id' g hl' hd fun c' hc' => hc c' (mem_cons_of_mem _ hc')
  case flushed =>
    intro id' g hl' hfd
    unfold Ledger.modified at hfd
    simp only [mem_filter, decide_eq_true_eq] at hfd
    rw [hcontent id' fun heq => hfd.2 (heq ▸ rfl)]
    exact h.flushed id' g hl' hfd.1
  case away =>
    intro id' ha hl'
    rw [hcontent id' fun heq => by rw [heq] at hl'; exact absurd (hl'.symm.trans hl) nofun]
    exact h.away id' ha hl'

end

/-! ## A page dropped -/

theorem Placed.lookup_dropPage (h : Placed s L) (hl : s.pageTable.lookup id = some f) (blank : D) (id' : PageId)
    (g : Fin (n + 1)) : (dropPage blank id f s).pageTable.lookup id' = some g ↔
      g ≠ f ∧ s.pageTable.lookup id' = some g := by
  change (s.pageTable.erase id).lookup id' = some g ↔ _
  by_cases hid : id' = id
  · rw [hid, AList.lookup_erase, hl]
    simp [eq_comm]
  · rw [AList.lookup_erase_ne hid]
    exact ⟨fun hl' => ⟨fun hg => hid (h.eq_of_lookup (hg ▸ hl') hl), hl'⟩, fun h => h.2⟩

theorem Placed.dropPage (h : Placed s L) (hl : s.pageTable.lookup id = some f) (hf : L.pinsOn f = 0) (blank : D) :
    Placed (dropPage blank id f s) L := by
  have hself : (BufferPoolInstance.dropPage blank id f s).pages f =
      ⟨{ (s.pages f).id with pageNo := noPage }, blank, false, 0⟩ := update_self ..
  have hother : ∀ g, g ≠ f → (BufferPoolInstance.dropPage blank id f s).pages g = s.pages g :=
    fun g hg => update_of_ne hg ..
  have hlook := h.lookup_dropPage hl blank
  have hmem : ∀ g, g ∈ (BufferPoolInstance.dropPage blank id f s).freeList ↔ g ∈ s.freeList ∨ g = f := by
    intro g
    change g ∈ s.freeList ++ [f] ↔ _
    simp
  constructor
  case ids =>
    intro id' g hl'
    obtain ⟨hg, hl'⟩ := (hlook id' g).1 hl'
    rw [hother g hg]
    exact h.ids id' g hl'
  case free =>
    intro g hg
    by_cases heq : g = f
    · rw [heq, hself]
      exact ⟨rfl, rfl⟩
    · rw [hother g heq]
      exact h.free g (((hmem g).1 hg).resolve_right heq)
  case nodup =>
    change (s.freeList ++ [f]).Nodup
    rw [nodup_append]
    refine ⟨h.nodup, nodup_singleton f, fun g hg g' hg' heq => ?_⟩
    rw [mem_singleton.1 hg'] at heq
    exact h.not_free hl (heq ▸ hg)
  case covers =>
    intro g
    rw [hmem]
    by_cases heq : g = f
    · exact .inl (.inr heq)
    · rw [hother g heq]
      obtain hfree | hl' := h.covers g
      · exact .inl (.inl hfree)
      · exact .inr ((hlook _ g).2 ⟨heq, hl'⟩)
  case pins =>
    intro g
    by_cases heq : g = f
    · rw [heq, hself, hf]
      exact ⟨rfl, by decide⟩
    · rw [hother g heq]
      exact h.pins g
  case counter => exact h.counter
  case held =>
    intro p hp
    exact (hlook _ _).2 ⟨pinsOn_eq_zero.1 hf p hp, h.held p hp⟩

theorem Kept.dropPage [DecidableEq C] (h : Kept s L) (hp : Placed s L) (hl : s.pageTable.lookup id = some f)
    (hdisk : s.disk.at id = L.content id) (blank : D) : Kept (dropPage blank id f s) L := by
  have hother : ∀ g, g ≠ f → (BufferPoolInstance.dropPage blank id f s).pages g = s.pages g :=
    fun g hg => update_of_ne hg ..
  have hlook := hp.lookup_dropPage hl blank
  constructor
  case unsaved => exact h.unsaved
  case content =>
    intro id' g hl'
    obtain ⟨hg, hl'⟩ := (hlook id' g).1 hl'
    rw [hother g hg]
    exact h.content id' g hl'
  case clean =>
    intro id' g hl' hd hc
    obtain ⟨hg, hl'⟩ := (hlook id' g).1 hl'
    rw [hother g hg] at hd
    exact h.clean id' g hl' hd hc
  case flushed =>
    intro id' g hl' hfd
    exact h.flushed id' g ((hlook id' g).1 hl').2 hfd
  case away =>
    intro id' ha hl'
    cases hl₀ : s.pageTable.lookup id' with
    | none => exact h.away id' ha hl₀
    | some g =>
      -- it is the page that was dropped
      have hg : g = f := by
        by_contra hg
        rw [(hlook id' g).2 ⟨hg, hl₀⟩] at hl'
        cases hl'
      have hid : id' = id := hp.eq_of_lookup (hg ▸ hl₀) hl
      rw [hid]
      exact hdisk

end Rmdb.BufferPool
