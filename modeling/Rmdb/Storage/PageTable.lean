/-
The page table of a buffer pool, whatever is called and whatever fails.

`Tidy` holds in every state. That every frame is free or in the table is not
always so: a frame that `delete_page` has freed keeps its `id_`, and `update_page`
erases the entry of that page when the frame is used again, even if the page is
in another frame by then; and `new_page` does not look whether its page is in a
frame. `Call.Fresh` is what has to hold for each call.
-/
import Rmdb.Lib.Run
import Rmdb.Storage.Transparency

namespace Rmdb.PageTable

open Function List Exec BufferPoolInstance
open BufferPool (mem_order listOrder)

variable {n : Nat} {D : Type}

inductive Call where
  | newPage (id : PageId)
  | fetchPage (id : PageId)
  | unpinPage (id : PageId) (isDirty : Bool)
  | flushPage (id : PageId)
  | deletePage (id : PageId)
  | flushAllPages (fd : Int)
  | deleteAllPages (fd : Int)

inductive Reply (n : Nat) where
  | page (frame : Option (Fin (n + 1)))
  | result (b : Bool)
  | done
  | raised (e : RMDBError)

def Call.exec (blank : D) (ord : PageTableOrder n) : Call → Exec RMDBError (BufferPoolInstance n D) (Reply n)
  | .newPage id => do return .page (← BufferPoolInstance.newPage blank id)
  | .fetchPage id => do return .page (← BufferPoolInstance.fetchPage id)
  | .unpinPage id isDirty => do return .result (← BufferPoolInstance.unpinPage id isDirty)
  | .flushPage id => do return .result (← BufferPoolInstance.flushPage id)
  | .deletePage id => do return .result (← BufferPoolInstance.deletePage blank id)
  | .flushAllPages fd => do
    BufferPoolInstance.flushAllPages ord fd
    return .done
  | .deleteAllPages fd => do
    BufferPoolInstance.deleteAllPages blank ord fd
    return .done

def step (blank : D) (ord : PageTableOrder n) (s : BufferPoolInstance n D) (call : Call) :
    Option (Reply n × BufferPoolInstance n D) :=
  match call.exec blank ord s with
  | (.ok reply, s') => some (reply, s')
  | (.error e, s') => some (.raised e, s')

/-! ## What a call can do -/

variable {s s' s'' : BufferPoolInstance n D} {id : PageId} {f : Fin (n + 1)}

/-- No frame changes hands: contents, the disk and the hand of the clock may have changed. -/
structure Still (s s' : BufferPoolInstance n D) : Prop where
  pages : ∀ g, (s'.pages g).id = (s.pages g).id ∧ (s'.pages g).pinCount = (s.pages g).pinCount
  dirty : ∀ g, (s'.pages g).isDirty = true → (s.pages g).isDirty = true
  table : s'.pageTable = s.pageTable
  free : s'.freeList = s.freeList
  counter : s'.replacer.pinCounter = s.replacer.pinCounter

/-- The frame `f`, free or not pinned before, has been given the page `id`. It
is pinned, unless the page could not be read. -/
structure Seat (s : BufferPoolInstance n D) (f : Fin (n + 1)) (id : PageId) (pinned : Bool)
    (s' : BufferPoolInstance n D) : Prop where
  taken : s.freeList = f :: s'.freeList ∨ (s.freeList = [] ∧ s'.freeList = [] ∧ s.replacer.pinCounter f = 0)
  page : (s'.pages f).id = id ∧ (s'.pages f).pinCount = (if pinned then 1 else 0) ∧ (s'.pages f).isDirty = false
  others : ∀ g, g ≠ f → s'.pages g = s.pages g
  table : s'.pageTable = (s.pageTable.erase (s.pages f).id).insert id f
  counter : s'.replacer.pinCounter = if pinned then
    update s.replacer.pinCounter f (wrapInt (s.replacer.pinCounter f + 1)) else s.replacer.pinCounter

/-- The frame `f` of the page `id` has been given to the free list. -/
structure Drop (s : BufferPoolInstance n D) (id : PageId) (f : Fin (n + 1)) (s' : BufferPoolInstance n D) : Prop where
  entry : s.pageTable.lookup id = some f
  page : (s'.pages f).pinCount ≤ 0 ∧ (s'.pages f).isDirty = false
  pins : (s.pages f).pinCount = 0 → (s'.pages f).pinCount = 0
  others : ∀ g, g ≠ f → s'.pages g = s.pages g
  table : s'.pageTable = s.pageTable.erase id
  free : s'.freeList = s.freeList ++ [f]
  counter : s'.replacer.pinCounter = s.replacer.pinCounter

theorem Still.refl (s : BufferPoolInstance n D) : Still s s :=
  ⟨fun _ => ⟨rfl, rfl⟩, fun _ h => h, rfl, rfl, rfl⟩

theorem Still.trans (h : Still s s') (h' : Still s' s'') : Still s s'' where
  pages g := ⟨(h'.pages g).1.trans (h.pages g).1, (h'.pages g).2.trans (h.pages g).2⟩
  dirty g hd := h.dirty g (h'.dirty g hd)
  table := h'.table.trans h.table
  free := h'.free.trans h.free
  counter := h'.counter.trans h.counter

variable {data : D} {E : RMDBError → BufferPoolInstance n D → Prop}

theorem wp_write {Q : Unit → BufferPoolInstance n D → Prop}
    (hQ : ∀ disk, Q () { s with disk }) (hE : ∀ e, E e s) : wp (writePage id data) Q E s := by
  unfold writePage
  split
  · exact hE _
  · exact hQ _

theorem still_disk (s : BufferPoolInstance n D) (disk : Disk D) : Still s { s with disk } :=
  ⟨fun _ => ⟨rfl, rfl⟩, fun _ h => h, rfl, rfl, rfl⟩

/-- A change of a frame that leaves its page and its pins, and does not make it dirty. -/
theorem still_onPage (s : BufferPoolInstance n D) (f : Fin (n + 1)) {u : Page D → Page D}
    (hu : ∀ page, (u page).id = page.id ∧ (u page).pinCount = page.pinCount ∧
      ((u page).isDirty = true → page.isDirty = true)) : Still s (onPage f u s) := by
  have hpage : ∀ g, (onPage f u s).pages g = u (s.pages g) ∨ (onPage f u s).pages g = s.pages g := by
    intro g
    by_cases hg : g = f
    · exact .inl (by rw [hg, pages_onPage_self])
    · exact .inr (pages_onPage_of_ne hg ..)
  refine ⟨fun g => ?_, fun g => ?_, rfl, rfl, rfl⟩
  · rcases hpage g with h | h
    · rw [h]
      exact ⟨(hu _).1, (hu _).2.1⟩
    · rw [h]
      exact ⟨rfl, rfl⟩
  · rcases hpage g with h | h
    · rw [h]
      exact (hu _).2.2
    · rw [h]
      exact fun hd => hd

theorem wp_flushFrame_still : wp (flushFrame f)
    (fun _ s' => Still s s' ∧ (s'.pages f).isDirty = false ∧ ∀ g, g ≠ f → s'.pages g = s.pages g)
    (fun _ s' => Still s s') s := by
  unfold flushFrame
  rw [wp_bind, wp_asks, wp_bind]
  refine wp_write (fun disk => ?_) fun e => Still.refl s
  rw [wp_modify, pages_onPage_self]
  refine ⟨(still_disk s disk).trans (still_onPage _ f fun page => ⟨rfl, rfl, nofun⟩), rfl, fun g hg => ?_⟩
  exact pages_onPage_of_ne hg ..

structure Took (s : BufferPoolInstance n D) (f : Fin (n + 1)) (s' : BufferPoolInstance n D) : Prop where
  pages : s'.pages = s.pages
  table : s'.pageTable = s.pageTable
  taken : s.freeList = f :: s'.freeList ∨ (s.freeList = [] ∧ s'.freeList = [] ∧ s.replacer.pinCounter f = 0)
  counter : s'.replacer.pinCounter = s.replacer.pinCounter

theorem wp_findVictimPage : wp findVictimPage (fun r s' =>
    match r with
    | none => Still s s'
    | some f => Took s f s') E s := by
  unfold wp
  cases hfree : s.freeList with
  | nil =>
    rw [findVictimPage_nil hfree]
    obtain ⟨hcounter, hzero⟩ := s.replacer.victim_spec
    cases hv : s.replacer.victim.1 with
    | none => exact ⟨fun _ => ⟨rfl, rfl⟩, fun _ h => h, rfl, rfl, hcounter⟩
    | some f => exact ⟨rfl, rfl, .inr ⟨hfree, hfree, hzero f hv⟩, hcounter⟩
  | cons f rest =>
    rw [findVictimPage_cons hfree]
    exact ⟨rfl, rfl, .inl hfree, rfl⟩

theorem wp_updatePage_seat (ht : Took s f s')
    (hclean : ∀ g ∈ s.freeList, (s.pages g).isDirty = false) (hE : ∀ e, Still s s' → E e s') :
    wp (updatePage f id) (fun _ s'' => Seat s f id false s'') E s' := by
  have hseat : ∀ (s₁ : BufferPoolInstance n D), s₁.pageTable = s'.pageTable → s₁.freeList = s'.freeList →
      s₁.replacer = s'.replacer → (∀ g, g ≠ f → s₁.pages g = s'.pages g) → (s₁.pages f).isDirty = false →
      Seat s f id false (onPage f (fun page => { page with id, pinCount := 0 })
        { s₁ with pageTable := (s₁.pageTable.erase (s'.pages f).id).insert id f }) := by
    intro s₁ htable hfree hrep hpages hdirty
    refine ⟨?_, ?_, fun g hg => ?_, ?_, ?_⟩
    · show s.freeList = f :: s₁.freeList ∨ _ ∧ s₁.freeList = [] ∧ _
      rw [hfree]
      exact ht.taken
    · rw [pages_onPage_self]
      exact ⟨rfl, rfl, hdirty⟩
    · rw [pages_onPage_of_ne hg]
      exact (hpages g hg).trans (congrFun ht.pages g)
    · show (s₁.pageTable.erase _).insert id f = _
      rw [htable, ht.table, ht.pages]
    · show s₁.replacer.pinCounter = _
      rw [hrep]
      exact ht.counter
  unfold updatePage
  simp only [wp_bind, wp_asks, wp_modify]
  refine wp_when (fun hd => ?_) fun hd => hseat s' rfl rfl rfl (fun _ _ => rfl) hd
  rw [wp_bind]
  refine wp_write (fun disk => ?_) fun e => hE e ?_
  · exact hseat _ rfl rfl rfl (fun g hg => pages_onPage_of_ne hg ..) (by rw [pages_onPage_self])
  · -- a frame of the free list is not dirty
    have hfree : s'.freeList = s.freeList := by
      rcases ht.taken with hcons | ⟨hnil, hnil', -⟩
      · have := hclean f (by simp [hcons])
        rw [ht.pages, this] at hd
        cases hd
      · rw [hnil, hnil']
    exact ⟨fun g => by rw [ht.pages]; exact ⟨rfl, rfl⟩, fun g h => by rwa [ht.pages] at h, ht.table, hfree, ht.counter⟩

/-- The pages of a file go to the free list, one after another. -/
inductive Drops (fd : Int) (s₀ : BufferPoolInstance n D) : BufferPoolInstance n D → Prop
  | nil : Drops fd s₀ s₀
  | snoc {s₁ s₂ : BufferPoolInstance n D} {id : PageId} {f : Fin (n + 1)} :
    Drops fd s₀ s₁ → id.fd = fd → Drop s₁ id f s₂ → Drops fd s₀ s₂

def Effect (s s' : BufferPoolInstance n D) : Call → Prop
  | .newPage id => Still s s' ∨ ∃ f, Seat s f id true s'
  | .fetchPage id =>
    (∃ f, s.pageTable.lookup id = some f ∧ s' = s.hit f) ∨
      s.pageTable.lookup id = none ∧ (Still s s' ∨ ∃ f pinned, Seat s f id pinned s')
  | .unpinPage id isDirty =>
    Still s s' ∨ ∃ f, s.pageTable.lookup id = some f ∧ (s.pages f).pinCount ≠ 0 ∧ s' = s.released f isDirty
  | .flushPage _ | .flushAllPages _ => Still s s'
  | .deletePage id => Still s s' ∨ ∃ f, (s.pages f).pinCount ≤ 0 ∧ Drop s id f s'
  | .deleteAllPages fd => Drops fd s s'

structure Tidy (s : BufferPoolInstance n D) : Prop where
  ids : ∀ id f, s.pageTable.lookup id = some f → (s.pages f).id = id
  free : ∀ f ∈ s.freeList, (s.pages f).isDirty = false ∧ (s.pages f).pinCount ≤ 0 ∧
    ∀ id, s.pageTable.lookup id ≠ some f
  nodup : s.freeList.Nodup

theorem Seat.pin (h : Seat s f id false s') :
    Seat s f id true (pinFirst f (onPage f (fun page => { page with data }) s')) := by
  obtain ⟨hid, _, hdirty⟩ := h.page
  refine ⟨h.taken, ?_, fun g hg => ?_, h.table, ?_⟩
  · simp [pinFirst, onPage, hid, hdirty]
  · simp [pinFirst, onPage, hg, h.others g hg]
  · show (s'.replacer.pin f).pinCounter = _
    rw [ClockReplacer.pinCounter_pin, h.counter]
    rfl

theorem wp_newPage_effect (blank : D) (hclean : ∀ g ∈ s.freeList, (s.pages g).isDirty = false) :
    wp (newPage blank id) (fun _ s' => Effect s s' (.newPage id)) (fun _ s' => Effect s s' (.newPage id)) s := by
  unfold newPage
  rw [wp_bind]
  refine wp_mono wp_findVictimPage (fun r s₁ hr => ?_) fun _ _ h => h
  cases r with
  | none => exact .inl hr
  | some f =>
    rw [wp_bind]
    refine wp_mono (wp_updatePage_seat hr hclean fun e hstill => .inl hstill) (fun _ s₂ hseat => ?_) fun _ _ h => h
    exact .inr ⟨f, hseat.pin⟩

theorem wp_fetchPage_effect (hclean : ∀ g ∈ s.freeList, (s.pages g).isDirty = false) :
    wp (fetchPage id) (fun _ s' => Effect s s' (.fetchPage id)) (fun _ s' => Effect s s' (.fetchPage id)) s := by
  cases hl : s.pageTable.lookup id with
  | some f =>
    rw [wp_fetchPage_hit hl]
    exact .inl ⟨f, hl, rfl⟩
  | none =>
    unfold fetchPage
    simp only [wp_bind, wp_asks, hl]
    refine wp_mono wp_findVictimPage (fun r s₁ hr => ?_) fun _ _ h => h
    cases r with
    | none => exact .inr ⟨hl, .inl hr⟩
    | some f =>
      rw [wp_bind]
      refine wp_mono (wp_updatePage_seat hr hclean fun e hstill => .inr ⟨hl, .inl hstill⟩) (fun _ s₂ hseat => ?_)
        fun _ _ h => h
      rw [wp_bind]
      unfold readPage
      split
      · exact .inr ⟨hl, .inr ⟨f, false, hseat⟩⟩
      · rw [wp_bind, wp_asks]
        cases s₂.disk id.fd (pageOffset id.pageNo).toNat with
        | none => exact .inr ⟨hl, .inr ⟨f, false, hseat⟩⟩
        | some data => exact .inr ⟨hl, .inr ⟨f, true, hseat.pin⟩⟩

theorem wp_unpinPage_effect (isDirty : Bool) : wp (unpinPage id isDirty)
    (fun _ s' => Effect s s' (.unpinPage id isDirty)) (fun _ s' => Effect s s' (.unpinPage id isDirty)) s := by
  by_cases hpin : ∃ f, s.pageTable.lookup id = some f ∧ (s.pages f).pinCount ≠ 0
  · obtain ⟨f, hl, hpin⟩ := hpin
    rw [wp_unpinPage_pinned hl hpin]
    exact .inr ⟨f, hl, hpin, rfl⟩
  · rw [wp_unpinPage_unpinned fun f hl => by_contra fun hne => hpin ⟨f, hl, hne⟩]
    exact .inl (Still.refl s)

theorem wp_flushPage_still : wp (flushPage id) (fun _ s' => Still s s') (fun _ s' => Still s s') s := by
  unfold flushPage
  rw [wp_bind, wp_asks]
  cases s.pageTable.lookup id with
  | none => exact Still.refl s
  | some f =>
    rw [wp_bind]
    exact wp_mono wp_flushFrame_still (fun _ s' h => h.1) fun _ _ h => h

theorem wp_flushAllPages_still (ord : PageTableOrder n) (fd : Int) :
    wp (flushAllPages ord fd) (fun _ s' => Still s s') (fun _ s' => Still s s') s := by
  unfold flushAllPages
  rw [wp_bind, wp_asks]
  refine wp_forM (I := fun _ s' => Still s s') (Still.refl s) fun pre e post s₁ _ hstill => ?_
  refine wp_when (fun _ => ?_) fun _ => hstill
  exact wp_mono wp_flushFrame_still (fun _ s' h => hstill.trans h.1) fun _ _ h => hstill.trans h

theorem wp_deletePage_effect (blank : D) (hids : ∀ id f, s.pageTable.lookup id = some f → (s.pages f).id = id) :
    wp (deletePage blank id) (fun _ s' => Effect s s' (.deletePage id))
      (fun _ s' => Effect s s' (.deletePage id)) s := by
  unfold deletePage
  rw [wp_bind, wp_asks]
  cases hl : s.pageTable.lookup id with
  | none => exact .inl (Still.refl s)
  | some f =>
    simp only [wp_bind, wp_asks]
    split
    · exact .inl (Still.refl s)
    · next hpin =>
      have hdrop : ∀ s₁, Still s s₁ → (s₁.pages f).isDirty = false → (∀ g, g ≠ f → s₁.pages g = s.pages g) →
          Drop s id f (onPage f (fun page => { page with data := blank }) { s₁ with
            freeList := s₁.freeList ++ [f], pageTable := s₁.pageTable.erase (s.pages f).id }) := by
        intro s₁ hstill hdirty hothers
        have hcount : (s₁.pages f).pinCount = (s.pages f).pinCount := (hstill.pages f).2
        refine ⟨hl, ?_, ?_, fun g hg => ?_, ?_, ?_, hstill.counter⟩
        · rw [pages_onPage_self]
          exact ⟨by rw [hcount]; omega, hdirty⟩
        · rw [pages_onPage_self]
          exact fun h => hcount.trans h
        · rw [pages_onPage_of_ne hg]
          exact hothers g hg
        · show s₁.pageTable.erase _ = _
          rw [hstill.table, hids id f hl]
        · show s₁.freeList ++ [f] = _
          rw [hstill.free]
      simp only [wp_bind, wp_modify]
      refine wp_when (fun _ => ?_) fun hclean => ?_
      · refine wp_mono wp_flushFrame_still (fun _ s₁ h => ?_) fun _ s₁ h => .inl h
        exact .inr ⟨f, by omega, hdrop s₁ h.1 h.2.1 h.2.2⟩
      · exact .inr ⟨f, by omega, hdrop s (Still.refl s) hclean fun _ _ => rfl⟩

/-! ## What holds in every state -/

theorem Drop.lookup_iff (h : Drop s id f s') (hids : ∀ id f, s.pageTable.lookup id = some f → (s.pages f).id = id)
    (id' : PageId) (g : Fin (n + 1)) :
    s'.pageTable.lookup id' = some g ↔ g ≠ f ∧ s.pageTable.lookup id' = some g := by
  rw [h.table]
  by_cases hid : id' = id
  · rw [hid, AList.lookup_erase, h.entry]
    simp [eq_comm]
  · rw [AList.lookup_erase_ne hid]
    refine ⟨fun hl => ⟨fun hg => hid ?_, hl⟩, fun hl => hl.2⟩
    rw [← hids id' g hl, hg, hids id f h.entry]

/-- The table when the frame has been given the page: what was in it is no longer there. -/
theorem Seat.lookup_eq {pinned : Bool} (h : Seat s f id pinned s') (id' : PageId) :
    s'.pageTable.lookup id' =
      if id' = id then some f else if id' = (s.pages f).id then none else s.pageTable.lookup id' := by
  rw [h.table]
  split
  · next hid => rw [hid, AList.lookup_insert]
  · next hid =>
    rw [AList.lookup_insert_ne hid]
    split
    · next hold => rw [hold, AList.lookup_erase]
    · next hold => rw [AList.lookup_erase_ne hold]

namespace Tidy

theorem still (h : Tidy s) (hs : Still s s') : Tidy s' where
  ids id f hl := by
    rw [hs.table] at hl
    rw [(hs.pages f).1]
    exact h.ids id f hl
  free f hf := by
    rw [hs.free] at hf
    obtain ⟨hdirty, hpin, hnone⟩ := h.free f hf
    rw [hs.table, (hs.pages f).2]
    refine ⟨?_, hpin, hnone⟩
    by_contra hd
    rw [hs.dirty f (by simpa using hd)] at hdirty
    cases hdirty
  nodup := hs.free ▸ h.nodup

theorem seat (h : Tidy s) {pinned : Bool} (hs : Seat s f id pinned s') : Tidy s' := by
  have hrest : ∀ g ∈ s'.freeList, g ∈ s.freeList ∧ g ≠ f := by
    intro g hg
    rcases hs.taken with hcons | ⟨-, hnil, -⟩
    · have hnodup := h.nodup
      rw [hcons] at hnodup ⊢
      exact ⟨mem_cons_of_mem _ hg, fun heq => (nodup_cons.1 hnodup).1 (heq ▸ hg)⟩
    · rw [hnil] at hg
      cases hg
  refine ⟨fun id' g hl => ?_, fun g hg => ?_, ?_⟩
  · rw [hs.lookup_eq] at hl
    split at hl
    · next hid =>
      cases hl
      rw [hs.page.1, hid]
    · split at hl
      · cases hl
      · next hold =>
        have hid := h.ids id' g hl
        have hg : g ≠ f := fun heq => hold (heq ▸ hid.symm)
        rw [hs.others g hg]
        exact hid
  · obtain ⟨hmem, hne⟩ := hrest g hg
    obtain ⟨hdirty, hpin, hnone⟩ := h.free g hmem
    rw [hs.others g hne]
    refine ⟨hdirty, hpin, fun id' hl => ?_⟩
    rw [hs.lookup_eq] at hl
    split at hl
    · exact hne (Option.some.inj hl).symm
    · split at hl
      · cases hl
      · exact hnone id' hl
  · rcases hs.taken with hcons | ⟨-, hnil, -⟩
    · have hnodup := h.nodup
      rw [hcons] at hnodup
      exact (nodup_cons.1 hnodup).2
    · rw [hnil]
      exact nodup_nil

theorem not_free (h : Tidy s) (hl : s.pageTable.lookup id = some f) : f ∉ s.freeList :=
  fun hf => (h.free f hf).2.2 id hl

theorem drop (h : Tidy s) (hs : Drop s id f s') : Tidy s' := by
  have hlook := hs.lookup_iff h.ids
  refine ⟨fun id' g hl => ?_, fun g hg => ?_, ?_⟩
  · obtain ⟨hg, hl⟩ := (hlook id' g).1 hl
    rw [hs.others g hg]
    exact h.ids id' g hl
  · by_cases hgf : g = f
    · rw [hgf]
      exact ⟨hs.page.2, hs.page.1, fun id' hl => ((hlook id' f).1 hl).1 rfl⟩
    · rw [hs.free, mem_append, mem_singleton] at hg
      obtain ⟨hdirty, hpin, hnone⟩ := h.free g (hg.resolve_right hgf)
      rw [hs.others g hgf]
      exact ⟨hdirty, hpin, fun id' hl => hnone id' ((hlook id' g).1 hl).2⟩
  · rw [hs.free, nodup_append]
    refine ⟨h.nodup, nodup_singleton f, fun g hg g' hg' heq => ?_⟩
    rw [mem_singleton.1 hg'] at heq
    exact h.not_free hs.entry (heq ▸ hg)

theorem onFrame (h : Tidy s) (hl : s.pageTable.lookup id = some f) (hid : (s'.pages f).id = (s.pages f).id)
    (hothers : ∀ g, g ≠ f → s'.pages g = s.pages g) (htable : s'.pageTable = s.pageTable)
    (hfree : s'.freeList = s.freeList) : Tidy s' where
  ids id' g hl' := by
    rw [htable] at hl'
    by_cases hg : g = f
    · rw [hg, hid, ← hg]
      exact h.ids id' g hl'
    · rw [hothers g hg]
      exact h.ids id' g hl'
  free g hg := by
    rw [hfree] at hg
    rw [htable, hothers g fun heq => h.not_free hl (heq ▸ hg)]
    exact h.free g hg
  nodup := hfree ▸ h.nodup

theorem hit (h : Tidy s) (hl : s.pageTable.lookup id = some f) : Tidy (s.hit f) :=
  h.onFrame hl (by simp [BufferPoolInstance.hit]) (fun g hg => update_of_ne hg ..) rfl rfl

theorem released (h : Tidy s) (hl : s.pageTable.lookup id = some f) (isDirty : Bool) : Tidy (s.released f isDirty) :=
  h.onFrame hl (by simp [BufferPoolInstance.released]) (fun g hg => update_of_ne hg ..) rfl rfl

theorem drops (h : Tidy s) {fd : Int} (hs : Drops fd s s') : Tidy s' := by
  induction hs with
  | nil => exact h
  | snoc _ _ hdrop ih => exact ih.drop hdrop

theorem effect (h : Tidy s) {call : Call} (he : Effect s s' call) : Tidy s' := by
  cases call with
  | newPage id =>
    rcases he with hs | ⟨f, hs⟩
    · exact h.still hs
    · exact h.seat hs
  | fetchPage id =>
    rcases he with ⟨f, hl, rfl⟩ | ⟨_, hs | ⟨f, pinned, hs⟩⟩
    · exact h.hit hl
    · exact h.still hs
    · exact h.seat hs
  | unpinPage id isDirty =>
    rcases he with hs | ⟨f, hl, _, rfl⟩
    · exact h.still hs
    · exact h.released hl isDirty
  | flushPage id => exact h.still he
  | flushAllPages fd => exact h.still he
  | deletePage id =>
    rcases he with hs | ⟨f, _, hs⟩
    · exact h.still hs
    · exact h.drop hs
  | deleteAllPages fd => exact h.drops he

theorem make (blank : D) (disk : Disk D) (unset : Fin (n + 1) → Int) : Tidy (make blank disk unset) where
  ids _ _ hl := by cases hl
  free _ _ := ⟨rfl, le_rfl, nofun⟩
  nodup := nodup_finRange _

end Tidy

theorem drop_dropPage (blank : D) (hl : s.pageTable.lookup id = some f) : Drop s id f (dropPage blank id f s) := by
  refine ⟨hl, ?_, ?_, fun g hg => update_of_ne hg .., rfl, rfl, rfl⟩
  · simp [dropPage, onPage]
  · simp [dropPage, onPage]

theorem wp_deleteAllPages_effect (h : Tidy s) (blank : D) (ord : PageTableOrder n) (fd : Int)
    {E : RMDBError → BufferPoolInstance n D → Prop} :
    wp (deleteAllPages blank ord fd) (fun _ s' => Drops fd s s') E s := by
  unfold deleteAllPages
  rw [wp_bind, wp_asks]
  have hnodup : (ord.order s.pageTable.entries).Nodup :=
    (ord.perm _).nodup_iff.2 (s.pageTable.nodupKeys.nodup)
  -- the pages not yet gone through are where they were
  refine wp_mono (wp_forM (I := fun pre s' => Drops fd s s' ∧ ∀ e ∈ ord.order s.pageTable.entries, e ∉ pre →
    s'.pageTable.lookup e.1 = some e.2) ⟨.nil, fun e he _ => (mem_order ord e).1 he⟩ ?_) (fun _ s' hs' => hs'.1)
    fun _ _ h => h
  intro pre e post s₁ hcut ⟨hdrops, hrest⟩
  have he : e ∈ ord.order s.pageTable.entries := by simp [hcut]
  have hl : s₁.pageTable.lookup e.1 = some e.2 := by
    refine hrest e he fun hmem => ?_
    rw [hcut] at hnodup
    exact (nodup_append.1 hnodup).2.2 e hmem e mem_cons_self rfl
  refine wp_when (fun hfd => ?_) fun _ => ⟨hdrops, fun e' he' hpre => hrest e' he' fun hmem => hpre ?_⟩
  · have hdrop := drop_dropPage blank hl
    refine ⟨hdrops.snoc (by simpa using hfd) hdrop, fun e' he' hpre => ?_⟩
    simp only [mem_append, mem_singleton, not_or] at hpre
    have hl' := hrest e' he' hpre.1
    have htidy := h.drops hdrops
    refine (hdrop.lookup_iff htidy.ids e'.1 e'.2).2 ⟨fun heq => hpre.2 ?_, hl'⟩
    refine Sigma.ext ?_ (heq_of_eq heq)
    rw [← htidy.ids e'.1 e'.2 hl', heq, htidy.ids e.1 e.2 hl]
  · exact mem_append_left _ hmem

/-- What one call does, in a state with `Tidy`. -/
theorem effect_of_step (h : Tidy s) {blank : D} {ord : PageTableOrder n} {call : Call} {reply : Reply n}
    (hstep : step blank ord s call = some (reply, s')) : Effect s s' call := by
  have hclean : ∀ g ∈ s.freeList, (s.pages g).isDirty = false := fun g hg => (h.free g hg).1
  have hwp : wp (call.exec blank ord) (fun _ s' => Effect s s' call) (fun _ s' => Effect s s' call) s := by
    cases call <;> unfold Call.exec <;> rw [wp_bind]
    case newPage id => exact wp_newPage_effect blank hclean
    case fetchPage id => exact wp_fetchPage_effect hclean
    case unpinPage id isDirty => exact wp_unpinPage_effect isDirty
    case flushPage id => exact wp_flushPage_still
    case deletePage id => exact wp_deletePage_effect blank h.ids
    case flushAllPages fd => exact wp_flushAllPages_still ord fd
    case deleteAllPages fd => exact wp_deleteAllPages_effect h blank ord fd
  unfold wp at hwp
  unfold step at hstep
  split at hwp
  · next hexec =>
    rw [hexec] at hstep
    cases hstep
    exact hwp
  · next hexec =>
    rw [hexec] at hstep
    cases hstep
    exact hwp

/-! ## Free frames and frames in the table -/

/-- The table is exact: it has each frame that is not free, under the page that the frame holds. -/
structure Exact (s : BufferPoolInstance n D) : Prop where
  ids : ∀ id f, s.pageTable.lookup id = some f → (s.pages f).id = id
  distinct : ∀ id id' f, s.pageTable.lookup id = some f → s.pageTable.lookup id' = some f → id = id'
  free : ∀ f, f ∈ s.freeList ↔ ∀ id, s.pageTable.lookup id ≠ some f
  pinned : ∀ f, 0 < (s.pages f).pinCount → ∃ id, s.pageTable.lookup id = some f

def Covers (s : BufferPoolInstance n D) : Prop := ∀ f, f ∈ s.freeList ∨ ∃ id, s.pageTable.lookup id = some f

/-- The frame that is next to be used does not have the `id_` of a page that is in the table. -/
def Recycles (s : BufferPoolInstance n D) : Prop :=
  ∀ f ∈ s.freeList.head?, s.pageTable.lookup (s.pages f).id = none

/-- A page that is created is in no frame, and the entry that `update_page` erases is that of the frame it takes. -/
def Call.Fresh (s : BufferPoolInstance n D) : Call → Prop
  | .newPage id => s.pageTable.lookup id = none ∧ Recycles s
  | .fetchPage id => s.pageTable.lookup id = none → Recycles s
  | .unpinPage .. | .flushPage _ | .deletePage _ | .flushAllPages _ | .deleteAllPages _ => True

theorem Tidy.exact (h : Tidy s) (hcovers : Covers s) : Exact s where
  ids := h.ids
  distinct id id' f hl hl' := by rw [← h.ids id f hl, ← h.ids id' f hl']
  free f := by
    refine ⟨fun hf => (h.free f hf).2.2, fun hnone => ?_⟩
    rcases hcovers f with hf | ⟨id, hl⟩
    · exact hf
    · exact absurd hl (hnone id)
  pinned f hpin := by
    rcases hcovers f with hf | hl
    · have := (h.free f hf).2.1
      omega
    · exact hl

namespace Covers

theorem still (h : Covers s) (hs : Still s s') : Covers s' := by
  intro f
  rw [hs.free, hs.table]
  exact h f

theorem seat (h : Covers s) (htidy : Tidy s) {pinned : Bool} (hnone : s.pageTable.lookup id = none)
    (hrecycles : Recycles s) (hs : Seat s f id pinned s') : Covers s' := by
  -- the page that was in the frame is in no other one
  have hold : ∀ g, s.pageTable.lookup (s.pages f).id = some g → g = f := by
    intro g hl
    rcases hs.taken with hcons | ⟨hnil, -, -⟩
    · rw [hrecycles f (by simp [hcons])] at hl
      cases hl
    · rcases h f with hf | ⟨id', hl'⟩
      · rw [hnil] at hf
        cases hf
      · rw [htidy.ids id' f hl', hl'] at hl
        exact (Option.some.inj hl).symm
  intro g
  by_cases hg : g = f
  · exact .inr ⟨id, by rw [hs.lookup_eq, if_pos rfl, hg]⟩
  rcases h g with hfree | ⟨id', hl⟩
  · refine .inl ?_
    rcases hs.taken with hcons | ⟨hnil, -, -⟩
    · rw [hcons, mem_cons] at hfree
      exact hfree.resolve_left hg
    · rw [hnil] at hfree
      cases hfree
  · refine .inr ⟨id', ?_⟩
    rw [hs.lookup_eq, if_neg, if_neg, hl]
    · intro heq
      exact hg (hold g (heq ▸ hl))
    · intro heq
      rw [heq, hnone] at hl
      cases hl

theorem drop (h : Covers s) (htidy : Tidy s) (hs : Drop s id f s') : Covers s' := by
  intro g
  rw [hs.free, mem_append, mem_singleton]
  by_cases hg : g = f
  · exact .inl (.inr hg)
  rcases h g with hfree | ⟨id', hl⟩
  · exact .inl (.inl hfree)
  · exact .inr ⟨id', (hs.lookup_iff htidy.ids id' g).2 ⟨hg, hl⟩⟩

theorem drops (h : Covers s) (htidy : Tidy s) {fd : Int} (hs : Drops fd s s') : Covers s' := by
  induction hs with
  | nil => exact h
  | snoc hdrops _ hdrop ih => exact ih.drop (htidy.drops hdrops) hdrop

theorem effect (h : Covers s) (htidy : Tidy s) {call : Call} (hfresh : call.Fresh s) (he : Effect s s' call) :
    Covers s' := by
  cases call with
  | newPage id =>
    rcases he with hs | ⟨f, hs⟩
    · exact h.still hs
    · exact h.seat htidy hfresh.1 hfresh.2 hs
  | fetchPage id =>
    rcases he with ⟨f, hl, rfl⟩ | ⟨hnone, hs | ⟨f, pinned, hs⟩⟩
    · exact h
    · exact h.still hs
    · exact h.seat htidy hnone (hfresh hnone) hs
  | unpinPage id isDirty =>
    rcases he with hs | ⟨f, _, _, rfl⟩
    · exact h.still hs
    · exact h
  | flushPage id => exact h.still he
  | flushAllPages fd => exact h.still he
  | deletePage id =>
    rcases he with hs | ⟨f, _, hs⟩
    · exact h.still hs
    · exact h.drop htidy hs
  | deleteAllPages fd => exact h.drops htidy he

end Covers

theorem step_isSome (blank : D) (ord : PageTableOrder n) (s : BufferPoolInstance n D) (call : Call) :
    ∃ reply s', step blank ord s call = some (reply, s') := by
  unfold step
  split
  · exact ⟨_, _, rfl⟩
  · exact ⟨_, _, rfl⟩

/-- In every run of calls that are fresh, the page table is exact in the end. -/
theorem run_tableExact (blank : D) (disk : Disk D) (unset : Fin (n + 1) → Int) (ord : PageTableOrder n)
    (calls : List Call)
    (hfresh : Run.Along (step blank ord) (fun s call => call.Fresh s) (make blank disk unset) calls) :
    ∃ trace s, Run.run (step blank ord) (make blank disk unset) calls = some (trace, s) ∧ Exact s := by
  have hinit : Tidy (make blank disk unset) ∧ Covers (make blank disk unset) :=
    ⟨Tidy.make blank disk unset, fun f => .inl (mem_finRange f)⟩
  obtain ⟨trace, s, hrun, ⟨htidy, hcovers⟩, _⟩ := Run.run_total (R := fun _ s => Tidy s ∧ Covers s) hinit
    (fun _ s call ⟨htidy, hcovers⟩ hcall => by
      obtain ⟨reply, s', hstep⟩ := step_isSome blank ord s call
      have heffect := effect_of_step htidy hstep
      exact ⟨reply, s', hstep, htidy.effect heffect, hcovers.effect htidy hcall heffect⟩) calls hfresh
  exact ⟨trace, s, hrun, htidy.exact hcovers⟩

instance (s : BufferPoolInstance n D) : Decidable (Recycles s) :=
  inferInstanceAs (Decidable (∀ f ∈ s.freeList.head?, s.pageTable.lookup (s.pages f).id = none))

instance (s : BufferPoolInstance n D) : (call : Call) → Decidable (call.Fresh s)
  | .newPage id => inferInstanceAs (Decidable (s.pageTable.lookup id = none ∧ Recycles s))
  | .fetchPage id => inferInstanceAs (Decidable (s.pageTable.lookup id = none → Recycles s))
  | .unpinPage .. | .flushPage _ | .deletePage _ | .flushAllPages _ | .deleteAllPages _ => .isTrue trivial

/-- A pinned frame whose page is not in the table. -/
theorem not_exact_of_lost (hpin : 0 < (s.pages f).pinCount) (hnone : s.pageTable.lookup (s.pages f).id = none) :
    ¬ Exact s := by
  intro h
  obtain ⟨id, hl⟩ := h.pinned f hpin
  rw [h.ids id f hl, hl] at hnone
  cases hnone

def twoFrames : BufferPoolInstance 1 Nat := make 0 (fun _ _ => none) fun _ => 0

def sameFrame : List Call :=
  [.newPage ⟨3, 0⟩, .newPage ⟨3, 1⟩, .unpinPage ⟨3, 0⟩ true, .deletePage ⟨3, 0⟩, .fetchPage ⟨3, 0⟩]

theorem run_tableExact_sameFrame : ∃ trace s, Run.run (step 0 listOrder) twoFrames sameFrame = some (trace, s) ∧ Exact s :=
  run_tableExact 0 _ _ listOrder sameFrame (by decide +kernel)

/-- A page is created and deleted, and comes into the other frame. When its first
frame is used again, its entry is erased. -/
def otherFrame : List Call :=
  [.newPage ⟨3, 0⟩, .unpinPage ⟨3, 0⟩ true, .deletePage ⟨3, 0⟩, .fetchPage ⟨3, 0⟩, .newPage ⟨3, 1⟩]

theorem otherFrame_not_exact : ∃ trace s, Run.run (step 0 listOrder) twoFrames otherFrame = some (trace, s) ∧
    (s.pages 1).id = ⟨3, 0⟩ ∧ (s.pages 1).pinCount = 1 ∧ s.pageTable.lookup ⟨3, 0⟩ = none ∧ ¬ Exact s := by
  exact ⟨_, _, rfl, rfl, rfl, by decide +kernel, not_exact_of_lost (f := 1) (by decide +kernel) (by decide +kernel)⟩

end Rmdb.PageTable
