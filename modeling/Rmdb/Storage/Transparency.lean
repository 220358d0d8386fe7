/-
A buffer pool is transparent: what a client fetches is the last content of the
page.
-/
import Rmdb.Lib.Run
import Rmdb.Storage.PoolCalls

namespace Rmdb.BufferPool

open List Exec BufferPoolInstance

variable {C D : Type} [DecidableEq C] {n : Nat}

structure Inv (s : BufferPoolInstance n D) (L : Ledger C n D) : Prop where
  placed : Placed s L
  kept : Kept s L

/-- What the pool does not check. The offset of the page is an `int`, a new
page is not in the table, and the pins on a page can be counted. -/
def Call.Safe (s : BufferPoolInstance n D) : Call n D → Prop
  | .newPage id => id.Addressable ∧ s.pageTable.lookup id = none
  | .fetchPage id => id.Addressable ∧ ∀ f ∈ s.pageTable.lookup id, (s.pages f).pinCount < 2 ^ 31 - 1
  | _ => True

variable {s : BufferPoolInstance n D} {L : Ledger C n D} {id : PageId} {c : C} {blank : D}

theorem Inv.congr {r : ClockReplacer n} (h : Inv s L) (hr : r.pinCounter = s.replacer.pinCounter) :
    Inv { s with replacer := r } L :=
  ⟨h.placed.of_same rfl rfl (fun _ => rfl) (fun _ _ => rfl) h.placed.pins
    (fun g => (congrFun hr g).trans (h.placed.counter g)) h.placed.held,
   h.kept.of_same rfl (fun _ => rfl) rfl rfl rfl h.kept.unsaved fun _ _ _ hd hc => ⟨hd, hc⟩⟩

theorem wp_findVictimPage {Q : Option (Fin (n + 1)) → BufferPoolInstance n D → Prop}
    {E : RMDBError → BufferPoolInstance n D → Prop} (h : Inv s L)
    (hnone : ∀ s', Inv s' L → (∀ f, 0 < L.pinsOn f) → Q none s')
    (hsome : ∀ f s', Vacant s L f s' → Q (some f) s') : wp findVictimPage Q E s := by
  unfold wp
  cases hfree : s.freeList with
  | nil =>
    rw [findVictimPage_nil hfree]
    obtain ⟨hcounter, hvictim⟩ := s.replacer.victim_spec
    cases hv : s.replacer.victim.1 with
    | none =>
      refine hnone _ (h.congr hcounter) fun f => Nat.pos_of_ne_zero fun hf => ?_
      exact ClockReplacer.victim_isSome ((h.placed.counter f).trans (if_pos hf)) hv
    | some f =>
      have hf : L.pinsOn f = 0 := by
        have h0 := h.placed.counter f
        rw [hvictim f hv] at h0
        by_contra hpos
        rw [if_neg hpos] at h0
        omega
      exact hsome f _ ⟨rfl, rfl, rfl, hcounter, hf, by simp [hfree], fun _ _ => Iff.rfl, h.placed.nodup⟩
  | cons f rest =>
    rw [findVictimPage_cons hfree]
    have hnodup := h.placed.nodup
    rw [hfree, nodup_cons] at hnodup
    refine hsome f _ ⟨rfl, rfl, rfl, rfl, h.placed.pinsOn_of_free (by simp [hfree]), hnodup.1, fun g hg => ?_, hnodup.2⟩
    simp [hfree, hg]

theorem wp_newPage (h : Inv s L) (hid : id.Addressable) (hnone : s.pageTable.lookup id = none) :
    wp (newPage blank id) (fun r s' => Inv s' (L.record blank c (.newPage id) (.page r))) (fun _ _ => False) s := by
  unfold newPage
  rw [wp_bind]
  refine wp_findVictimPage h (fun s' hs' _ => hs') fun f s' hv => ?_
  simp only [wp_bind, wp_modify, wp_pure, wp_updatePage (hv.addressable_of_dirty h.placed), pinFirst_relabelled]
  refine ⟨(hv.placed h.placed hid hnone blank).of_pins rfl, hv.kept h.kept h.placed hnone rfl ?_ (fun id' hne => ?_)
    (fun c' id' hc => ?_) (fun c' id' hc => mem_cons_of_mem _ hc) (fun fd hfd => ?_) fun hclean => ?_⟩
  · exact Function.update_self ..
  · exact Function.update_of_ne hne ..
  · exact (mem_cons.1 hc).symm
  · exact (mem_filter.1 hfd).1
  · -- the client has yet to report the new page, and the file is no longer flushed
    obtain hc | hfd := hclean
    · exact absurd mem_cons_self (hc c)
    · simpa using (mem_filter.1 hfd).2

theorem wp_fetchPage (h : Inv s L) (hid : id.Addressable) (hexists : L.content id ≠ none)
    (hfew : ∀ f ∈ s.pageTable.lookup id, (s.pages f).pinCount < 2 ^ 31 - 1) :
    wp (fetchPage id) (fun r s' => Inv s' (L.record blank c (.fetchPage id) (.page r)) ∧
      (∀ f, r = some f → (s'.pages f).id = id ∧ L.content id = some (s'.pages f).data) ∧
      (r = none → ∀ f, 0 < L.pinsOn f)) (fun _ _ => False) s := by
  cases hl : s.pageTable.lookup id with
  | none =>
    obtain ⟨data, hdata⟩ := Option.ne_none_iff_exists'.1 hexists
    have hdisk : s.disk.at id = some data := (h.kept.away id hid hl).trans hdata
    unfold fetchPage
    simp only [wp_bind, wp_asks, hl]
    refine wp_findVictimPage h (fun s' hs' hpinned => ⟨hs', by simp, fun _ => hpinned⟩) fun f s' hv => ?_
    have hread : (s'.relabelled f id).disk.at id = some data := by
      change (s'.evicted f).at id = some data
      rw [hv.evicted_eq, evicted_at_other h.placed (by simp [hl]), hdisk]
    simp only [wp_bind, wp_modify, wp_pure, wp_updatePage (hv.addressable_of_dirty h.placed), wp_readPage hid hread,
      pinFirst_relabelled]
    refine ⟨⟨hv.placed h.placed hid hl data, hv.kept h.kept h.placed hl rfl hdata (fun _ _ => rfl) (fun _ _ => .inl)
      (fun _ _ hc => hc) (fun _ hfd => hfd) fun _ => hdisk⟩, fun g hg => ?_, by simp⟩
    cases hg
    rw [pages_seated_self]
    exact ⟨rfl, hdata⟩
  | some f =>
    rw [wp_fetchPage_hit hl]
    have hplaced : Placed (s.hit f) (L.pinned c id f) := h.placed.hit hl (hfew f hl)
    have hkept : Kept (s.hit f) (L.pinned c id f) := h.kept.hit
    refine ⟨⟨hplaced, hkept⟩, fun g hg => ?_, by simp⟩
    cases hg
    exact ⟨(hplaced.ids id f hl).1, hkept.content id f hl⟩

theorem wp_unpinPage {isDirty : Bool} (h : Inv s L) (hallowed : L.Allowed c (.unpinPage id isDirty)) :
    wp (unpinPage id isDirty) (fun r s' => Inv s' (L.record blank c (.unpinPage id isDirty) (.result r)))
      (fun _ _ => False) s := by
  obtain ⟨hheld, hreport⟩ | hnone := hallowed
  · obtain ⟨p, hp, -, hpage, -⟩ := exists_unpinned hheld
    have hl := h.placed.held p hp
    rw [hpage] at hl
    have hpin : (s.pages p.frame).pinCount ≠ 0 := by
      rw [(h.placed.pins p.frame).1]
      intro h0
      exact (h.placed.pinsOn_eq_zero_iff hl).1 (by omega) p hp hpage
    rw [wp_unpinPage_pinned hl hpin]
    exact ⟨h.placed.released hl hheld isDirty, h.kept.released hl hheld hreport⟩
  · rw [wp_unpinPage_unpinned]
    · exact h
    · intro f hl
      rw [(h.placed.pins f).1, (h.placed.pinsOn_eq_zero_iff hl).2 hnone]
      rfl

theorem Inv.written (h : Inv s L) {f : Fin (n + 1)} (hl : s.pageTable.lookup id = some f) : Inv (s.written f) L := by
  refine ⟨?_, h.kept.written h.placed hl⟩
  unfold BufferPoolInstance.written
  refine h.placed.onPage hl (fun page => ?_) (fun page => ?_) _ <;> rfl

theorem wp_flushPage (h : Inv s L) : wp (flushPage id) (fun _ s' => Inv s' L) (fun _ _ => False) s := by
  unfold flushPage
  rw [wp_bind, wp_asks]
  cases hl : s.pageTable.lookup id with
  | none => exact h
  | some f =>
    obtain ⟨hid, ha⟩ := h.placed.ids id f hl
    simp only [wp_bind, wp_flushFrame (hid.symm ▸ ha), wp_pure]
    exact h.written hl

omit [DecidableEq C] in
theorem mem_order (ord : PageTableOrder n) (e : Sigma fun _ : PageId => Fin (n + 1)) :
    e ∈ ord.order s.pageTable.entries ↔ s.pageTable.lookup e.1 = some e.2 := by
  rw [(ord.perm _).mem_iff]
  exact AList.mem_lookup_iff.symm

theorem wp_flushAllPages (h : Inv s L) (ord : PageTableOrder n) (fd : Int) :
    wp (flushAllPages ord fd) (fun _ s' => Inv s' { L with flushed := fd :: L.flushed }) (fun _ _ => False) s := by
  unfold flushAllPages
  rw [wp_bind, wp_asks]
  -- the pages gone through are on disk, and no page has moved
  refine wp_mono (wp_forM (I := fun pre s' => Inv s' L ∧ s'.pageTable = s.pageTable ∧
    ∀ e ∈ pre, e.1.fd = fd → s'.disk.at e.1 = L.content e.1) ⟨h, rfl, nofun⟩ ?_) (fun _ s' hs' => ?_) fun _ _ h => h
  · intro pre e post s' hcut ⟨hinv, htable, hdone⟩
    have hl : s'.pageTable.lookup e.1 = some e.2 := by
      rw [htable, ← mem_order ord, hcut]
      simp
    refine wp_when (fun _ => ?_) (fun hfd => ⟨hinv, htable, fun e' he' hfd' => ?_⟩)
    · obtain ⟨hid, ha⟩ := hinv.placed.ids _ _ hl
      rw [wp_flushFrame (hid.symm ▸ ha)]
      refine ⟨hinv.written hl, htable, fun e' he' hfd' => ?_⟩
      by_cases heq : e'.1 = e.1
      · rw [heq]
        exact hinv.kept.disk_written hinv.placed hl
      · rw [hinv.placed.disk_written hl heq]
        obtain he' | he' := mem_append.1 he'
        · exact hdone e' he' hfd'
        · exact absurd (congrArg Sigma.fst (mem_singleton.1 he')) heq
    · obtain he' | he' := mem_append.1 he'
      · exact hdone e' he' hfd'
      · rw [mem_singleton.1 he'] at hfd'
        simp [hfd'] at hfd
  · obtain ⟨hinv, htable, hdone⟩ := hs'
    refine ⟨hinv.placed.of_pins rfl, hinv.kept.unsaved, hinv.kept.content, hinv.kept.clean, fun id f hl hfd => ?_,
      hinv.kept.away⟩
    obtain hfd | hfd := mem_cons.1 hfd
    · exact hdone ⟨id, f⟩ ((mem_order ord _).2 (htable ▸ hl)) hfd
    · exact hinv.kept.flushed id f hl hfd

theorem wp_deleteAllPages (h : Inv s L) (ord : PageTableOrder n) {fd : Int} (hflushed : fd ∈ L.flushed)
    (hpins : ∀ p ∈ L.pins, p.page.fd ≠ fd) :
    wp (deleteAllPages blank ord fd) (fun _ s' => Inv s' L) (fun _ _ => False) s := by
  unfold deleteAllPages
  rw [wp_bind, wp_asks]
  have hnodup : (ord.order s.pageTable.entries).Nodup :=
    (ord.perm _).nodup_iff.2 (s.pageTable.nodupKeys.nodup)
  -- the pages not yet gone through are where they were
  refine wp_mono (wp_forM (I := fun pre s' => Inv s' L ∧ ∀ e ∈ ord.order s.pageTable.entries, e ∉ pre →
    s'.pageTable.lookup e.1 = some e.2) ⟨h, fun e he _ => (mem_order ord e).1 he⟩ ?_) (fun _ s' hs' => hs'.1)
    fun _ _ h => h
  intro pre e post s' hcut ⟨hinv, hrest⟩
  have he : e ∈ ord.order s.pageTable.entries := by
    rw [hcut]
    simp
  have hl : s'.pageTable.lookup e.1 = some e.2 := by
    refine hrest e he fun hmem => ?_
    rw [hcut] at hnodup
    exact (nodup_append.1 hnodup).2.2 e hmem e mem_cons_self rfl
  refine wp_when (fun hfd => ?_) (fun _ => ⟨hinv, fun e' he' hpre => ?_⟩)
  · have hfd' : e.1.fd = fd := by simpa using hfd
    have hfree := (hinv.placed.pinsOn_eq_zero_iff hl).2 fun p hp hpage => hpins p hp (hpage ▸ hfd')
    have hdisk := hinv.kept.flushed e.1 e.2 hl (hfd' ▸ hflushed)
    refine ⟨⟨hinv.placed.dropPage hl hfree blank, hinv.kept.dropPage hinv.placed hl hdisk blank⟩, fun e' he' hpre => ?_⟩
    simp only [mem_append, mem_singleton, not_or] at hpre
    have hl' := hrest e' he' hpre.1
    refine (hinv.placed.lookup_dropPage hl blank e'.1 e'.2).2 ⟨fun heq => hpre.2 ?_, hl'⟩
    exact Sigma.ext (hinv.placed.eq_of_lookup (heq ▸ hl') hl) (heq_of_eq heq)
  · exact hrest e' he' fun hmem => hpre (mem_append_left _ hmem)

theorem Inv.modified (h : Inv s L) {f : Fin (n + 1)} (hpin : ⟨c, id, f⟩ ∈ L.pins) (data : D) :
    Inv (onPage f (fun page => { page with data }) s) (L.modified c id data) := by
  have hl := h.placed.held _ hpin
  have hheld : 0 < L.held c id := by
    unfold Ledger.held
    exact countP_pos_iff.2 ⟨_, hpin, by simp⟩
  refine ⟨Placed.of_pins (L := L) ?_ rfl, h.kept.modified h.placed hl hheld data⟩
  refine h.placed.onPage hl (fun page => ?_) (fun page => ?_) s.disk <;> rfl

/-! ## Whole runs -/

/-- A page that was asked for is in the frame with its last content. It is
refused only when every frame is pinned. -/
def Answered (L : Ledger C n D) (call : Call n D) (r : Reply n) (s' : BufferPoolInstance n D) : Prop :=
  ∀ id, call = .fetchPage id →
    (∀ f, r = .page (some f) → (s'.pages f).id = id ∧ L.content id = some (s'.pages f).data) ∧
    (r = .page none → ∀ f, 0 < L.pinsOn f)

def Distinct (s : BufferPoolInstance n D) : Prop :=
  ∀ f g, f ≠ g → (s.pages f).id.pageNo ≠ noPage → (s.pages f).id ≠ (s.pages g).id

theorem wp_exec (blank : D) (ord : PageTableOrder n) (call : Call n D) (h : Inv s L) (hallowed : L.Allowed c call)
    (hsafe : call.Safe s) :
    wp (call.exec blank ord) (fun r s' => Inv s' (L.record blank c call r) ∧ Answered L call r s' ∧ ∀ e, r ≠ .raised e)
      (fun _ _ => False) s := by
  cases call with
  | newPage id =>
    unfold Call.exec
    rw [wp_bind]
    exact wp_mono (wp_newPage h hsafe.1 hsafe.2) (fun r s' hs' => ⟨hs', nofun, nofun⟩) fun _ _ h => h
  | fetchPage id =>
    unfold Call.exec
    rw [wp_bind]
    refine wp_mono (wp_fetchPage h hsafe.1 hallowed hsafe.2) (fun r s' hs' => ⟨hs'.1, fun id' hid => ?_, nofun⟩)
      fun _ _ h => h
    cases hid
    refine ⟨fun f hr => ?_, fun hr => ?_⟩
    · cases hr
      exact hs'.2.1 f rfl
    · cases hr
      exact hs'.2.2 rfl
  | unpinPage id isDirty =>
    unfold Call.exec
    rw [wp_bind]
    exact wp_mono (wp_unpinPage h hallowed) (fun r s' hs' => ⟨hs', nofun, nofun⟩) fun _ _ h => h
  | flushPage id =>
    unfold Call.exec
    rw [wp_bind]
    exact wp_mono (wp_flushPage h) (fun r s' hs' => ⟨hs', nofun, nofun⟩) fun _ _ h => h
  | flushAllPages fd =>
    unfold Call.exec
    rw [wp_bind]
    exact wp_mono (wp_flushAllPages h ord fd) (fun r s' hs' => ⟨hs', nofun, nofun⟩) fun _ _ h => h
  | deleteAllPages fd =>
    unfold Call.exec
    rw [wp_bind]
    exact wp_mono (wp_deleteAllPages h ord hallowed.1 hallowed.2) (fun r s' hs' => ⟨hs', nofun, nofun⟩) fun _ _ h => h
  | write id f data => exact ⟨h.modified hallowed data, nofun, nofun⟩

theorem inv_make (disk : Disk D) (unset : Fin (n + 1) → Int) :
    Inv (.make blank disk unset) (.make disk : Ledger C n D) :=
  ⟨⟨nofun, fun _ _ => ⟨rfl, rfl⟩, nodup_finRange _, fun f => .inl (mem_finRange f), fun _ =>
    ⟨rfl, Nat.two_pow_pos 31⟩,
    fun _ => rfl, nofun⟩, ⟨nofun, nofun, nofun, nofun, fun _ _ _ => rfl⟩⟩

/-- What a client may do, and what the pool does not check. -/
def Sound (w : World C n D) (a : C × Call n D) : Prop := w.ledger.Allowed a.1 a.2 ∧ a.2.Safe w.pool

theorem inv_step (ord : PageTableOrder n) {w : World C n D} {a : C × Call n D} (h : Inv w.pool w.ledger)
    (hsound : Sound w a) : ∃ r w', step blank ord w a = some (r, w') ∧ Inv w'.pool w'.ledger ∧
      Answered w.ledger a.2 r w'.pool ∧ ∀ e, r ≠ .raised e := by
  have hwp := wp_exec blank ord a.2 h hsound.1 hsound.2
  unfold wp at hwp
  unfold step
  split at hwp
  · next r pool hexec =>
    rw [hexec]
    exact ⟨r, _, rfl, hwp⟩
  · exact hwp.elim

/-- In every run of calls that are sound, a page that is fetched has its last
content, no two frames hold the same page, and no call raises an error. -/
theorem bufferPool_transparent (blank : D) (disk : Disk D) (unset : Fin (n + 1) → Int) (ord : PageTableOrder n)
    (calls : List (C × Call n D)) (a : C × Call n D)
    (hsound : Run.Along (step blank ord) Sound (World.make blank disk unset) (calls ++ [a])) :
    ∃ trace w r w', Run.run (step blank ord) (World.make blank disk unset) calls = some (trace, w) ∧
      step blank ord w a = some (r, w') ∧ Answered w.ledger a.2 r w'.pool ∧ Distinct w.pool ∧ Distinct w'.pool ∧
      ∀ e, r ≠ .raised e := by
  obtain ⟨hcalls, hlast⟩ := Run.Along.of_append hsound
  obtain ⟨trace, w, hrun, hinv, -⟩ := Run.run_total (R := fun _ w => Inv w.pool w.ledger) (inv_make disk unset)
    (fun _ w a hw ha => by
      obtain ⟨r, w', hstep, hw', -⟩ := inv_step ord hw ha
      exact ⟨r, w', hstep, hw'⟩) calls hcalls
  obtain ⟨r, w', hstep, hinv', hanswered, hraised⟩ := inv_step ord hinv (hlast hrun).1
  exact ⟨trace, w, r, w', hrun, hstep, hanswered, fun f g hfg hf => hinv.placed.ids_ne hfg hf,
    fun f g hfg hf => hinv'.placed.ids_ne hfg hf, hraised⟩

instance (L : Ledger C n D) (c : C) : (call : Call n D) → Decidable (L.Allowed c call)
  | .newPage _ => .isTrue trivial
  | .fetchPage id => inferInstanceAs (Decidable (L.content id ≠ none))
  | .unpinPage id isDirty => inferInstanceAs (Decidable
      ((0 < L.held c id ∧ (isDirty = true ∨ (c, id) ∉ L.unsaved ∨ 2 ≤ L.held c id)) ∨ ∀ p ∈ L.pins, p.page ≠ id))
  | .flushPage _ => .isTrue trivial
  | .flushAllPages _ => .isTrue trivial
  | .deleteAllPages fd => inferInstanceAs (Decidable (fd ∈ L.flushed ∧ ∀ p ∈ L.pins, p.page.fd ≠ fd))
  | .write id f _ => inferInstanceAs (Decidable ((⟨c, id, f⟩ : Pin C n) ∈ L.pins))

instance (s : BufferPoolInstance n D) : (call : Call n D) → Decidable (call.Safe s)
  | .newPage id => inferInstanceAs (Decidable (id.Addressable ∧ s.pageTable.lookup id = none))
  | .fetchPage id => inferInstanceAs (Decidable
      (id.Addressable ∧ ∀ f ∈ s.pageTable.lookup id, (s.pages f).pinCount < 2 ^ 31 - 1))
  | .unpinPage .. | .flushPage _ | .flushAllPages _ | .deleteAllPages _ | .write .. => .isTrue trivial

instance (w : World C n D) (a : C × Call n D) : Decidable (Sound w a) := inferInstanceAs (Decidable (_ ∧ _))

def listOrder : PageTableOrder n := ⟨fun l => l, fun _ => .refl _⟩

def evicting : List (Nat × Call 0 Nat) :=
  [(1, .newPage ⟨3, 1⟩), (1, .write ⟨3, 1⟩ 0 7), (1, .unpinPage ⟨3, 1⟩ true), (2, .newPage ⟨3, 2⟩),
    (2, .unpinPage ⟨3, 2⟩ true)]

theorem evicting_transparent :
    Run.Along (step 0 listOrder) Sound (World.make 0 (fun _ _ => none) fun _ => 0)
      (evicting ++ [(2, .fetchPage ⟨3, 1⟩)]) ∧
    ∃ trace w r w', Run.run (step 0 listOrder) (World.make 0 (fun _ _ => none) fun _ => 0) evicting = some (trace, w) ∧
      step 0 listOrder w (2, .fetchPage ⟨3, 1⟩) = some (r, w') ∧
      Answered w.ledger (.fetchPage ⟨3, 1⟩) r w'.pool ∧ Distinct w.pool ∧ Distinct w'.pool ∧ ∀ e, r ≠ .raised e :=
  have hsound : Run.Along (step 0 listOrder) Sound (World.make 0 (fun _ _ => none) fun _ => 0)
      (evicting ++ [(2, .fetchPage ⟨3, 1⟩)]) := by decide +kernel
  ⟨hsound, bufferPool_transparent 0 (fun _ _ => none) (fun _ => 0) listOrder evicting (2, .fetchPage ⟨3, 1⟩) hsound⟩

def onePageFile : World Unit 4095 Nat :=
  World.make 0 (fun fd offset => if fd = 3 ∧ offset = 0 then some 7 else none) fun _ => 0

/-- A page that is in the table is made again, and is then in two frames. The
page at 4 GiB has offset 0: writing it back overwrites page 0, which is then
fetched with its content. -/
theorem pool_not_transparent :
    (Run.Along (step 0 listOrder) (fun w a => w.ledger.Allowed a.1 a.2) onePageFile
        [((), .newPage ⟨3, 1⟩), ((), .newPage ⟨3, 1⟩)] ∧
      (Run.run (step 0 listOrder) onePageFile [((), .newPage ⟨3, 1⟩), ((), .newPage ⟨3, 1⟩)]).any fun (_, w) =>
        (w.pool.pages 0).id = ⟨3, 1⟩ ∧ (w.pool.pages 1).id = ⟨3, 1⟩) ∧
    Run.Along (step 0 listOrder) (fun w a => w.ledger.Allowed a.1 a.2) onePageFile
        [((), .newPage ⟨3, 2 ^ 20⟩), ((), .flushPage ⟨3, 2 ^ 20⟩), ((), .fetchPage ⟨3, 0⟩)] ∧
      (Run.run (step 0 listOrder) onePageFile
        [((), .newPage ⟨3, 2 ^ 20⟩), ((), .flushPage ⟨3, 2 ^ 20⟩), ((), .fetchPage ⟨3, 0⟩)]).any fun (trace, w) =>
        trace.head?.map Prod.snd = some (.page (some 1)) ∧ (w.pool.pages 1).data = 0 ∧
          w.ledger.content ⟨3, 0⟩ = some 7 := by
  decide +kernel

/-- In every run of calls that are sound, a page that a client has pinned stays in the frame it was given,
with its last content, whatever the others do; the frame has as many pins as are held, and is not given away. -/
theorem run_pinned_stays (blank : D) (disk : Disk D) (unset : Fin (n + 1) → Int) (ord : PageTableOrder n)
    (calls : List (C × Call n D)) (hsound : Run.Along (step blank ord) Sound (World.make blank disk unset) calls) :
    ∃ trace w, Run.run (step blank ord) (World.make blank disk unset) calls = some (trace, w) ∧
      ∀ p ∈ w.ledger.pins, (w.pool.pages p.frame).id = p.page ∧ w.ledger.content p.page = some (w.pool.pages p.frame).data ∧
        (w.pool.pages p.frame).pinCount = w.ledger.pinsOn p.frame ∧ p.frame ∉ w.pool.freeList ∧
        w.pool.replacer.pinCounter p.frame ≠ 0 := by
  obtain ⟨trace, w, hrun, hinv, -⟩ := Run.run_total (R := fun _ w => Inv w.pool w.ledger) (inv_make disk unset)
    (fun _ w a hw ha => by
      obtain ⟨r, w', hstep, hw', -⟩ := inv_step ord hw ha
      exact ⟨r, w', hstep, hw'⟩) calls hsound
  refine ⟨trace, w, hrun, fun p hp => ?_⟩
  have hlook := hinv.placed.held p hp
  have hpins : w.ledger.pinsOn p.frame ≠ 0 := fun h0 => pinsOn_eq_zero.1 h0 p hp rfl
  refine ⟨(hinv.placed.ids _ _ hlook).1, hinv.kept.content _ _ hlook, (hinv.placed.pins _).1, hinv.placed.not_free hlook, ?_⟩
  rw [hinv.placed.counter, if_neg hpins]
  decide

theorem run_pinned_stays_evicting : ∃ trace w,
    Run.run (step 0 listOrder) (World.make 0 (fun _ _ => none) fun _ => 0) (evicting.take 4) = some (trace, w) ∧
      ∀ p ∈ w.ledger.pins, (w.pool.pages p.frame).id = p.page := by
  obtain ⟨trace, w, hrun, hpins⟩ := run_pinned_stays 0 (fun _ _ => none) (fun _ => 0) listOrder (evicting.take 4) (by decide +kernel)
  exact ⟨trace, w, hrun, fun p hp => (hpins p hp).1⟩

end Rmdb.BufferPool
