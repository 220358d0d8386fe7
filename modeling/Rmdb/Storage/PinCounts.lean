/-
The two pin counts of a frame.

A page counts its pins in `pin_count_`, and the clock keeps a counter of its own
for each frame, which is 1 while the page is pinned. `delete_all_pages` resets the
first and not the second: a frame that was pinned then is never a victim again.
-/
import Rmdb.Storage.PageTable

namespace Rmdb.PageTable

open Function Exec BufferPoolInstance
open BufferPool (listOrder)

variable {n : Nat} {D : Type} {s s' : BufferPoolInstance n D} {id : PageId} {f : Fin (n + 1)}

def Counted (s : BufferPoolInstance n D) : Prop :=
  ∀ f, 0 ≤ (s.pages f).pinCount ∧ (s.pages f).pinCount < 2 ^ 31 ∧
    s.replacer.pinCounter f = if (s.pages f).pinCount = 0 then 0 else 1

/-- The clock and the pages say the same; so no frame is found only when all are pinned. -/
structure PinsAgree (s : BufferPoolInstance n D) : Prop where
  counter : ∀ f, s.replacer.pinCounter f = 0 ↔ (s.pages f).pinCount = 0
  victim : ∀ s', findVictimPage s = (.ok none, s') → ∀ f, 0 < (s.pages f).pinCount

/-- The pins fit into an `int`; the pages of a file that are deleted are not pinned. -/
def Call.Unpinned (s : BufferPoolInstance n D) : Call → Prop
  | .fetchPage id => ∀ f ∈ s.pageTable.lookup id, (s.pages f).pinCount < 2 ^ 31 - 1
  | .deleteAllPages fd => ∀ e ∈ s.pageTable.entries, e.1.fd = fd → (s.pages e.2).pinCount = 0
  | .newPage _ | .unpinPage .. | .flushPage _ | .deletePage _ | .flushAllPages _ => True

theorem Counted.pinsAgree (h : Counted s) : PinsAgree s where
  counter f := by
    rw [(h f).2.2]
    split
    · next h0 => simp [h0]
    · next h0 => simp [h0]
  victim s' hnone f := by
    by_contra hpin
    obtain ⟨hpos, _, hcounter⟩ := h f
    rw [if_pos (by omega)] at hcounter
    cases hfree : s.freeList with
    | nil =>
      rw [findVictimPage_nil hfree, Prod.mk.injEq] at hnone
      exact ClockReplacer.victim_isSome hcounter (Except.ok.inj hnone.1)
    | cons g rest =>
      rw [findVictimPage_cons hfree] at hnone
      cases hnone

namespace Counted

theorem still (h : Counted s) (hs : Still s s') : Counted s' := by
  intro f
  rw [(hs.pages f).2, hs.counter]
  exact h f

theorem counter_taken (h : Counted s) (htidy : Tidy s) {pinned : Bool} (hs : Seat s f id pinned s') :
    s.replacer.pinCounter f = 0 := by
  rcases hs.taken with hcons | ⟨-, -, hzero⟩
  · have hpin := (htidy.free f (by simp [hcons])).2.1
    have hpos := (h f).1
    rw [(h f).2.2, if_pos (by omega)]
  · exact hzero

theorem seat (h : Counted s) (htidy : Tidy s) {pinned : Bool} (hs : Seat s f id pinned s') : Counted s' := by
  have hzero := h.counter_taken htidy hs
  intro g
  rw [hs.counter]
  by_cases hg : g = f
  · rw [hg, hs.page.2.1]
    cases pinned with
    | false => exact ⟨le_rfl, by norm_num, hzero⟩
    | true =>
      refine ⟨by decide, by norm_num, ?_⟩
      rw [if_pos rfl, update_self, hzero]
      rfl
  · rw [hs.others g hg]
    cases pinned with
    | false => exact h g
    | true =>
      rw [if_pos rfl, update_of_ne hg]
      exact h g

theorem hit (h : Counted s) (hfew : (s.pages f).pinCount < 2 ^ 31 - 1) : Counted (s.hit f) := by
  obtain ⟨hpos, hlt, hcounter⟩ := h f
  have hwrap : wrapInt ((s.pages f).pinCount + 1) = (s.pages f).pinCount + 1 := wrapInt_of_lt (by omega) (by omega)
  intro g
  unfold BufferPoolInstance.hit
  rw [hwrap]
  by_cases hg : g = f
  · subst hg
    simp only [update_self]
    refine ⟨by omega, by omega, ?_⟩
    rw [if_neg (show (s.pages g).pinCount + 1 ≠ 0 by omega)]
    split
    · next hfirst =>
      rw [ClockReplacer.pinCounter_pin, update_self, hcounter, if_pos (by omega)]
      rfl
    · next hmore => rw [hcounter, if_neg (by omega)]
  · simp only [update_of_ne hg]
    split
    · rw [ClockReplacer.pinCounter_pin, update_of_ne hg]
      exact h g
    · exact h g

theorem released (h : Counted s) (hpin : (s.pages f).pinCount ≠ 0) (isDirty : Bool) :
    Counted (s.released f isDirty) := by
  obtain ⟨hpos, hlt, hcounter⟩ := h f
  have hwrap : wrapInt ((s.pages f).pinCount - 1) = (s.pages f).pinCount - 1 := wrapInt_of_lt (by omega) (by omega)
  rw [if_neg hpin] at hcounter
  intro g
  unfold BufferPoolInstance.released
  rw [hwrap]
  by_cases hg : g = f
  · subst hg
    simp only [update_self]
    refine ⟨by omega, by omega, ?_⟩
    split
    · rw [ClockReplacer.pinCounter_unpin, update_self, hcounter]
      rfl
    · exact hcounter
  · simp only [update_of_ne hg]
    split
    · rw [ClockReplacer.pinCounter_unpin, update_of_ne hg]
      exact h g
    · exact h g

theorem drop (h : Counted s) (hpin : (s.pages f).pinCount = 0) (hs : Drop s id f s') : Counted s' := by
  intro g
  rw [hs.counter]
  by_cases hg : g = f
  · obtain ⟨_, _, hcounter⟩ := h f
    rw [hg, hs.pins hpin, hcounter, hpin]
    exact ⟨le_rfl, by norm_num, rfl⟩
  · rw [hs.others g hg]
    exact h g

theorem drops (h : Counted s) (htidy : Tidy s) {fd : Int}
    (hpins : ∀ id f, s.pageTable.lookup id = some f → id.fd = fd → (s.pages f).pinCount = 0) (hs : Drops fd s s') :
    Counted s' ∧ ∀ id f, s'.pageTable.lookup id = some f → id.fd = fd → (s'.pages f).pinCount = 0 := by
  induction hs with
  | nil => exact ⟨h, hpins⟩
  | snoc hdrops hfd hdrop ih =>
    obtain ⟨hcounted, hpins'⟩ := ih
    refine ⟨hcounted.drop (hpins' _ _ hdrop.entry hfd) hdrop, fun id' g hl hfd' => ?_⟩
    obtain ⟨hg, hl⟩ := (hdrop.lookup_iff (htidy.drops hdrops).ids id' g).1 hl
    rw [hdrop.others g hg]
    exact hpins' id' g hl hfd'

theorem effect (h : Counted s) (htidy : Tidy s) {call : Call} (hcall : call.Unpinned s) (he : Effect s s' call) :
    Counted s' := by
  cases call with
  | newPage id =>
    rcases he with hs | ⟨f, hs⟩
    · exact h.still hs
    · exact h.seat htidy hs
  | fetchPage id =>
    rcases he with ⟨f, hl, rfl⟩ | ⟨_, hs | ⟨f, pinned, hs⟩⟩
    · exact h.hit (hcall f hl)
    · exact h.still hs
    · exact h.seat htidy hs
  | unpinPage id isDirty =>
    rcases he with hs | ⟨f, _, hpin, rfl⟩
    · exact h.still hs
    · exact h.released hpin isDirty
  | flushPage id => exact h.still he
  | flushAllPages fd => exact h.still he
  | deletePage id =>
    rcases he with hs | ⟨f, hpin, hs⟩
    · exact h.still hs
    · exact h.drop (le_antisymm hpin (h f).1) hs
  | deleteAllPages fd =>
    exact (h.drops htidy (fun id f hl hfd => hcall ⟨id, f⟩ (AList.mem_lookup_iff.1 hl) hfd) he).1

end Counted

/-- In every run of calls that leave no pinned page behind, the two counts agree in the end. -/
theorem run_pinsAgree (blank : D) (disk : Disk D) (unset : Fin (n + 1) → Int) (ord : PageTableOrder n)
    (calls : List Call)
    (hcalls : Run.Along (step blank ord) (fun s call => call.Unpinned s) (make blank disk unset) calls) :
    ∃ trace s, Run.run (step blank ord) (make blank disk unset) calls = some (trace, s) ∧ PinsAgree s := by
  have hinit : Tidy (make blank disk unset) ∧ Counted (make blank disk unset) :=
    ⟨Tidy.make blank disk unset, fun f => ⟨le_rfl, Int.pow_pos (by decide), rfl⟩⟩
  obtain ⟨trace, s, hrun, ⟨_, hcounted⟩, _⟩ := Run.run_total (R := fun _ s => Tidy s ∧ Counted s) hinit
    (fun _ s call ⟨htidy, hcounted⟩ hcall => by
      obtain ⟨reply, s', hstep⟩ := step_isSome blank ord s call
      have heffect := effect_of_step htidy hstep
      exact ⟨reply, s', hstep, htidy.effect heffect, hcounted.effect htidy hcall heffect⟩) calls hcalls
  exact ⟨trace, s, hrun, hcounted.pinsAgree⟩

instance (s : BufferPoolInstance n D) : (call : Call) → Decidable (call.Unpinned s)
  | .fetchPage id =>
    inferInstanceAs (Decidable (∀ f ∈ s.pageTable.lookup id, (s.pages f).pinCount < 2 ^ 31 - 1))
  | .deleteAllPages fd =>
    inferInstanceAs (Decidable (∀ e ∈ s.pageTable.entries, e.1.fd = fd → (s.pages e.2).pinCount = 0))
  | .newPage _ | .unpinPage .. | .flushPage _ | .deletePage _ | .flushAllPages _ => .isTrue trivial

theorem run_pinsAgree_twoFrames : ∃ trace s, Run.run (step 0 listOrder) twoFrames
    [.newPage ⟨3, 0⟩, .unpinPage ⟨3, 0⟩ true, .flushAllPages 3, .deleteAllPages 3, .newPage ⟨3, 0⟩] = some (trace, s) ∧
    PinsAgree s :=
  run_pinsAgree 0 _ _ listOrder _ (by decide +kernel)

/-- The pages of a file are deleted while they are pinned: the clock keeps both
frames for itself, though a free list is all that is left of them. The next two
pages take them, and when these are unpinned no frame is found any more. -/
theorem pinned_frames_lost : ∃ trace s, Run.run (step 0 listOrder) twoFrames
    [.newPage ⟨3, 0⟩, .newPage ⟨3, 1⟩, .deleteAllPages 3, .newPage ⟨4, 0⟩, .newPage ⟨4, 1⟩, .unpinPage ⟨4, 0⟩ true,
      .unpinPage ⟨4, 1⟩ true] = some (trace, s) ∧
    (∀ f, (s.pages f).pinCount = 0) ∧ (findVictimPage s).1 = .ok none ∧ ¬ PinsAgree s := by
  refine ⟨_, _, rfl, by decide +kernel, by rfl, fun h => ?_⟩
  exact absurd ((h.counter 0).2 (by decide +kernel)) (by decide +kernel)

end Rmdb.PageTable
