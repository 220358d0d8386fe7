/-
What the parts of a buffer pool's calls do, on pages whose offset is an `int`:
the search for a victim, what is on disk, and the frame a call changes.
-/
import Rmdb.Storage.BufferPool

namespace Rmdb

open Option Function Exec

/-! ## The hand of the clock -/

namespace ClockReplacer

variable {n : Nat}

def passedOver (r : ClockReplacer n) : Nat → ClockReplacer n
  | 0 => r
  | k + 1 => (r.passedOver k).passed

theorem passedOver_passed (r : ClockReplacer n) (k : Nat) : r.passed.passedOver k = (r.passedOver k).passed := by
  induction k with
  | zero => rfl
  | succ k ih => exact congrArg passed ih

@[simp] theorem pinCounter_passedOver (r : ClockReplacer n) (k : Nat) : (r.passedOver k).pinCounter = r.pinCounter := by
  induction k with
  | zero => rfl
  | succ k ih => exact ih

theorem pointer_passedOver (r : ClockReplacer n) (k : Nat) : (r.passedOver k).pointer + 1 = r.after k := by
  induction k with
  | zero => simp [passedOver, after]
  | succ k ih =>
    show (r.passedOver k).pointer + 1 + 1 = _
    rw [ih, after, after, add_assoc]
    congr 1
    apply Fin.ext
    simp [Fin.val_add]

theorem after_add_round (r : ClockReplacer n) (k : Nat) : r.after (n + 1 + k) = r.after k := by
  simp [after, Fin.ofNat]

theorem after_inj (r : ClockReplacer n) {j k : Nat} (hj : j < n + 1) (hk : k < n + 1) (h : r.after j = r.after k) : j = k := by
  have hval := congrArg Fin.val (add_left_cancel h)
  simpa [Nat.mod_eq_of_lt hj, Nat.mod_eq_of_lt hk] using hval

theorem exists_after (r : ClockReplacer n) (f : Fin (n + 1)) : ∃ k < n + 1, f = r.after k :=
  ⟨(f - (r.pointer + 1)).1, (f - (r.pointer + 1)).2, by simp [after]⟩

/-- The mark of a frame is gone when the hand went over it and nobody had it pinned. -/
theorem pinned_passedOver (r : ClockReplacer n) (k : Nat) (f : Fin (n + 1)) :
    (r.passedOver k).pinned f = true ↔ r.pinned f = true ∧ ¬ (r.pinCounter f = 0 ∧ ∃ j < k, f = r.after j) := by
  induction k with
  | zero => simp [passedOver]
  | succ k ih =>
    rw [passedOver, passed, pointer_passedOver, pinCounter_passedOver]
    simp only [Nat.lt_succ_iff_lt_or_eq, or_and_right, exists_or, exists_eq_left]
    by_cases hf : f = r.after k
    · subst hf
      by_cases h0 : r.pinCounter (r.after k) = 0
      · simp [h0]
      · simp [h0, ih]
    · split
      all_goals simp [ih, hf]

theorem takes_passedOver (r : ClockReplacer n) (k : Nat) : (r.passedOver k).Takes ↔
    r.pinCounter (r.after k) = 0 ∧ (r.pinned (r.after k) = true → ∃ j < k, r.after k = r.after j) := by
  rw [Takes, pointer_passedOver, pinCounter_passedOver, ← Bool.not_eq_true, pinned_passedOver]
  by_cases h0 : r.pinCounter (r.after k) = 0 <;> simp [h0]

theorem victimLoop_succ (steps : Nat) (r : ClockReplacer n) : victimLoop (steps + 1) r =
    if r.Takes then (some (r.pointer + 1), { r with pointer := r.pointer + 1 }) else victimLoop steps r.passed := by
  rw [victimLoop, passed]
  simp only
  split
  · next htakes => exact (if_pos htakes).symm
  · next hpass =>
    rw [if_neg (show ¬ r.Takes from hpass)]
    split <;> rfl

/-- The loop ends at the first victim, or goes over as many frames as it may. -/
theorem victimLoop_cases (steps : Nat) (r : ClockReplacer n) :
    (victimLoop steps r = (none, r.passedOver steps) ∧ ∀ k < steps, ¬ (r.passedOver k).Takes) ∨
      ∃ m < steps, (r.passedOver m).Takes ∧ (∀ k < m, ¬ (r.passedOver k).Takes) ∧
        victimLoop steps r = (some (r.after m), { r.passedOver m with pointer := r.after m }) := by
  induction steps generalizing r with
  | zero => exact .inl ⟨rfl, fun k hk => absurd hk (Nat.not_lt_zero k)⟩
  | succ steps ih =>
    rw [victimLoop_succ]
    split
    · next htakes =>
      refine .inr ⟨0, Nat.succ_pos steps, htakes, fun k hk => absurd hk (Nat.not_lt_zero k), ?_⟩
      rw [← pointer_passedOver]
      rfl
    · next hpass =>
      have hbelow {m : Nat} (hm : ∀ k < m, ¬ (r.passed.passedOver k).Takes) : ∀ k < m + 1, ¬ (r.passedOver k).Takes := by
        intro k hk
        cases k with
        | zero => exact hpass
        | succ k =>
          rw [passedOver, ← passedOver_passed]
          exact hm k (by omega)
      rcases ih r.passed with ⟨hloop, hnone⟩ | ⟨m, hm, htakes, hfirst, hloop⟩
      · rw [passedOver_passed] at hloop
        exact .inl ⟨hloop, hbelow hnone⟩
      · have hafter : r.passed.after m = r.after (m + 1) := by
          rw [← pointer_passedOver, ← pointer_passedOver, passedOver_passed]
          rfl
        rw [passedOver_passed] at htakes hloop
        exact .inr ⟨m + 1, by omega, htakes, hbelow hfirst, hafter ▸ hloop⟩

theorem victim_spec (r : ClockReplacer n) :
    r.victim.2.pinCounter = r.pinCounter ∧ ∀ f, r.victim.1 = some f → r.pinCounter f = 0 := by
  unfold victim
  rcases victimLoop_cases (2 * (n + 1)) r with ⟨hloop, -⟩ | ⟨m, -, htakes, -, hloop⟩ <;> rw [hloop]
  · exact ⟨pinCounter_passedOver r _, nofun⟩
  · refine ⟨pinCounter_passedOver r m, fun f hf => ?_⟩
    obtain rfl := some.inj hf
    exact ((takes_passedOver r m).1 htakes).1

theorem takes_second_round {r : ClockReplacer n} {j : Nat} (h : r.pinCounter (r.after j) = 0) :
    (r.passedOver (n + 1 + j)).Takes := by
  rw [takes_passedOver, after_add_round]
  exact ⟨h, fun _ => ⟨j, by omega, rfl⟩⟩

/-- An unpinned frame is found: the first time the hand comes it takes the mark away. -/
theorem victim_isSome {r : ClockReplacer n} {f : Fin (n + 1)} (h : r.pinCounter f = 0) : r.victim.1 ≠ none := by
  intro hnone
  obtain ⟨j, hj, rfl⟩ := r.exists_after f
  unfold victim at hnone
  rcases victimLoop_cases (2 * (n + 1)) r with ⟨-, hpass⟩ | ⟨m, -, -, -, hloop⟩
  · exact hpass (n + 1 + j) (by omega) (takes_second_round h)
  · rw [hloop] at hnone
    cases hnone

def FirstAfter (r : ClockReplacer n) (P : Fin (n + 1) → Prop) (f : Fin (n + 1)) : Prop :=
  ∃ k < n + 1, f = r.after k ∧ P f ∧ ∀ j < k, ¬ P (r.after j)

end ClockReplacer

/-! ## Pages on disk and in frames -/

namespace Disk

variable {D : Type} (disk : Disk D)

def write (id : PageId) (data : D) : Disk D := disk.put id.fd (id.pageNo.toNat * pageSize) data

theorem at_write_self {id : PageId} (h : id.Addressable) (data : D) : (disk.write id data).at id = some data := by
  unfold Disk.at write put
  rw [if_pos h.1, update_self, update_self]

theorem at_write_of_ne {id id' : PageId} (h : id.Addressable) (hne : id' ≠ id) (data : D) :
    (disk.write id data).at id' = disk.at id' := by
  unfold Disk.at write put
  split
  · next h' =>
    by_cases hfd : id'.fd = id.fd
    · have hno : id'.pageNo.toNat * pageSize ≠ id.pageNo.toNat * pageSize := by
        intro heq
        have hno : id'.pageNo = id.pageNo := by
          have h0 := h.1
          unfold pageSize at heq
          omega
        apply hne
        cases id
        cases id'
        cases hfd
        cases hno
        rfl
      rw [hfd, update_self, update_of_ne hno]
    · rw [update_of_ne hfd]
  · rfl

end Disk

namespace BufferPoolInstance

variable {n : Nat} {D : Type} {s : BufferPoolInstance n D} {id : PageId} {f : Fin (n + 1)}
variable {E : RMDBError → BufferPoolInstance n D → Prop}

variable {Q : Unit → BufferPoolInstance n D → Prop}

theorem wp_writePage (h : id.Addressable) (data : D) :
    wp (writePage id data) Q E s ↔ Q () { s with disk := s.disk.write id data } := by
  have hoff := h.pageOffset_eq
  unfold writePage
  rw [if_neg (by omega), wp_modify, hoff]
  rfl

theorem wp_readPage (h : id.Addressable) {data : D} (hdisk : s.disk.at id = some data) :
    wp (readPage id f) Q E s ↔ Q () (onPage f (fun page => { page with data }) s) := by
  have hoff := h.pageOffset_eq
  unfold Disk.at at hdisk
  rw [if_pos h.1] at hdisk
  unfold readPage
  rw [if_neg (by omega), hoff]
  simp only [wp_bind, wp_asks, Int.toNat_natCast, hdisk, wp_modify]

theorem findVictimPage_nil (h : s.freeList = []) :
    findVictimPage s = (.ok s.replacer.victim.1, { s with replacer := s.replacer.victim.2 }) := by
  unfold findVictimPage
  split
  · rfl
  · next h' => rw [h] at h'; cases h'

theorem findVictimPage_cons {rest : List (Fin (n + 1))} (h : s.freeList = f :: rest) :
    findVictimPage s = (.ok (some f), { s with freeList := rest }) := by
  unfold findVictimPage
  split
  · next h' => rw [h] at h'; cases h'
  · next h' => rw [h] at h'; cases h'; rfl

def evicted (s : BufferPoolInstance n D) (f : Fin (n + 1)) : Disk D :=
  if (s.pages f).isDirty then s.disk.write (s.pages f).id (s.pages f).data else s.disk

def relabelled (s : BufferPoolInstance n D) (f : Fin (n + 1)) (id : PageId) : BufferPoolInstance n D :=
  { s with
    pages := update s.pages f ⟨id, (s.pages f).data, false, 0⟩
    pageTable := (s.pageTable.erase (s.pages f).id).insert id f
    disk := s.evicted f }

theorem wp_updatePage (h : (s.pages f).isDirty = true → (s.pages f).id.Addressable) :
    wp (updatePage f id) Q E s ↔ Q () (s.relabelled f id) := by
  unfold updatePage relabelled evicted
  simp only [wp_bind, wp_asks, wp_modify]
  cases hd : (s.pages f).isDirty with
  | false => simp [Exec.when, onPage, hd]
  | true => simp [Exec.when, onPage, wp_writePage (h hd)]

def seated (s : BufferPoolInstance n D) (f : Fin (n + 1)) (id : PageId) (data : D) : BufferPoolInstance n D :=
  { s with
    pages := update s.pages f ⟨id, data, false, 1⟩
    pageTable := (s.pageTable.erase (s.pages f).id).insert id f
    replacer := s.replacer.pin f
    disk := s.evicted f }

@[simp] theorem pages_seated_self (data : D) : (s.seated f id data).pages f = ⟨id, data, false, 1⟩ :=
  update_self ..

theorem pinFirst_relabelled (data : D) :
    pinFirst f (onPage f (fun page => { page with data }) (s.relabelled f id)) = s.seated f id data := by
  simp [pinFirst, onPage, relabelled, seated]

/-! ## Calls on a page in a frame -/

/-- A hit: the replacer is told of the first pin. -/
def hit (s : BufferPoolInstance n D) (f : Fin (n + 1)) : BufferPoolInstance n D :=
  { s with
    pages := update s.pages f { s.pages f with pinCount := wrapInt ((s.pages f).pinCount + 1) }
    replacer := if wrapInt ((s.pages f).pinCount + 1) = 1 then s.replacer.pin f else s.replacer }

theorem wp_fetchPage_hit {Q : Option (Fin (n + 1)) → BufferPoolInstance n D → Prop}
    (h : s.pageTable.lookup id = some f) : wp (fetchPage id) Q E s ↔ Q (some f) (s.hit f) := by
  unfold fetchPage hit
  simp only [wp_bind, wp_asks, h, wp_modify, wp_pure, pages_onPage_self]
  split <;> rfl

/-- A pin given up: the replacer is told of the last one. -/
def released (s : BufferPoolInstance n D) (f : Fin (n + 1)) (isDirty : Bool) : BufferPoolInstance n D :=
  { s with
    pages := update s.pages f { s.pages f with
      pinCount := wrapInt ((s.pages f).pinCount - 1), isDirty := (s.pages f).isDirty || isDirty }
    replacer := if wrapInt ((s.pages f).pinCount - 1) = 0 then s.replacer.unpin f else s.replacer }

theorem wp_unpinPage_pinned {Q : Bool → BufferPoolInstance n D → Prop} {isDirty : Bool}
    (h : s.pageTable.lookup id = some f) (hpin : (s.pages f).pinCount ≠ 0) :
    wp (unpinPage id isDirty) Q E s ↔ Q true (s.released f isDirty) := by
  unfold unpinPage released
  simp only [wp_bind, wp_asks, h, if_neg hpin, wp_modify, wp_pure, pages_onPage_self]
  split
  · simp [onPage]
  · simp [onPage]

theorem wp_unpinPage_unpinned {Q : Bool → BufferPoolInstance n D → Prop} {isDirty : Bool}
    (h : ∀ f, s.pageTable.lookup id = some f → (s.pages f).pinCount = 0) :
    wp (unpinPage id isDirty) Q E s ↔ Q false s := by
  unfold unpinPage
  rw [wp_bind, wp_asks]
  cases hl : s.pageTable.lookup id with
  | none => rfl
  | some f =>
    simp only [wp_bind, wp_asks, if_pos (h f hl)]
    rfl

def written (s : BufferPoolInstance n D) (f : Fin (n + 1)) : BufferPoolInstance n D :=
  onPage f (fun page => { page with isDirty := false })
    { s with disk := s.disk.write (s.pages f).id (s.pages f).data }

theorem wp_flushFrame (h : (s.pages f).id.Addressable) : wp (flushFrame f) Q E s ↔ Q () (s.written f) := by
  unfold flushFrame written
  simp only [wp_bind, wp_asks, wp_modify, wp_writePage h]

theorem data_written (g : Fin (n + 1)) : ((s.written f).pages g).data = (s.pages g).data := by
  unfold written
  by_cases hg : g = f
  · rw [hg, pages_onPage_self]
  · rw [pages_onPage_of_ne hg]

end BufferPoolInstance

end Rmdb
