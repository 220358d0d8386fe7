/-
`IndexScanExecutor` and `ProjectionExecutor` call by call.

Ascending, the scan goes on to the next entry whose record passes. Descending,
it only ever has the entry before its end, and does not look at the conditions.
`SelectFrom` pulls the rows; with a limit of 1 it is over after the first.
-/
import Rmdb.Execution.IndexScan

namespace Rmdb.Execution

open List Index Record

variable {m : TabMeta}

structure IndexScanState where
  scan : IxScan
  rmRecord : Option (List UInt8)
  isEnd : Bool

namespace IndexScanExecutor

section

variable (T : Table m) (i : Fin m.indexes.length) (sc : IndexScan)

/-- An entry passes without its key being looked at: `index_clean_`. -/
def indexClean : Bool := (PredicateManager.getLeftLastTuple none sc.bounds).2.1 = (m.ix i).cols.length

def seek : Nat → IxScan → Option IndexScanState
  | 0, _ => none
  | fuel + 1, scan =>
    if scan.isEnd then some ⟨scan, none, true⟩
    else do
      let (key, rid) ← (T.ihs i).entryAt scan.iid
      if indexClean i sc || sc.cmpIndexConds key then
        let rec ← (T.fh.getRecord rid).toOption
        if cmpConds sc.conds rec then some ⟨scan, some rec, false⟩ else seek fuel (← scan.next (T.ihs i))
      else seek fuel (← scan.next (T.ihs i))

/-- The first `beginTuple`. -/
def beginTuple (asc : Bool) (mem : Uninit) (fuel : Nat) : Option IndexScanState := do
  let (lower, upper) ← sc.range (T.ihs i) mem
  let scan ← IxScan.start (T.ihs i) lower upper
  if !scan.isEnd && !asc then
    let iid ← (T.ihs i).prevIid upper
    let rid ← (T.ihs i).getRid iid
    let rec ← (T.fh.getRecord rid).toOption
    some ⟨scan, some rec, false⟩
  else seek T i sc fuel scan

def nextTuple (asc : Bool) (fuel : Nat) (s : IndexScanState) : Option IndexScanState :=
  if !asc then some s
  else if s.scan.isEnd then some { s with isEnd := true }
  else do seek T i sc fuel (← s.scan.next (T.ihs i))

def iter (conds : List Condition) (asc : Bool) (mem : Uninit) (fuel : Nat) :
    Iter (Option IndexScanState) (List UInt8) where
  beginTuple _ := (beginTuple T i (IndexScan.make (m.ix i).cols conds) asc mem fuel).map some
  nextTuple s := do (nextTuple T i (IndexScan.make (m.ix i).cols conds) asc fuel (← s)).map some
  isEnd s := s.any IndexScanState.isEnd
  next s := do
    let s ← s
    s.rmRecord.map fun rec => (rec, some { s with rmRecord := none })

end

/-! ## Seeking -/

variable {st : IndexScanState}

theorem seek_add {T : Table m} {i : Fin m.indexes.length} {sc : IndexScan} (k : Nat) :
    ∀ {fuel : Nat} {scan : IxScan}, seek T i sc fuel scan = some st → seek T i sc (fuel + k) scan = some st
  | 0, _, h => by cases h
  | fuel + 1, scan, h => by
    have ih : ∀ {next : Option IxScan}, next.bind (seek T i sc fuel) = some st →
        next.bind (seek T i sc (fuel + k)) = some st := by
      intro next h
      obtain ⟨scan', hnext, h⟩ := Option.bind_eq_some_iff.1 h
      exact Option.bind_eq_some_iff.2 ⟨scan', hnext, seek_add k h⟩
    rw [Nat.succ_add]
    simp only [seek, Option.bind_eq_bind] at h ⊢
    by_cases hend : scan.isEnd
    · rwa [if_pos hend] at h ⊢
    rw [if_neg hend] at h ⊢
    obtain ⟨⟨key, rid⟩, hentry, h⟩ := Option.bind_eq_some_iff.1 h
    rw [hentry, Option.bind_some]
    by_cases hkey : (indexClean i sc || sc.cmpIndexConds key) = true
    · simp only [if_pos hkey] at h ⊢
      obtain ⟨rec, hrec, h⟩ := Option.bind_eq_some_iff.1 h
      rw [hrec, Option.bind_some]
      by_cases hconds : cmpConds sc.conds rec = true
      · rwa [if_pos hconds] at h ⊢
      · rw [if_neg hconds] at h ⊢
        exact ih h
    · simp only [if_neg hkey] at h ⊢
      exact ih h

theorem beginTuple_add {T : Table m} {i : Fin m.indexes.length} {sc : IndexScan} {asc : Bool} {mem : Uninit}
    {fuel : Nat} (k : Nat) (h : beginTuple T i sc asc mem fuel = some st) :
    beginTuple T i sc asc mem (fuel + k) = some st := by
  simp only [beginTuple, Option.bind_eq_bind, Option.bind_eq_some_iff] at h ⊢
  obtain ⟨range, hrange, scan, hscan, h⟩ := h
  refine ⟨range, hrange, scan, hscan, ?_⟩
  by_cases hdesc : (!scan.isEnd && !asc) = true
  · rwa [if_pos hdesc] at h ⊢
  · rw [if_neg hdesc] at h ⊢
    exact seek_add k h

section

variable {T : Table m} {i : Fin m.indexes.length} {sc : IndexScan} {L : List (Block (Key (m.ix i).keyCols))}
  {Us : List (List (Block (Key (m.ix i).keyCols)))} {upper : Iid}

def passes (T : Table m) (i : Fin m.indexes.length) (sc : IndexScan) (e : Key (m.ix i).keyCols × Rid) : Bool :=
  (indexClean i sc || sc.cmpIndexConds e.1) && (T.fh.live e.2).any (cmpConds sc.conds)

variable {iid : Iid} {e : Key (m.ix i).keyCols × Rid}

theorem seek_succ {rec : List UInt8} (hne : iid ≠ upper)
    (hentry : (T.ihs i).entryAt iid = some e) (hlive : T.fh.live e.2 = some rec) (fuel : Nat) :
    seek T i sc (fuel + 1) ⟨iid, upper, iid.pageNo⟩ =
      if passes T i sc e then some ⟨⟨iid, upper, iid.pageNo⟩, some rec, false⟩
      else (IxScan.next (T.ihs i) ⟨iid, upper, iid.pageNo⟩).bind (seek T i sc fuel) := by
  have hend : IxScan.isEnd ⟨iid, upper, iid.pageNo⟩ = false := by simpa [IxScan.isEnd] using hne
  have hget : (T.fh.getRecord e.2).toOption = some rec := by rw [RmFileHandle.getRecord_eq hlive]; rfl
  rw [seek, if_neg (by simp [hend]), hentry]
  simp only [Option.bind_eq_bind, Option.bind_some, hget, passes, hlive, Option.any_some]
  cases indexClean i sc || sc.cmpIndexConds e.1 with
  | false => simp
  | true => simp

def HaveRecords (T : Table m) (i : Fin m.indexes.length) (entries : List (Key (m.ix i).keyCols × Rid)) : Prop :=
  ∀ e ∈ entries, ∃ rec, T.fh.live e.2 = some rec

variable (t : Tree (T.ihs i) L Us) (hrec : HaveRecords T i (flat L))

include t hrec

variable {M A B : List (Key (m.ix i).keyCols × Rid)}

/-- The scan goes over the entries that do not pass, if its end is not among their positions. -/
theorem seek_skip : ∀ {A B : List (Key (m.ix i).keyCols × Rid)} {iid : Iid},
    flat L = A ++ (M ++ B) → iidOf L A.length = some iid → (∀ e ∈ M, passes T i sc e = false) →
    (∀ k < M.length, iidOf L (A.length + k) ≠ some upper) → ∃ iid', iidOf L (A ++ M).length = some iid' ∧
      ∀ fuel, seek T i sc (M.length + fuel) ⟨iid, upper, iid.pageNo⟩ = seek T i sc fuel ⟨iid', upper, iid'.pageNo⟩ := by
  induction M with
  | nil =>
    intro A B iid _ hiid _ _
    exact ⟨iid, by simpa using hiid, fun fuel => by simp⟩
  | cons e M ih =>
    intro A B iid hflat hiid hM hupper
    obtain ⟨rec, hlive⟩ := hrec e (by rw [hflat]; simp)
    have hne : iid ≠ upper := fun heq => hupper 0 (by simp) (by rw [Nat.add_zero, hiid, heq])
    obtain ⟨iid₁, hnext, hiid₁⟩ := t.next_eq (m.ix i).order upper hiid (by simp [hflat])
    have hrest : flat L = (A ++ [e]) ++ (M ++ B) := by simp [hflat]
    obtain ⟨iid', hiid', hseek⟩ := ih hrest (by simpa using hiid₁) (fun x hx => hM x (mem_cons_of_mem _ hx))
      (fun k hk heq => hupper (k + 1) (by simpa using hk) (by rw [← heq, length_append]; congr 1; simp; omega))
    refine ⟨iid', by simpa using hiid', fun fuel => ?_⟩
    rw [length_cons, Nat.succ_add, seek_succ hne (t.entryAt_eq hflat hiid) hlive, if_neg (by simp [hM e]), hnext,
      Option.bind_some, hseek]

theorem seek_found (hflat : flat L = A ++ (M ++ e :: B)) (hiid : iidOf L A.length = some iid)
    (hM : ∀ x ∈ M, passes T i sc x = false) (he : passes T i sc e = true)
    (hupper : ∀ k ≤ M.length, iidOf L (A.length + k) ≠ some upper) {rec : List UInt8}
    (hlive : T.fh.live e.2 = some rec) {fuel : Nat} (hfuel : M.length < fuel) :
    ∃ scan, seek T i sc fuel ⟨iid, upper, iid.pageNo⟩ = some ⟨scan, some rec, false⟩ := by
  obtain ⟨iid', hiid', hseek⟩ := seek_skip t hrec hflat hiid hM fun k hk => hupper k hk.le
  obtain ⟨k, rfl⟩ : ∃ k, fuel = M.length + (k + 1) := ⟨fuel - M.length - 1, by omega⟩
  have hne : iid' ≠ upper := fun heq => hupper M.length le_rfl (by rw [← length_append, hiid', heq])
  have hentry := t.entryAt_eq (A := A ++ M) (by simpa using hflat) hiid'
  exact ⟨_, by rw [hseek, seek_succ hne hentry hlive, if_pos he]⟩

theorem seek_end (hflat : flat L = A ++ (M ++ B))
    (hiid : iidOf L A.length = some iid) (hM : ∀ x ∈ M, passes T i sc x = false)
    (hupper : iidOf L (A ++ M).length = some upper) {fuel : Nat} (hfuel : M.length < fuel) :
    ∃ scan, seek T i sc fuel ⟨iid, upper, iid.pageNo⟩ = some ⟨scan, none, true⟩ := by
  have hinj : ∀ k < M.length, iidOf L (A.length + k) ≠ some upper := by
    intro k hk heq
    have hlen := iidOf_inj (nodup_append.1 t.nodup).1 heq hupper
    rw [length_append] at hlen
    omega
  obtain ⟨iid', hiid', hseek⟩ := seek_skip t hrec hflat hiid hM hinj
  obtain ⟨k, rfl⟩ : ∃ k, fuel = M.length + (k + 1) := ⟨fuel - M.length - 1, by omega⟩
  obtain rfl : iid' = upper := Option.some.inj (hiid'.symm.trans hupper)
  exact ⟨⟨iid', iid', iid'.pageNo⟩, by rw [hseek, seek, if_pos (by simp [IxScan.isEnd])]⟩

theorem seek_over (hflat : flat L = A ++ B) (hiid : iidOf L A.length = some iid) (hB : ∀ x ∈ B, passes T i sc x = false)
    (hupper : ∀ k ≤ B.length, iidOf L (A.length + k) ≠ some upper) (fuel : Nat) :
    seek T i sc fuel ⟨iid, upper, iid.pageNo⟩ = none := by
  induction B generalizing A iid fuel with
  | nil =>
    have hne : iid ≠ upper := fun heq => hupper 0 le_rfl (by rw [Nat.add_zero, hiid, heq])
    have hlast : iidOf L (flat L).length = some iid := by rw [hflat, append_nil]; exact hiid
    have hend : IxScan.isEnd ⟨iid, upper, iid.pageNo⟩ = false := by simpa [IxScan.isEnd] using hne
    cases fuel with
    | zero => rfl
    | succ fuel =>
      rw [seek, if_neg (by simp [hend]), t.entryAt_end hlast]
      rfl
  | cons e B ih =>
    obtain ⟨rec, hlive⟩ := hrec e (by rw [hflat]; simp)
    have hne : iid ≠ upper := fun heq => hupper 0 (Nat.zero_le _) (by rw [Nat.add_zero, hiid, heq])
    obtain ⟨iid₁, hnext, hiid₁⟩ := t.next_eq (m.ix i).order upper hiid (by simp [hflat])
    cases fuel with
    | zero => rfl
    | succ fuel =>
      rw [seek_succ hne (t.entryAt_eq hflat hiid) hlive, if_neg (by simp [hB e]), hnext, Option.bind_some]
      refine ih (A := A ++ [e]) (by simp [hflat]) (by simpa using hiid₁) (fun x hx => hB x (mem_cons_of_mem _ hx))
        (fun k hk heq => hupper (k + 1) (by simpa using hk) (by rw [← heq, length_append]; congr 1; simp; omega))
        fuel

end

end IndexScanExecutor

/-! ## Projection and limit -/

/-- `ProjectionExecutor` over something else than an aggregate. Its state has `limit_`. -/
def projection {σ : Type} (prev : Iter σ (List UInt8)) (projCols : List ColMeta) : Iter (σ × Int) (List UInt8) where
  beginTuple s := (prev.beginTuple s.1).map fun p => (p, s.2)
  nextTuple s := if s.2 = 0 then some s else (prev.nextTuple s.1).map fun p => (p, s.2)
  isEnd s := s.2 = 0 || prev.isEnd s.1
  next s := (prev.next s.1).map fun (rec, p) => (projCols.flatMap fun c => c.read rec, (p, s.2 - 1))

def selectRows {σ ρ : Type} (e : Iter σ ρ) : Nat → σ → Option (List ρ)
  | 0, _ => none
  | fuel + 1, s =>
    if e.isEnd s then some []
    else do
      let (row, s) ← e.next s
      let s ← e.nextTuple s
      let rows ← selectRows e fuel s
      some (row :: rows)

def selectFrom {σ ρ : Type} (e : Iter σ ρ) (fuel : Nat) (s : σ) : Option (List ρ) := do
  selectRows e fuel (← e.beginTuple s)

section Limit

variable {σ : Type} {prev : Iter σ (List UInt8)} {projCols : List ColMeta} {s s' : σ} {rec : List UInt8} {fuel : Nat}

theorem selectFrom_limit_one (hbegin : prev.beginTuple s = some s') (hend : prev.isEnd s' = false) {s'' : σ}
    (hnext : prev.next s' = some (rec, s'')) (hfuel : 1 < fuel) :
    selectFrom (projection prev projCols) fuel (s, 1) = some [projCols.flatMap fun c => c.read rec] := by
  obtain ⟨fuel, rfl⟩ : ∃ k, fuel = k + 2 := ⟨fuel - 2, by omega⟩
  simp [selectFrom, selectRows, projection, hbegin, hend, hnext]

theorem selectFrom_limit_end (hbegin : prev.beginTuple s = some s') (hend : prev.isEnd s' = true) (hfuel : 0 < fuel) :
    selectFrom (projection prev projCols) fuel (s, 1) = some [] := by
  obtain ⟨fuel, rfl⟩ : ∃ k, fuel = k + 1 := ⟨fuel - 1, by omega⟩
  simp [selectFrom, selectRows, projection, hbegin, hend]

theorem selectFrom_none (hbegin : prev.beginTuple s = none) (l : Int) :
    selectFrom (projection prev projCols) fuel (s, l) = none := by
  simp [selectFrom, projection, hbegin]

end Limit

end Rmdb.Execution
