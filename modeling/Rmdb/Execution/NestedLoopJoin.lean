/-
The nested-loop join.

For each row of the left child the right child is gone through. With two sorted
children the inner loop also stops at a row that compares as greater in the
condition it fails, which is right when the right child ascends in this column.
-/
import Rmdb.Execution.JoinCond

namespace Rmdb.Execution

open List Index

structure NestedLoopJoin (σ τ : Type) where
  left : σ
  right : τ
  rmRecord : Option (List UInt8)
  lhsRec : List UInt8
  isRightEmpty : Bool
  lastCmp : Int

namespace NestedLoopJoin

variable {σ τ : Type}

section

variable (j : Join σ τ)

def sortMode : Bool := j.left.isSort && j.right.isSort

def scanRight : Nat → NestedLoopJoin σ τ → Option (Bool × NestedLoopJoin σ τ)
  | 0, _ => none
  | fuel + 1, s =>
    if j.right.isEnd s.right then some (false, s)
    else do
      let (rhsRec, right) ← j.right.next s.right
      let (ok, lastCmp) ← j.cmpConds s.lhsRec rhsRec s.lastCmp j.fedConds
      let s := { s with right := right, lastCmp := lastCmp }
      if ok then some (true, { s with rmRecord := some (j.concat s.lhsRec rhsRec) })
      else if sortMode j && decide (lastCmp < 0) then some (false, s)
      else
        let right ← j.right.nextTuple s.right
        scanRight fuel { s with right := right }

def beginLoop (scanFuel : Nat) : Nat → NestedLoopJoin σ τ → Option (NestedLoopJoin σ τ)
  | 0, _ => none
  | fuel + 1, s => do
    let (lhsRec, left) ← j.left.next s.left
    let (found, s) ← scanRight j scanFuel { s with left := left, lhsRec := lhsRec }
    if found then some s
    else
      let left ← j.left.nextTuple s.left
      let right ← j.right.beginTuple s.right
      let s := { s with left := left, right := right }
      if j.left.isEnd s.left then some s else beginLoop scanFuel fuel s

def beginTuple (fuel : Nat) (s : NestedLoopJoin σ τ) : Option (NestedLoopJoin σ τ) := do
  let left ← j.left.beginTuple s.left
  let s := { s with left := left }
  if j.left.isEnd s.left then some s
  else
    let right ← j.right.beginTuple s.right
    let s := { s with right := right }
    if j.right.isEnd s.right then some { s with isRightEmpty := true } else beginLoop j fuel fuel s

def nextLoop (scanFuel : Nat) : Nat → NestedLoopJoin σ τ → Option (NestedLoopJoin σ τ)
  | 0, _ => none
  | fuel + 1, s => do
    let (found, s) ← scanRight j scanFuel s
    if found then some s
    else
      let left ← j.left.nextTuple s.left
      let s := { s with left := left }
      if j.left.isEnd s.left then some s
      else
        let (lhsRec, left) ← j.left.next s.left
        let right ← j.right.beginTuple s.right
        nextLoop scanFuel fuel { s with left := left, lhsRec := lhsRec, right := right }

def nextTuple (fuel : Nat) (s : NestedLoopJoin σ τ) : Option (NestedLoopJoin σ τ) :=
  if j.left.isEnd s.left then some s
  else do
    let right ← j.right.nextTuple s.right
    nextLoop j fuel fuel { s with right := right }

def isEnd (s : NestedLoopJoin σ τ) : Bool := j.left.isEnd s.left || s.isRightEmpty

/-- `Next` moves the row out. -/
def next (s : NestedLoopJoin σ τ) : Option (List UInt8 × NestedLoopJoin σ τ) :=
  s.rmRecord.map fun rec => (rec, { s with rmRecord := none })

def executor (fuel : Nat) : Executor (NestedLoopJoin σ τ) where
  beginTuple := beginTuple j fuel
  nextTuple := nextTuple j fuel
  isEnd := isEnd j
  next := next
  cols := j.cols
  tupleLen := j.tupleLen
  isSort := false

end

def init (left : σ) (right : τ) (lastCmp : Int) : NestedLoopJoin σ τ where
  left := left
  right := right
  rmRecord := none
  lhsRec := []
  isRightEmpty := false
  lastCmp := lastCmp

/-! ## The rows it gives -/

/-- The row fails a condition in which it compares as greater than the left one. -/
def stops (j : Join σ τ) (l r : List UInt8) : Bool :=
  sortMode j && (j.firstFail l r j.fedConds).any fun cond => j.condCmp cond l r < 0

def passes (j : Join σ τ) (l r : List UInt8) : Bool := (j.firstFail l r j.fedConds).isNone

def found (j : Join σ τ) (l : List UInt8) : List (List UInt8) → List (List UInt8)
  | [] => []
  | r :: rs => if passes j l r then r :: found j l rs else if stops j l r then [] else found j l rs

def rows (j : Join σ τ) (ls rs : List (List UInt8)) : List (List UInt8) :=
  ls.flatMap fun l => (found j l rs).map (j.concat l)

section Run

variable {j : Join σ τ} {P : σ → Prop} {Q : τ → Prop} {lrows rrows ls rs out : List (List UInt8)} {l r : List UInt8}
  {s : NestedLoopJoin σ τ} {fuel n : Nat}

structure Kept (s s' : NestedLoopJoin σ τ) : Prop where
  left : s'.left = s.left
  lhsRec : s'.lhsRec = s.lhsRec
  isRightEmpty : s'.isRightEmpty = s.isRightEmpty

structure Inv (P : σ → Prop) (Q : τ → Prop) (rrows : List (List UInt8)) (s : NestedLoopJoin σ τ) : Prop where
  left : P s.left
  right : Q s.right
  empty : s.isRightEmpty = true → rrows = []

structure OnPair (j : Join σ τ) (P : σ → Prop) (Q : τ → Prop) (fuel : Nat) (l : List UInt8) (ls rs : List (List UInt8))
    (s : NestedLoopJoin σ τ) : Prop where
  left : j.left.Stands P ls s.left
  right : j.right.Stands Q rs s.right
  lhsRec : s.lhsRec = l
  nonempty : s.isRightEmpty = false
  leftFuel : ls.length < fuel
  rightFuel : rs.length < fuel

def Located (j : Join σ τ) (P : σ → Prop) (Q : τ → Prop) (rrows : List (List UInt8)) (fuel : Nat) (s : NestedLoopJoin σ τ)
    (out : List (List UInt8)) : Prop :=
  (out = [] ∧ Inv P Q rrows s ∧ isEnd j s = true) ∨
    ∃ l r ls rs, out = j.concat l r :: ((found j l rs).map (j.concat l) ++ rows j ls rrows) ∧
      s.rmRecord = some (j.concat l r) ∧ OnPair j P Q fuel l ls rs s

theorem OnPair.isEnd (h : OnPair j P Q fuel l ls rs s) : isEnd j s = false := by
  rw [NestedLoopJoin.isEnd, h.left.2.1, h.nonempty, Bool.or_self]

variable (hconds : ∀ cond ∈ j.fedConds, j.Between cond)

include hconds

theorem cmpConds_fails (h : passes j l r = false) (lastCmp : Int) :
    ∃ k, j.cmpConds l r lastCmp j.fedConds = some (false, k) ∧ (sortMode j && decide (k < 0)) = stops j l r := by
  cases hfail : j.firstFail l r j.fedConds with
  | none => simp [passes, hfail] at h
  | some cond => exact ⟨_, Join.cmpConds_of_some hconds hfail, by simp [stops, hfail]⟩

theorem scanRight_eq (hn : rs.length < n) (hrs : j.right.Shows Q rs s.right) : ∃ s', Kept s s' ∧
    (found j s.lhsRec rs = [] ∧ scanRight j n s = some (false, s') ∧ Q s'.right ∨
      ∃ r rs', found j s.lhsRec rs = r :: found j s.lhsRec rs' ∧ scanRight j n s = some (true, s') ∧
        s'.rmRecord = some (j.concat s.lhsRec r) ∧ j.right.Stands Q rs' s'.right ∧ rs'.length ≤ rs.length) := by
  induction n generalizing rs s with
  | zero => exact absurd hn (Nat.not_lt_zero _)
  | succ n ih =>
    cases rs with
    | nil =>
      have hend : j.right.isEnd s.right = true := hrs.isEnd_eq
      exact ⟨s, ⟨rfl, rfl, rfl⟩, .inl ⟨rfl, by rw [scanRight, if_pos hend], hrs.state⟩⟩
    | cons r rs =>
      have hend : j.right.isEnd s.right = false := hrs.isEnd_eq
      obtain ⟨right, hnext, hstands⟩ := hrs.next
      rw [scanRight, hend, if_neg (by simp), hnext, found]
      cases hpass : passes j s.lhsRec r with
      | true =>
        obtain ⟨k, hk⟩ : ∃ k, j.cmpConds s.lhsRec r s.lastCmp j.fedConds = some (true, k) :=
          Join.cmpConds_of_none hconds (Option.isNone_iff_eq_none.1 hpass)
        simp only [Option.bind_eq_bind, Option.bind_some, hk, if_true]
        exact ⟨⟨s.left, right, _, _, _, k⟩, ⟨rfl, rfl, rfl⟩, .inr ⟨r, rs, rfl, rfl, rfl, hstands, Nat.le_succ _⟩⟩
      | false =>
        obtain ⟨k, hk, hstop⟩ := cmpConds_fails hconds hpass s.lastCmp
        simp only [Option.bind_eq_bind, Option.bind_some, hk, hstop, Bool.false_eq_true, if_false]
        cases stops j s.lhsRec r with
        | true => exact ⟨{ s with right := right, lastCmp := k }, ⟨rfl, rfl, rfl⟩, .inl ⟨rfl, rfl, hstands.1⟩⟩
        | false =>
          obtain ⟨-, -, right', hstep, hshows⟩ := hstands
          simp only [Bool.false_eq_true, if_false, hstep, Option.bind_some]
          obtain ⟨s', hkept, hs'⟩ := @ih rs { s with right := right', lastCmp := k } (by simpa using hn) hshows
          refine ⟨s', ⟨hkept.left, hkept.lhsRec, hkept.isRightEmpty⟩, hs'.imp id ?_⟩
          intro ⟨r', rs', hfound, hscan, hrec, hst, hlen⟩
          exact ⟨r', rs', hfound, hscan, hrec, hst, Nat.le_succ_of_le hlen⟩

variable (hR : j.right.Replays Q rrows) (hfuel : rrows.length < fuel)

include hR hfuel

theorem nextLoop_located (hn : ls.length < n) (hnf : n ≤ fuel) (hrf : rs.length < fuel) (hls : j.left.Stands P ls s.left)
    (hrs : j.right.Shows Q rs s.right) (hempty : s.isRightEmpty = false) : ∃ s', nextLoop j fuel n s = some s' ∧
      Located j P Q rrows fuel s' ((found j s.lhsRec rs).map (j.concat s.lhsRec) ++ rows j ls rrows) := by
  induction n generalizing ls rs s with
  | zero => exact absurd hn (Nat.not_lt_zero _)
  | succ n ih =>
    obtain ⟨s', hkept, ⟨hfound, hs', hq⟩ | ⟨r, rs', hfound, hs', hrec, hst, hlen⟩⟩ := scanRight_eq hconds hrf hrs
    · obtain ⟨-, -, left', hstep, hshows⟩ := hls
      rw [nextLoop, hfound]
      simp only [Option.bind_eq_bind, hs', Option.bind_some, Bool.false_eq_true, if_false, hkept.left, hstep]
      cases ls with
      | nil =>
        have hend : j.left.isEnd left' = true := hshows.isEnd_eq
        rw [if_pos hend]
        exact ⟨_, rfl, .inl ⟨rfl, ⟨hshows.state, hq, by simp [hkept.isRightEmpty, hempty]⟩, by simp [isEnd, hend]⟩⟩
      | cons l ls =>
        have hend : j.left.isEnd left' = false := hshows.isEnd_eq
        obtain ⟨left'', hnext, hstands⟩ := hshows.next
        obtain ⟨right', hbegin, hrshows⟩ := hR s'.right hq
        simp only [hend, Bool.false_eq_true, if_false, hnext, hbegin, Option.bind_some]
        have ih := @ih ls rrows { s' with left := left'', lhsRec := l, right := right' } (by simpa using hn) (by omega)
          hfuel hstands hrshows (hkept.isRightEmpty.trans hempty)
        simpa [rows] using ih
    · refine ⟨s', by simp [nextLoop, hs'], .inr ⟨s.lhsRec, r, ls, rs', by rw [hfound]; rfl, hrec, ?_⟩⟩
      exact ⟨by rwa [hkept.left], hst, hkept.lhsRec, hkept.isRightEmpty.trans hempty, by omega, by omega⟩

theorem beginLoop_located (hn : ls.length < n) (hnf : n ≤ fuel) (hls : j.left.Shows P (l :: ls) s.left)
    (hrs : j.right.Shows Q rrows s.right) (hempty : s.isRightEmpty = false) :
    ∃ s', beginLoop j fuel n s = some s' ∧ Located j P Q rrows fuel s' (rows j (l :: ls) rrows) := by
  induction n generalizing l ls s with
  | zero => exact absurd hn (Nat.not_lt_zero _)
  | succ n ih =>
    obtain ⟨left', hnext, hstands⟩ := hls.next
    rw [beginLoop, hnext, rows, flatMap_cons, ← rows]
    obtain ⟨s', hkept, ⟨hfound, hs', hq⟩ | ⟨r, rs', hfound, hs', hrec, hst, hlen⟩⟩ :=
      @scanRight_eq _ _ j Q _ { s with left := left', lhsRec := l } _ hconds hfuel hrs
    · obtain ⟨-, -, left'', hstep, hshows⟩ := hstands
      obtain ⟨right', hbegin, hrshows⟩ := hR s'.right hq
      have hempty' : s'.isRightEmpty = false := hkept.isRightEmpty.trans hempty
      rw [hfound]
      simp only [Option.bind_eq_bind, hs', Option.bind_some, Bool.false_eq_true, if_false, hkept.left, hstep, hbegin]
      cases ls with
      | nil =>
        have hend : j.left.isEnd left'' = true := hshows.isEnd_eq
        rw [if_pos hend]
        exact ⟨_, rfl, .inl ⟨rfl, ⟨hshows.state, hrshows.state, by simp [hempty']⟩, by simp [isEnd, hend]⟩⟩
      | cons l' ls =>
        have hend : j.left.isEnd left'' = false := hshows.isEnd_eq
        rw [hend, if_neg (by simp)]
        exact ih (by simpa using hn) (by omega) hshows hrshows hempty'
    · refine ⟨s', by simp [hs'], .inr ⟨l, r, ls, rs', by rw [hfound]; rfl, hrec, ?_⟩⟩
      exact ⟨by rwa [hkept.left], hst, hkept.lhsRec, hkept.isRightEmpty.trans hempty, by omega, by omega⟩

theorem beginTuple_located (hL : j.left.Replays P lrows) (hlfuel : lrows.length < fuel) (hs : Inv P Q rrows s) :
    ∃ s', beginTuple j fuel s = some s' ∧ Located j P Q rrows fuel s' (rows j lrows rrows) := by
  obtain ⟨left', hlbegin, hlshows⟩ := hL s.left hs.left
  obtain ⟨right', hrbegin, hrshows⟩ := hR s.right hs.right
  rw [beginTuple, hlbegin]
  simp only [Option.bind_eq_bind, Option.bind_some, hrbegin]
  cases lrows with
  | nil =>
    have hend : j.left.isEnd left' = true := hlshows.isEnd_eq
    rw [if_pos hend]
    exact ⟨_, rfl, .inl ⟨rfl, ⟨hlshows.state, hs.right, hs.empty⟩, by simp [isEnd, hend]⟩⟩
  | cons l ls =>
    have hend : j.left.isEnd left' = false := hlshows.isEnd_eq
    rw [hend, if_neg (by simp)]
    cases rrows with
    | nil =>
      have hrend : j.right.isEnd right' = true := hrshows.isEnd_eq
      rw [if_pos hrend]
      exact ⟨_, rfl, .inl ⟨by simp [rows, found], ⟨hlshows.state, hrshows.state, fun _ => rfl⟩, by simp [isEnd]⟩⟩
    | cons r rs =>
      have hrend : j.right.isEnd right' = false := hrshows.isEnd_eq
      have hempty : s.isRightEmpty = false := Bool.eq_false_iff.2 fun h => absurd (hs.empty h) (by simp)
      rw [hrend, if_neg (by simp)]
      exact beginLoop_located hconds hR hfuel (Nat.lt_of_succ_lt hlfuel) le_rfl hlshows hrshows hempty

theorem Located.shows (h : Located j P Q rrows fuel s out) : (executor j fuel).Shows (Inv P Q rrows) out s := by
  induction out generalizing s with
  | nil =>
    obtain ⟨-, hinv, hend⟩ | ⟨_, _, _, _, h, -⟩ := h
    · exact ⟨hinv, hend⟩
    · cases h
  | cons row out ih =>
    obtain ⟨h, -⟩ | ⟨l, r, ls, rs, hout, hrec, hon⟩ := h
    · cases h
    obtain ⟨rfl, rfl⟩ := List.cons.inj hout
    have hinv : ∀ rec, Inv P Q rrows { s with rmRecord := rec } := fun _ =>
      ⟨hon.left.1, hon.right.1, by simp [hon.nonempty]⟩
    have hnext : next s = some (j.concat l r, { s with rmRecord := none }) := by rw [next, hrec, Option.map_some]
    obtain ⟨right', hstep, hrshows⟩ := hon.right.2.2
    obtain ⟨s', hs', hloc⟩ := @nextLoop_located _ _ j P Q _ _ _ { s with rmRecord := none, right := right' } _ _ hconds hR
      hfuel hon.leftFuel le_rfl hon.rightFuel hon.left hrshows hon.nonempty
    refine Iter.shows_cons (hinv _) hon.isEnd hnext ⟨hinv none, hon.isEnd, s', ?_, ih ?_⟩
    · change nextTuple j fuel _ = _
      rw [nextTuple, if_neg (by simp [hon.left.2.1])]
      simp only [hstep, Option.bind_eq_bind, Option.bind_some]
      exact hs'
    · rwa [hon.lhsRec] at hloc

theorem replays_rows (hL : j.left.Replays P lrows) (hlfuel : lrows.length < fuel) :
    (executor j fuel).Replays (Inv P Q rrows) (rows j lrows rrows) := by
  intro s hs
  obtain ⟨s', hs', hloc⟩ := beginTuple_located hconds hR hfuel hL hlfuel hs
  exact ⟨s', hs', hloc.shows hconds hR hfuel⟩

end Run

/-! ## When these are the rows of the join -/

/-- What a left row needs of the right ones: up to the first one that the loop
stops at, `cmp_conds` says what the conditions say, and behind it no row
satisfies them. -/
def Exact (j : Join σ τ) (l : List UInt8) : List (List UInt8) → Prop
  | [] => True
  | r :: rs => passes j l r = j.satAll l r ∧
      if stops j l r then ∀ r' ∈ rs, j.satAll l r' = false else Exact j l rs

section Exact

variable {j : Join σ τ} {l : List UInt8} {rs : List (List UInt8)}

theorem passes_of_mem_found {r : List UInt8} (h : r ∈ found j l rs) : passes j l r = true ∧ r ∈ rs := by
  induction rs with
  | nil => exact absurd h (by simp [found])
  | cons r' rs ih =>
    rw [found] at h
    split_ifs at h with hpass hstop
    · rcases mem_cons.1 h with rfl | h
      · exact ⟨hpass, mem_cons_self⟩
      · exact (ih h).imp_right (mem_cons_of_mem _)
    · exact absurd h not_mem_nil
    · exact (ih h).imp_right (mem_cons_of_mem _)

theorem stops_of_passes {r : List UInt8} (h : passes j l r = true) : stops j l r = false := by
  rw [stops, Option.isNone_iff_eq_none.1 h, Option.any_none, Bool.and_false]

theorem found_eq_filter_iff : ∀ {rs : List (List UInt8)}, found j l rs = rs.filter (j.satAll l) ↔ Exact j l rs
  | [] => by simp [found, Exact]
  | r :: rs => by
    have ih : found j l rs = rs.filter (j.satAll l) ↔ Exact j l rs := found_eq_filter_iff
    rw [found, Exact, filter_cons]
    cases hpass : passes j l r with
    | true =>
      simp only [stops_of_passes hpass, if_true, Bool.false_eq_true, if_false]
      cases hsat : j.satAll l r with
      | true => simpa using ih
      | false =>
        -- the row is found but not one of the join
        refine iff_of_false (fun h => ?_) (by simp)
        simp only [Bool.false_eq_true, if_false] at h
        have hmem : r ∈ rs.filter (j.satAll l) := h ▸ mem_cons_self
        exact absurd (mem_filter.1 hmem).2 (by simp [hsat])
    | false =>
      simp only [Bool.false_eq_true, if_false]
      cases hstop : stops j l r with
      | true =>
        simp only [if_true]
        cases hsat : j.satAll l r with
        | true => simp
        | false =>
          simp only [Bool.false_eq_true, if_false, true_and, eq_comm (a := []), filter_eq_nil_iff, Bool.not_eq_true]
      | false =>
        simp only [Bool.false_eq_true, if_false]
        cases hsat : j.satAll l r with
        | true =>
          -- the row is one of the join but not found
          refine iff_of_false (fun h => ?_) (by simp)
          simp only [if_true] at h
          have hmem : r ∈ found j l rs := h ▸ mem_cons_self
          exact absurd (passes_of_mem_found hmem).1 (by simp [hpass])
        | false => simpa using ih

end Exact

def SameLength (j : Join σ τ) : Prop := ∀ cond ∈ j.fedConds, ∀ lc rc, j.condCols cond = some (lc, rc) → lc.len = rc.len

theorem passes_eq_satAll {j : Join σ τ} (hconds : ∀ cond ∈ j.fedConds, j.Between cond) (hlen : SameLength j)
    {l r : List UInt8} (hl : l.length = j.left.tupleLen) (hr : r.length = j.right.tupleLen) :
    passes j l r = j.satAll l r := by
  have hsat : ∀ cond ∈ j.fedConds, j.sat cond l r = j.condHolds l r cond := fun cond hcond =>
    Join.sat_eq_condHolds (hconds cond hcond) (hlen cond hcond) hl hr
  rw [Bool.eq_iff_iff, passes, Option.isNone_iff_eq_none, Join.firstFail, List.find?_eq_none, Join.satAll, all_eq_true]
  refine forall₂_congr fun cond hcond => ?_
  simp [hsat cond hcond]

theorem CompOp.test_of_neg {op : CompOp} {a b : Int} (ha : a < 0) (hb : b < 0) : op.test a = op.test b := by
  cases op <;> simp [CompOp.test] <;> omega

/-- With one condition, and the right rows ascending in its column, no row
behind the one that the loop stops at can match. -/
theorem exact_of_ascending {j : Join σ τ} {cond : Cond} {lc rc : ColMeta} (hone : j.fedConds = [cond])
    (hcond : j.Between cond) (hcols : j.condCols cond = some (lc, rc)) (hlen : lc.len = rc.len) {l : List UInt8}
    (hl : l.length = j.left.tupleLen) : ∀ {rs : List (List UInt8)}, (∀ r ∈ rs, r.length = j.right.tupleLen) →
    Ascending rc rs → Exact j l rs
  | [], _, _ => trivial
  | r :: rs, hr, hasc => by
    have hconds : ∀ c ∈ j.fedConds, j.Between c := by
      rw [hone]
      simpa using hcond
    have hsame : SameLength j := by
      intro c hc lc' rc' hcols'
      rw [hone, mem_singleton] at hc
      rw [hc, hcols, Option.some.injEq, Prod.mk.injEq] at hcols'
      rw [← hcols'.1, ← hcols'.2, hlen]
    obtain ⟨hfirst, hrest⟩ := pairwise_cons.1 hasc
    refine ⟨passes_eq_satAll hconds hsame hl (hr r mem_cons_self), ?_⟩
    split_ifs with hstop
    · intro r' hr'
      obtain ⟨lc', rc', hcols', htype, hfloat, hlin, hrin, -⟩ := hcond.cols
      rw [hcols, Option.some.injEq, Prod.mk.injEq] at hcols'
      obtain ⟨rfl, rfl⟩ := hcols'
      have hkey : lc.keyCol = rc.keyCol := by rw [ColMeta.keyCol, ColMeta.keyCol, htype, hlen]
      have hk : rc.keyCol ≠ .float := ColMeta.keyCol_ne_float (htype ▸ hfloat)
      have hklen : rc.keyCol.len = rc.len := ColMeta.keyCol_len rc
      have hcmp : ∀ r'' ∈ r :: rs, j.condCmp cond l r'' =
          ixCmp (keyAt rc.keyCol hk lc.offset l) (keyAt rc.keyCol hk rc.offset r'') := by
        intro r'' hmem
        have := hr r'' hmem
        rw [Join.condCmp, hcols, ixCmp_keyAt hk (by omega) (by omega)]
        simp only [hkey]
      -- the row fails, and it is greater
      rw [stops, hone, Join.firstFail, List.find?_singleton] at hstop
      cases hholds : j.condHolds l r cond with
      | true => simp [hholds] at hstop
      | false =>
        simp only [hholds, Bool.not_false, if_true, Option.any_some, Bool.and_eq_true, decide_eq_true_eq] at hstop
        have hlt := hcmp r mem_cons_self ▸ hstop.2
        have hle : keyAt rc.keyCol hk rc.offset r ≤ keyAt rc.keyCol hk rc.offset r' := by
          have h₁ := hr r mem_cons_self
          have h₂ := hr r' (mem_cons_of_mem _ hr')
          rw [← ixCmp_le_zero, ixCmp_keyAt hk (by omega) (by omega)]
          exact hfirst r' hr'
        have hlt' : j.condCmp cond l r' < 0 := by
          rw [hcmp r' (mem_cons_of_mem _ hr'), ixCmp_lt_zero]
          exact (ixCmp_lt_zero.1 hlt).trans_le hle
        rw [← passes_eq_satAll hconds hsame hl (hr r' (mem_cons_of_mem _ hr')), passes, hone, Join.firstFail,
          List.find?_singleton]
        have hfail : j.condHolds l r' cond = false := by
          rw [Join.condHolds] at hholds ⊢
          rw [← hholds]
          exact CompOp.test_of_neg hlt' hstop.2
        simp [hfail]
    · exact exact_of_ascending hone hcond hcols hlen hl (fun r' hr' => hr r' (mem_cons_of_mem _ hr')) hrest

theorem inv_init {P : σ → Prop} {Q : τ → Prop} {rrows : List (List UInt8)} {left : σ} {right : τ} (hP : P left)
    (hQ : Q right) (lastCmp : Int) : Inv P Q rrows (init left right lastCmp) := ⟨hP, hQ, by simp [init]⟩

theorem map_concat_inj {j : Join σ τ} {l : List UInt8} {rs rs' : List (List UInt8)} (hl : l.length = j.left.tupleLen)
    (hrs : ∀ r ∈ rs, r.length = j.right.tupleLen) (hrs' : ∀ r ∈ rs', r.length = j.right.tupleLen) :
    rs.map (j.concat l) = rs'.map (j.concat l) ↔ rs = rs' := by
  have hdrop : ∀ {rs : List (List UInt8)}, (∀ r ∈ rs, r.length = j.right.tupleLen) →
      (rs.map (j.concat l)).map (fun b => b.drop j.left.tupleLen) = rs := by
    intro rs hrs
    rw [map_map]
    refine (map_congr_left fun r hr => ?_).trans (map_id rs)
    rw [Function.comp_apply, Join.concat_eq hl (hrs r hr), ← hl, drop_left, id]
  refine ⟨fun h => ?_, fun h => by rw [h]⟩
  rw [← hdrop hrs, ← hdrop hrs', h]

/-- The join gives the pairs that satisfy the conditions, in left-major order
and on every pass, when each left row finds its right rows before the inner
loop stops. -/
theorem replays_filter_iff {j : Join σ τ} {P : σ → Prop} {Q : τ → Prop} {lrows rrows : List (List UInt8)} {fuel : Nat}
    (hconds : ∀ cond ∈ j.fedConds, j.Between cond) (hL : j.left.Replays P lrows) (hR : j.right.Replays Q rrows)
    (hl : ∀ l ∈ lrows, l.length = j.left.tupleLen) (hr : ∀ r ∈ rrows, r.length = j.right.tupleLen)
    (hlfuel : lrows.length < fuel) (hrfuel : rrows.length < fuel) (left : σ) (right : τ) (hP : P left) (hQ : Q right) :
    (executor j fuel).Replays (Inv P Q rrows) (lrows.flatMap fun l => (rrows.filter (j.satAll l)).map (j.concat l)) ↔
      ∀ l ∈ lrows, Exact j l rrows := by
  have hrows := replays_rows hconds hR hrfuel hL hlfuel
  have hfound : ∀ l, ∀ r ∈ found j l rrows, r ∈ rrows := fun l r h => (passes_of_mem_found h).2
  have hfilter : ∀ l, ∀ r ∈ rrows.filter (j.satAll l), r ∈ rrows := fun l r h => (mem_filter.1 h).1
  -- the left row can be read off a row of the join
  have htag : ∀ {f : List UInt8 → List (List UInt8)}, (∀ l, ∀ r ∈ f l, r ∈ rrows) →
      ∀ l ∈ lrows, ∀ b ∈ (f l).map (j.concat l), b.take j.left.tupleLen = l := by
    intro f hf l hlm b hb
    obtain ⟨r, hrm, rfl⟩ := mem_map.1 hb
    rw [Join.concat_eq (hl l hlm) (hr r (hf l r hrm)), ← hl l hlm, take_left]
  calc (executor j fuel).Replays (Inv P Q rrows) (lrows.flatMap fun l => (rrows.filter (j.satAll l)).map (j.concat l))
      ↔ rows j lrows rrows = lrows.flatMap fun l => (rrows.filter (j.satAll l)).map (j.concat l) :=
        ⟨fun h => hrows.unique h (inv_init hP hQ 0), fun h => h ▸ hrows⟩
    _ ↔ ∀ l ∈ lrows, (found j l rrows).map (j.concat l) = (rrows.filter (j.satAll l)).map (j.concat l) :=
        Lists.flatMap_inj_of_tag (fun b => b.take j.left.tupleLen) (htag hfound) (htag hfilter)
    _ ↔ ∀ l ∈ lrows, Exact j l rrows := by
        refine forall₂_congr fun l hlm => ?_
        rw [map_concat_inj (hl l hlm) (fun r h => hr r (hfound l r h)) fun r h => hr r (hfilter l r h), found_eq_filter_iff]

/-! ## Two rows -/

def intCol (name : String) : ColMeta := .intAt name 0

def sorted (tabName : String) (rows : List (List UInt8)) : Executor (List (List UInt8)) where
  toIter := .ofList rows
  cols := [⟨tabName, intCol "a"⟩]
  tupleLen := 4
  isSort := true

def equalA : Cond := ⟨⟨"t", "a"⟩, .eq, false, ⟨"u", "a"⟩, ⟨.int, none⟩⟩

def sortedJoin (lrows rrows : List (List UInt8)) : Join (List (List UInt8)) (List (List UInt8)) where
  left := sorted "t" lrows
  right := sorted "u" rrows
  fedConds := [equalA]

theorem between_equalA (lrows rrows : List (List UInt8)) : (sortedJoin lrows rrows).Between equalA where
  isCol := rfl
  notLeft := rfl
  cols := ⟨intCol "a", intCol "a", rfl, rfl, by simp [intCol], Nat.le_refl 4, Nat.le_refl 4, Nat.le_refl 4⟩

def asc : List (List UInt8) := [[1, 0, 0, 0], [2, 0, 0, 0]]
def desc : List (List UInt8) := [[2, 0, 0, 0], [1, 0, 0, 0]]

theorem replays_asc :
    (executor (sortedJoin asc asc) 3).Replays (Inv (fun _ => True) (fun _ => True) asc)
      [[1, 0, 0, 0, 1, 0, 0, 0], [2, 0, 0, 0, 2, 0, 0, 0]] :=
  (replays_filter_iff (j := sortedJoin asc asc) (by simpa [sortedJoin] using between_equalA asc asc)
    (Iter.replays_ofList asc) (Iter.replays_ofList asc) (by decide) (by decide) (by decide) (by decide) [] []
    trivial trivial).2 fun l hl => exact_of_ascending rfl (between_equalA asc asc) rfl rfl (by revert l; decide) (by decide)
      (by unfold Ascending; decide)

/-- Descending, the second left row stops at the first right row, which is
greater, and its partner stands behind. -/
theorem desc_loses_row :
    desc.Pairwise (fun a b => ixCompareCol .int a b ≥ 0) ∧
    (executor (sortedJoin desc desc) 3).Replays (Inv (fun _ => True) (fun _ => True) desc) [[2, 0, 0, 0, 2, 0, 0, 0]] ∧
    (desc.flatMap fun l => (desc.filter ((sortedJoin desc desc).satAll l)).map ((sortedJoin desc desc).concat l)) =
      [[2, 0, 0, 0, 2, 0, 0, 0], [1, 0, 0, 0, 1, 0, 0, 0]] := by
  refine ⟨by decide, ?_, by decide⟩
  exact replays_rows (j := sortedJoin desc desc) (by simpa [sortedJoin] using between_equalA desc desc)
    (Iter.replays_ofList desc) (by decide) (Iter.replays_ofList desc) (by decide)

end NestedLoopJoin

end Rmdb.Execution
