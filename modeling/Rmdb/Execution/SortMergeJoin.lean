/-
The sort-merge join.

Both children are sorted. The executor remembers the first right row that a left
row matched and how many there were, and gives that row again as often when the
next left row matches it. `merged` is what comes out: the join for `<>`, for the
other operators only when, roughly, no two left rows share different right rows.
-/
import Rmdb.Execution.Merge
import Rmdb.Execution.NestedLoopJoin

namespace Rmdb.Execution

open List Index

structure SortMergeJoin (σ τ : Type) where
  left : σ
  right : τ
  rmRecord : Option (List UInt8)
  lhsRec : List UInt8
  rhsRec : List UInt8
  isRightEmpty : Bool
  lastCond : Cond
  lastCmp : Int
  earlyEnd : Bool
  isRollback : Bool
  matchCnts : Nat
  rollbackCnts : Nat
  prevRhsRec : Option (List UInt8)

namespace SortMergeJoin

variable {σ τ : Type}

section

variable (j : Join σ τ)

/-- `cmp_conds`, which also sets `last_cond_` and `last_cmp_`. -/
def cmpConds (l r : List UInt8) : Cond × Int → List Cond → Option (Bool × Cond × Int)
  | last, [] => some (true, last)
  | _, cond :: conds => do
    let (ok, lastCmp) ← j.cmpCond l r cond
    if ok then cmpConds l r (cond, lastCmp) conds else some (false, cond, lastCmp)

def emit (s : SortMergeJoin σ τ) : SortMergeJoin σ τ :=
  { s with
    rmRecord := some (j.concat s.lhsRec s.rhsRec)
    matchCnts := s.matchCnts + 1
    prevRhsRec := if s.matchCnts + 1 = 1 then some s.rhsRec else s.prevRhsRec }

/-- The test whether the new left row matches the remembered right one. If so
the rows that it stands for are given once more. -/
def rollback (s : SortMergeJoin σ τ) : Option (Bool × SortMergeJoin σ τ) :=
  if 0 < s.matchCnts then do
    let prev ← s.prevRhsRec
    let (ok, lastCond, lastCmp) ← cmpConds j s.lhsRec prev (s.lastCond, s.lastCmp) j.fedConds
    let s := { s with lastCond := lastCond, lastCmp := lastCmp }
    if ok then
      some (true, { s with
        rollbackCnts := s.matchCnts - 1, isRollback := true, rmRecord := some (j.concat s.lhsRec prev) })
    else some (false, s)
  else some (false, s)

def advanceLeft (s : SortMergeJoin σ τ) : Option (Bool × SortMergeJoin σ τ) := do
  let left ← j.left.nextTuple s.left
  if j.left.isEnd left then some (true, { s with left := left })
  else
    let (lhsRec, left) ← j.left.next left
    some (false, { s with left := left, lhsRec := lhsRec })

def advanceRight (s : SortMergeJoin σ τ) : Option (Bool × SortMergeJoin σ τ) := do
  let right ← j.right.nextTuple s.right
  if j.right.isEnd right then some (true, { s with right := right, earlyEnd := true })
  else
    let (rhsRec, right) ← j.right.next right
    some (false, { s with right := right, rhsRec := rhsRec })

/-- The inner `while` loop, in `beginTuple` or in `nextTuple`: true when the
call returns. -/
def scan (inNext : Bool) : Nat → SortMergeJoin σ τ → Option (Bool × SortMergeJoin σ τ)
  | 0, _ => none
  | fuel + 1, s =>
    if j.right.isEnd s.right then some (false, s)
    else do
      let (ok, lastCond, lastCmp) ← cmpConds j s.lhsRec s.rhsRec (s.lastCond, s.lastCmp) j.fedConds
      let s := { s with lastCond := lastCond, lastCmp := lastCmp }
      if ok then some (true, emit j s)
      else
        match lastCond.op with
        | .eq =>
          if lastCmp < 0 then
            let (done, s) ← advanceLeft j s
            if done then some (true, s)
            else if inNext then
              let (rolled, s) ← rollback j s
              if rolled then some (true, s) else scan inNext fuel { s with matchCnts := 0 }
            else scan inNext fuel s
          else
            let (done, s) ← advanceRight j (if inNext then { s with matchCnts := 0 } else s)
            if done then some (true, s) else scan inNext fuel s
        | .ne =>
          -- at the end of the right child the loop ends too
          let right ← j.right.nextTuple s.right
          if j.right.isEnd right then scan inNext fuel { s with right := right }
          else
            let (rhsRec, right) ← j.right.next right
            scan inNext fuel { s with right := right, rhsRec := rhsRec }
        | .lt | .le =>
          let (done, s) ← advanceRight j s
          if done then some (true, s) else scan inNext fuel s
        | .gt | .ge =>
          let (done, s) ← advanceLeft j s
          if done then some (true, s) else scan inNext fuel s

/-- The `do … while` loop of `beginTuple`. Only `<>` comes to the end of the
right child here, that is asserted. -/
def beginLoop (scanFuel : Nat) : Nat → SortMergeJoin σ τ → Option (SortMergeJoin σ τ)
  | 0, _ => none
  | fuel + 1, s => do
    let (lhsRec, left) ← j.left.next s.left
    let (rhsRec, right) ← j.right.next s.right
    let (done, s) ← scan j false scanFuel { s with left := left, lhsRec := lhsRec, right := right, rhsRec := rhsRec }
    if done then some s
    else if s.lastCond.op ≠ .ne then none
    else
      let left ← j.left.nextTuple s.left
      let right ← j.right.beginTuple s.right
      let s := { s with left := left, right := right }
      if j.left.isEnd s.left then some s else beginLoop scanFuel fuel s

def beginTuple (fuel : Nat) (s : SortMergeJoin σ τ) : Option (SortMergeJoin σ τ) := do
  let right ← j.right.beginTuple s.right
  let s := { s with
    right := right, isRightEmpty := false, earlyEnd := false, matchCnts := 0, isRollback := false, rollbackCnts := 0 }
  if j.right.isEnd s.right then some { s with isRightEmpty := true }
  else
    let left ← j.left.beginTuple s.left
    let s := { s with left := left }
    if j.left.isEnd s.left then some s else beginLoop j fuel fuel s

def nextLoop (scanFuel : Nat) : Nat → SortMergeJoin σ τ → Option (SortMergeJoin σ τ)
  | 0, _ => none
  | fuel + 1, s => do
    let (done, s) ← scan j true scanFuel s
    if done then some s
    else
      let (done, s) ← advanceLeft j s
      if done then some s
      else if s.lastCond.op = .ne then
        let right ← j.right.beginTuple s.right
        let (rhsRec, right) ← j.right.next right
        nextLoop scanFuel fuel { s with right := right, rhsRec := rhsRec }
      else
        let (rolled, s) ← rollback j s
        some (if rolled then s else { s with earlyEnd := true })

def nextTuple (fuel : Nat) (s : SortMergeJoin σ τ) : Option (SortMergeJoin σ τ) :=
  if j.left.isEnd s.left then some s
  else if s.isRollback && decide (0 < s.rollbackCnts) then do
    let prev ← s.prevRhsRec
    some { s with rollbackCnts := s.rollbackCnts - 1, rmRecord := some (j.concat s.lhsRec prev) }
  else if s.isRollback then nextLoop j fuel fuel { s with isRollback := false }
  else do
    let right ← j.right.nextTuple s.right
    if j.right.isEnd right then nextLoop j fuel fuel { s with right := right }
    else
      let (rhsRec, right) ← j.right.next right
      nextLoop j fuel fuel { s with right := right, rhsRec := rhsRec }

def isEnd (s : SortMergeJoin σ τ) : Bool := j.left.isEnd s.left || s.isRightEmpty || s.earlyEnd

def next (s : SortMergeJoin σ τ) : Option (List UInt8 × SortMergeJoin σ τ) :=
  s.rmRecord.map fun rec => (rec, { s with rmRecord := none })

def executor (fuel : Nat) : Executor (SortMergeJoin σ τ) where
  beginTuple := beginTuple j fuel
  nextTuple := nextTuple j fuel
  isEnd := isEnd j
  next := next
  cols := j.cols
  tupleLen := j.tupleLen
  isSort := false

end

def init (left : σ) (right : τ) (cond : Cond) (lastCmp : Int) : SortMergeJoin σ τ where
  left := left
  right := right
  rmRecord := none
  lhsRec := []
  rhsRec := []
  isRightEmpty := false
  lastCond := cond
  lastCmp := lastCmp
  earlyEnd := false
  isRollback := false
  matchCnts := 0
  rollbackCnts := 0
  prevRhsRec := none

/-! ## The pairs it gives -/

open Merge

section Run

variable {j : Join σ τ} {cond : Cond} {P : σ → Prop} {Q : τ → Prop} {lrows rrows : List (List UInt8)}
  {s : SortMergeJoin σ τ} {fuel : Nat}

def hits (j : Join σ τ) (cond : Cond) (l r : List UInt8) : Bool := j.condHolds l r cond

def less (j : Join σ τ) (cond : Cond) (l r : List UInt8) : Bool := j.condCmp cond l r < 0

abbrev pairsFrom (j : Join σ τ) (cond : Cond) (rrows : List (List UInt8)) (l : List UInt8) (ls rs : List (List UInt8))
    (cnt : Nat) (prev : List UInt8) : List (List UInt8 × List UInt8) :=
  mergeFrom cond.op (hits j cond) (less j cond) rrows l ls rs cnt prev

def RightAt (j : Join σ τ) (Q : τ → Prop) (right : τ) (rhsRec : List UInt8) : List (List UInt8) → Prop
  | [] => j.right.Shows Q [] right
  | r :: rs => j.right.Stands Q rs right ∧ rhsRec = r

/-- What the loops find: a left row that was read, the right rows that are
left, and what was matched so far. -/
structure At (j : Join σ τ) (cond : Cond) (P : σ → Prop) (Q : τ → Prop) (l : List UInt8) (ls rs : List (List UInt8))
    (cnt : Nat) (prev : List UInt8) (s : SortMergeJoin σ τ) : Prop where
  left : j.left.Stands P ls s.left
  right : RightAt j Q s.right s.rhsRec rs
  lhsRec : s.lhsRec = l
  count : s.matchCnts = cnt
  first : 0 < cnt → s.prevRhsRec = some prev
  nonempty : s.isRightEmpty = false
  goesOn : s.earlyEnd = false
  lastCond : s.lastCond = cond

structure Inv (cond : Cond) (P : σ → Prop) (Q : τ → Prop) (s : SortMergeJoin σ τ) : Prop where
  left : P s.left
  right : Q s.right
  lastCond : s.lastCond = cond

variable {rhsRec : List UInt8} {right : τ}

theorem RightAt.state : ∀ {rs : List (List UInt8)}, RightAt j Q right rhsRec rs → Q right
  | [], h => Iter.Shows.state h
  | _ :: _, h => h.1.1

theorem RightAt.isEnd_eq : ∀ {rs : List (List UInt8)}, RightAt j Q right rhsRec rs → j.right.isEnd right = rs.isEmpty
  | [], h => Iter.Shows.isEnd_eq h
  | _ :: _, h => h.1.2.1

/-- Where the executor stands when it is to give these pairs: at the end, on a
match, or on a copy of the remembered row with `k` more to come. -/
inductive Located (j : Join σ τ) (cond : Cond) (P : σ → Prop) (Q : τ → Prop) (rrows : List (List UInt8)) (fuel : Nat)
    (s : SortMergeJoin σ τ) : List (List UInt8 × List UInt8) → Prop
  | atEnd (hinv : Inv cond P Q s) (hend : isEnd j s = true) : Located j cond P Q rrows fuel s []
  | onMatch {l ls r rs cnt prev} (hat : At j cond P Q l ls (r :: rs) cnt prev s)
      (hrec : s.rmRecord = some (j.concat l r))
      (hroll : s.isRollback = false) (hpos : 0 < cnt) (hfuel : ls.length + rs.length < fuel)
      (hall : ls.length + rrows.length < fuel) :
      Located j cond P Q rrows fuel s ((l, r) :: pairsFrom j cond rrows l ls rs cnt prev)
  | onCopy {l ls rs cnt prev} (hat : At j cond P Q l ls rs cnt prev s) (hrec : s.rmRecord = some (j.concat l prev))
      (hroll : s.isRollback = true) (hpos : 0 < cnt) (hfuel : ls.length + rs.length < fuel)
      (hall : ls.length + rrows.length < fuel) :
      Located j cond P Q rrows fuel s
        ((l, prev) :: (List.replicate s.rollbackCnts (l, prev) ++ pairsFrom j cond rrows l ls rs cnt prev))

variable {l l' r prev : List UInt8} {ls rs rs' : List (List UInt8)} {cnt cnt' : Nat}

theorem At.advanceLeft (rrows : List (List UInt8)) (fuel : Nat) (hat : At j cond P Q l ls rs cnt prev s)
    (hroll : s.isRollback = false) :
    (ls = [] → ∃ s', advanceLeft j s = some (true, s') ∧ Located j cond P Q rrows fuel s' []) ∧
    ∀ l' ls', ls = l' :: ls' → ∃ s', SortMergeJoin.advanceLeft j s = some (false, s') ∧
      At j cond P Q l' ls' rs cnt prev s' ∧ s'.isRollback = false := by
  obtain ⟨left', hstep, hshows⟩ := hat.left.2.2
  rw [SortMergeJoin.advanceLeft, hstep]
  simp only [Option.bind_eq_bind, Option.bind_some]
  refine ⟨fun hls => ?_, fun l' ls' hls => ?_⟩
  · subst hls
    have hend : j.left.isEnd left' = true := hshows.isEnd_eq
    rw [if_pos hend]
    exact ⟨_, rfl, .atEnd ⟨hshows.state, hat.right.state, hat.lastCond⟩ (by simp [isEnd, hend])⟩
  · subst hls
    have hend : j.left.isEnd left' = false := hshows.isEnd_eq
    obtain ⟨left'', hnext, hstands⟩ := hshows.next
    simp only [hend, Bool.false_eq_true, if_false, hnext, Option.bind_some]
    exact ⟨_, rfl, { hat with left := hstands, lhsRec := rfl }, hroll⟩

theorem At.nextRight (hat : At j cond P Q l ls (r :: rs) cnt prev s) :
    ∃ right', j.right.nextTuple s.right = some right' ∧ j.right.isEnd right' = rs.isEmpty ∧ Q right' ∧
      (rs = [] → At j cond P Q l ls [] cnt prev { s with right := right' }) ∧
      ∀ r' rs', rs = r' :: rs' → ∃ right'', j.right.next right' = some (r', right'') ∧
        At j cond P Q l ls rs cnt prev { s with right := right'', rhsRec := r' } := by
  obtain ⟨right', hstep, hshows⟩ := hat.right.1.2.2
  refine ⟨right', hstep, hshows.isEnd_eq, hshows.state, fun hrs => ?_, fun r' rs' hrs => ?_⟩
  · subst hrs
    exact { hat with right := hshows }
  · subst hrs
    obtain ⟨right'', hnext, hstands⟩ := hshows.next
    exact ⟨right'', hnext, { hat with right := ⟨hstands, rfl⟩ }⟩

theorem At.advanceRight (rrows : List (List UInt8)) (fuel : Nat) (hat : At j cond P Q l ls (r :: rs) cnt prev s)
    (hroll : s.isRollback = false) :
    (rs = [] → ∃ s', advanceRight j s = some (true, s') ∧ Located j cond P Q rrows fuel s' []) ∧
    (rs ≠ [] → ∃ s', SortMergeJoin.advanceRight j s = some (false, s') ∧ At j cond P Q l ls rs cnt prev s' ∧
      s'.isRollback = false) := by
  obtain ⟨right', hstep, hend, hq, -, hcons⟩ := hat.nextRight
  rw [SortMergeJoin.advanceRight, hstep]
  simp only [Option.bind_eq_bind, Option.bind_some, hend]
  cases rs with
  | nil => exact ⟨fun _ => ⟨_, rfl, .atEnd ⟨hat.left.1, hq, hat.lastCond⟩ (by simp [isEnd])⟩, by simp⟩
  | cons r' rs' =>
    obtain ⟨right'', hnext, hat'⟩ := hcons r' rs' rfl
    simp only [isEmpty_cons, Bool.false_eq_true, if_false, hnext, Option.bind_some]
    exact ⟨by simp, fun _ => ⟨_, rfl, hat', hroll⟩⟩

theorem At.forget (hat : At j cond P Q l ls rs cnt prev s) : At j cond P Q l ls rs 0 prev { s with matchCnts := 0 } :=
  { hat with count := rfl, first := fun h => absurd h (lt_irrefl 0) }

theorem At.emit (hat : At j cond P Q l ls (r :: rs) cnt prev s) (hroll : s.isRollback = false)
    (hfuel : ls.length + rs.length < fuel) (hall : ls.length + rrows.length < fuel) :
    Located j cond P Q rrows fuel (emit j s)
      ((l, r) :: pairsFrom j cond rrows l ls rs (cnt + 1) (if cnt = 0 then r else prev)) := by
  have hrhs := hat.right.2
  refine .onMatch { hat with count := ?_, first := fun _ => ?_ } ?_ hroll (Nat.succ_pos cnt) hfuel hall
  · simp [SortMergeJoin.emit, hat.count]
  · by_cases hcnt : cnt = 0
    · simp [SortMergeJoin.emit, hat.count, hcnt, hrhs]
    · simp [SortMergeJoin.emit, hat.count, hcnt, hat.first (Nat.pos_of_ne_zero hcnt)]
  · simp [SortMergeJoin.emit, hat.lhsRec, hrhs]

def Scanned (j : Join σ τ) (cond : Cond) (P : σ → Prop) (Q : τ → Prop) (rrows : List (List UInt8)) (fuel : Nat)
    (l : List UInt8) (ls rs : List (List UInt8)) (cnt : Nat) (prev : List UInt8)
    (result : Option (Bool × SortMergeJoin σ τ)) : Prop :=
  ∃ done s', result = some (done, s') ∧
    (done = true → Located j cond P Q rrows fuel s' (pairsFrom j cond rrows l ls rs cnt prev)) ∧
    (done = false → (rs = [] ∨ cond.op = .ne) ∧ At j cond P Q l ls [] cnt prev s' ∧ s'.isRollback = false ∧
      pairsFrom j cond rrows l ls rs cnt prev = pairsFrom j cond rrows l ls [] cnt prev)

section Turn

variable {inNext : Bool} {n : Nat} {result : Option (Bool × SortMergeJoin σ τ)}

theorem Scanned.stop {s' : SortMergeJoin σ τ}
    (hloc : Located j cond P Q rrows fuel s' (pairsFrom j cond rrows l ls rs cnt prev)) :
    Scanned j cond P Q rrows fuel l ls rs cnt prev (some (true, s')) :=
  ⟨true, s', rfl, fun _ => hloc, by simp⟩

theorem Scanned.goOn {ls' : List (List UInt8)} (hop : cond.op ≠ .ne) (hne : rs' ≠ [])
    (hpairs : pairsFrom j cond rrows l ls rs cnt prev = pairsFrom j cond rrows l' ls' rs' cnt' prev)
    (h : Scanned j cond P Q rrows fuel l' ls' rs' cnt' prev result) :
    Scanned j cond P Q rrows fuel l ls rs cnt prev result := by
  obtain ⟨done, s', hs', hdone, hend⟩ := h
  refine ⟨done, s', hs', fun hd => ?_, fun hd => absurd (hend hd).1 (by simp [hop, hne])⟩
  rw [hpairs]
  exact hdone hd

theorem Scanned.moveRight (hop : cond.op ≠ .ne) (hat : At j cond P Q l ls (r :: rs) cnt' prev s)
    (hroll : s.isRollback = false) (hpairs : pairsFrom j cond rrows l ls (r :: rs) cnt prev =
      if rs.isEmpty then [] else pairsFrom j cond rrows l ls rs cnt' prev)
    (ih : ∀ s', At j cond P Q l ls rs cnt' prev s' → s'.isRollback = false →
      Scanned j cond P Q rrows fuel l ls rs cnt' prev (scan j inNext n s')) :
    Scanned j cond P Q rrows fuel l ls (r :: rs) cnt prev
      (do let (done, s) ← advanceRight j s; if done then some (true, s) else scan j inNext n s) := by
  obtain ⟨hstop, hgo⟩ := At.advanceRight rrows fuel hat hroll
  by_cases hrs : rs = []
  · obtain ⟨s', hs', hloc⟩ := hstop hrs
    simp only [hs', Option.bind_eq_bind, Option.bind_some, if_true]
    rw [if_pos (by simp [hrs])] at hpairs
    exact .stop (hpairs ▸ hloc)
  · obtain ⟨s', hs', hat', hroll'⟩ := hgo hrs
    simp only [hs', Option.bind_eq_bind, Option.bind_some, Bool.false_eq_true, if_false]
    rw [if_neg (by simpa using hrs)] at hpairs
    exact .goOn hop hrs hpairs (ih s' hat' hroll')

theorem Scanned.moveLeft {next : Bool × SortMergeJoin σ τ → Option (Bool × SortMergeJoin σ τ)}
    (hat : At j cond P Q l ls (r :: rs) cnt prev s) (hroll : s.isRollback = false)
    (hnil : pairsFrom j cond rrows l [] (r :: rs) cnt prev = [])
    (hnext : ∀ l' ls' s', ls = l' :: ls' → At j cond P Q l' ls' (r :: rs) cnt prev s' → s'.isRollback = false →
      Scanned j cond P Q rrows fuel l ls (r :: rs) cnt prev (next (false, s'))) :
    Scanned j cond P Q rrows fuel l ls (r :: rs) cnt prev
      ((advanceLeft j s).bind fun r => if r.1 then some (true, r.2) else next r) := by
  obtain ⟨hstop, hgo⟩ := At.advanceLeft rrows fuel hat hroll
  cases ls with
  | nil =>
    obtain ⟨s', hs', hloc⟩ := hstop rfl
    simp only [hs', Option.bind_some, if_true]
    exact .stop (hnil ▸ hloc)
  | cons l' ls =>
    obtain ⟨s', hs', hat', hroll'⟩ := hgo l' ls rfl
    simp only [hs', Option.bind_some, Bool.false_eq_true, if_false]
    exact hnext l' ls s' rfl hat' hroll'

theorem Scanned.unequal (hop : cond.op = .ne) (hhit : hits j cond l r = false)
    (hat : At j cond P Q l ls (r :: rs) cnt prev s) (hroll : s.isRollback = false)
    (ih : ∀ s', At j cond P Q l ls rs cnt prev s' → s'.isRollback = false →
      Scanned j cond P Q rrows fuel l ls rs cnt prev (scan j inNext n s')) :
    Scanned j cond P Q rrows fuel l ls (r :: rs) cnt prev
      (do
        let right ← j.right.nextTuple s.right
        if j.right.isEnd right then scan j inNext n { s with right := right }
        else
          let (rhsRec, right) ← j.right.next right
          scan j inNext n { s with right := right, rhsRec := rhsRec }) := by
  have hpairs : pairsFrom j cond rrows l ls (r :: rs) cnt prev = pairsFrom j cond rrows l ls rs cnt prev := by
    simp only [pairsFrom, hop]
    exact mergeFrom_ne hhit
  have hon : ∀ {result}, Scanned j cond P Q rrows fuel l ls rs cnt prev result →
      Scanned j cond P Q rrows fuel l ls (r :: rs) cnt prev result := fun ⟨done, s', hs', hdone, hend⟩ =>
    ⟨done, s', hs', hpairs ▸ hdone, fun hd => ⟨.inr hop, hpairs ▸ (hend hd).2⟩⟩
  obtain ⟨right', hright, hrend, -, hrnil, hrcons⟩ := hat.nextRight
  simp only [hright, Option.bind_eq_bind, Option.bind_some, hrend]
  cases rs with
  | nil => exact hon (ih _ (hrnil rfl) hroll)
  | cons r' rs =>
    obtain ⟨right'', hnext, hat'⟩ := hrcons r' rs rfl
    simp only [isEmpty_cons, Bool.false_eq_true, if_false, hnext, Option.bind_some]
    exact hon (ih _ hat' hroll)

end Turn

section Loops

variable (hone : j.fedConds = [cond]) (hcond : j.Between cond)
include hone hcond

theorem cmpConds_eq (l r : List UInt8) (last : Cond × Int) :
    cmpConds j l r last j.fedConds = some (hits j cond l r, cond, j.condCmp cond l r) := by
  rw [hone, cmpConds, Join.cmpCond_eq hcond, hits]
  cases h : j.condHolds l r cond with
  | true => simp [cmpConds]
  | false => simp

theorem rollback_eq (rrows : List (List UInt8)) (fuel : Nat) (hat : At j cond P Q l ls rs cnt prev s)
    (hroll : s.isRollback = false) (hfuel : ls.length + rs.length < fuel) (hall : ls.length + rrows.length < fuel) :
    ∃ b s', rollback j s = some (b, s') ∧ b = decide (0 < cnt ∧ hits j cond l prev) ∧
      (b = true → Located j cond P Q rrows fuel s'
        (List.replicate cnt (l, prev) ++ pairsFrom j cond rrows l ls rs cnt prev)) ∧
      (b = false → At j cond P Q l ls rs cnt prev s' ∧ s'.isRollback = false) := by
  obtain rfl := hat.lhsRec
  obtain rfl := hat.count
  rw [rollback]
  by_cases hpos : 0 < s.matchCnts
  · have hprev := hat.first hpos
    simp only [hpos, if_true, hprev, Option.bind_eq_bind, Option.bind_some, cmpConds_eq hone hcond]
    cases hhit : hits j cond s.lhsRec prev with
    | true =>
      refine ⟨true, _, rfl, by simp, fun _ => ?_, by simp⟩
      obtain ⟨k, hk⟩ : ∃ k, s.matchCnts = k + 1 := ⟨s.matchCnts - 1, by omega⟩
      rw [hk, replicate_succ, cons_append, ← hk, show k = s.matchCnts - 1 by omega]
      exact .onCopy { hat with first := fun _ => rfl, lastCond := rfl } rfl rfl hpos hfuel hall
    | false =>
      exact ⟨false, _, rfl, by simp, by simp, fun _ => ⟨{ hat with first := fun _ => rfl, lastCond := rfl }, hroll⟩⟩
  · rw [if_neg hpos]
    exact ⟨false, s, rfl, by simp [hpos], by simp, fun _ => ⟨hat, hroll⟩⟩

theorem scan_eq (rrows : List (List UInt8)) (inNext : Bool) {n : Nat} (hn : ls.length + rs.length < n) (hnf : n ≤ fuel)
    (hall : ls.length + rrows.length < fuel) (hat : At j cond P Q l ls rs cnt prev s) (hroll : s.isRollback = false)
    (hcnt : inNext = false → cnt = 0) : Scanned j cond P Q rrows fuel l ls rs cnt prev (scan j inNext n s) := by
  induction n generalizing l ls rs cnt s with
  | zero => omega
  | succ n ih =>
    have hend := hat.right.isEnd_eq
    cases rs with
    | nil =>
      rw [scan, hend, if_pos isEmpty_nil]
      exact ⟨false, s, rfl, by simp, fun _ => ⟨.inl rfl, hat, hroll, rfl⟩⟩
    | cons r rs =>
      simp only [length_cons] at hn
      obtain rfl := hat.lhsRec
      obtain rfl := hat.right.2
      have hlast : At j cond P Q s.lhsRec ls (s.rhsRec :: rs) cnt prev
          { s with lastCond := cond, lastCmp := j.condCmp cond s.lhsRec s.rhsRec } := { hat with lastCond := rfl }
      -- a turn of the loop with one row less on the right, or on the left
      have hright (cnt' : Nat) (s' : SortMergeJoin σ τ) (hat' : At j cond P Q s.lhsRec ls rs cnt' prev s') :=
        ih (by omega) (by omega) hall hat'
      have hleft (l' : List UInt8) (ls' : List (List UInt8)) (hls : ls = l' :: ls') (cnt' : Nat)
        (s' : SortMergeJoin σ τ)
          (hat' : At j cond P Q l' ls' (s.rhsRec :: rs) cnt' prev s') :=
        ih (by simp only [hls, length_cons] at hn ⊢; omega) (by omega) (by simp [hls] at hall; omega) hat'
      rw [scan, hend, if_neg (by simp)]
      simp only [Option.bind_eq_bind, Option.bind_some, cmpConds_eq hone hcond]
      cases hhit : hits j cond s.lhsRec s.rhsRec with
      | true =>
        simp only [if_true]
        refine .stop ?_
        rw [pairsFrom, mergeFrom_hit hhit]
        exact hlast.emit hroll (by omega) hall
      | false =>
        simp only [Bool.false_eq_true, if_false]
        cases hop : cond.op with
        | eq =>
          cases hless : less j cond s.lhsRec s.rhsRec with
          | true =>
            have hneg : j.condCmp cond s.lhsRec s.rhsRec < 0 := of_decide_eq_true hless
            simp only [hneg, if_true]
            refine .moveLeft hlast hroll ?_ fun l' ls' s' hls hat' hroll' => ?_
            · rw [pairsFrom, hop, mergeFrom_eq_last hhit hless]
            subst hls
            have hpairs : pairsFrom j cond rrows s.lhsRec (l' :: ls') (s.rhsRec :: rs) cnt prev =
                List.replicate (kept (hits j cond) l' cnt prev) (l', prev) ++
                  pairsFrom j cond rrows l' ls' (s.rhsRec :: rs) (kept (hits j cond) l' cnt prev) prev := by
              simp only [pairsFrom, hop]
              exact mergeFrom_eq_left hhit hless
            simp only [length_cons] at hn hall
            cases inNext with
            | true =>
              -- the new left row is tested on the remembered right one
              obtain ⟨b, s'', hs'', hb, hyes, hno⟩ := rollback_eq hone hcond rrows fuel hat' hroll'
                (by simp only [length_cons]; omega) (by omega)
              simp only [if_true, hs'', Option.bind_some]
              cases b with
              | true =>
                rw [kept, if_pos (of_decide_eq_true hb.symm)] at hpairs
                exact .stop (hpairs ▸ hyes rfl)
              | false =>
                rw [kept, if_neg (of_decide_eq_false hb.symm)] at hpairs
                obtain ⟨hat'', hroll''⟩ := hno rfl
                exact .goOn (by simp [hop]) (by simp) hpairs (hleft l' ls' rfl 0 _ hat''.forget hroll'' fun _ => rfl)
            | false =>
              obtain rfl := hcnt rfl
              exact .goOn (by simp [hop]) (by simp) hpairs (hleft l' ls' rfl 0 s' hat' hroll' hcnt)
          | false =>
            have hneg : ¬ j.condCmp cond s.lhsRec s.rhsRec < 0 := of_decide_eq_false hless
            simp only [hneg, if_false]
            refine .moveRight (by simp [hop]) ?_ (by split_ifs <;> exact hroll) ?_ fun s' hat' hroll' =>
              hright 0 s' hat' hroll' fun _ => rfl
            · cases inNext with
              | true => exact hlast.forget
              | false => exact hcnt rfl ▸ hlast
            · rw [pairsFrom, pairsFrom, hop, mergeFrom_eq_right hhit hless]
              cases rs with
              | nil => exact mergeFrom_eq_end
              | cons r rs => rfl
        | ne => exact .unequal hop hhit hlast hroll fun s' hat' hroll' => hright cnt s' hat' hroll' hcnt
        | lt | le =>
          exact .moveRight (by simp [hop]) hlast hroll (mergeFrom_up (by simp [hop]) hhit) fun s' hat' hroll' =>
            hright cnt s' hat' hroll' hcnt
        | gt | ge =>
          refine .moveLeft hlast hroll (mergeFrom_down_last (by simp [hop]) hhit) fun l' ls' s' hls hat' hroll' => ?_
          subst hls
          exact .goOn (by simp [hop]) (by simp) (mergeFrom_down (by simp [hop]) hhit)
            (hleft l' ls' rfl cnt s' hat' hroll' hcnt)

variable (hR : j.right.Replays Q rrows)
include hR

theorem nextLoop_located (hne : rrows ≠ []) {n : Nat} (hn : ls.length < n) (hfuel : ls.length + rs.length < fuel)
    (hall : ls.length + rrows.length < fuel) (hat : At j cond P Q l ls rs cnt prev s) (hroll : s.isRollback = false) :
    ∃ s', nextLoop j fuel n s = some s' ∧
      Located j cond P Q rrows fuel s' (pairsFrom j cond rrows l ls rs cnt prev) := by
  induction n generalizing l ls rs s with
  | zero => omega
  | succ n ih =>
    obtain ⟨done, s', hs', hdone, hend⟩ := scan_eq hone hcond rrows true hfuel le_rfl hall hat hroll (by simp)
    rw [nextLoop, hs']
    simp only [Option.bind_eq_bind, Option.bind_some]
    cases done with
    | true => exact ⟨s', rfl, hdone rfl⟩
    | false =>
      obtain ⟨-, hat', hroll', hpairs⟩ := hend rfl
      rw [hpairs]
      obtain ⟨hstop, hgo⟩ := At.advanceLeft rrows fuel hat' hroll'
      simp only [Bool.false_eq_true, if_false]
      cases ls with
      | nil =>
        obtain ⟨s'', hs'', hloc⟩ := hstop rfl
        simp only [hs'', Option.bind_some, if_true]
        exact ⟨s'', rfl, by rwa [pairsFrom, mergeFrom_end]⟩
      | cons l' ls =>
        obtain ⟨s'', hs'', hat'', hroll''⟩ := hgo l' ls rfl
        simp only [length_cons] at hn hall
        simp only [hs'', Option.bind_some, Bool.false_eq_true, if_false, hat''.lastCond]
        rw [pairsFrom, mergeFrom_end_cons]
        by_cases hop : cond.op = .ne
        · -- the right child starts again
          obtain ⟨right', hbegin, hshows⟩ := hR s''.right hat''.right.state
          obtain ⟨r, rs', hrr⟩ := exists_cons_of_ne_nil hne
          obtain ⟨right'', hnext, hstands⟩ := (hrr ▸ hshows).next
          rw [if_pos hop, if_pos hop, hbegin]
          simp only [Option.bind_some, hnext]
          refine ih (by omega) (by omega) (by omega) { hat'' with right := ?_, lastCond := rfl } hroll''
          rw [hrr]
          exact ⟨hstands, rfl⟩
        · rw [if_neg hop, if_neg hop]
          obtain ⟨b, s₃, hs₃, hb, hyes, hno⟩ :=
            rollback_eq hone hcond rrows fuel hat'' hroll'' (by simp only [length_nil]; omega) (by omega)
          simp only [hs₃, Option.bind_some]
          cases b with
          | true =>
            rw [if_pos (of_decide_eq_true hb.symm)]
            exact ⟨_, rfl, hyes rfl⟩
          | false =>
            rw [if_neg (of_decide_eq_false hb.symm)]
            have hat₃ := (hno rfl).1
            exact ⟨_, rfl, .atEnd ⟨hat₃.left.1, hat₃.right.state, hat₃.lastCond⟩ (by simp [isEnd])⟩

theorem beginLoop_located {r₀ : List UInt8} {rs₀ : List (List UInt8)} (hrr : rrows = r₀ :: rs₀) {n : Nat}
    (hn : ls.length < n) (hall : ls.length + rrows.length < fuel) (hl : j.left.Shows P (l :: ls) s.left)
    (hr : j.right.Shows Q rrows s.right) (hcnt : s.matchCnts = 0) (hempty : s.isRightEmpty = false)
    (hearly : s.earlyEnd = false) (hroll : s.isRollback = false) (hlast : s.lastCond = cond) :
    ∃ s', beginLoop j fuel n s = some s' ∧
      Located j cond P Q rrows fuel s' (pairsFrom j cond rrows l ls rrows 0 prev) := by
  induction n generalizing l ls s with
  | zero => omega
  | succ n ih =>
    obtain ⟨left', hlnext, hlstands⟩ := hl.next
    obtain ⟨right', hrnext, hrstands⟩ := (hrr ▸ hr).next
    have hat : At j cond P Q l ls rrows 0 prev
      { s with left := left', lhsRec := l, right := right', rhsRec := r₀ } := by
      rw [hrr]
      exact ⟨hlstands, ⟨hrstands, rfl⟩, rfl, hcnt, fun h => absurd h (lt_irrefl 0), hempty, hearly, hlast⟩
    obtain ⟨done, s', hs', hdone, hend⟩ := scan_eq hone hcond rrows false hall le_rfl hall hat hroll (fun _ => rfl)
    rw [beginLoop, hlnext]
    simp only [Option.bind_eq_bind, Option.bind_some, hrnext, hs']
    cases done with
    | true => exact ⟨s', rfl, hdone rfl⟩
    | false =>
      obtain ⟨hor, hat', hroll', hpairs⟩ := hend rfl
      have hop : cond.op = .ne := hor.resolve_left (by simp [hrr])
      obtain ⟨left'', hstep, hlshows⟩ := hat'.left.2.2
      obtain ⟨right'', hbegin, hrshows⟩ := hR s'.right hat'.right.state
      simp only [Bool.false_eq_true, if_false, hat'.lastCond, hop, ne_eq, not_true_eq_false, hstep, hbegin,
        Option.bind_some]
      rw [hpairs]
      cases ls with
      | nil =>
        have hlend : j.left.isEnd left'' = true := hlshows.isEnd_eq
        rw [if_pos hlend, pairsFrom, mergeFrom_end]
        exact ⟨_, rfl, .atEnd ⟨hlshows.state, hrshows.state, rfl⟩ (by simp [isEnd, hlend])⟩
      | cons l' ls =>
        have hlend : j.left.isEnd left'' = false := hlshows.isEnd_eq
        simp only [length_cons] at hn hall
        rw [hlend, if_neg (by simp), pairsFrom, mergeFrom_end_cons, if_pos hop]
        exact ih (by omega) (by omega) hlshows hrshows hat'.count hat'.nonempty hat'.goesOn hroll' rfl

def rows (j : Join σ τ) (cond : Cond) (lrows rrows : List (List UInt8)) : List (List UInt8 × List UInt8) :=
  merged cond.op (hits j cond) (less j cond) lrows rrows

theorem beginTuple_located (hL : j.left.Replays P lrows) (hfuel : lrows.length + rrows.length < fuel)
    (hs : Inv cond P Q s) :
    ∃ s', beginTuple j fuel s = some s' ∧ Located j cond P Q rrows fuel s' (rows j cond lrows rrows) := by
  obtain ⟨left', hlbegin, hlshows⟩ := hL s.left hs.left
  obtain ⟨right', hrbegin, hrshows⟩ := hR s.right hs.right
  rw [beginTuple, hrbegin]
  simp only [Option.bind_eq_bind, Option.bind_some, hlbegin, hrshows.isEnd_eq, hlshows.isEnd_eq]
  cases rrows with
  | nil =>
    rw [if_pos isEmpty_nil, rows, merged.eq_2 _ _ _ _ _ (by simp)]
    exact ⟨_, rfl, .atEnd ⟨hs.left, hrshows.state, hs.lastCond⟩ (by simp [isEnd])⟩
  | cons r rs =>
    rw [if_neg (by simp)]
    cases lrows with
    | nil =>
      have hlend : j.left.isEnd left' = true := hlshows.isEnd_eq
      exact ⟨_, rfl, .atEnd ⟨hlshows.state, hrshows.state, hs.lastCond⟩ (by simp [isEnd, hlend])⟩
    | cons l ls =>
      simp only [length_cons] at hfuel
      exact beginLoop_located hone hcond hR rfl (by omega) (by simp only [length_cons]; omega) hlshows hrshows
        rfl rfl rfl rfl hs.lastCond

theorem Located.nextTuple (hne : rrows ≠ []) {p : List UInt8 × List UInt8} {out : List (List UInt8 × List UInt8)}
    (h : Located j cond P Q rrows fuel s (p :: out)) :
    ∃ s', nextTuple j fuel { s with rmRecord := none } = some s' ∧ Located j cond P Q rrows fuel s' out := by
  cases h with
  | @onMatch l ls r rs cnt prev hat hrec hroll hpos hfuel hall =>
    obtain ⟨right', hstep, hend, -, hnil, hcons⟩ :=
      ({ hat with } : At j cond P Q l ls (r :: rs) cnt prev { s with rmRecord := none }).nextRight
    have hlend : j.left.isEnd s.left = false := hat.left.2.1
    have hstep' : j.right.nextTuple s.right = some right' := hstep
    rw [SortMergeJoin.nextTuple, if_neg (by simp [hlend]), if_neg (by simp [hroll]), if_neg (by simp [hroll])]
    simp only [hstep', Option.bind_eq_bind, Option.bind_some, hend]
    cases rs with
    | nil => exact nextLoop_located hone hcond hR hne (by omega) hfuel hall (hnil rfl) hroll
    | cons r' rs =>
      obtain ⟨right'', hnext, hat''⟩ := hcons r' rs rfl
      simp only [isEmpty_cons, Bool.false_eq_true, if_false, hnext, Option.bind_some]
      exact nextLoop_located hone hcond hR hne (by omega) hfuel hall hat'' hroll
  | @onCopy l ls rs cnt prev hat hrec hroll hpos hfuel hall =>
    have hlend : j.left.isEnd s.left = false := hat.left.2.1
    rw [SortMergeJoin.nextTuple, if_neg (by simp [hlend])]
    rcases Nat.eq_zero_or_pos s.rollbackCnts with hk | hk
    · rw [if_neg (by simp [hk]), if_pos hroll, hk, replicate_zero, nil_append]
      exact nextLoop_located hone hcond hR hne (by omega) hfuel hall { hat with } rfl
    · rw [if_pos (by simp [hroll, hk]), hat.first hpos]
      refine ⟨_, rfl, ?_⟩
      rw [show s.rollbackCnts = s.rollbackCnts - 1 + 1 by omega, replicate_succ, cons_append]
      exact .onCopy { hat with first := fun _ => rfl } (by rw [← hat.lhsRec]) hroll hpos hfuel hall

theorem Located.shows (hne : rrows ≠ []) : ∀ {out : List (List UInt8 × List UInt8)} {s : SortMergeJoin σ τ},
    Located j cond P Q rrows fuel s out →
    (executor j fuel).Shows (Inv cond P Q) (out.map fun p => j.concat p.1 p.2) s
  | [], s, .atEnd hinv hend => ⟨hinv, hend⟩
  | (l, r) :: out, s, h => by
    obtain ⟨s', hs', hloc⟩ := h.nextTuple hone hcond hR hne
    obtain ⟨⟨ls, rs, cnt, prev, hat⟩, hrec⟩ : (∃ ls rs cnt prev, At j cond P Q l ls rs cnt prev s) ∧
        s.rmRecord = some (j.concat l r) := by
      cases h with
      | onMatch hat hrec => exact ⟨⟨_, _, _, _, hat⟩, hrec⟩
      | onCopy hat hrec => exact ⟨⟨_, _, _, _, hat⟩, hrec⟩
    have hend : SortMergeJoin.isEnd j s = false := by
      rw [SortMergeJoin.isEnd, hat.left.2.1, hat.nonempty, hat.goesOn]
      rfl
    have hnext : SortMergeJoin.next s = some (j.concat l r, { s with rmRecord := none }) := by
      rw [SortMergeJoin.next, hrec, Option.map_some]
    exact Iter.shows_cons ⟨hat.left.1, hat.right.state, hat.lastCond⟩ hend hnext
      ⟨⟨hat.left.1, hat.right.state, hat.lastCond⟩, hend, s', hs', Located.shows hne hloc⟩

theorem replays_rows (hL : j.left.Replays P lrows) (hfuel : lrows.length + rrows.length < fuel) :
    (executor j fuel).Replays (Inv cond P Q) ((rows j cond lrows rrows).map fun p => j.concat p.1 p.2) := by
  intro s hs
  obtain ⟨s', hs', hloc⟩ := beginTuple_located hone hcond hR hL hfuel hs
  refine ⟨s', hs', ?_⟩
  by_cases hne : rrows = []
  · subst hne
    rw [rows, merged_nil_right] at hloc ⊢
    cases hloc with
    | atEnd hinv hend => exact ⟨hinv, hend⟩
  · exact hloc.shows hone hcond hR hne

end Loops

/-! ## When it is the join -/

theorem keySorted {lc rc : ColMeta} (hcols : j.condCols cond = some (lc, rc)) (hfloat : lc.type ≠ .float)
    (htype : lc.type = rc.type) (hlen : lc.len = rc.len) (hl : ∀ l ∈ lrows, lc.offset + lc.len ≤ l.length)
    (hr : ∀ r ∈ rrows, rc.offset + lc.len ≤ r.length) (hlsort : Ascending lc lrows) (hrsort : Ascending rc rrows) :
    KeySorted cond.op (hits j cond) (less j cond) (keyAt lc.keyCol (ColMeta.keyCol_ne_float hfloat) lc.offset)
      (keyAt lc.keyCol (ColMeta.keyCol_ne_float hfloat) rc.offset) lrows rrows := by
  have hkey : rc.keyCol = lc.keyCol := by simp only [ColMeta.keyCol, htype, hlen]
  have hcmp : ∀ l ∈ lrows, ∀ r ∈ rrows, j.condCmp cond l r =
      ixCmp (keyAt lc.keyCol (ColMeta.keyCol_ne_float hfloat) lc.offset l)
        (keyAt lc.keyCol (ColMeta.keyCol_ne_float hfloat) rc.offset r) := by
    intro l hlm r hrm
    rw [ixCmp_keyAt _ (by rw [ColMeta.keyCol_len]; exact hl l hlm) (by rw [ColMeta.keyCol_len]; exact hr r hrm),
      Join.condCmp, hcols]
  refine ⟨fun l hlm r hrm => ?_, fun l hlm r hrm => ?_, ?_, ?_⟩
  · rw [hits, Join.condHolds, hcmp l hlm r hrm]
  · rw [less, hcmp l hlm r hrm]
  · refine List.Pairwise.imp_of_mem (fun {a b} ha hb hle => ?_) hlsort
    rwa [← ixCmp_le_zero, ixCmp_keyAt _ (by rw [ColMeta.keyCol_len]; exact hl a ha)
      (by rw [ColMeta.keyCol_len]; exact hl b hb)]
  · refine List.Pairwise.imp_of_mem (fun {a b} ha hb hle => ?_) hrsort
    rw [hkey] at hle
    rwa [← ixCmp_le_zero, ixCmp_keyAt _ (by rw [ColMeta.keyCol_len]; exact hr a ha)
      (by rw [ColMeta.keyCol_len]; exact hr b hb)]

theorem perm_map_concat {ps qs : List (List UInt8 × List UInt8)}
    (hps : ∀ p ∈ ps, p.1.length = j.left.tupleLen ∧ p.2.length = j.right.tupleLen)
    (hqs : ∀ p ∈ qs, p.1.length = j.left.tupleLen ∧ p.2.length = j.right.tupleLen) :
    (ps.map fun p => j.concat p.1 p.2).Perm (qs.map fun p => j.concat p.1 p.2) ↔ ps.Perm qs := by
  have hsplit : ∀ {ps : List (List UInt8 × List UInt8)},
      (∀ p ∈ ps, p.1.length = j.left.tupleLen ∧ p.2.length = j.right.tupleLen) →
      (ps.map fun p => j.concat p.1 p.2).map (fun b => (b.take j.left.tupleLen, b.drop j.left.tupleLen)) = ps := by
    intro ps hps
    rw [map_map]
    refine (map_congr_left fun p hp => ?_).trans (map_id ps)
    obtain ⟨hl, hr⟩ := hps p hp
    rw [Function.comp_apply, Join.concat_eq hl hr, ← hl, take_left, drop_left, id]
  refine ⟨fun h => ?_, fun h => h.map _⟩
  rw [← hsplit hps, ← hsplit hqs]
  exact h.map _

end Run

/-! ## Two rows of one key -/

open NestedLoopJoin (asc sortedJoin equalA between_equalA intCol sorted)

def sortedPairs (rows : List (List UInt8)) : Executor (List (List UInt8)) where
  toIter := .ofList rows
  cols := [⟨"u", intCol "a"⟩, ⟨"u", .intAt "b" 4⟩]
  tupleLen := 8
  isSort := true

def twice : List (List UInt8) := [[1, 0, 0, 0], [1, 0, 0, 0]]

def group : List (List UInt8) := [[1, 0, 0, 0, 5, 0, 0, 0], [1, 0, 0, 0, 6, 0, 0, 0]]

def groupJoin : Join (List (List UInt8)) (List (List UInt8)) where
  left := sorted "t" twice
  right := sortedPairs group
  fedConds := [equalA]

end SortMergeJoin

end Rmdb.Execution
