/-
The conditions that make the range of an index scan.

The scan takes the last lower and the last upper condition of each column. It
goes by the first columns as long as these are `=`, and by the one behind them.
`scanBegin` and `scanEnd` are the ends of the range; the end may never be set.
-/
import Rmdb.Execution.Locks
import Rmdb.Execution.ScanRange

namespace Rmdb.Execution

open Option List Index
open Lock (LeftOp RightOp cmpLeft cmpRight)

/-! ## The conditions that make the range -/

structure Lead where
  eqs : List Condition
  next : Option Condition

def Lead.consts (l : Lead) : List (List UInt8) := (l.eqs ++ l.next.toList).map Condition.raw

def leading : List (Option Condition) → Lead
  | some c :: ls => if c.op = .eq then ⟨c :: (leading ls).eqs, (leading ls).next⟩ else ⟨[], some c⟩
  | _ => ⟨[], none⟩

def lowers (cols : List ColMeta) (conds : List Condition) : List (Option Condition) :=
  (List.range cols.length).map (lowerCond cols conds)

def uppers (cols : List ColMeta) (conds : List Condition) : List (Option Condition) :=
  (List.range cols.length).map (upperCond cols conds)

/-- Where a scan begins: behind the constants, or with them. `rightKey` is the
other buffer. -/
def scanBegin (n : Nat) (l r : Lead) (rightKey : List (List UInt8)) : Bool × List (List UInt8) :=
  match l.next with
  | some c => (c.op = .gt, l.consts)
  | none =>
    if l.eqs.length < n ∧ r.next.isSome then (false, rightKey.take l.eqs.length) else (false, l.consts)

/-- Where it ends; `none` is an end that was never set. The number of columns is
that of the lower side. -/
def scanEnd (n : Nat) (l r : Lead) (rightKey : List (List UInt8)) : Option (Bool × List (List UInt8)) :=
  match r.next with
  | some c => some (c.op = .le, rightKey.take (l.eqs.length + 1))
  | none =>
    if r.eqs.length = n then
      if l.eqs.length = n then some (true, rightKey) else none
    else if l.next.isSome then some (true, [])
    else some (true, rightKey.take l.eqs.length)

section Leading

variable {ls : List (Option Condition)} {bounds : Bounds}

theorem leading_length_le : ∀ ls : List (Option Condition),
    (leading ls).eqs.length + (leading ls).next.toList.length ≤ ls.length
  | [] => by simp [leading]
  | none :: ls => by simp [leading]
  | some c :: ls => by
    have := leading_length_le ls
    rw [leading]
    split_ifs
    · simp only [length_cons]
      omega
    · simp

/-- Without a condition behind the `=` there is none on that column, or no more column. -/
theorem leading_none : ∀ {ls : List (Option Condition)}, (leading ls).next = none → (leading ls).eqs.length < ls.length →
    ls[(leading ls).eqs.length]? = some none
  | [], _, h => by simp at h
  | none :: ls, _, _ => by simp [leading]
  | some c :: ls, hnext, hlen => by
    rw [leading] at hnext hlen ⊢
    split_ifs at hnext hlen ⊢ with heq
    · simpa using leading_none hnext (by simpa using hlen)

theorem leading_eq : ∀ {ls : List (Option Condition)} {i : Nat}, i < (leading ls).eqs.length →
    ∃ c, ls[i]? = some (some c) ∧ c.op = .eq
  | [], _, h => by simp [leading] at h
  | none :: ls, _, h => by simp [leading] at h
  | some c :: ls, i, h => by
    rw [leading] at h
    split_ifs at h with heq
    · cases i with
      | zero => exact ⟨c, rfl, heq⟩
      | succ i => simpa using leading_eq (by simpa using h)
    · simp at h

def Lead.leftOp (l : Lead) (n : Nat) : Option LeftOp :=
  match l.next with
  | some c => (PredicateManager.left c).map Prod.fst
  | none => if l.eqs.length = n ∧ 0 < n then some .eq else none

def Lead.rightOp (l : Lead) (n : Nat) : Option RightOp :=
  match l.next with
  | some c => (PredicateManager.right c).map Prod.fst
  | none => if l.eqs.length = n ∧ 0 < n then some .eq else none

theorem getLeftLastTuple_eq (h : List.Forall₂ (fun l b => b.left = l.bind PredicateManager.left ∧
      ∀ c, l = some c → c.op.isLower) ls bounds) (op : Option LeftOp) :
    PredicateManager.getLeftLastTuple op bounds =
      (if ls = [] then op else (leading ls).leftOp ls.length, (leading ls).eqs.length, (leading ls).consts) := by
  induction h generalizing op with
  | nil => rfl
  | @cons l b ls bounds hb hrest ih =>
    obtain ⟨hleft, hop⟩ := hb
    rw [if_neg (cons_ne_nil _ _)]
    cases l with
    | none =>
      have hleft : b.left = none := hleft
      simp [PredicateManager.getLeftLastTuple, hleft, leading, Lead.leftOp, Lead.consts]
    | some c =>
      have hop := hop c rfl
      rw [bind_some, PredicateManager.left] at hleft
      cases hc : c.op <;> simp only [hc] at hleft hop
      case eq =>
        have hlast : (if ls = [] then some LeftOp.eq else (leading ls).leftOp ls.length) =
            (leading (some c :: ls)).leftOp (ls.length + 1) := by
          cases ls with
          | nil => simp [leading, hc, Lead.leftOp]
          | cons l ls => simp [leading, hc, Lead.leftOp]
        simp only [PredicateManager.getLeftLastTuple, hleft, ih, hlast]
        simp [leading, hc, Lead.consts]
      case gt | ge =>
        simp [PredicateManager.getLeftLastTuple, hleft, leading, hc, Lead.leftOp, PredicateManager.left, Lead.consts]
      all_goals cases hop

theorem getRightLastTuple_eq (h : List.Forall₂ (fun l b => b.right = l.bind PredicateManager.right ∧
      ∀ c, l = some c → c.op.isUpper) ls bounds) (op : Option RightOp) :
    PredicateManager.getRightLastTuple op bounds =
      (if ls = [] then op else (leading ls).rightOp ls.length, (leading ls).eqs.length, (leading ls).consts) := by
  induction h generalizing op with
  | nil => rfl
  | @cons l b ls bounds hb hrest ih =>
    obtain ⟨hright, hop⟩ := hb
    rw [if_neg (cons_ne_nil _ _)]
    cases l with
    | none =>
      have hright : b.right = none := hright
      simp [PredicateManager.getRightLastTuple, hright, leading, Lead.rightOp, Lead.consts]
    | some c =>
      have hop := hop c rfl
      rw [bind_some, PredicateManager.right] at hright
      cases hc : c.op <;> simp only [hc] at hright hop
      case eq =>
        have hlast : (if ls = [] then some RightOp.eq else (leading ls).rightOp ls.length) =
            (leading (some c :: ls)).rightOp (ls.length + 1) := by
          cases ls with
          | nil => simp [leading, hc, Lead.rightOp]
          | cons l ls => simp [leading, hc, Lead.rightOp]
        simp only [PredicateManager.getRightLastTuple, hright, ih, hlast]
        simp [leading, hc, Lead.consts]
      case lt | le =>
        simp [PredicateManager.getRightLastTuple, hright, leading, hc, Lead.rightOp, PredicateManager.right, Lead.consts]
      all_goals cases hop

theorem Lead.left_cases (l : Lead) (n : Nat) (hop : ∀ c, l.next = some c → c.op.isLower ∧ c.op ≠ .eq)
    (hn : l.eqs.length ≤ n) :
    (∃ c, l.next = some c ∧ c.op = .gt ∧ l.leftOp n = some .gt) ∨ (∃ c, l.next = some c ∧ c.op = .ge ∧ l.leftOp n = some .ge) ∨
    (l.next = none ∧ l.eqs.length = n ∧ 0 < n ∧ l.leftOp n = some .eq) ∨
    (l.next = none ∧ (l.eqs.length < n ∨ n = 0) ∧ l.leftOp n = none) := by
  cases hnext : l.next with
  | some c =>
    obtain ⟨hlower, hne⟩ := hop c hnext
    cases hc : c.op <;> simp_all [CompOp.isLower, Lead.leftOp, PredicateManager.left]
  | none =>
    by_cases hall : l.eqs.length = n ∧ 0 < n
    · simp [Lead.leftOp, hnext, hall]
    · simp [Lead.leftOp, hnext, hall]
      omega

theorem Lead.right_cases (l : Lead) (n : Nat) (hop : ∀ c, l.next = some c → c.op.isUpper ∧ c.op ≠ .eq)
    (hn : l.eqs.length ≤ n) :
    (∃ c, l.next = some c ∧ c.op = .lt ∧ l.rightOp n = some .lt) ∨ (∃ c, l.next = some c ∧ c.op = .le ∧ l.rightOp n = some .le) ∨
    (l.next = none ∧ l.eqs.length = n ∧ 0 < n ∧ l.rightOp n = some .eq) ∨
    (l.next = none ∧ (l.eqs.length < n ∨ n = 0) ∧ l.rightOp n = none) := by
  cases hnext : l.next with
  | some c =>
    obtain ⟨hupper, hne⟩ := hop c hnext
    cases hc : c.op <;> simp_all [CompOp.isUpper, Lead.rightOp, PredicateManager.right]
  | none =>
    by_cases hall : l.eqs.length = n ∧ 0 < n
    · simp [Lead.rightOp, hnext, hall]
    · simp [Lead.rightOp, hnext, hall]
      omega

end Leading

/-! ## The range -/

section Range

variable {ix : IndexMeta} {sc : IndexScan} {l r : Lead} {mem : Uninit}
  {s : IxIndexHandle (Key ix.keyCols) (btreeOrder ix.keyCols)} {L : List (Block (Key ix.keyCols))}
  {Us : List (List (Block (Key ix.keyCols)))}

def Lead.buffer (l : Lead) (old : List (List UInt8)) : List (List UInt8) := l.consts ++ old.drop l.consts.length

structure Takes (ix : IndexMeta) (sc : IndexScan) (l r : Lead) : Prop where
  left : PredicateManager.getLeftLastTuple none sc.bounds = (l.leftOp ix.cols.length, l.eqs.length, l.consts)
  right : PredicateManager.getRightLastTuple none sc.bounds = (r.rightOp ix.cols.length, r.eqs.length, r.consts)
  lower : ∀ c, l.next = some c → c.op.isLower ∧ c.op ≠ .eq
  upper : ∀ c, r.next = some c → c.op.isUpper ∧ c.op ≠ .eq
  leftLen : l.eqs.length + l.next.toList.length ≤ ix.cols.length
  rightLen : r.eqs.length + r.next.toList.length ≤ ix.cols.length
  leftFits : Fits (ix.cols.take l.consts.length) l.consts
  rightFits : Fits (ix.cols.take r.consts.length) r.consts
  /-- A column with `=` as its upper condition has a lower one. -/
  leftBoth : l.next = none → l.eqs.length < ix.cols.length → r.eqs.length ≤ l.eqs.length
  rightBoth : r.next = none → r.eqs.length < ix.cols.length → l.eqs.length ≤ r.eqs.length

theorem Lead.length_consts (l : Lead) : l.consts.length = l.eqs.length + l.next.toList.length := by
  simp [Lead.consts]

theorem Lead.buffer_take (l : Lead) (old : List (List UInt8)) : (l.buffer old).take l.consts.length = l.consts :=
  take_left

theorem Lead.fits_buffer {cols : List ColMeta} {old : List (List UInt8)} (h : Fits (cols.take l.consts.length) l.consts)
    (hold : Fits cols old) : Fits cols (l.buffer old) := by
  have := h.append (hold.drop l.consts.length)
  rwa [take_append_drop] at this

def fromLeft (s : IxIndexHandle (Key ix.keyCols) (btreeOrder ix.keyCols)) (mem : Uninit) (lastIdx : Nat)
    (leftKey rightKey : List (List UInt8)) (rightOp : Option RightOp) : Option LeftOp → Option (Iid × Iid)
  | none => some (s.leafBegin, mem.upper)
  | some .eq => (s.lowerBound (keyOf ix leftKey)).bind fun lower =>
    (s.upperBound (keyOf ix rightKey)).map fun upper => (lower, upper)
  | some .gt => (s.upperBound (keyOf ix (setRemaining maxRaw ix (lastIdx + 1) leftKey))).bind fun lower =>
    (if rightOp.isNone ∧ lastIdx > 0 then s.upperBound (keyOf ix (setRemaining maxRaw ix lastIdx leftKey))
      else some mem.upper).map fun upper => (lower, upper)
  | some .ge => (s.lowerBound (keyOf ix (setRemaining minRaw ix (lastIdx + 1) leftKey))).bind fun lower =>
    (if rightOp.isNone ∧ lastIdx > 0 then s.upperBound (keyOf ix (setRemaining maxRaw ix lastIdx leftKey))
      else some mem.upper).map fun upper => (lower, upper)

def toRight (s : IxIndexHandle (Key ix.keyCols) (btreeOrder ix.keyCols)) (lastIdx : Nat) (rightKey : List (List UInt8))
    (leftOp : Option LeftOp) (lower upper : Iid) : Option RightOp → Option (Iid × Iid)
  | none => s.leafEnd.map fun upper => (lower, upper)
  | some .eq => some (lower, upper)
  | some .lt => (s.lowerBound (keyOf ix (setRemaining minRaw ix (lastIdx + 1) rightKey))).bind fun upper =>
    (if leftOp.isNone ∧ lastIdx > 0 then s.lowerBound (keyOf ix (setRemaining minRaw ix lastIdx rightKey))
      else some lower).map fun lower => (lower, upper)
  | some .le => (s.upperBound (keyOf ix (setRemaining maxRaw ix (lastIdx + 1) rightKey))).bind fun upper =>
    (if leftOp.isNone ∧ lastIdx > 0 then s.lowerBound (keyOf ix (setRemaining minRaw ix lastIdx rightKey))
      else some lower).map fun lower => (lower, upper)

theorem Takes.range_sides (h : Takes ix sc l r)
    (hops : ¬ (l.leftOp ix.cols.length = none ∧ r.rightOp ix.cols.length = none)) :
    sc.range s mem = (fromLeft s mem l.eqs.length (l.buffer mem.leftKey) (r.buffer mem.rightKey)
      (r.rightOp ix.cols.length) (l.leftOp ix.cols.length)).bind fun (lower, upper) =>
        toRight s l.eqs.length (r.buffer mem.rightKey) (l.leftOp ix.cols.length) lower upper
          (r.rightOp ix.cols.length) := by
  have hnone : ¬ ((l.leftOp ix.cols.length).isNone = true ∧ (r.rightOp ix.cols.length).isNone = true) := by
    simpa using hops
  simp only [IndexScan.range, h.left, h.right, if_neg hnone]
  by_cases hzero : 0 < l.eqs.length <;> rcases l.leftOp ix.cols.length with _ | _ | _ | _ <;>
    rcases r.rightOp ix.cols.length with _ | _ | _ | _ <;>
    simp [fromLeft, toRight, Lead.buffer, hzero, bind_assoc, map_eq_bind]

def CutAt (L : List (Block (Key ix.keyCols))) (b : Bool × List (List UInt8)) (iid : Iid) : Prop :=
  Cut L (fun key => isBehind ix.cols b.1 b.2 (valuesOf ix key)) iid

theorem cutAt_leafBegin (t : Tree s L Us) : CutAt L (false, []) s.leafBegin :=
  t.cut_leafBegin ix.order fun key => by simp [isBehind, cmpCols]

theorem cutAt_leafEnd (t : Tree s L Us) : ∃ iid, s.leafEnd = some iid ∧ CutAt L (true, []) iid :=
  t.cut_leafEnd ix.order fun key => by simp [isBehind, cmpCols]

variable {op : LeftOp}

theorem Takes.fromLeft_eq (h : Takes ix sc l r) (t : Tree s L Us) (hleft : Fits ix.cols mem.leftKey)
    (hright : Fits ix.cols mem.rightKey) (hop : l.leftOp ix.cols.length = some op) (rightOp : Option RightOp) :
    ∃ lower upper, fromLeft s mem l.eqs.length (l.buffer mem.leftKey) (r.buffer mem.rightKey) rightOp (some op) =
        some (lower, upper) ∧
      CutAt L (scanBegin ix.cols.length l r (r.buffer mem.rightKey)) lower ∧
      (op = .eq → CutAt L (true, r.buffer mem.rightKey) upper) ∧ (op ≠ .eq → rightOp.isSome → upper = mem.upper) := by
  have hlk := Lead.fits_buffer h.leftFits hleft
  have htake := l.buffer_take mem.leftKey
  rw [l.length_consts] at htake
  obtain ⟨up, hup, -⟩ := cut_max t hlk l.eqs.length
  have hupper : ∃ upper, (if rightOp.isNone ∧ l.eqs.length > 0 then
      s.upperBound (keyOf ix (setRemaining maxRaw ix l.eqs.length (l.buffer mem.leftKey))) else some mem.upper) =
        some upper ∧ (rightOp.isSome → upper = mem.upper) := by
    split_ifs with hif
    · exact ⟨up, hup, fun hsome => absurd hif.1 (by simpa [isSome_iff_ne_none] using hsome)⟩
    · exact ⟨_, rfl, fun _ => rfl⟩
  obtain ⟨upper, hupper, hsome⟩ := hupper
  have hlen := h.leftLen
  rcases l.left_cases ix.cols.length h.lower (by omega) with ⟨c, hnext, hc, hop'⟩ | ⟨c, hnext, hc, hop'⟩ |
    ⟨hnext, heqs, hpos, hop'⟩ | ⟨hnext, -, hop'⟩
  · obtain rfl : op = .gt := by simpa [hop] using hop'
    obtain ⟨lower, hlower, hcut⟩ := cut_max t hlk (l.eqs.length + 1)
    rw [hnext] at htake
    refine ⟨lower, upper, by rw [fromLeft, hlower, bind_some, hupper]; rfl, ?_, nofun, fun _ => hsome⟩
    simpa [CutAt, scanBegin, hnext, hc, ← htake] using hcut
  · obtain rfl : op = .ge := by simpa [hop] using hop'
    obtain ⟨lower, hlower, hcut⟩ := cut_min t hlk (l.eqs.length + 1)
    rw [hnext] at htake
    refine ⟨lower, upper, by rw [fromLeft, hlower, bind_some, hupper]; rfl, ?_, nofun, fun _ => hsome⟩
    simpa [CutAt, scanBegin, hnext, hc, ← htake] using hcut
  · obtain rfl : op = .eq := by simpa [hop] using hop'
    obtain ⟨⟨lower, hlower, hcut⟩, -⟩ := cut_key t hlk
    obtain ⟨-, upper, hupper, hcut'⟩ := cut_key t (Lead.fits_buffer h.rightFits hright)
    have hall : l.buffer mem.leftKey = l.consts := by
      rw [← htake, take_of_length_le]
      simp [hlk.length, hnext, heqs]
    rw [hall] at hcut
    refine ⟨lower, upper, by simp [fromLeft, hlower, hupper], ?_, fun _ => hcut', fun hne => absurd rfl hne⟩
    simpa [CutAt, scanBegin, hnext, heqs] using hcut
  · simp [hop] at hop'

theorem Takes.toRight_eq (h : Takes ix sc l r) (t : Tree s L Us) (hright : Fits ix.cols mem.rightKey) {c : Condition}
    (hnext : r.next = some c) (leftOp : Option LeftOp) (lower upper : Iid) :
    ∃ lower' upper', toRight s l.eqs.length (r.buffer mem.rightKey) leftOp lower upper (r.rightOp ix.cols.length) =
        some (lower', upper') ∧
      CutAt L (c.op = .le, (r.buffer mem.rightKey).take (l.eqs.length + 1)) upper' ∧
      (leftOp.isSome → lower' = lower) ∧
      (leftOp = none → CutAt L (false, []) lower → CutAt L (false, (r.buffer mem.rightKey).take l.eqs.length) lower') := by
  have hrk := Lead.fits_buffer h.rightFits hright
  obtain ⟨lo, hlo, hcut⟩ := cut_min t hrk l.eqs.length
  have hlower : ∃ lower', (if leftOp.isNone ∧ l.eqs.length > 0 then
      s.lowerBound (keyOf ix (setRemaining minRaw ix l.eqs.length (r.buffer mem.rightKey))) else some lower) =
        some lower' ∧ (leftOp.isSome → lower' = lower) ∧
      (leftOp = none → CutAt L (false, []) lower → CutAt L (false, (r.buffer mem.rightKey).take l.eqs.length) lower') := by
    split_ifs with hif
    · exact ⟨lo, hlo, fun hsome => absurd hif.1 (by simpa [isSome_iff_ne_none] using hsome), fun _ _ => hcut⟩
    · refine ⟨lower, rfl, fun _ => rfl, fun hnone hall => ?_⟩
      have hzero : l.eqs.length = 0 := by
        by_contra hne
        exact hif ⟨by simp [hnone], by omega⟩
      rwa [hzero, take_zero]
  obtain ⟨lower', hlower, hrest⟩ := hlower
  have hlen := h.rightLen
  rcases r.right_cases ix.cols.length h.upper (by omega) with ⟨c', hnext', hc, hop⟩ | ⟨c', hnext', hc, hop⟩ |
    ⟨hnext', -⟩ | ⟨hnext', -⟩
  · obtain rfl : c = c' := by simpa [hnext] using hnext'
    obtain ⟨upper', hupper, hcut'⟩ := cut_min t hrk (l.eqs.length + 1)
    refine ⟨lower', upper', by rw [hop, toRight, hupper, bind_some, hlower]; rfl, ?_, hrest⟩
    simpa [CutAt, hc] using hcut'
  · obtain rfl : c = c' := by simpa [hnext] using hnext'
    obtain ⟨upper', hupper, hcut'⟩ := cut_max t hrk (l.eqs.length + 1)
    refine ⟨lower', upper', by rw [hop, toRight, hupper, bind_some, hlower]; rfl, ?_, hrest⟩
    simpa [CutAt, hc] using hcut'
  · simp [hnext] at hnext'
  · simp [hnext] at hnext'

theorem Takes.rightOp_ne_none (h : Takes ix sc l r) {c : Condition} (hnext : r.next = some c) :
    r.rightOp ix.cols.length ≠ none := by
  obtain ⟨hupper, hne⟩ := h.upper c hnext
  cases hc : c.op <;> simp_all [CompOp.isUpper, Lead.rightOp, PredicateManager.right]

def EndAt (L : List (Block (Key ix.keyCols))) (mem : Uninit) (upper : Iid) : Option (Bool × List (List UInt8)) → Prop
  | none => upper = mem.upper
  | some b => CutAt L b upper

theorem Takes.leftOp_none (h : Takes ix sc l r) (hop : l.leftOp ix.cols.length = none) :
    l.next = none ∧ (l.eqs.length < ix.cols.length ∨ ix.cols.length = 0) := by
  have hlen := h.leftLen
  rcases l.left_cases ix.cols.length h.lower (by omega) with ⟨c, -, -, h⟩ | ⟨c, -, -, h⟩ | ⟨-, -, -, h⟩ | ⟨h1, h2, -⟩
  · simp [hop] at h
  · simp [hop] at h
  · simp [hop] at h
  · exact ⟨h1, h2⟩

theorem Takes.leftOp_some (h : Takes ix sc l r) (hop : l.leftOp ix.cols.length = some op) :
    0 < ix.cols.length ∧ (op = .eq ∧ l.next = none ∧ l.eqs.length = ix.cols.length ∨
      op ≠ .eq ∧ l.next.isSome ∧ l.eqs.length < ix.cols.length) := by
  have hlen := h.leftLen
  rcases l.left_cases ix.cols.length h.lower (by omega) with ⟨c, hnext, -, h⟩ | ⟨c, hnext, -, h⟩ | ⟨hnext, heqs, hpos, h⟩ |
    ⟨-, -, h⟩
  · simp only [hnext, toList_some, length_singleton] at hlen
    exact ⟨by omega, .inr ⟨by rintro rfl; simp [hop] at h, by simp [hnext], by omega⟩⟩
  · simp only [hnext, toList_some, length_singleton] at hlen
    exact ⟨by omega, .inr ⟨by rintro rfl; simp [hop] at h, by simp [hnext], by omega⟩⟩
  · exact ⟨hpos, .inl ⟨by simpa [hop] using h, hnext, heqs⟩⟩
  · simp [hop] at h

variable (h : Takes ix sc l r) (t : Tree s L Us) (hleft : Fits ix.cols mem.leftKey) (hright : Fits ix.cols mem.rightKey)

include h t hleft hright

theorem Takes.range_none (hop : l.leftOp ix.cols.length = none) (hop' : r.rightOp ix.cols.length = none) :
    ∃ lower upper, sc.range s mem = some (lower, upper) ∧
      CutAt L (false, (l.buffer mem.leftKey).take l.eqs.length) lower ∧
      CutAt L (true, (r.buffer mem.rightKey).take l.eqs.length) upper := by
  obtain ⟨lower, hlower, hcut⟩ := cut_min t (Lead.fits_buffer h.leftFits hleft) l.eqs.length
  obtain ⟨upper, hupper, hcut'⟩ := cut_max t (Lead.fits_buffer h.rightFits hright) l.eqs.length
  rw [Lead.buffer] at hlower hupper
  refine ⟨lower, upper, ?_, hcut, hcut'⟩
  simp [IndexScan.range, h.left, h.right, hop, hop', hlower, hupper]

theorem Takes.range_of_none (hop : l.leftOp ix.cols.length = none) :
    ∃ lower upper, sc.range s mem = some (lower, upper) ∧
      CutAt L (scanBegin ix.cols.length l r (r.buffer mem.rightKey)) lower ∧
      EndAt L mem upper (scanEnd ix.cols.length l r (r.buffer mem.rightKey)) := by
  obtain ⟨hnext, hlen⟩ := h.leftOp_none hop
  have hll := h.leftLen
  have hrl := h.rightLen
  cases hnext' : r.next with
  | some c =>
    have hlt : l.eqs.length < ix.cols.length := by
      simp only [hnext', toList_some, length_singleton] at hrl
      omega
    obtain ⟨lower, upper, hrun, hupper, -, hlower⟩ := h.toRight_eq t hright hnext' none s.leafBegin mem.upper
    refine ⟨lower, upper, ?_, ?_, ?_⟩
    · rw [h.range_sides fun hnone => h.rightOp_ne_none hnext' hnone.2, hop, fromLeft, bind_some]
      exact hrun
    · rw [scanBegin, hnext]
      simpa [hlt, hnext'] using hlower rfl (cutAt_leafBegin t)
    · rw [scanEnd, hnext']
      exact hupper
  | none =>
    have hboth : ix.cols.length = 0 ∨ r.eqs.length < ix.cols.length := by
      refine or_iff_not_imp_left.2 fun hne => ?_
      have := h.leftBoth hnext (by omega)
      omega
    have hop' : r.rightOp ix.cols.length = none := by
      rw [Lead.rightOp, hnext']
      exact if_neg fun ⟨hall, hpos⟩ => by omega
    obtain ⟨lower, upper, hrun, hlower, hupper⟩ := h.range_none t hleft hright hop hop'
    have htake := l.buffer_take mem.leftKey
    rw [l.length_consts, hnext] at htake
    refine ⟨lower, upper, hrun, ?_, ?_⟩
    · rw [scanBegin, hnext, ← htake]
      simpa [hnext'] using hlower
    · have hend : scanEnd ix.cols.length l r (r.buffer mem.rightKey) =
          some (true, (r.buffer mem.rightKey).take l.eqs.length) := by
        rw [scanEnd, hnext', hnext]
        rcases hboth with hzero | hlt
        · have hbuf : r.buffer mem.rightKey = [] :=
            eq_nil_of_length_eq_zero ((Lead.fits_buffer h.rightFits hright).length.trans hzero)
          have hl : l.eqs.length = ix.cols.length := by omega
          have hr : r.eqs.length = ix.cols.length := by omega
          simp [hl, hr, hbuf]
        · simp [hlt.ne]
      rw [hend]
      exact hupper

theorem Takes.range_of_some (hop : l.leftOp ix.cols.length = some op) :
    ∃ lower upper, sc.range s mem = some (lower, upper) ∧
      CutAt L (scanBegin ix.cols.length l r (r.buffer mem.rightKey)) lower ∧
      EndAt L mem upper (scanEnd ix.cols.length l r (r.buffer mem.rightKey)) := by
  obtain ⟨hpos, hcases⟩ := h.leftOp_some hop
  have hrl := h.rightLen
  obtain ⟨lower, upper, hleftRun, hlower, hall, hmem⟩ := h.fromLeft_eq t hleft hright hop (r.rightOp ix.cols.length)
  have hrun : ∀ res, toRight s l.eqs.length (r.buffer mem.rightKey) (some op) lower upper (r.rightOp ix.cols.length) =
      some res → sc.range s mem = some res := by
    intro res hres
    rw [h.range_sides fun hnone => by simp [hop] at hnone, hop, hleftRun, bind_some]
    exact hres
  cases hnext' : r.next with
  | some c =>
    obtain ⟨lower', upper', hright', hupper', hsame, -⟩ := h.toRight_eq t hright hnext' (some op) lower upper
    refine ⟨lower', upper', hrun _ hright', ?_, ?_⟩
    · rw [hsame rfl]
      exact hlower
    · rw [scanEnd, hnext']
      exact hupper'
  | none =>
    by_cases hall' : r.eqs.length = ix.cols.length
    · -- nothing is searched for on the upper side
      have hop' : r.rightOp ix.cols.length = some .eq := by simp [Lead.rightOp, hnext', hall', hpos]
      refine ⟨lower, upper, hrun _ (by rw [hop', toRight]), hlower, ?_⟩
      rw [scanEnd, hnext']
      rcases hcases with ⟨heq, -, hlen⟩ | ⟨hne, -, hlt⟩
      · simpa [hall', hlen, EndAt] using hall heq
      · simpa [hall', hlt.ne, EndAt] using hmem hne (by simp [hop'])
    · have hop' : r.rightOp ix.cols.length = none := by simp [Lead.rightOp, hnext', hall']
      obtain ⟨last, hlast, hcut⟩ := cutAt_leafEnd t
      refine ⟨lower, last, hrun _ (by rw [hop', toRight, hlast]; rfl), hlower, ?_⟩
      rw [scanEnd, hnext']
      rcases hcases with ⟨-, -, hlen⟩ | ⟨-, hsome, -⟩
      · have := h.rightBoth hnext' (by omega)
        omega
      · simpa [hall', hsome, EndAt] using hcut

theorem Takes.range_eq :
    ∃ lower upper, sc.range s mem = some (lower, upper) ∧
      CutAt L (scanBegin ix.cols.length l r (r.buffer mem.rightKey)) lower ∧
      EndAt L mem upper (scanEnd ix.cols.length l r (r.buffer mem.rightKey)) := by
  cases hop : l.leftOp ix.cols.length with
  | none => exact h.range_of_none t hleft hright hop
  | some op => exact h.range_of_some t hleft hright hop

end Range

/-! ## The leads of a list of conditions -/

section Conditions

variable {cols : List ColMeta} {conds : List Condition}

def Typed (cols : List ColMeta) (conds : List Condition) : Prop :=
  ∀ cond ∈ conds, ∀ j, cond.on cols j → cols[j]? = some cond.col ∧ cond.raw.length = cond.col.len

variable {j : Nat} {c : Condition}

theorem cond_some {p : CompOp → Bool} (h : (conds.reverse.find? fun c => c.on cols j && p c.op) = some c) :
    c ∈ conds ∧ c.on cols j := by
  have hcond := List.find?_some h
  exact ⟨mem_reverse.1 (mem_of_find?_eq_some h), (Bool.and_eq_true_iff.1 hcond).1⟩

/-- An `=` bounds the column from both sides. -/
theorem other_side {p p' : CompOp → Bool} (heq : p' .eq = true)
    (h : (conds.reverse.find? fun c => c.on cols j && p c.op) = some c) (hc : c.op = .eq) :
    (conds.reverse.find? fun c => c.on cols j && p' c.op) ≠ none := by
  obtain ⟨hmem, hon⟩ := cond_some h
  rw [Ne, List.find?_eq_none]
  intro hnone
  exact hnone c (mem_reverse.2 hmem) (by simp [hon, hc, heq])

theorem leading_next : ∀ {ls : List (Option Condition)} {c : Condition}, (leading ls).next = some c →
    some c ∈ ls ∧ c.op ≠ .eq
  | [], _, h => by simp [leading] at h
  | none :: ls, _, h => by simp [leading] at h
  | some d :: ls, c, h => by
    rw [leading] at h
    split_ifs at h with heq
    · obtain ⟨hmem, hne⟩ := leading_next h
      exact ⟨mem_cons_of_mem _ hmem, hne⟩
    · obtain rfl : d = c := by simpa using h
      exact ⟨mem_cons_self, heq⟩

theorem fits_leading {cols : List ColMeta} {ls : List (Option Condition)}
    (h : List.Forall₂ (fun (col : ColMeta) l => ∀ c : Condition, l = some c → c.raw.length = col.len) cols ls) :
    Fits (cols.take (leading ls).consts.length) (leading ls).consts := by
  induction h with
  | nil => simp [leading, Lead.consts, Fits]
  | @cons col l cols ls hc _ ih =>
    cases l with
    | none => simp [leading, Lead.consts, Fits]
    | some c =>
      rw [leading]
      split_ifs
      · simp only [Lead.consts, cons_append, map_cons, length_cons, take_succ_cons] at ih ⊢
        exact .cons (hc c rfl) ih
      · simp only [Lead.consts, nil_append, toList_some, map_cons, map_nil, length_cons,
          length_nil, take_succ_cons, take_zero]
        exact .cons (hc c rfl) .nil

theorem bounds_make_eq : (IndexScan.make cols conds).bounds = (List.range cols.length).map fun j =>
    { left := (lowerCond cols conds j).bind PredicateManager.left
      right := (upperCond cols conds j).bind PredicateManager.right } := by
  refine ext_getElem? fun j => ?_
  by_cases hj : j < cols.length
  · rw [IndexScan.bounds_make cols conds hj]
    simp [hj]
  · rw [List.getElem?_eq_none (by rw [IndexScan.length_bounds_make]; omega), List.getElem?_eq_none (by simp; omega)]

theorem getElem?_lowers (hj : j < cols.length) : (lowers cols conds)[j]? = some (lowerCond cols conds j) := by
  simp [lowers, hj]

theorem getElem?_uppers (hj : j < cols.length) : (uppers cols conds)[j]? = some (upperCond cols conds j) := by
  simp [uppers, hj]

theorem mem_lowers (h : some c ∈ lowers cols conds) : ∃ j, lowerCond cols conds j = some c := by
  obtain ⟨j, -, hj⟩ := mem_map.1 h
  exact ⟨j, hj⟩

theorem mem_uppers (h : some c ∈ uppers cols conds) : ∃ j, upperCond cols conds j = some c := by
  obtain ⟨j, -, hj⟩ := mem_map.1 h
  exact ⟨j, hj⟩

theorem forall₂_range {α : Type} {R : ColMeta → α → Prop} {f : Nat → α}
    (h : ∀ j c, cols[j]? = some c → R c (f j)) : List.Forall₂ R cols ((List.range cols.length).map f) := by
  refine forall₂_iff_get.2 ⟨by simp, fun j hj hj' => ?_⟩
  simpa using h j _ (List.getElem?_eq_getElem hj)

theorem takes_make {ix : IndexMeta} (htyped : Typed ix.cols conds) :
    Takes ix (IndexScan.make ix.cols conds) (leading (lowers ix.cols conds)) (leading (uppers ix.cols conds)) := by
  have hlen : (lowers ix.cols conds).length = ix.cols.length := by simp [lowers]
  have hlen' : (uppers ix.cols conds).length = ix.cols.length := by simp [uppers]
  have hfit : ∀ {j : Nat} {c : Condition}, c ∈ conds ∧ c.on ix.cols j → ∀ col, ix.cols[j]? = some col →
      c.raw.length = col.len := by
    rintro j c ⟨hmem, hon⟩ col hcol
    obtain ⟨hcol', hraw⟩ := htyped c hmem j hon
    rw [hcol, some.injEq] at hcol'
    rw [hraw, hcol']
  have hleft := @getLeftLastTuple_eq (lowers ix.cols conds) (IndexScan.make ix.cols conds).bounds
    (by
      rw [bounds_make_eq, lowers, forall₂_map_left_iff, forall₂_map_right_iff]
      exact forall₂_same.2 fun j _ => ⟨rfl, fun c hc => lowerCond_isLower hc⟩) none
  have hright := @getRightLastTuple_eq (uppers ix.cols conds) (IndexScan.make ix.cols conds).bounds
    (by
      rw [bounds_make_eq, uppers, forall₂_map_left_iff, forall₂_map_right_iff]
      exact forall₂_same.2 fun j _ => ⟨rfl, fun c hc => upperCond_isUpper hc⟩) none
  refine ⟨?_, ?_, fun c hc => ?_, fun c hc => ?_, ?_, ?_, ?_, ?_, fun hnext hlt => ?_, fun hnext hlt => ?_⟩
  · rw [hleft, hlen]
    split_ifs with hnil
    · rw [← hlen, hnil]
      rfl
    · rfl
  · rw [hright, hlen']
    split_ifs with hnil
    · rw [← hlen', hnil]
      rfl
    · rfl
  · obtain ⟨hmem, hne⟩ := leading_next hc
    obtain ⟨j, hj⟩ := mem_lowers hmem
    exact ⟨lowerCond_isLower hj, hne⟩
  · obtain ⟨hmem, hne⟩ := leading_next hc
    obtain ⟨j, hj⟩ := mem_uppers hmem
    exact ⟨upperCond_isUpper hj, hne⟩
  · exact hlen ▸ leading_length_le (lowers ix.cols conds)
  · exact hlen' ▸ leading_length_le (uppers ix.cols conds)
  · exact fits_leading (forall₂_range fun j col hcol c hc => hfit (cond_some hc) col hcol)
  · exact fits_leading (forall₂_range fun j col hcol c hc => hfit (cond_some hc) col hcol)
  · -- the column behind the `=` of the lower side has no lower condition
    have hnone := leading_none hnext (by rw [hlen]; exact hlt)
    by_contra hgt
    obtain ⟨c, hc, heq⟩ := leading_eq (not_le.1 hgt)
    rw [getElem?_lowers hlt, some.injEq] at hnone
    rw [getElem?_uppers hlt, some.injEq] at hc
    exact other_side rfl hc heq hnone
  · have hnone := leading_none hnext (by rw [hlen']; exact hlt)
    by_contra hgt
    obtain ⟨c, hc, heq⟩ := leading_eq (not_le.1 hgt)
    rw [getElem?_uppers hlt, some.injEq] at hnone
    rw [getElem?_lowers hlt, some.injEq] at hc
    exact other_side rfl hc heq hnone

end Conditions

end Rmdb.Execution
