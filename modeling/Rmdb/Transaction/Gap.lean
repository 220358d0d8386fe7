/-
Gaps: the ranges of index keys that transactions lock.

A gap may have a lower and an upper condition for each column of its index. A key
lies in the gap when its columns meet all of them. `isCoincide` compares the
bounds column by column, and is never false for gaps that share a key.
-/
import Rmdb.Index.Key

namespace Rmdb.Lock

open Index (IxCmp IxOrder ixCmp)

/-- The operators of a lower bound; `PredicateManager` puts no other there. -/
inductive LeftOp where
  | gt
  | ge
  | eq
  deriving DecidableEq, Repr

inductive RightOp where
  | lt
  | le
  | eq
  deriving DecidableEq, Repr

/-- The two `CondOp`s of a column; `none` is `OP_INVALID`. -/
structure ColConds (V : Type) where
  left : Option (LeftOp × V) := none
  right : Option (RightOp × V) := none
  deriving DecidableEq

/-- `Gap`: the conditions of each column of the index. -/
abbrev Gap (V : Type) := List (ColConds V)

section Compare

variable {V : Type} [IxCmp V]

def cmpLeft (v : V) : Option (LeftOp × V) → Bool
  | none => true
  | some (.gt, w) => 0 < ixCmp v w
  | some (.ge, w) => 0 ≤ ixCmp v w
  | some (.eq, w) => ixCmp v w = 0

def cmpRight (v : V) : Option (RightOp × V) → Bool
  | none => true
  | some (.lt, w) => ixCmp v w < 0
  | some (.le, w) => ixCmp v w ≤ 0
  | some (.eq, w) => ixCmp v w = 0

/-- `Gap::isInGap`; a key has one value for each column of its index. -/
def Gap.isInGap : Gap V → List V → Bool
  | [], [] => true
  | c :: g, v :: k => cmpLeft v c.left && cmpRight v c.right && isInGap g k
  | _, _ => false

/-- The lower bound lies above the upper one. -/
def apart : Option (LeftOp × V) → Option (RightOp × V) → Bool
  | some (lop, l), some (rop, r) => 0 < ixCmp l r || (ixCmp l r = 0 && (lop = .gt || rop = .lt))
  | _, _ => false

/-- One of the two loops of `isCoincide`: the lower bounds of `g` against the upper bounds of `h`. -/
def Gap.reaches : Gap V → Gap V → Bool
  | c :: g, d :: h => !apart c.left d.right && reaches g h
  | _, _ => true

def Gap.isCoincide (g h : Gap V) : Bool := g.reaches h && h.reaches g

def Gap.ofKey (k : List V) : Gap V := k.map fun v => { left := some (.eq, v), right := some (.eq, v) }

/-- A key lies in a gap when it has as many columns and each meets its conditions. -/
theorem Gap.isInGap_iff : ∀ {g : Gap V} {k : List V}, g.isInGap k ↔
    g.length = k.length ∧ ∀ (i : Nat) c v, g[i]? = some c → k[i]? = some v → cmpLeft v c.left ∧ cmpRight v c.right
  | [], [] => by simp [isInGap]
  | [], _ :: _ => by simp [isInGap]
  | _ :: _, [] => by simp [isInGap]
  | c :: g, v :: k => by
    rw [isInGap, Bool.and_eq_true, Bool.and_eq_true, isInGap_iff (g := g) (k := k)]
    constructor
    · rintro ⟨hcv, hlen, hrest⟩
      refine ⟨by simpa using hlen, fun i d w hd hw => ?_⟩
      cases i with
      | zero =>
        cases hd
        cases hw
        exact hcv
      | succ i => exact hrest i d w hd hw
    · rintro ⟨hlen, hall⟩
      exact ⟨hall 0 c v rfl rfl, by simpa using hlen, fun i d w hd hw => hall (i + 1) d w hd hw⟩

theorem Gap.isCoincide_comm (g h : Gap V) : g.isCoincide h = h.isCoincide g := Bool.and_comm _ _

end Compare

/-! ## Ordered values -/

variable {V : Type} [IxOrder V]

theorem not_apart {v : V} {l : Option (LeftOp × V)} {r : Option (RightOp × V)} (hl : cmpLeft v l) (hr : cmpRight v r) :
    apart l r = false := by
  rcases l with _ | ⟨lop, l⟩
  · rfl
  rcases r with _ | ⟨rop, r⟩
  · rfl
  rw [apart, Bool.or_eq_false_iff, decide_eq_false_iff_not, Index.ixCmp_gt_zero, not_lt]
  cases lop <;> cases rop <;>
    simp only [cmpLeft, cmpRight, decide_eq_true_eq, Index.ixCmp_gt_zero, Index.ixCmp_ge_zero, Index.ixCmp_lt_zero,
      Index.ixCmp_le_zero, Index.ixCmp_eq_zero] at hl hr
  case gt.lt => exact ⟨(hl.trans hr).le, by simp [(hl.trans hr).ne]⟩
  case gt.le => exact ⟨(hl.trans_le hr).le, by simp [(hl.trans_le hr).ne]⟩
  case gt.eq => exact ⟨(hl.trans_eq hr).le, by simp [(hl.trans_eq hr).ne]⟩
  case ge.lt => exact ⟨(hl.trans_lt hr).le, by simp [(hl.trans_lt hr).ne]⟩
  case eq.lt => exact ⟨(hl ▸ hr).le, by simp [(hl ▸ hr).ne]⟩
  case ge.le => exact ⟨hl.trans hr, by simp⟩
  case ge.eq => exact ⟨hl.trans hr.le, by simp⟩
  case eq.le => exact ⟨hl ▸ hr, by simp⟩
  case eq.eq => exact ⟨(hl.symm.trans hr).le, by simp⟩

theorem Gap.reaches_of_isInGap : ∀ {g h : Gap V} {k : List V}, g.isInGap k → h.isInGap k → g.reaches h
  | [], _, _, _, _ => rfl
  | _ :: _, [], _, _, _ => rfl
  | c :: g, d :: h, [], hg, _ => by simp [isInGap] at hg
  | c :: g, d :: h, v :: k, hg, hh => by
    simp only [isInGap, Bool.and_eq_true] at hg hh
    rw [reaches, not_apart hg.1.1 hh.1.2, reaches_of_isInGap hg.2 hh.2]
    rfl

theorem Gap.isCoincide_of_isInGap {g h : Gap V} {k : List V} (hg : g.isInGap k) (hh : h.isInGap k) : g.isCoincide h := by
  rw [isCoincide, reaches_of_isInGap hg hh, reaches_of_isInGap hh hg]
  rfl

theorem Gap.isInGap_ofKey : ∀ {k k' : List V}, (Gap.ofKey k).isInGap k' ↔ k' = k
  | [], [] => by simp [ofKey, isInGap]
  | [], _ :: _ => by simp [ofKey, isInGap]
  | _ :: _, [] => by simp [ofKey, isInGap]
  | v :: k, v' :: k' => by
    have ih : (Gap.ofKey k).isInGap k' ↔ k' = k := isInGap_ofKey
    rw [ofKey] at ih
    simp [ofKey, isInGap, cmpLeft, cmpRight, ih]

end Rmdb.Lock
