/-
The rewriting of conditions before a query is planned.

`logical_optimization` replaces the column on the right of `x op y` by a constant
that `y` is compared with, whatever the operator. The constant is moved out of
the map, so only the first condition with `y` on the right has it; the next ones
get a value without bytes, which nothing can be compared with.
-/
import Rmdb.Optimizer.Planner

namespace Rmdb

open Option Function List Index

namespace Execution

def valueCompare : ColType → List UInt8 → List UInt8 → Int
  | .int => ixCompareCol .int
  | .float => ixCompareCol .float
  | .string => charCmp

/-- A condition on a tuple of rows, given by the types and the bytes of the columns. -/
def Cond.eval (type : TabCol → ColType) (x : TabCol → List UInt8) (c : Cond) : Option Bool :=
  (if c.isRhsVal then c.rhsVal.raw else some (x c.rhsCol)).map fun rhs =>
    c.op.test (valueCompare (type c.lhsCol) (x c.lhsCol) rhs)

def Cond.withVal (c : Cond) (v : RawValue) : Cond := { c with isRhsVal := true, rhsVal := v }

end Execution

namespace Optimizer

open Execution

/-! ## The two loops -/

/-- `map` after the first loop: `emplace` keeps what is there. -/
def constOf (conds : List Cond) (col : TabCol) : Option RawValue :=
  (conds.find? fun c => c.isRhsVal ∧ c.lhsCol = col).map Cond.rhsVal

/-- The second loop. What is moved from stays in the map, without its bytes. -/
def propagate (map : TabCol → Option RawValue) : List Cond → List Cond
  | [] => []
  | c :: conds =>
    if c.isRhsVal then c :: propagate map conds
    else
      match map c.rhsCol with
      | none => c :: propagate map conds
      | some v => c.withVal v :: propagate (update map c.rhsCol (some { v with raw := none })) conds

def logicalOptimization (query : Query) : Query := { query with conds := propagate (constOf query.conds) query.conds }

/-! ## What becomes of the conditions -/

section

variable (type : TabCol → ColType) (map : TabCol → Option RawValue) (conds : List Cond) (x : TabCol → List UInt8)

def Satisfies : Prop := ∀ c ∈ conds, c.eval type x = some true

/-- The condition is given a constant for its right column. -/
def Replaced (c : Cond) : Prop := c.isRhsVal = false ∧ (map c.rhsCol).isSome

/-- The conditions that stay. -/
def KeptHold : Prop := ∀ c ∈ conds, ¬ Replaced map c → c.eval type x = some true

def ReplacedHold : Prop := ∀ c ∈ conds, Replaced map c → c.eval type x = some true

/-- The others, with the constant of the column. -/
def ConstsHold : Prop := ∀ c ∈ conds, c.isRhsVal = false → ∀ v, map c.rhsCol = some v →
    (c.withVal v).eval type x = some true

/-- No column is replaced twice. -/
def Once : Prop := conds.Pairwise fun a b => Replaced map a → Replaced map b → a.rhsCol ≠ b.rhsCol

end

section

variable {type : TabCol → ColType} {map : TabCol → Option RawValue} {conds : List Cond} {x : TabCol → List UInt8}

variable {c : Cond}

theorem satisfies_cons :
    Satisfies type (c :: conds) x ↔ c.eval type x = some true ∧ Satisfies type conds x := forall_mem_cons

theorem satisfies_iff : Satisfies type conds x ↔ KeptHold type map conds x ∧ ReplacedHold type map conds x := by
  constructor
  · intro h
    exact ⟨fun c hc _ => h c hc, fun c hc _ => h c hc⟩
  · intro ⟨hkept, hreplaced⟩ c hc
    by_cases h : Replaced map c
    · exact hreplaced c hc h
    · exact hkept c hc h

/-- Nothing can be compared with a value that was moved from. -/
theorem eval_moved (c : Cond) (v : RawValue) : (c.withVal { v with raw := none }).eval type x = none := rfl

variable {col : TabCol} {v : RawValue}

/-- The map after a column was replaced is the one before it, but that a
second condition with that column is not satisfied any more. -/
theorem constsHold_update (hcol : map col = some v) :
    ConstsHold type (update map col (some { v with raw := none })) conds x ↔
      ConstsHold type map conds x ∧ ∀ c ∈ conds, Replaced map c → c.rhsCol ≠ col := by
  constructor
  · intro h
    have hne : ∀ c ∈ conds, Replaced map c → c.rhsCol ≠ col := fun c hc hrep heq => by
      have := h c hc hrep.1 { v with raw := none } (by rw [heq, update_self])
      rw [eval_moved] at this
      cases this
    refine ⟨fun c hc hval w hw => ?_, hne⟩
    exact h c hc hval w (by rw [update_of_ne (hne c hc ⟨hval, by rw [hw]; rfl⟩), hw])
  · intro ⟨h, hne⟩ c hc hval w hw
    by_cases heq : c.rhsCol = col
    · exact absurd heq (hne c hc ⟨hval, by rw [heq, hcol]; rfl⟩)
    · rw [update_of_ne heq] at hw
      exact h c hc hval w hw

theorem replaced_update {w : RawValue} (hcol : map col = some v) :
    Replaced (update map col (some w)) c ↔ Replaced map c := by
  unfold Replaced
  by_cases heq : c.rhsCol = col
  · rw [heq, update_self, hcol]
    rfl
  · rw [update_of_ne heq]

theorem kept_cons (hc : ¬ Replaced map c) :
    (KeptHold type map (c :: conds) x ∧ ConstsHold type map (c :: conds) x ∧ Once map (c :: conds)) ↔
      c.eval type x = some true ∧ KeptHold type map conds x ∧ ConstsHold type map conds x ∧ Once map conds := by
  have hconst : (c.isRhsVal = false → ∀ v, map c.rhsCol = some v → (c.withVal v).eval type x = some true) ↔ True :=
    iff_true_intro fun hval v hv => absurd ⟨hval, by rw [hv]; rfl⟩ hc
  simp only [KeptHold, ConstsHold, Once, forall_mem_cons, pairwise_cons, hc, not_false_eq_true, true_implies,
    false_implies, implies_true, hconst, true_and, and_assoc]

theorem replaced_cons (hval : c.isRhsVal = false) (hv : map c.rhsCol = some v) :
    (KeptHold type map (c :: conds) x ∧ ConstsHold type map (c :: conds) x ∧ Once map (c :: conds)) ↔
      (c.withVal v).eval type x = some true ∧ KeptHold type map conds x ∧
        (ConstsHold type map conds x ∧ ∀ c' ∈ conds, Replaced map c' → c'.rhsCol ≠ c.rhsCol) ∧ Once map conds := by
  have hc : Replaced map c := ⟨hval, by rw [hv]; rfl⟩
  have hconst : (c.isRhsVal = false → ∀ w, map c.rhsCol = some w → (c.withVal w).eval type x = some true) ↔
      (c.withVal v).eval type x = some true := by
    rw [hv]
    exact ⟨fun h => h hval v rfl, fun h _ w hw => some.inj hw ▸ h⟩
  have hsymm : (∀ c' ∈ conds, Replaced map c' → c'.rhsCol ≠ c.rhsCol) ↔
      ∀ c' ∈ conds, Replaced map c' → c.rhsCol ≠ c'.rhsCol := by simp only [ne_comm]
  simp only [KeptHold, ConstsHold, Once, forall_mem_cons, pairwise_cons, hc, not_true_eq_false, true_implies,
    false_implies, true_and, hconst, hsymm]
  tauto

/-- The rewritten conditions: those that stay, the constants, and no column twice. -/
theorem satisfies_propagate : Satisfies type (propagate map conds) x ↔
    KeptHold type map conds x ∧ ConstsHold type map conds x ∧ Once map conds := by
  induction conds generalizing map with
  | nil => simp [propagate, Satisfies, KeptHold, ConstsHold, Once]
  | cons c conds ih =>
    unfold propagate
    split
    · next hval =>
      rw [satisfies_cons, ih, kept_cons fun hrep => by simp [Replaced, hval] at hrep]
    · next hval =>
      split
      · next hnone =>
        rw [satisfies_cons, ih, kept_cons fun hrep => by simp [Replaced, hnone] at hrep]
      · next v hv =>
        -- the map that the other conditions meet has the column without its bytes
        have hkept : KeptHold type (update map c.rhsCol (some { v with raw := none })) conds x ↔
            KeptHold type map conds x := by simp only [KeptHold, replaced_update hv]
        have honce : Once (update map c.rhsCol (some { v with raw := none })) conds ↔ Once map conds := by
          simp only [Once, replaced_update hv]
        rw [satisfies_cons, ih, hkept, constsHold_update hv, honce, replaced_cons (by simpa using hval) hv]

/-- Where the conditions that stay hold, those that are replaced hold as
written exactly when they hold of the constants and no column is replaced
twice. -/
def Preserves (type : TabCol → ColType) (conds : List Cond) (x : TabCol → List UInt8) : Prop :=
  KeptHold type (constOf conds) conds x →
    (ReplacedHold type (constOf conds) conds x ↔ ConstsHold type (constOf conds) conds x ∧ Once (constOf conds) conds)

end

/-! ## Constants of `=` -/

def pad (n : Nat) (a : List UInt8) : List UInt8 := a ++ List.replicate (n - a.length) 0

variable {a b : List UInt8}

theorem length_pad {n : Nat} (h : a.length ≤ n) : (pad n a).length = n := by
  rw [pad, length_append, length_replicate]
  omega

theorem memcmp_append_zeros (k : Nat) : ∀ {n : Nat} {a b : List UInt8}, a.length = n → b.length = n →
    memcmp (n + k) (a ++ List.replicate k 0) (b ++ List.replicate k 0) = memcmp n a b
  | 0, [], [], _, _ => by
    induction k with
    | zero => rfl
    | succ k ih => simpa [replicate_succ, memcmp] using ih
  | n + 1, x :: a, y :: b, ha, hb => by
    rw [Nat.add_right_comm]
    simp only [cons_append, memcmp]
    rw [memcmp_append_zeros k (by simpa using ha) (by simpa using hb)]

/-- Strings may be filled up to any length that has room for both. -/
theorem charCmp_eq {n : Nat} (ha : a.length ≤ n) (hb : b.length ≤ n) :
    charCmp a b = memcmp n (pad n a) (pad n b) := by
  have hsplit : ∀ c : List UInt8, c.length ≤ max a.length b.length →
      pad n c = pad (max a.length b.length) c ++ List.replicate (n - max a.length b.length) 0 := fun c hc => by
    rw [pad, pad, append_assoc, replicate_append_replicate]
    congr 2
    omega
  rw [hsplit a (le_max_left _ _), hsplit b (le_max_right _ _)]
  have hn : n = max a.length b.length + (n - max a.length b.length) := by omega
  conv_rhs => rw [hn]
  rw [Nat.add_sub_cancel_left, memcmp_append_zeros _ (length_pad (le_max_left _ _)) (length_pad (le_max_right _ _))]
  rfl

/-- Values that compare as equal are not told apart by another comparison. -/
theorem valueCompare_congr {t : ColType} (ht : t ≠ .float) {b' : List UInt8} (h : valueCompare t b b' = 0)
    (a : List UInt8) : valueCompare t a b = valueCompare t a b' := by
  cases t with
  | int =>
    simp only [valueCompare, ixCompareCol] at h ⊢
    have heq : readInt b = readInt b' := by
      split_ifs at h with hlt hgt
      · cases h
      · omega
    rw [heq]
  | float => exact absurd rfl ht
  | string =>
    simp only [valueCompare] at h ⊢
    have hb : b.length ≤ max a.length (max b.length b'.length) := by omega
    have hb' : b'.length ≤ max a.length (max b.length b'.length) := by omega
    have ha : a.length ≤ max a.length (max b.length b'.length) := by omega
    rw [charCmp_eq hb hb'] at h
    rw [charCmp_eq ha hb, charCmp_eq ha hb', eq_of_memcmp (length_pad hb) (length_pad hb') h]

structure EqualConsts (type : TabCol → ColType) (conds : List Cond) : Prop where
  once : Once (constOf conds) conds
  equal : ∀ c ∈ conds, c.isRhsVal = false → ∀ d, conds.find? (fun d => d.isRhsVal ∧ d.lhsCol = c.rhsCol) = some d →
    d.op = .eq
  types : ∀ c ∈ conds, c.isRhsVal = false → type c.lhsCol = type c.rhsCol ∧ type c.lhsCol ≠ .float

theorem EqualConsts.preserves {type : TabCol → ColType} {conds : List Cond} {x : TabCol → List UInt8}
    (h : EqualConsts type conds) : Preserves type conds x := by
  intro hkept
  -- the condition that a constant comes from is among those that hold
  have heval : ∀ c ∈ conds, c.isRhsVal = false → ∀ v, constOf conds c.rhsCol = some v →
      (c.withVal v).eval type x = c.eval type x := by
    intro c hc hval v hv
    obtain ⟨d, hd, rfl⟩ := map_eq_some_iff.1 hv
    have hdcol := List.find?_some hd
    simp only [decide_eq_true_eq] at hdcol
    have hholds := hkept d (mem_of_find?_eq_some hd) fun hrep => by simp [Replaced, hdcol.1] at hrep
    unfold Cond.eval at hholds
    rw [if_pos hdcol.1, hdcol.2, h.equal c hc hval d hd] at hholds
    obtain ⟨raw, hraw, htest⟩ := map_eq_some_iff.1 hholds
    obtain ⟨htype, hfloat⟩ := h.types c hc hval
    have hsame := valueCompare_congr (htype ▸ hfloat) (of_decide_eq_true htest) (x c.lhsCol)
    simp only [Cond.eval, Cond.withVal, hraw, hval, htype, if_true, Bool.false_eq_true, if_false, map_some,
      hsame]
  constructor
  · intro hrep
    refine ⟨fun c hc hval v hv => ?_, h.once⟩
    rw [heval c hc hval v hv]
    exact hrep c hc ⟨hval, by rw [hv]; rfl⟩
  · intro ⟨hconsts, _⟩ c hc hrep
    obtain ⟨v, hv⟩ := isSome_iff_exists.1 hrep.2
    rw [← heval c hc hrep.1 v hv]
    exact hconsts c hc hrep.1 v hv

/-- A tuple satisfies the conditions after the optimisation iff it did before,
exactly when the constants say of it what the columns do. -/
theorem satisfies_logicalOptimization_iff (type : TabCol → ColType) (query : Query) (x : TabCol → List UInt8) :
    (Satisfies type (logicalOptimization query).conds x ↔ Satisfies type query.conds x) ↔
      Preserves type query.conds x := by
  rw [logicalOptimization, satisfies_propagate, @satisfies_iff type (constOf query.conds), Preserves]
  tauto

def colOf (colName : String) : TabCol := ⟨"t", colName⟩

def condVal (colName : String) (op : CompOp) (val : UInt32) : Cond :=
  ⟨colOf colName, op, true, ⟨"", ""⟩, ⟨.int, some (bytesOf val)⟩⟩

def condCol (colName : String) (op : CompOp) (rhsName : String) : Cond :=
  ⟨colOf colName, op, false, colOf rhsName, ⟨.int, none⟩⟩

def queryOf (conds : List Cond) : Query where
  tables := ["t"]
  conds := conds
  aggTypes := []
  asc := true
  limit := -1
  hasSort := false
  sortBys := colOf ""
  isDesc := false

def condsEqual : List Cond := [condVal "w_id" .eq 1, condCol "c_w_id" .eq "w_id", condVal "c_d_id" .lt 2]

theorem condsEqual_equalConsts : EqualConsts (fun _ => .int) condsEqual where
  once := by
    unfold Once Replaced
    decide
  equal := by decide
  types := fun _ _ _ => ⟨rfl, nofun⟩

/-- The comparison with `w_id` becomes one with its constant, which says the same of every tuple. -/
theorem satisfies_condsEqual :
    (logicalOptimization (queryOf condsEqual)).conds =
        [condVal "w_id" .eq 1, (condCol "c_w_id" .eq "w_id").withVal ⟨.int, some (bytesOf 1)⟩, condVal "c_d_id" .lt 2] ∧
      ∀ x, Satisfies (fun _ => .int) (logicalOptimization (queryOf condsEqual)).conds x ↔
        Satisfies (fun _ => .int) condsEqual x :=
  ⟨by decide, fun x => (satisfies_logicalOptimization_iff _ (queryOf condsEqual) x).2 condsEqual_equalConsts.preserves⟩

/-- `b < 5 AND a > b` becomes `b < 5 AND a > 5`, which (4, 3) does not satisfy. -/
theorem satisfies_less_fails : ∃ x : TabCol → List UInt8,
    Satisfies (fun _ => .int) (queryOf [condVal "b" .lt 5, condCol "a" .gt "b"]).conds x ∧
      ¬ Satisfies (fun _ => .int) (logicalOptimization (queryOf [condVal "b" .lt 5, condCol "a" .gt "b"])).conds x := by
  refine ⟨fun col => if col = colOf "a" then bytesOf 4 else bytesOf 3, ?_⟩
  unfold Satisfies
  decide

end Optimizer

end Rmdb
