/-
A node of the B+ tree (`IxNodeHandle`): its page header, its key and rid
arrays, and the operations inside one node. The two arrays always move
together, so they are one list of entries, and `num_key` is its length.

`none` stands for what the source leaves undefined or refuses: an index out
of the arrays, `IndexEntryNotFoundError`, a failed `assert`.
-/
import Rmdb.Defs
import Rmdb.Lib.Bisect
import Rmdb.Index.Key

namespace Rmdb.Index

open Option List

/-- `IxPageHdr` (less `next_free_page_no`, which nothing reads) with the
entries of the page. In an internal node the rid of an entry is the page of
a child, with slot `-1`. -/
structure IxNode (κ : Type) where
  parent : Int
  isLeaf : Bool
  prevLeaf : Int
  nextLeaf : Int
  entries : List (κ × Rid)

namespace IxNode
variable {κ : Type}

def getSize (n : IxNode κ) : Nat := n.entries.length

def getKey (n : IxNode κ) (i : Nat) : Option κ := n.entries[i]?.map Prod.fst

def getRid (n : IxNode κ) (i : Nat) : Option Rid := n.entries[i]?.map Prod.snd

def valueAt (n : IxNode κ) (i : Nat) : Option Int := (n.getRid i).map Rid.pageNo

def isRootPage (n : IxNode κ) : Bool := n.parent == noPage

def insertPairs (n : IxNode κ) (pos : Nat) (es : List (κ × Rid)) : Option (IxNode κ) :=
  if n.getSize < pos then none
  else some { n with entries := n.entries.take pos ++ es ++ n.entries.drop pos }

def insertPair (n : IxNode κ) (pos : Nat) (e : κ × Rid) : Option (IxNode κ) := n.insertPairs pos [e]

def erasePair (n : IxNode κ) (pos : Nat) : Option (IxNode κ) :=
  if n.getSize ≤ pos then none else some { n with entries := n.entries.eraseIdx pos }

def setKey (n : IxNode κ) (i : Nat) (key : κ) : Option (IxNode κ) :=
  if n.getSize ≤ i then none else some { n with entries := n.entries.modify i fun e => (key, e.2) }

def removeAndReturnOnlyChild (n : IxNode κ) : Option (Int × IxNode κ) :=
  if n.getSize ≠ 1 then none
  else do
    let child ← n.valueAt 0
    let n ← n.erasePair 0
    some (child, n)

def findChild (n : IxNode κ) (child : Int) : Option Nat :=
  n.entries.findIdx? fun e => e.2.pageNo == child

variable {n : IxNode κ} {i : Nat} {A B : List (κ × Rid)} {x : κ} {r : Rid}

theorem getKey_eq (h : i < n.entries.length) : n.getKey i = some (n.entries[i]).1 := by simp [getKey, h]

variable {e : κ × Rid}

theorem findChild_eq (h : n.entries = A ++ e :: B) (hA : ∀ a ∈ A, a.2.pageNo ≠ e.2.pageNo) :
    n.findChild e.2.pageNo = some A.length := by
  rw [findChild, h, List.findIdx?_append, List.findIdx?_eq_none_iff.2 (by simpa using hA)]
  simp [List.findIdx?_cons]

theorem insertPair_eq (h : n.entries = A ++ B) (e : κ × Rid) :
    n.insertPair A.length e = some { n with entries := A ++ e :: B } := by
  simp [insertPair, insertPairs, getSize, h]

theorem setKey_eq (h : n.entries = A ++ e :: B) (k : κ) :
    n.setKey A.length k = some { n with entries := A ++ (k, e.2) :: B } := by
  have hmod : ∀ A : List (κ × Rid),
      (A ++ e :: B).modify A.length (fun x => (k, x.2)) = A ++ (k, e.2) :: B := by
    intro A
    induction A with
    | nil => rfl
    | cons a A ih => simpa using ih
  simp [setKey, getSize, h, hmod]

/-! ## Operations that compare keys -/

section Compare

variable [IxCmp κ]

def lowerBound (n : IxNode κ) (target : κ) : Nat :=
  (Bisect.loop (fun i => (n.getKey i).any fun k => ixCmp target k ≤ 0) n.getSize 0 n.getSize).1

/-- The first position from `1` on whose key is `> target`; `0` in an empty
node, where the loop is not entered and `r` is returned. -/
def upperBound (n : IxNode κ) (target : κ) : Nat :=
  (Bisect.loop (fun i => (n.getKey i).any fun k => ixCmp target k < 0) n.getSize 1 n.getSize).2

def leafLookup (n : IxNode κ) (key : κ) : Option Rid :=
  let pos := n.lowerBound key
  match n.entries[pos]? with
  | some (k, rid) => if ixCmp key k ≠ 0 then none else some rid
  | none => none

def internalLookup (n : IxNode κ) (key : κ) : Option Int := n.valueAt (n.upperBound key - 1)

/-- The new node with its size and the position of the entry; a key that is
there already is not inserted, and its position is `-1`. -/
def insert (n : IxNode κ) (key : κ) (value : Rid) : Option (IxNode κ × Nat × Int) :=
  let pos := n.lowerBound key
  if (n.getKey pos).any fun k => ixCmp key k = 0 then some (n, n.getSize, -1)
  else do
    let n ← n.insertPair pos (key, value)
    some (n, n.getSize, pos)

/-- The node without `key`, its size, and the position searched. -/
def remove (n : IxNode κ) (key : κ) : Option (IxNode κ × Nat × Nat) :=
  let pos := n.lowerBound key
  if (n.getKey pos).any fun k => ixCmp key k = 0 then do
    let n ← n.erasePair pos
    some (n, n.getSize, pos)
  else some (n, n.getSize, pos)

end Compare

/-! ## Searching a sorted node -/

variable [IxOrder κ]

def Sorted (es : List (κ × Rid)) : Prop := es.Pairwise fun a b => a.1 < b.1

variable {j : Nat} {es : List (κ × Rid)}

theorem Sorted.getElem_lt (h : Sorted es) (hij : i < j) (hj : j < es.length) : es[i].1 < es[j].1 :=
  pairwise_iff_getElem.1 h i j _ hj hij

theorem Sorted.getElem_le (h : Sorted es) (hij : i ≤ j) (hj : j < es.length) : es[i].1 ≤ es[j].1 := by
  rcases Nat.eq_or_lt_of_le hij with rfl | hlt
  · exact le_refl _
  · exact (h.getElem_lt hlt hj).le

theorem lowerBound_cut (hs : Sorted n.entries) (x : κ) :
    ∃ A B, n.entries = A ++ B ∧ A.length = n.lowerBound x ∧ (∀ e ∈ A, e.1 < x) ∧ ∀ e ∈ B, x ≤ e.1 := by
  obtain ⟨m, hm, hsp⟩ := Bisect.loop_splits
    (p := fun i => (n.getKey i).any fun k => ixCmp x k ≤ 0) (n := n.getSize) (l := 0) (r := n.getSize)
    (by omega) (by omega) (fun i j hij hj hp => by
      simp only [getSize] at hj
      simp only [getKey_eq hj, getKey_eq (by omega : i < n.entries.length), any_some,
        ixCmp_le_zero, decide_eq_true_eq] at hp ⊢
      exact hp.trans (hs.getElem_le hij hj))
  have hlb : n.lowerBound x = m := by rw [lowerBound, hm]
  have hml : m ≤ n.entries.length := hsp.ge
  refine ⟨n.entries.take m, n.entries.drop m, (take_append_drop m _).symm, by simp [hlb, hml], ?_, ?_⟩
  · intro e he
    obtain ⟨i, hi, rfl⟩ := mem_iff_getElem.1 he
    simp only [length_take] at hi
    have := hsp.below i (by omega) (by omega)
    rw [getKey_eq (by omega)] at this
    simpa using this
  · intro e he
    obtain ⟨i, hi, rfl⟩ := mem_iff_getElem.1 he
    simp only [length_drop] at hi
    have := hsp.above (m + i) (by omega) (by simp only [getSize]; omega)
    rw [getKey_eq (by omega)] at this
    simpa using this

/-- `upper_bound` of a sorted, nonempty node is one past the last key
`<= target`, or `1` when there is none. -/
theorem upperBound_cut (hs : Sorted n.entries) (hne : n.entries ≠ []) (x : κ) :
    ∃ A e B, n.entries = A ++ e :: B ∧ A.length + 1 = n.upperBound x ∧ (A ≠ [] → e.1 ≤ x) ∧
      ∀ e' ∈ B, x < e'.1 := by
  have hpos : 0 < n.entries.length := length_pos_iff.2 hne
  obtain ⟨m, hm, hsp⟩ := Bisect.loop_splits
    (p := fun i => (n.getKey i).any fun k => ixCmp x k < 0) (n := n.getSize) (l := 1) (r := n.getSize)
    hpos (by omega) (fun i j hij hj hp => by
      simp only [getSize] at hj
      simp only [getKey_eq hj, getKey_eq (by omega : i < n.entries.length), any_some,
        ixCmp_lt_zero, decide_eq_true_eq] at hp ⊢
      exact hp.trans_le (hs.getElem_le hij hj))
  have hub : n.upperBound x = m := by rw [upperBound, hm]
  have hml : m ≤ n.entries.length := hsp.ge
  have hm1 : 1 ≤ m := hsp.le
  refine ⟨n.entries.take (m - 1), n.entries[m - 1], n.entries.drop m, ?_, ?_, ?_, ?_⟩
  · have h : m - 1 < n.entries.length := by omega
    have := drop_eq_getElem_cons h
    rw [show m - 1 + 1 = m by omega] at this
    rw [← this, take_append_drop]
  · simp only [length_take, hub]; omega
  · intro hA
    have h2 : 1 ≤ m - 1 := by
      rcases Nat.eq_zero_or_pos (m - 1) with h0 | h0
      · simp [h0] at hA
      · exact h0
    have := hsp.below (m - 1) h2 (by omega)
    rw [getKey_eq (by omega)] at this
    simpa using this
  · intro e he
    obtain ⟨i, hi, rfl⟩ := mem_iff_getElem.1 he
    simp only [length_drop] at hi
    have := hsp.above (m + i) (by omega) (by simp only [getSize]; omega)
    rw [getKey_eq (by omega)] at this
    simpa using this

/-! ## Lookup, insertion and removal in a sorted node -/

theorem not_mem_cut (hA : ∀ e ∈ A, e.1 < x) (hB : ∀ e ∈ B, x < e.1) : (x, r) ∉ A ++ B := by
  rw [mem_append]
  rintro (h | h)
  · exact absurd (hA _ h) (lt_irrefl _)
  · exact absurd (hB _ h) (lt_irrefl _)

theorem eq_of_mem_cut {r' : Rid} (hA : ∀ e ∈ A, e.1 < x) (hB : ∀ e ∈ B, x < e.1)
    (h : (x, r) ∈ A ++ (x, r') :: B) : r = r' := by
  have hnot := not_mem_cut (r := r) hA hB
  simp only [mem_append, mem_cons, Prod.mk.injEq, true_and, not_or] at h hnot
  tauto

theorem cut_cases (hs : Sorted n.entries) (x : κ) :
    (∃ A r B, n.entries = A ++ (x, r) :: B ∧ A.length = n.lowerBound x ∧ (∀ e ∈ A, e.1 < x) ∧ ∀ e ∈ B, x < e.1) ∨
    ∃ A B, n.entries = A ++ B ∧ A.length = n.lowerBound x ∧ (∀ e ∈ A, e.1 < x) ∧ ∀ e ∈ B, x < e.1 := by
  obtain ⟨A, B, hAB, hlen, hA, hB⟩ := lowerBound_cut hs x
  cases B with
  | nil => exact .inr ⟨A, [], hAB, hlen, hA, by simp⟩
  | cons e B =>
    have hBs : ∀ e' ∈ B, e.1 < e'.1 := by
      rw [Sorted, hAB, pairwise_append, pairwise_cons] at hs
      exact hs.2.1.1
    have hxe : x ≤ e.1 := hB e (by simp)
    rcases hxe.lt_or_eq with h | h
    · refine .inr ⟨A, e :: B, hAB, hlen, hA, fun e' he' => ?_⟩
      rcases mem_cons.1 he' with rfl | he'
      · exact h
      · exact h.trans (hBs e' he')
    · subst h
      exact .inl ⟨A, e.2, B, hAB, hlen, hA, hBs⟩

theorem getElem?_lowerBound (h : n.entries = A ++ B)
    (hlen : A.length = n.lowerBound x) : n.entries[n.lowerBound x]? = B.head? := by
  rw [h, ← hlen, List.getElem?_append_right (le_refl _), Nat.sub_self, List.head?_eq_getElem?]

theorem leafLookup_eq_some (hs : Sorted n.entries) (x : κ) (r : Rid) :
    n.leafLookup x = some r ↔ (x, r) ∈ n.entries := by
  rcases cut_cases hs x with ⟨A, r', B, hn, hlen, hA, hB⟩ | ⟨A, B, hn, hlen, hA, hB⟩
  · have hl : n.leafLookup x = some r' := by simp [leafLookup, getElem?_lowerBound hn hlen]
    rw [hl, hn, some.injEq]
    exact ⟨fun h => by simp [h], fun h => (eq_of_mem_cut hA hB h).symm⟩
  · have hnot : (x, r) ∉ n.entries := hn ▸ not_mem_cut hA hB
    simp only [hnot, iff_false, leafLookup, getElem?_lowerBound hn hlen]
    cases B with
    | nil => simp
    | cons e B =>
      have hne : x ≠ e.1 := (hB e (by simp)).ne
      simp [hne]

theorem insert_new (hs : Sorted n.entries) (x : κ) (v : Rid) (hx : ∀ r, (x, r) ∉ n.entries) :
    ∃ A B, n.entries = A ++ B ∧ (∀ e ∈ A, e.1 < x) ∧ (∀ e ∈ B, x < e.1) ∧
      n.insert x v = some ({ n with entries := A ++ (x, v) :: B }, n.getSize + 1, (A.length : Int)) := by
  rcases cut_cases hs x with ⟨A, r', B, hn, -⟩ | ⟨A, B, hn, hlen, hA, hB⟩
  · exact absurd (by simp [hn]) (hx r')
  · refine ⟨A, B, hn, hA, hB, ?_⟩
    have hkey : n.getKey (n.lowerBound x) = B.head?.map Prod.fst := by rw [getKey, getElem?_lowerBound hn hlen]
    have hno : (n.getKey (n.lowerBound x)).any (fun k => decide (ixCmp x k = 0)) = false := by
      rw [hkey]
      cases B with
      | nil => rfl
      | cons e B => simpa using (hB e (by simp)).ne
    have hins := insertPair_eq hn (x, v)
    rw [hlen] at hins
    simp only [IxNode.insert, hno, Bool.false_eq_true, if_false, hins, bind_eq_bind, bind_some]
    simp [getSize, hn, hlen, Nat.add_assoc]

theorem insert_old (hs : Sorted n.entries) (v : Rid) (hx : (x, r) ∈ n.entries) :
    n.insert x v = some (n, n.getSize, -1) := by
  rcases cut_cases hs x with ⟨A, r', B, hn, hlen, -⟩ | ⟨A, B, hn, hlen, hA, hB⟩
  · have hkey : n.getKey (n.lowerBound x) = some x := by simp [getKey, getElem?_lowerBound hn hlen]
    simp [IxNode.insert, hkey]
  · exact absurd (hn ▸ hx) (not_mem_cut hA hB)

theorem remove_old (hs : Sorted n.entries) (hx : (x, r) ∈ n.entries) : ∃ A B, n.entries = A ++ (x, r) :: B ∧
      n.remove x = some ({ n with entries := A ++ B }, n.getSize - 1, A.length) := by
  rcases cut_cases hs x with ⟨A, r', B, hn, hlen, hA, hB⟩ | ⟨A, B, hn, hlen, hA, hB⟩
  · obtain rfl : r = r' := eq_of_mem_cut hA hB (hn ▸ hx)
    refine ⟨A, B, hn, ?_⟩
    have hkey : n.getKey (n.lowerBound x) = some x := by simp [getKey, getElem?_lowerBound hn hlen]
    have hlt : ¬ n.getSize ≤ n.lowerBound x := by simp [getSize, hn, ← hlen]
    have herase : n.entries.eraseIdx (n.lowerBound x) = A ++ B := by
      rw [hn, ← hlen, eraseIdx_append_of_length_le (le_refl _), Nat.sub_self, eraseIdx_cons_zero]
    simp only [remove, hkey, any_some, ixCmp_eq_zero, decide_true, if_true, erasePair, hlt, if_false, herase,
      bind_eq_bind, bind_some]
    simp [getSize, hn, hlen]
  · exact absurd (hn ▸ hx) (not_mem_cut hA hB)

theorem remove_new (hs : Sorted n.entries) (hx : ∀ r, (x, r) ∉ n.entries) :
    ∃ pos, n.remove x = some (n, n.getSize, pos) := by
  rcases cut_cases hs x with ⟨A, r', B, hn, -⟩ | ⟨A, B, hn, hlen, hA, hB⟩
  · exact absurd (by simp [hn]) (hx r')
  · refine ⟨n.lowerBound x, ?_⟩
    have hno : (n.getKey (n.lowerBound x)).any (fun k => decide (ixCmp x k = 0)) = false := by
      rw [getKey, getElem?_lowerBound hn hlen]
      cases B with
      | nil => rfl
      | cons e B => simpa using (hB e (by simp)).ne
    simp only [remove, hno, Bool.false_eq_true, if_false]

end IxNode

end Rmdb.Index
