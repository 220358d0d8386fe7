/-
Range scans over the leaves.

A position in the leaves (`Iid`) is a page and a slot, with one spelling for
each: a slot that is taken, or the slot behind the last entry in the last leaf.
`iidOf` numbers the positions; the bounds, `next` and `prev_iid` keep to this
spelling, so a scan, which ends when two positions are equal, meets its end.
-/
import Rmdb.Index.Invariant

namespace Rmdb.Index

open Option List

structure Iid where
  pageNo : Int
  slotNo : Int
  deriving DecidableEq, Repr

namespace IxIndexHandle

variable {κ : Type} {order : Nat}

def leafIid (s : IxIndexHandle κ order) (leaf : Int) (n : IxNode κ) (pos : Nat) : Iid :=
  if pos = n.getSize then
    if leaf = s.lastLeaf then ⟨leaf, pos⟩ else ⟨n.nextLeaf, 0⟩
  else ⟨leaf, pos⟩

def leafEnd (s : IxIndexHandle κ order) : Option Iid := do
  let n ← s.fetchNode s.lastLeaf
  some ⟨s.lastLeaf, n.getSize⟩

def leafBegin (s : IxIndexHandle κ order) : Iid := ⟨s.firstLeaf, 0⟩

def entryAt (s : IxIndexHandle κ order) (iid : Iid) : Option (κ × Rid) := do
  let n ← s.fetchNode iid.pageNo
  if iid.slotNo < 0 ∨ iid.slotNo ≥ n.getSize then none else n.entries[iid.slotNo.toNat]?

def getKey (s : IxIndexHandle κ order) (iid : Iid) : Option κ := (s.entryAt iid).map Prod.fst

def getRid (s : IxIndexHandle κ order) (iid : Iid) : Option Rid := (s.entryAt iid).map Prod.snd

def prevIid (s : IxIndexHandle κ order) (iid : Iid) : Option Iid :=
  if iid.slotNo - 1 ≥ 0 then some ⟨iid.pageNo, iid.slotNo - 1⟩
  else do
    let n ← s.fetchNode iid.pageNo
    if !n.isLeaf then none
    else if iid.pageNo ≠ s.firstLeaf then do
      let prev ← s.fetchNode n.prevLeaf
      some ⟨n.prevLeaf, (prev.getSize : Int) - 1⟩
    else none

variable [IxCmp κ]

def lowerBound (s : IxIndexHandle κ order) (key : κ) : Option Iid := do
  let leaf ← s.findLeafPage key
  let n ← s.fetchNode leaf
  some (s.leafIid leaf n (n.lowerBound key))

def upperBound (s : IxIndexHandle κ order) (key : κ) : Option Iid := do
  let leaf ← s.findLeafPage key
  let n ← s.fetchNode leaf
  let pos := n.upperBound key
  -- the search starts at slot 1: the first key may be larger already
  let pos := if pos = 1 ∧ (n.getKey 0).any fun k => ixCmp key k < 0 then pos - 1 else pos
  some (s.leafIid leaf n pos)

end IxIndexHandle

/-- A scan: the position, its end, and the page of the node it is in. -/
structure IxScan where
  iid : Iid
  end_ : Iid
  curNode : Int

namespace IxScan

variable {κ : Type} {order : Nat}

def start (s : IxIndexHandle κ order) (lower upper : Iid) : Option IxScan := do
  let _ ← s.fetchNode lower.pageNo
  some { iid := lower, end_ := upper, curNode := lower.pageNo }

def isEnd (sc : IxScan) : Bool := sc.iid == sc.end_

def next (s : IxIndexHandle κ order) (sc : IxScan) : Option IxScan := do
  let n ← s.fetchNode sc.curNode
  let slotNo := sc.iid.slotNo + 1
  if sc.iid.pageNo ≠ s.lastLeaf ∧ slotNo = n.getSize then do
    let _ ← s.fetchNode n.nextLeaf
    some { sc with iid := ⟨n.nextLeaf, 0⟩, curNode := n.nextLeaf }
  else some { sc with iid := ⟨sc.iid.pageNo, slotNo⟩ }

def scanAll (s : IxIndexHandle κ order) : Nat → IxScan → Option (List (κ × Rid))
  | 0, _ => none
  | fuel + 1, sc =>
    if sc.isEnd then some []
    else do
      let key ← s.getKey sc.iid
      let rid ← s.getRid sc.iid
      let sc ← sc.next s
      let rest ← scanAll s fuel sc
      some ((key, rid) :: rest)

end IxScan

/-- A scan between two positions ends, and yields the entries with `P`, each
once and in the order of their keys. -/
def Yields {κ : Type} {order : Nat} [IxCmp κ] (s : IxIndexHandle κ order) (lower upper : Iid)
    (P : κ × Rid → Prop) : Prop :=
  ∃ sc, IxScan.start s lower upper = some sc ∧ ∃ enough out, (∀ fuel ≥ enough, IxScan.scanAll s fuel sc = some out) ∧
    out.Pairwise (fun e e' => ixCmp e.1 e'.1 < 0) ∧ ∀ e, e ∈ out ↔ P e

open IxIndexHandle

variable {κ : Type} {order : Nat}

/-! ## The positions in order -/

def iidOf : List (Block κ) → Nat → Option Iid
  | [], _ => none
  | [b], i => if i ≤ b.2.length then some ⟨b.1, i⟩ else none
  | b :: c :: L, i => if i < b.2.length then some ⟨b.1, i⟩ else iidOf (c :: L) (i - b.2.length)

variable {L : List (Block κ)} {i : Nat} {iid : Iid}

theorem iidOf_page (h : iidOf L i = some iid) : iid.pageNo ∈ pagesOf L := by
  induction L generalizing i with
  | nil => simp [iidOf] at h
  | cons b L ih =>
    cases L with
    | nil =>
      simp only [iidOf] at h
      split_ifs at h
      obtain rfl := some.inj h
      simp
    | cons c L =>
      simp only [iidOf] at h
      split_ifs at h
      · obtain rfl := some.inj h
        simp
      · exact mem_cons_of_mem _ (ih h)

theorem iidOf_inj (hnd : (pagesOf L).Nodup) {j : Nat} (hi : iidOf L i = some iid)
    (hj : iidOf L j = some iid) : i = j := by
  induction L generalizing i j with
  | nil => simp [iidOf] at hi
  | cons b L ih =>
    cases L with
    | nil =>
      simp only [iidOf] at hi hj
      split_ifs at hi hj
      obtain rfl := some.inj hi
      simpa [eq_comm] using hj
    | cons c L =>
      rw [pagesOf_cons, nodup_cons] at hnd
      simp only [iidOf] at hi hj
      split_ifs at hi hj
      · obtain rfl := some.inj hi
        simpa [eq_comm] using hj
      · obtain rfl := some.inj hi
        exact absurd (iidOf_page hj) hnd.1
      · obtain rfl := some.inj hj
        exact absurd (iidOf_page hi) hnd.1
      · have := ih hnd.2 hi hj
        omega

theorem iidOf_append {L₁ L₂ : List (Block κ)} {b : Block κ} {k : Nat}
    (hk : k < b.2.length ∨ k = b.2.length ∧ L₂ = []) :
    iidOf (L₁ ++ b :: L₂) ((flat L₁).length + k) = some ⟨b.1, k⟩ := by
  induction L₁ with
  | nil =>
    cases L₂ with
    | nil =>
      have hle : k ≤ b.2.length := by omega
      simp [iidOf, hle]
    | cons c L₂ =>
      have hlt : k < b.2.length := by simpa using hk
      simp [iidOf, hlt]
  | cons a L₁ ih =>
    obtain ⟨c, L, hcons⟩ : ∃ c L, L₁ ++ b :: L₂ = c :: L := by
      cases L₁ with
      | nil => exact ⟨_, _, rfl⟩
      | cons c L₁ => exact ⟨_, _, rfl⟩
    have hge : ¬ (flat (a :: L₁)).length + k < a.2.length := by simp; omega
    have hsub : (flat (a :: L₁)).length + k - a.2.length = (flat L₁).length + k := by simp; omega
    rw [cons_append, hcons, iidOf, if_neg hge, hsub, ← hcons, ih]

theorem iidOf_cases (h : iidOf L i = some iid) : ∃ L₁ b L₂ k, L = L₁ ++ b :: L₂ ∧ i = (flat L₁).length + k ∧
      (k < b.2.length ∨ k = b.2.length ∧ L₂ = []) ∧ iid = ⟨b.1, k⟩ := by
  induction L generalizing i with
  | nil => simp [iidOf] at h
  | cons b L ih =>
    cases L with
    | nil =>
      simp only [iidOf] at h
      split_ifs at h with hi
      obtain rfl := some.inj h
      exact ⟨[], b, [], i, rfl, by simp, by simp; omega, rfl⟩
    | cons c L =>
      simp only [iidOf] at h
      split_ifs at h with hi
      · obtain rfl := some.inj h
        exact ⟨[], b, c :: L, i, rfl, by simp, .inl hi, rfl⟩
      · obtain ⟨L₁, d, L₂, k, hL, hik, hk, rfl⟩ := ih h
        refine ⟨b :: L₁, d, L₂, k, by rw [hL, cons_append], ?_, hk, rfl⟩
        simp only [flat_cons, length_append]
        omega

theorem iidOf_le (h : iidOf L i = some iid) : i ≤ (flat L).length := by
  obtain ⟨L₁, b, L₂, k, rfl, rfl, hk, -⟩ := iidOf_cases h
  simp only [flat_append, flat_cons, length_append]
  omega

/-! ## The bounds -/

section Bounds

variable [IxOrder κ] {s : IxIndexHandle κ order} {L L₁ L₂ : List (Block κ)} {Us : List (List (Block κ))} {b : Block κ}

theorem PreTree.last_iff (t : PreTree s (L₁ ++ b :: L₂) Us) : b.1 = s.lastLeaf ↔ L₂ = [] := by
  have hlast := t.last
  simp only [pagesOf_append, pagesOf_cons, List.getLast?_append_cons] at hlast
  cases L₂ with
  | nil => simpa using hlast
  | cons c L₂ =>
    simp only [pagesOf_cons, List.getLast?_cons_cons] at hlast
    refine iff_of_false (fun h => ?_) (by simp)
    have hnd := (nodup_append.1 t.nodup).1
    rw [pagesOf_append, pagesOf_cons, nodup_append, nodup_cons] at hnd
    exact hnd.2.1.1 (h ▸ mem_of_getLast? hlast)

theorem PreTree.first_iff (t : PreTree s (L₁ ++ b :: L₂) Us) : b.1 = s.firstLeaf ↔ L₁ = [] := by
  have hfirst := t.first.1
  rw [t.first.2]
  cases L₁ with
  | nil => simpa using hfirst
  | cons c L₁ =>
    refine iff_of_false (fun h => ?_) (by simp)
    have hnd := (nodup_append.1 t.nodup).1
    simp only [cons_append, pagesOf_cons, List.head?_cons, some.injEq] at hfirst
    rw [cons_append, pagesOf_cons, nodup_cons, hfirst, ← h] at hnd
    exact hnd.1 (by simp)

theorem Tree.neighbours {c : Block κ} (t : Tree s (L₁ ++ b :: c :: L₂) Us) (hord : 2 < order) :
    nextOf s b.1 = some c.1 ∧ prevOf s c.1 = some b.1 ∧ 0 < b.2.length ∧ 0 < c.2.length := by
  have hch := t.chained
  simp only [pagesOf_append, pagesOf_cons] at hch
  have hlink := seg_nil.1 (seg_cons.1 (seg_append.1 hch).2).1
  have hUs : Us ≠ [] := by
    rintro rfl
    have := t.up.root
    simp at this
  have hmin : 0 < minSize order := by simp only [minSize, maxSize]; omega
  exact ⟨hlink.1, hlink.2, hmin.trans_le (t.leafMin hUs b (by simp)), hmin.trans_le (t.leafMin hUs c (by simp))⟩

variable {n : IxNode κ}

theorem Tree.leafIid_eq (t : Tree s (L₁ ++ b :: L₂) Us) (hord : 2 < order) (hn : s.pages b.1 = some n)
    {k : Nat} (hk : k ≤ b.2.length) :
    iidOf (L₁ ++ b :: L₂) ((flat L₁).length + k) = some (s.leafIid b.1 n k) := by
  obtain ⟨n', hn', -, hes⟩ := t.holds b (by simp)
  obtain rfl : n = n' := by simpa [hn] using hn'
  have hsize : n.getSize = b.2.length := by rw [IxNode.getSize, hes]
  rw [leafIid, hsize]
  by_cases hkb : k = b.2.length
  · rw [if_pos hkb]
    by_cases hlast : b.1 = s.lastLeaf
    · rw [if_pos hlast]
      exact iidOf_append (.inr ⟨hkb, t.last_iff.1 hlast⟩)
    · rw [if_neg hlast]
      obtain ⟨c, L₂, rfl⟩ := exists_cons_of_ne_nil (mt t.last_iff.2 hlast)
      obtain ⟨hnext, -, -, hc⟩ := t.neighbours hord
      have hnc : n.nextLeaf = c.1 := by simpa [nextOf, hn] using hnext
      have hat : iidOf ((L₁ ++ [b]) ++ c :: L₂) ((flat (L₁ ++ [b])).length + 0) = some ⟨c.1, (0 : Nat)⟩ :=
        iidOf_append (.inl hc)
      simpa [hnc, hkb] using hat
  · rw [if_neg hkb]
    exact iidOf_append (.inl (by omega))

theorem upperSlot_cut (hs : IxNode.Sorted n.entries) (x : κ) :
    ∃ A B, n.entries = A ++ B ∧
      A.length = (if n.upperBound x = 1 ∧ (n.getKey 0).any fun k => ixCmp x k < 0 then n.upperBound x - 1
        else n.upperBound x) ∧ (∀ e ∈ A, e.1 ≤ x) ∧ ∀ e ∈ B, x < e.1 := by
  by_cases hne : n.entries = []
  · refine ⟨[], [], by simp [hne], ?_, by simp, by simp⟩
    have hzero : n.upperBound x = 0 := by
      simp [IxNode.upperBound, IxNode.getSize, hne, Bisect.loop]
    simp [hzero]
  · obtain ⟨A, e, B, hAB, hlen, hle, hgt⟩ := IxNode.upperBound_cut hs hne x
    have hkey : A = [] → n.getKey 0 = some e.1 := fun hA => by simp [IxNode.getKey, hAB, hA]
    rw [hAB, IxNode.Sorted, pairwise_append, pairwise_cons] at hs
    by_cases hfirst : n.upperBound x = 1 ∧ (n.getKey 0).any fun k => ixCmp x k < 0
    · have hAnil : A = [] := length_eq_zero_iff.1 (by omega)
      subst hAnil
      have hxe : x < e.1 := by simpa [hkey rfl] using hfirst.2
      refine ⟨[], e :: B, hAB, by rw [if_pos hfirst, hfirst.1]; rfl, by simp, fun e' he' => ?_⟩
      rcases mem_cons.1 he' with rfl | he'
      · exact hxe
      · exact hgt e' he'
    · have hxe : e.1 ≤ x := by
        by_cases hA : A = []
        · subst hA
          have h1 : n.upperBound x = 1 := by simpa using hlen.symm
          simpa [hkey rfl, h1] using hfirst
        · exact hle hA
      refine ⟨A ++ [e], B, by simp [hAB], by rw [if_neg hfirst, ← hlen]; simp, fun e' he' => ?_, hgt⟩
      rcases mem_append.1 he' with he' | he'
      · exact (hs.2.2 e' he' e (by simp)).le.trans hxe
      · exact (mem_singleton.1 he') ▸ hxe

variable {lower : Iid}

theorem Yields.congr {upper : Iid} {P Q : κ × Rid → Prop} (h : Yields s lower upper P) (hPQ : ∀ e, P e ↔ Q e) :
    Yields s lower upper Q := by
  obtain ⟨sc, hstart, enough, out, hrun, hs, hout⟩ := h
  exact ⟨sc, hstart, enough, out, hrun, hs, fun e => (hout e).trans (hPQ e)⟩

variable (t : Tree s L Us) (hord : 2 < order)

include t hord

theorem Tree.lowerBound_eq (x : κ) :
    ∃ A B iid, flat L = A ++ B ∧ (∀ e ∈ A, e.1 < x) ∧ (∀ e ∈ B, x ≤ e.1) ∧ s.lowerBound x = some iid ∧
      iidOf L A.length = some iid := by
  obtain ⟨L₁, p, n, L₂, rfl, hfind, hn, hs, hloc, h₁⟩ := t.leaf_eq hord x
  obtain ⟨A, B, hAB, hlen, hA, hB⟩ := IxNode.lowerBound_cut hs x
  refine ⟨flat L₁ ++ A, B ++ flat L₂, _, by simp [hAB], fun e he => ?_, fun e he => ?_,
    by simp only [IxIndexHandle.lowerBound, hfind, bind_eq_bind, bind_some, fetchNode, hn]; rfl, ?_⟩
  · exact (mem_append.1 he).elim (h₁ e) (hA e)
  · exact (mem_append.1 he).elim (hB e) fun h => (hloc.right e h).le
  · rw [length_append, ← hlen]
    exact t.leafIid_eq hord hn (by simp [hAB])

theorem Tree.upperBound_eq (x : κ) :
    ∃ A B iid, flat L = A ++ B ∧ (∀ e ∈ A, e.1 ≤ x) ∧ (∀ e ∈ B, x < e.1) ∧ s.upperBound x = some iid ∧
      iidOf L A.length = some iid := by
  obtain ⟨L₁, p, n, L₂, rfl, hfind, hn, hs, hloc, h₁⟩ := t.leaf_eq hord x
  obtain ⟨A, B, hAB, hlen, hA, hB⟩ := upperSlot_cut hs x
  refine ⟨flat L₁ ++ A, B ++ flat L₂, _, by simp [hAB], fun e he => ?_, fun e he => ?_,
    by simp only [IxIndexHandle.upperBound, hfind, bind_eq_bind, bind_some, fetchNode, hn]; rfl, ?_⟩
  · exact (mem_append.1 he).elim (fun h => (h₁ e h).le) (hA e)
  · exact (mem_append.1 he).elim (hB e) (hloc.right e)
  · rw [length_append, ← hlen]
    exact t.leafIid_eq hord hn (by simp [hAB])

theorem Tree.leafBegin_eq : iidOf L 0 = some s.leafBegin := by
  obtain ⟨b, L, rfl⟩ := exists_cons_of_ne_nil (t.up.length_le hord t.sizes).1
  have t' : Tree s ([] ++ b :: L) Us := t
  have hfirst : b.1 = s.firstLeaf := t'.first_iff.2 rfl
  obtain ⟨n, hn, -⟩ := t.holds b (by simp)
  have hpos : 0 < b.2.length ∨ 0 = b.2.length ∧ L = [] := by
    cases L with
    | nil => rcases Nat.eq_zero_or_pos b.2.length with h | h <;> simp [h]
    | cons c L => exact .inl (t'.neighbours hord).2.2.1
  have hat : iidOf ([] ++ b :: L) ((flat []).length + 0) = some ⟨b.1, (0 : Nat)⟩ := iidOf_append hpos
  simpa [leafBegin, hfirst] using hat

theorem Tree.leafEnd_eq :
    ∃ iid, s.leafEnd = some iid ∧ iidOf L (flat L).length = some iid := by
  obtain ⟨L, b, rfl⟩ := eq_nil_or_concat L |>.resolve_left (t.up.length_le hord t.sizes).1
  have t' : Tree s (L ++ b :: []) Us := by simpa using t
  obtain ⟨n, hn, -, hes⟩ := t'.holds b (by simp)
  have hlast : b.1 = s.lastLeaf := t'.last_iff.2 rfl
  refine ⟨⟨s.lastLeaf, n.getSize⟩, by simp [leafEnd, fetchNode, ← hlast, hn], ?_⟩
  have hat : iidOf (L ++ b :: []) ((flat L).length + b.2.length) = some ⟨b.1, b.2.length⟩ :=
    iidOf_append (.inr ⟨rfl, rfl⟩)
  simpa [IxNode.getSize, hes, hlast] using hat

/-! ## Steps -/

variable {iid upper : Iid}

variable {A B M : List (κ × Rid)}

omit hord in
theorem Tree.entryAt_eq {e : κ × Rid} (hflat : flat L = A ++ e :: B)
    (hiid : iidOf L A.length = some iid) : s.entryAt iid = some e := by
  obtain ⟨L₁, b, L₂, k, rfl, hAk, hk, rfl⟩ := iidOf_cases hiid
  obtain ⟨n, hn, -, hes⟩ := t.holds b (by simp)
  have hget : (flat (L₁ ++ b :: L₂))[A.length]? = some e := by simp [hflat]
  have hlt : k < b.2.length := by
    refine hk.resolve_right fun h => ?_
    rw [h.2, hAk, h.1] at hget
    simp at hget
  have hbk : b.2[k]? = some e := by
    rw [hAk, flat_append, flat_cons, List.getElem?_append_right (by omega), Nat.add_sub_cancel_left,
      List.getElem?_append_left hlt] at hget
    exact hget
  have hval := (List.getElem?_eq_some_iff.1 hbk).2
  simp [entryAt, fetchNode, hn, IxNode.getSize, hes, hval, hlt]

theorem Tree.next_eq {i : Nat} (upper : Iid) (hiid : iidOf L i = some iid) (hi : i < (flat L).length) :
    ∃ iid', IxScan.next s ⟨iid, upper, iid.pageNo⟩ = some ⟨iid', upper, iid'.pageNo⟩ ∧ iidOf L (i + 1) = some iid' := by
  obtain ⟨L₁, b, L₂, k, rfl, rfl, hk, rfl⟩ := iidOf_cases hiid
  obtain ⟨n, hn, -, hes⟩ := t.holds b (by simp)
  have hsize : n.getSize = b.2.length := by rw [IxNode.getSize, hes]
  have hlt : k < b.2.length := by
    refine hk.resolve_right fun h => ?_
    simp [h.1, h.2] at hi
  refine ⟨_, ?_, t.leafIid_eq hord hn (k := k + 1) hlt⟩
  simp only [IxScan.next, fetchNode, hn, bind_eq_bind, bind_some, leafIid, hsize]
  by_cases hend : k + 1 = b.2.length
  · have hend' : (k : Int) + 1 = b.2.length := by omega
    by_cases hlast : b.1 = s.lastLeaf
    · simp [hend, hend', hlast]
    · obtain ⟨c, L₂, rfl⟩ := exists_cons_of_ne_nil (mt t.last_iff.2 hlast)
      obtain ⟨hnext, -⟩ := t.neighbours hord
      have hnc : n.nextLeaf = c.1 := by simpa [nextOf, hn] using hnext
      obtain ⟨m, hm, -⟩ := t.holds c (by simp)
      simp [hend, hend', hlast, hnc, hm]
  · have hend' : ¬ (k : Int) + 1 = b.2.length := by omega
    simp [hend, hend']

theorem Tree.prevIid_eq {i : Nat} (hiid : iidOf L (i + 1) = some iid) :
    ∃ iid', s.prevIid iid = some iid' ∧ iidOf L i = some iid' := by
  obtain ⟨L₁, b, L₂, k, rfl, hik, hk, rfl⟩ := iidOf_cases hiid
  cases k with
  | succ k =>
    refine ⟨⟨b.1, k⟩, by simp [prevIid], ?_⟩
    obtain rfl : i = (flat L₁).length + k := by omega
    exact iidOf_append (.inl (by omega))
  | zero =>
    obtain ⟨L₁, c, rfl⟩ := eq_nil_or_concat L₁ |>.resolve_left (by rintro rfl; simp at hik)
    have t' : Tree s (L₁ ++ c :: b :: L₂) Us := by simpa using t
    obtain ⟨-, hprev, hc, -⟩ := t'.neighbours hord
    obtain ⟨n, hn, hnl, -⟩ := t'.holds b (by simp)
    obtain ⟨m, hm, -, hes⟩ := t'.holds c (by simp)
    have hnc : n.prevLeaf = c.1 := by simpa [prevOf, hn] using hprev
    have hfirst : b.1 ≠ s.firstLeaf := by
      have t'' : Tree s ((L₁ ++ [c]) ++ b :: L₂) Us := by simpa using t
      exact mt t''.first_iff.1 (by simp)
    refine ⟨⟨c.1, (c.2.length - 1 : Nat)⟩, ?_, ?_⟩
    · have hcast : ((c.2.length - 1 : Nat) : Int) = (c.2.length : Int) - 1 := by omega
      simp [prevIid, fetchNode, hn, hnl, hfirst, hnc, hm, IxNode.getSize, hes, hcast]
    · have hi : i = (flat L₁).length + (c.2.length - 1) := by
        simp at hik
        omega
      have hat : iidOf (L₁ ++ c :: b :: L₂) ((flat L₁).length + (c.2.length - 1)) = some
        ⟨c.1, (c.2.length - 1 : Nat)⟩ :=
        iidOf_append (.inl (by omega))
      rw [hi]
      simpa using hat

theorem Tree.scanAll_eq : ∀ {A B : List (κ × Rid)}
    {iid upper : Iid} {fuel : Nat}, flat L = A ++ (M ++ B) → iidOf L A.length = some iid →
    iidOf L (A ++ M).length = some upper → M.length < fuel →
    IxScan.scanAll s fuel ⟨iid, upper, iid.pageNo⟩ = some M := by
  induction M with
  | nil =>
    intro A B iid upper fuel _ hiid hupper hfuel
    obtain ⟨fuel, rfl⟩ : ∃ f, fuel = f + 1 := ⟨fuel - 1, by omega⟩
    obtain rfl : iid = upper := by simpa [hiid] using hupper
    simp [IxScan.scanAll, IxScan.isEnd]
  | cons e M ih =>
    intro A B iid upper fuel hflat hiid hupper hfuel
    obtain ⟨fuel, rfl⟩ : ∃ f, fuel = f + 1 := ⟨fuel - 1, by omega⟩
    -- different numbers, so the scan is not at its end
    have hne : iid ≠ upper := by
      rintro rfl
      have := iidOf_inj (nodup_append.1 t.nodup).1 hiid hupper
      simp at this
    have hentry := t.entryAt_eq hflat hiid
    obtain ⟨iid', hnext, hiid'⟩ := t.next_eq hord upper hiid (by simp [hflat])
    have hrest := ih (A := A ++ [e]) (B := B) (by simp [hflat]) (by simpa using hiid') (by simpa using hupper)
      (by simpa using hfuel)
    simp [IxScan.scanAll, IxScan.isEnd, hne, getKey, getRid, hentry, hnext, hrest]

/-! ## Scans -/

theorem Tree.yields (hflat : flat L = A ++ (M ++ B)) (hlower : iidOf L A.length = some lower)
    (hupper : iidOf L (A ++ M).length = some upper) : Yields s lower upper (· ∈ M) := by
  obtain ⟨b, hb, hpage⟩ := mem_map.1 (iidOf_page hlower)
  obtain ⟨n, hn, -⟩ := t.holds b hb
  refine ⟨⟨lower, upper, lower.pageNo⟩, by simp [IxScan.start, fetchNode, ← hpage, hn], M.length + 1, M, ?_, ?_,
    fun _ => Iff.rfl⟩
  · exact fun fuel hfuel => t.scanAll_eq hord hflat hlower hupper hfuel
  · have hs := t.sorted
    rw [hflat, IxNode.Sorted, pairwise_append, pairwise_append] at hs
    simpa using hs.2.1.1

end Bounds

end Rmdb.Index
