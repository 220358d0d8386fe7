/-
Where a scan begins and ends, by a property of the keys.

The keys behind a cut have a property that those before it do not have. A scan
between two cuts in order yields what is between them. Cuts the other way round,
or an end that is no position, are never met: the scan runs over the last entry.
-/
import Rmdb.Index.Scan

namespace Rmdb.Index

open List IxIndexHandle

variable {κ : Type} {order : Nat} {s : IxIndexHandle κ order} {L : List (Block κ)} {Us : List (List (Block κ))}
  {P Q : κ → Bool} {lower upper : Iid}

/-- The position behind which are the keys with `P`. -/
def Cut (L : List (Block κ)) (P : κ → Bool) (iid : Iid) : Prop :=
  ∃ A B, flat L = A ++ B ∧ (∀ e ∈ A, P e.1 = false) ∧ (∀ e ∈ B, P e.1 = true) ∧ iidOf L A.length = some iid

theorem Cut.slotNo (h : Cut L P lower) : 0 ≤ lower.slotNo := by
  obtain ⟨A, B, -, -, -, hiid⟩ := h
  obtain ⟨-, -, -, k, -, -, -, rfl⟩ := iidOf_cases hiid
  exact Int.natCast_nonneg k

theorem Cut.mono [LinearOrder κ] (h : Cut L P lower) (hsorted : (flat L).Pairwise fun x y => x.1 < y.1) {x y : κ × Rid}
    (hx : x ∈ flat L) (hy : y ∈ flat L) (hle : x.1 ≤ y.1) (hP : P x.1 = true) : P y.1 = true := by
  obtain ⟨A, B, hAB, hA, hB, -⟩ := h
  rw [hAB, pairwise_append] at hsorted
  rw [hAB, mem_append] at hx hy
  rcases hy with hy | hy
  · rcases hx with hx | hx
    · rw [hA x hx] at hP
      cases hP
    · exact absurd (hsorted.2.2 y hy x hx) (not_lt.2 hle)
  · exact hB y hy

theorem filter_of_cut {A B : List (κ × Rid)} (hA : ∀ e ∈ A, P e.1 = false) (hB : ∀ e ∈ B, P e.1 = true) :
    (A ++ B).filter (fun e => P e.1) = B ∧ (A ++ B).filter (fun e => !P e.1) = A := by
  have hnoneA : A.filter (fun e => P e.1) = [] := filter_eq_nil_iff.2 fun e he => by simp [hA e he]
  have hnoneB : B.filter (fun e => !P e.1) = [] := filter_eq_nil_iff.2 fun e he => by simp [hB e he]
  constructor
  · rw [filter_append, hnoneA, nil_append, filter_eq_self.2 hB]
  · rw [filter_append, hnoneB, append_nil, filter_eq_self.2 fun e he => by simp [hA e he]]

theorem Cut.between (hlower : Cut L P lower) (hupper : Cut L Q upper) (h : ∀ e ∈ flat L, Q e.1 = true → P e.1 = true) :
    ∃ A D, flat L = A ++ ((flat L).filter (fun e => P e.1 && !Q e.1) ++ D) ∧ iidOf L A.length = some lower ∧
      iidOf L (A ++ (flat L).filter fun e => P e.1 && !Q e.1).length = some upper := by
  obtain ⟨A, B, hAB, hA, hB, hlo⟩ := hlower
  obtain ⟨C, D, hCD, hC, hD, hup⟩ := hupper
  -- everything before the lower cut is before the upper one
  obtain ⟨M, rfl, rfl⟩ : ∃ M, C = A ++ M ∧ B = M ++ D := by
    rcases append_eq_append_iff.1 (hAB.symm.trans hCD) with ⟨M, hM, hM'⟩ | ⟨M, hM, hM'⟩
    · exact ⟨M, hM, hM'⟩
    · cases M with
      | nil => exact ⟨[], by simpa using hM.symm, by simpa using hM'.symm⟩
      | cons e M =>
        have hlow := hA e (by simp [hM])
        rw [h e (by simp [hAB, hM]) (hD e (by simp [hM']))] at hlow
        cases hlow
  have hout : (flat L).filter (fun e => P e.1 && !Q e.1) = M := by
    have hnoneA : A.filter (fun e => P e.1 && !Q e.1) = [] := filter_eq_nil_iff.2 fun e he => by simp [hA e he]
    have hallM : M.filter (fun e => P e.1 && !Q e.1) = M := filter_eq_self.2 fun e he => by
      simp [hB e (by simp [he]), hC e (by simp [he])]
    have hnoneD : D.filter (fun e => P e.1 && !Q e.1) = [] := filter_eq_nil_iff.2 fun e he => by simp [hD e he]
    rw [hAB, filter_append, filter_append, hnoneA, hallM, hnoneD, nil_append, append_nil]
  rw [hout]
  exact ⟨A, D, hAB, hlo, hup⟩

theorem Cut.crossed (hlower : Cut L P lower) (hupper : Cut L Q upper) {e : κ × Rid} (he : e ∈ flat L)
    (hQ : Q e.1 = true) (hP : P e.1 = false) :
    ∃ A, flat L = A ++ (flat L).filter (fun e => P e.1) ∧ iidOf L A.length = some lower ∧
      ∃ j < A.length, iidOf L j = some upper := by
  obtain ⟨A, B, hAB, hA, hB, hlo⟩ := hlower
  obtain ⟨C, D, hCD, hC, hD, hup⟩ := hupper
  have heA : e ∈ A := by
    rw [hAB] at he
    refine (mem_append.1 he).resolve_right fun h => ?_
    rw [hB e h] at hP
    cases hP
  have heC : e ∉ C := fun h => by
    rw [hC e h] at hQ
    cases hQ
  refine ⟨A, by rw [hAB, (filter_of_cut hA hB).1], hlo, C.length, ?_, hup⟩
  rcases append_eq_append_iff.1 (hAB.symm.trans hCD) with ⟨M, rfl, -⟩ | ⟨M, rfl, -⟩
  · exact absurd (mem_append_left M heA) heC
  · cases M with
    | nil => exact absurd (by simpa using heA) heC
    | cons _ M => simp

theorem scan_nowhere (hupper : upper.slotNo < 0) : ∀ {fuel : Nat} {sc : IxScan}, sc.end_ = upper → 0 ≤ sc.iid.slotNo →
    IxScan.scanAll s fuel sc = none
  | 0, _, _, _ => rfl
  | fuel + 1, sc, hend, hslot => by
    have hne : sc.iid ≠ sc.end_ := by
      intro h
      rw [h, hend] at hslot
      omega
    have hnext : ∀ sc', sc.next s = some sc' → IxScan.scanAll s fuel sc' = none := by
      intro sc' hsc'
      simp only [IxScan.next, Option.bind_eq_bind, Option.bind_eq_some_iff] at hsc'
      obtain ⟨n, -, hsc'⟩ := hsc'
      split_ifs at hsc'
      · obtain ⟨_, -, hsc'⟩ := Option.bind_eq_some_iff.1 hsc'
        obtain rfl := Option.some.inj hsc'
        exact scan_nowhere hupper hend (by simp)
      · obtain rfl := Option.some.inj hsc'
        exact scan_nowhere hupper hend (by simp only; omega)
    cases hsc : sc.next s with
    | none => simp [IxScan.scanAll, IxScan.isEnd, hne, hsc]
    | some sc' => simp [IxScan.scanAll, IxScan.isEnd, hne, hsc, hnext sc' hsc]

section Trees

variable [IxOrder κ] (t : Tree s L Us) (hord : 2 < order)

include t hord

theorem Tree.cut_lowerBound {x : κ} (hP : ∀ k, P k = true ↔ x ≤ k) :
    ∃ iid, s.lowerBound x = some iid ∧ Cut L P iid := by
  obtain ⟨A, B, iid, hAB, hA, hB, hlower, hiid⟩ := t.lowerBound_eq hord x
  refine ⟨iid, hlower, A, B, hAB, fun e he => ?_, fun e he => (hP _).2 (hB e he), hiid⟩
  exact Bool.eq_false_iff.2 fun h => absurd ((hP _).1 h) (hA e he).not_ge

theorem Tree.cut_upperBound {x : κ} (hP : ∀ k, P k = true ↔ x < k) :
    ∃ iid, s.upperBound x = some iid ∧ Cut L P iid := by
  obtain ⟨A, B, iid, hAB, hA, hB, hupper, hiid⟩ := t.upperBound_eq hord x
  refine ⟨iid, hupper, A, B, hAB, fun e he => ?_, fun e he => (hP _).2 (hB e he), hiid⟩
  exact Bool.eq_false_iff.2 fun h => absurd ((hP _).1 h) (hA e he).not_gt

theorem Tree.cut_leafBegin (hP : ∀ k, P k = true) : Cut L P s.leafBegin :=
  ⟨[], flat L, rfl, by simp, fun e _ => hP e.1, t.leafBegin_eq hord⟩

theorem Tree.cut_leafEnd (hP : ∀ k, P k = false) :
    ∃ iid, s.leafEnd = some iid ∧ Cut L P iid := by
  obtain ⟨iid, hend, hiid⟩ := t.leafEnd_eq hord
  exact ⟨iid, hend, flat L, [], by simp, fun e _ => hP e.1, by simp, hiid⟩

/-! ## Scans between cuts -/

omit hord in
theorem Tree.start_eq (h : Cut L P lower) (upper : Iid) :
    IxScan.start s lower upper = some ⟨lower, upper, lower.pageNo⟩ := by
  obtain ⟨A, B, -, -, -, hiid⟩ := h
  obtain ⟨b, hb, hpage⟩ := mem_map.1 (iidOf_page hiid)
  obtain ⟨n, hn, -⟩ := t.holds b hb
  simp [IxScan.start, fetchNode, ← hpage, hn]

theorem Tree.scan_cuts (hlower : Cut L P lower) (hupper : Cut L Q upper)
    (h : ∀ e ∈ flat L, Q e.1 = true → P e.1 = true) {fuel : Nat} (hfuel : (flat L).length < fuel) :
    IxScan.scanAll s fuel ⟨lower, upper, lower.pageNo⟩ = some ((flat L).filter fun e => P e.1 && !Q e.1) := by
  obtain ⟨A, D, hAD, hlo, hup⟩ := hlower.between hupper h
  refine t.scanAll_eq hord hAD hlo hup ?_
  have hlen := congrArg List.length hAD
  simp only [length_append] at hlen
  omega

omit hord in
theorem Tree.entryAt_end (hiid : iidOf L (flat L).length = some lower) : s.entryAt lower = none := by
  obtain ⟨L₁, b, L₂, k, rfl, hk, hlast, rfl⟩ := iidOf_cases hiid
  obtain ⟨n, hn, -, hes⟩ := t.holds b (by simp)
  have hlen : k = b.2.length := by
    rcases hlast with h | h
    · simp only [flat_append, flat_cons, length_append] at hk
      omega
    · exact h.1
  simp [entryAt, fetchNode, hn, IxNode.getSize, hes, hlen]

theorem Tree.scan_behind {fuel i j : Nat} {iid : Iid} (hupper : iidOf L j = some upper) (hiid : iidOf L i = some iid)
    (hj : j < i) : IxScan.scanAll s fuel ⟨iid, upper, iid.pageNo⟩ = none := by
  induction fuel generalizing i iid with
  | zero => rfl
  | succ fuel ih =>
    have hne : iid ≠ upper := by
      rintro rfl
      have := iidOf_inj (nodup_append.1 t.nodup).1 hiid hupper
      omega
    rcases Nat.lt_or_ge i (flat L).length with hi | hi
    · obtain ⟨iid', hnext, hiid'⟩ := t.next_eq hord upper hiid hi
      simp [IxScan.scanAll, IxScan.isEnd, hne, hnext, ih hiid' (by omega)]
    · obtain rfl : i = (flat L).length := by
        have := iidOf_le hiid
        omega
      simp [IxScan.scanAll, IxScan.isEnd, hne, getKey, t.entryAt_end hiid]

theorem Tree.scan_none (hlower : Cut L P lower) (hupper : Cut L Q upper)
    {e : κ × Rid} (he : e ∈ flat L) (hQ : Q e.1 = true) (hP : P e.1 = false) (fuel : Nat) :
    IxScan.scanAll s fuel ⟨lower, upper, lower.pageNo⟩ = none := by
  obtain ⟨A, -, hlo, j, hj, hup⟩ := hlower.crossed hupper he hQ hP
  exact t.scan_behind hord hup hlo hj

omit hord in
/-- The entries that a scan comes to: those between the cuts, or all behind the
first one when they are the other way round. -/
theorem Tree.reach (hlower : Cut L P lower) (hupper : Cut L Q upper) :
    ∃ A R D, flat L = A ++ (R ++ D) ∧ iidOf L A.length = some lower ∧
      (∀ x, x ∈ R ↔ x ∈ flat L ∧ P x.1 = true ∧ (Q x.1 = false ∨ ∃ e ∈ flat L, Q e.1 = true ∧ P e.1 = false)) ∧
      (∀ k < R.length, iidOf L (A.length + k) ≠ some upper) ∧
      (iidOf L (A ++ R).length = some upper ∨ D = [] ∧ ∀ k ≤ R.length, iidOf L (A.length + k) ≠ some upper) := by
  have hinj := fun {j k : Nat} (hj : iidOf L j = some upper) (hk : iidOf L k = some upper) =>
    iidOf_inj (nodup_append.1 t.nodup).1 hj hk
  by_cases hcross : ∃ e ∈ flat L, Q e.1 = true ∧ P e.1 = false
  · obtain ⟨e, he, hQ, hP⟩ := hcross
    obtain ⟨A, hflat, hlo, j, hj, hup⟩ := hlower.crossed hupper he hQ hP
    have hne : ∀ k, iidOf L (A.length + k) ≠ some upper := by
      intro k hk
      have := hinj hup hk
      omega
    refine ⟨A, _, [], by rw [append_nil]; exact hflat, hlo, fun x => ?_, fun k _ => hne k,
      .inr ⟨rfl, fun k _ => hne k⟩⟩
    rw [mem_filter]
    exact ⟨fun h => ⟨h.1, h.2, .inr ⟨e, he, hQ, hP⟩⟩, fun h => ⟨h.1, h.2.1⟩⟩
  · have hord : ∀ e ∈ flat L, Q e.1 = true → P e.1 = true := by
      intro e he hQ
      by_contra hP
      exact hcross ⟨e, he, hQ, by simpa using hP⟩
    obtain ⟨A, D, hflat, hlo, hup⟩ := hlower.between hupper hord
    refine ⟨A, _, D, hflat, hlo, fun x => ?_, fun k hk heq => ?_, .inl hup⟩
    · rw [mem_filter, Bool.and_eq_true, Bool.not_eq_true']
      exact ⟨fun h => ⟨h.1, h.2.1, .inl h.2.2⟩, fun h => ⟨h.1, h.2.1, h.2.2.resolve_right hcross⟩⟩
    · have := hinj heq hup
      rw [length_append] at this
      omega

/-! ## The entry before a cut -/

theorem Tree.prevIid_first {iid : Iid} (h : iidOf L 0 = some iid) :
    s.prevIid iid = none := by
  obtain rfl : iid = s.leafBegin := Option.some.inj (h.symm.trans (t.leafBegin_eq hord))
  obtain ⟨b, hb, hpage⟩ := mem_map.1 (iidOf_page h)
  obtain ⟨n, hn, -⟩ := t.holds b hb
  have hfirst : b.1 = s.firstLeaf := hpage
  simp [prevIid, leafBegin, fetchNode, ← hfirst, hn]

theorem Tree.prev_cut (h : Cut L Q upper) :
    (s.prevIid upper).bind s.entryAt = ((flat L).filter fun e => !Q e.1).getLast? := by
  obtain ⟨C, D, hCD, hC, hD, hup⟩ := h
  rw [hCD, (filter_of_cut hC hD).2]
  rcases eq_nil_or_concat C with rfl | ⟨C, e, rfl⟩
  · rw [t.prevIid_first hord hup]
    rfl
  · obtain ⟨iid, hprev, hiid⟩ := t.prevIid_eq hord (i := C.length) (by simpa using hup)
    have hentry : s.entryAt iid = some e := t.entryAt_eq (by simpa using hCD) hiid
    rw [hprev, Option.bind_some, hentry]
    simp

omit hord in
theorem Tree.cut_eq_iff (hlower : Cut L P lower) (hupper : Cut L Q upper) :
    lower = upper ↔ ∀ e ∈ flat L, P e.1 = Q e.1 := by
  obtain ⟨A, B, hAB, hA, hB, hlo⟩ := hlower
  obtain ⟨C, D, hCD, hC, hD, hup⟩ := hupper
  constructor
  · rintro rfl
    have hlen := iidOf_inj (nodup_append.1 t.nodup).1 hlo hup
    obtain ⟨rfl, rfl⟩ := append_inj (hAB.symm.trans hCD) hlen
    intro e he
    rw [hAB] at he
    rcases mem_append.1 he with he | he
    · rw [hA e he, hC e he]
    · rw [hB e he, hD e he]
  · intro h
    have hAC : A = C := by
      rw [← (filter_of_cut hA hB).2, ← (filter_of_cut hC hD).2, ← hAB, ← hCD]
      exact filter_congr fun e he => by rw [h e he]
    rw [hAC, hup] at hlo
    exact (Option.some.inj hlo).symm

/-! ## Ranges -/

theorem Tree.scan_range {lo hi : κ} (hlohi : lo ≤ hi) :
    ∃ lower upper, s.lowerBound lo = some lower ∧ s.upperBound hi = some upper ∧
      Yields s lower upper fun e => e ∈ flat L ∧ lo ≤ e.1 ∧ e.1 ≤ hi := by
  obtain ⟨lower, hlower, hlo⟩ := t.cut_lowerBound hord (P := (lo ≤ ·)) fun k => decide_eq_true_iff
  obtain ⟨upper, hupper, hhi⟩ := t.cut_upperBound hord (P := (hi < ·)) fun k => decide_eq_true_iff
  have hin : ∀ e ∈ flat L, decide (hi < e.1) = true → decide (lo ≤ e.1) = true := fun e _ h =>
    decide_eq_true (hlohi.trans_lt (of_decide_eq_true h)).le
  obtain ⟨A, D, hflat, hA, hM⟩ := hlo.between hhi hin
  exact ⟨lower, upper, hlower, hupper, (t.yields hord hflat hA hM).congr fun e => by simp⟩

theorem Tree.prev_upperBound {hi : κ} {e : κ × Rid} (he : e ∈ flat L) (hehi : e.1 ≤ hi)
    (hupper : s.upperBound hi = some upper) :
    ∃ iid m, s.prevIid upper = some iid ∧ s.entryAt iid = some m ∧ m ∈ flat L ∧ m.1 ≤ hi ∧
      ∀ e' ∈ flat L, e'.1 ≤ hi → e'.1 ≤ m.1 := by
  obtain ⟨upper', hupper', hcut⟩ := t.cut_upperBound hord (P := (hi < ·)) fun k => decide_eq_true_iff
  obtain rfl : upper = upper' := by simpa [hupper] using hupper'
  have hin : ∀ {e'}, e' ∈ (flat L).filter (fun e => !decide (hi < e.1)) ↔ e' ∈ flat L ∧ e'.1 ≤ hi := by simp
  have hsorted := t.sorted.filter fun e => !decide (hi < e.1)
  have hprev := t.prev_cut hord hcut
  obtain ⟨C, m, hC⟩ := eq_nil_or_concat _ |>.resolve_left (ne_nil_of_mem (hin.2 ⟨he, hehi⟩))
  rw [hC, concat_eq_append] at hin hsorted hprev
  obtain ⟨iid, hiid, hentry⟩ := Option.bind_eq_some_iff.1 (hprev.trans List.getLast?_concat)
  obtain ⟨hm, hmhi⟩ := hin.1 (by simp : m ∈ C ++ [m])
  refine ⟨iid, m, hiid, hentry, hm, hmhi, fun e' he' hle => ?_⟩
  rcases mem_append.1 (hin.2 ⟨he', hle⟩) with h | h
  · exact ((pairwise_append.1 hsorted).2.2 e' h m (by simp)).le
  · rw [mem_singleton.1 h]

end Trees

/-- In every state that calls on a new index lead to, with the entries of the
last successful inserts: a scan from `lower_bound` to `upper_bound` yields
exactly the entries in the range, one from `leaf_begin` to `leaf_end` all of
them, and before `upper_bound` there is the largest key of the range. -/
theorem scan_exact (cols : List KeyCol) (f : IxFile (Key cols) (btreeOrder cols)) (hf : createIndex cols = some f)
    (calls : List (Call (Key cols))) (h : List (Call (Key cols) × Reply))
    (s : IxIndexHandle (Key cols) (btreeOrder cols)) (hrun : Run.run call (openIndex f) calls = some (h, s)) :
    (∀ lo hi, ixCmp lo hi ≤ 0 → ∃ lower upper, s.lowerBound lo = some lower ∧ s.upperBound hi = some upper ∧
      Yields s lower upper (fun e => lastInsert h e.1 = some e.2 ∧ ixCmp lo e.1 ≤ 0 ∧ ixCmp e.1 hi ≤ 0) ∧
      ((∃ e : Key cols × Rid, lastInsert h e.1 = some e.2 ∧ ixCmp lo e.1 ≤ 0 ∧ ixCmp e.1 hi ≤ 0) →
        ∃ iid m, s.prevIid upper = some iid ∧ s.entryAt iid = some m ∧ lastInsert h m.1 = some m.2 ∧
          ixCmp m.1 hi ≤ 0 ∧ ∀ k r, lastInsert h k = some r → ixCmp k hi ≤ 0 → ixCmp k m.1 ≤ 0)) ∧
    ∃ last, s.leafEnd = some last ∧ Yields s s.leafBegin last fun e => lastInsert h e.1 = some e.2 := by
  obtain ⟨h', s', hrun', ⟨L, Us, t, hL⟩, -⟩ := run_represents cols f hf calls
  rw [hrun', Option.some.injEq, Prod.mk.injEq] at hrun
  obtain ⟨rfl, rfl⟩ := hrun
  obtain ⟨hord, -⟩ := createIndex_eq hf
  simp only [ixCmp_le_zero]
  constructor
  · intro lo hi hlohi
    obtain ⟨lower, upper, hlower, hupper, hyields⟩ := t.scan_range hord hlohi
    refine ⟨lower, upper, hlower, hupper, hyields.congr fun e => by rw [hL e.1 e.2], fun hrange => ?_⟩
    obtain ⟨e, he, -, hehi⟩ := hrange
    obtain ⟨iid, m, hprev, hentry, hm, hmhi, hmax⟩ := t.prev_upperBound hord ((hL e.1 e.2).2 he) hehi hupper
    exact ⟨iid, m, hprev, hentry, (hL m.1 m.2).1 hm, hmhi, fun k r hk => hmax (k, r) ((hL k r).2 hk)⟩
  · obtain ⟨last, hlast, hend⟩ := t.leafEnd_eq hord
    refine ⟨last, hlast, (t.yields hord (A := []) (M := flat L) (B := []) (by simp) (t.leafBegin_eq hord) hend).congr
      fun e => ?_⟩
    exact hL e.1 e.2

theorem scan_exact_int :
    ∃ (f : IxFile (Key [.int]) _) (h : _) (s : _), createIndex [.int] = some f ∧
      Run.run call (openIndex f)
        [.insertEntry ⟨[7, 0, 0, 0], rfl, rfl⟩ ⟨1, 0⟩, .insertEntry ⟨[9, 0, 0, 0], rfl, rfl⟩ ⟨1, 1⟩] =
        some (h, s) ∧
      ∃ last, s.leafEnd = some last ∧ Yields s s.leafBegin last fun e => lastInsert h e.1 = some e.2 := by
  obtain ⟨h, s, hrun, -⟩ := run_represents [.int] _ rfl [.insertEntry ⟨[7, 0, 0, 0], rfl, rfl⟩ ⟨1, 0⟩,
    .insertEntry ⟨[9, 0, 0, 0], rfl, rfl⟩ ⟨1, 1⟩]
  exact ⟨_, h, s, rfl, hrun, (scan_exact [.int] _ rfl _ h s hrun).2⟩

theorem IxScan.scanAll_add {κ : Type} {s : IxIndexHandle κ order} {out : List (κ × Rid)} (k : Nat) :
    ∀ {fuel : Nat} {sc : IxScan}, scanAll s fuel sc = some out → scanAll s (fuel + k) sc = some out := by
  intro fuel
  induction fuel generalizing out with
  | zero => exact nofun
  | succ fuel ih =>
    intro sc h
    rw [Nat.succ_add_eq_add_succ, Nat.add_succ]
    rw [scanAll] at h ⊢
    by_cases hend : sc.isEnd
    · rw [if_pos hend] at h ⊢
      exact h
    · rw [if_neg hend] at h ⊢
      simp only [Option.bind_eq_bind, Option.bind_eq_some_iff] at h ⊢
      obtain ⟨key, hkey, rid, hrid, sc', hnext, rest, hrest, hout⟩ := h
      exact ⟨key, hkey, rid, hrid, sc', hnext, rest, ih hrest, hout⟩

theorem not_yields_of_mem {κ : Type} [IxCmp κ] {s : IxIndexHandle κ order} {lower upper : Iid}
    {P : κ × Rid → Prop} {sc : IxScan} {fuel : Nat} {out : List (κ × Rid)} {e : κ × Rid}
    (hsc : IxScan.start s lower upper = some sc) (hout : IxScan.scanAll s fuel sc = some out) (he : e ∈ out)
    (hP : ¬ P e) :
    ¬ Yields s lower upper P := by
  rintro ⟨sc', hsc', enough, out', hall, -, hmem⟩
  obtain rfl : sc = sc' := Option.some.inj (hsc.symm.trans hsc')
  have h := hall (fuel + enough) (by omega)
  rw [IxScan.scanAll_add enough hout, Option.some.injEq] at h
  subst h
  exact hP ((hmem e).1 he)

/-- From `(1.0, 0)` to `(1.5, 9)`: the search for the end goes by `(NaN, 4)`, and the scan comes to `(2.0, 3)`. -/
def nanScanTooFar (s : IxIndexHandle (RawKey [.float, .int]) (btreeOrder [.float, .int])) : Bool :=
  (s.lowerBound (floatIntKey 0x80 0x3f 0)).any fun lower => (s.upperBound (floatIntKey 0xc0 0x3f 9)).any fun upper =>
    (IxScan.start s lower upper).any fun sc => (IxScan.scanAll s 4 sc).any fun out =>
      out.any fun e => 0 < ixCmp e.1 (floatIntKey 0xc0 0x3f 9)

set_option maxRecDepth 10000 in
/-- With a NaN in the tree, the scan from `(1.0, 0)` to `(1.5, 9)` is not the scan of the keys between them. -/
theorem nan_scan_inexact :
    ∃ (f : IxFile (RawKey [.float, .int]) _) (h : _) (s : _), createIndex [.float, .int] = some f ∧
      Run.run call (openIndex f) nanInserts = some (h, s) ∧
      ixCmp (floatIntKey 0x80 0x3f 0) (floatIntKey 0xc0 0x3f 9) ≤ 0 ∧
      ∃ lower upper, s.lowerBound (floatIntKey 0x80 0x3f 0) = some lower ∧
        s.upperBound (floatIntKey 0xc0 0x3f 9) = some upper ∧
        ¬ Yields s lower upper fun e => lastInsert h e.1 = some e.2 ∧ ixCmp (floatIntKey 0x80 0x3f 0) e.1 ≤ 0 ∧
          ixCmp e.1 (floatIntKey 0xc0 0x3f 9) ≤ 0 := by
  have hrun : (createIndex [.float, .int] : Option (IxFile (RawKey [.float, .int]) _)).any (fun f =>
      (Run.run call (openIndex f) nanInserts).any fun r => nanScanTooFar r.2) = true := by decide +kernel
  simp only [Option.any_eq_true, nanScanTooFar, any_eq_true, decide_eq_true_eq] at hrun
  obtain ⟨f, hf, ⟨h, s⟩, hs, lower, hlower, upper, hupper, sc, hsc, out, hout, e, he, hgt⟩ := hrun
  refine ⟨f, h, s, hf, hs, by decide +kernel, lower, upper, hlower, hupper, not_yields_of_mem hsc hout he ?_⟩
  exact fun hP => absurd hP.2.2 (by omega)

end Rmdb.Index
