/-
The sequential scan goes through the records of the table, each one once.
-/
import Rmdb.Execution.Scan

namespace Rmdb.Execution

open List Record

section

variable {h : RmFileHandle}

def usedBehind (h : RmFileHandle) (rid : Rid) : List Nat :=
  (List.range h.numRecordsPerPage).filter fun i : Nat => rid.slotNo < i && ((h.pages rid.pageNo).slots i).isSome

def ridsBehind (h : RmFileHandle) : Nat → Rid → List Rid
  | 0, rid => (usedBehind h rid).map fun i : Nat => ⟨rid.pageNo, i⟩
  | pages + 1, rid => ((usedBehind h rid).map fun i : Nat => ⟨rid.pageNo, i⟩) ++ ridsBehind h pages ⟨rid.pageNo + 1, -1⟩

theorem nextBit_eq (rid : Rid) : nextBit (h.pages rid.pageNo) h.numRecordsPerPage rid.slotNo =
    ((usedBehind h rid).head?.map Int.ofNat).getD h.numRecordsPerPage := by
  rw [nextBit, usedBehind, List.head?_filter]

variable {rid : Rid} {i fuel : Nat}

theorem lt_of_mem_usedBehind (hi : i ∈ usedBehind h rid) : i < h.numRecordsPerPage :=
  mem_range.1 (mem_filter.1 hi).1

theorem usedBehind_cons {rest : List Nat} (hcons : usedBehind h rid = i :: rest) :
    usedBehind h ⟨rid.pageNo, i⟩ = rest := by
  have hsorted : (i :: rest).Pairwise (· < ·) := by
    rw [← hcons]
    exact pairwise_lt_range.filter _
  obtain ⟨hfirst, -⟩ := pairwise_cons.1 hsorted
  have hi : rid.slotNo < i := by
    have hmem : i ∈ usedBehind h rid := by simp [hcons]
    simpa using And.left (by simpa using (mem_filter.1 hmem).2)
  have hrest : (usedBehind h rid).filter (fun j => i < j) = rest := by
    rw [hcons, filter_cons_of_neg (by simp)]
    exact filter_eq_self.2 fun j hj => by simpa using hfirst j hj
  rw [← hrest, usedBehind, usedBehind, filter_filter]
  refine filter_congr fun j _ => ?_
  by_cases hij : i < j
  · have : rid.slotNo < j := by omega
    simp [hij, this]
  · have : ¬ (i : Int) < j := by omega
    simp [hij]

theorem rmScanNext_eq : ∀ {pages : Nat} {rid : Rid}, rid.pageNo + pages + 1 = h.numPages → pages < fuel →
    (ridsBehind h pages rid = [] → (rmScanNext h fuel rid).pageNo = noPage) ∧
    ∀ r rest, ridsBehind h pages rid = r :: rest → rmScanNext h fuel rid = r ∧
      ∃ pages' : Nat, r.pageNo + pages' + 1 = h.numPages ∧ pages' ≤ pages ∧ ridsBehind h pages' r = rest := by
  induction fuel with
  | zero => exact fun _ hlt => absurd hlt (by omega)
  | succ fuel ih =>
    intro pages rid hpages hfuel
    rw [rmScanNext, nextBit_eq]
    cases hused : usedBehind h rid with
    | cons i used =>
      have hmem : i ∈ usedBehind h rid := by simp [hused]
      have hi := lt_of_mem_usedBehind hmem
      have hbehind := usedBehind_cons hused
      refine ⟨fun hnil => ?_, fun r rest hcons => ?_⟩
      · cases pages <;> simp [ridsBehind, hused] at hnil
      · have hr : r = ⟨rid.pageNo, i⟩ ∧ ridsBehind h pages ⟨rid.pageNo, i⟩ = rest := by
          cases pages <;> simp only [ridsBehind, hused, map_cons, cons_append, List.cons.injEq] at hcons <;>
            exact ⟨hcons.1.symm, by rw [ridsBehind, hbehind]; exact hcons.2⟩
        obtain ⟨rfl, hrest⟩ := hr
        exact ⟨by simp [hi], pages, hpages, le_rfl, hrest⟩
    | nil =>
      simp only [List.head?_nil, Option.map_none, Option.getD_none, lt_irrefl, if_false]
      cases pages with
      | zero =>
        have hlast : rid.pageNo + 1 ≥ h.numPages := by push_cast at hpages; omega
        simp [ridsBehind, hused, hlast]
      | succ pages =>
        have hnext : ¬ rid.pageNo + 1 ≥ h.numPages := by push_cast at hpages; omega
        have hskip : ridsBehind h (pages + 1) rid = ridsBehind h pages ⟨rid.pageNo + 1, -1⟩ := by
          simp [ridsBehind, hused]
        obtain ⟨hnil, hcons⟩ := @ih pages ⟨rid.pageNo + 1, -1⟩ (by push_cast at hpages ⊢; omega) (by omega)
        rw [if_neg hnext, hskip]
        refine ⟨hnil, fun r rest hr => ?_⟩
        obtain ⟨heq, pages', hp, hle, hb⟩ := hcons r rest hr
        exact ⟨heq, pages', hp, by omega, hb⟩

theorem pageNo_of_mem_ridsBehind : ∀ {pages : Nat} {rid r : Rid}, r ∈ ridsBehind h pages rid → rid.pageNo ≤ r.pageNo
  | 0, rid, r, hr => by
    obtain ⟨i, -, rfl⟩ := mem_map.1 hr
    exact le_rfl
  | pages + 1, rid, r, hr => by
    rcases mem_append.1 hr with hr | hr
    · obtain ⟨i, -, rfl⟩ := mem_map.1 hr
      exact le_rfl
    · have := pageNo_of_mem_ridsBehind hr
      simp only at this
      omega

theorem rmScanFrom_eq : ∀ {pages : Nat} {rid : Rid}, rid.pageNo + pages + 1 = h.numPages → 0 ≤ rid.pageNo →
    (ridsBehind h pages rid).length + 1 < fuel →
    rmScanFrom h fuel rid = some (rid :: ridsBehind h pages rid) := by
  induction fuel with
  | zero => exact fun _ _ hlt => absurd hlt (by omega)
  | succ fuel ih =>
    intro pages rid hpages hpage hfuel
    have hne : rid.pageNo ≠ noPage := by simp only [noPage]; omega
    have hnext := @rmScanNext_eq h h.numPages.toNat pages rid hpages (by omega)
    rw [rmScanFrom, if_neg hne]
    cases hbehind : ridsBehind h pages rid with
    | nil =>
      obtain ⟨fuel, rfl⟩ : ∃ n, fuel = n + 1 := ⟨fuel - 1, by rw [hbehind] at hfuel; simp at hfuel; omega⟩
      rw [rmScanFrom, if_pos (hnext.1 hbehind)]
      rfl
    | cons r rest =>
      obtain ⟨heq, pages', hp, -, hb⟩ := hnext.2 r rest hbehind
      have hr : rid.pageNo ≤ r.pageNo := pageNo_of_mem_ridsBehind (by rw [hbehind]; exact mem_cons_self)
      have hlen : (ridsBehind h pages' r).length + 1 < fuel := by
        rw [hb]
        rw [hbehind] at hfuel
        simpa using hfuel
      rw [heq, ih hp (by omega) hlen, hb]
      rfl

theorem mem_ridsBehind : ∀ {pages : Nat} {rid r : Rid}, r ∈ ridsBehind h pages rid ↔
    ((rid.pageNo = r.pageNo ∧ rid.slotNo < r.slotNo) ∨ rid.pageNo < r.pageNo ∧ -1 < r.slotNo) ∧
      r.pageNo ≤ rid.pageNo + pages ∧ 0 ≤ r.slotNo ∧ r.slotNo < h.numRecordsPerPage ∧
      ((h.pages r.pageNo).slots r.slotNo).isSome := by
  have hused : ∀ {rid r : Rid}, (r ∈ (usedBehind h rid).map fun i : Nat => (⟨rid.pageNo, i⟩ : Rid)) ↔
      rid.pageNo = r.pageNo ∧ rid.slotNo < r.slotNo ∧ 0 ≤ r.slotNo ∧ r.slotNo < h.numRecordsPerPage ∧
        ((h.pages r.pageNo).slots r.slotNo).isSome := by
    intro rid r
    simp only [mem_map, usedBehind, mem_filter, mem_range, Bool.and_eq_true, decide_eq_true_eq]
    constructor
    · rintro ⟨i, ⟨hi, hlt, hsome⟩, rfl⟩
      exact ⟨rfl, hlt, by simp, by simpa using hi, hsome⟩
    · rintro ⟨hp, hlt, hpos, hper, hsome⟩
      obtain ⟨p, s⟩ := r
      simp only at hp hlt hpos hper hsome
      obtain ⟨i, rfl⟩ := Int.eq_ofNat_of_zero_le hpos
      exact ⟨i, ⟨by omega, hlt, by rw [hp]; exact hsome⟩, by rw [hp]⟩
  intro pages
  induction pages with
  | zero =>
    intro rid r
    rw [ridsBehind, hused]
    by_cases hsome : ((h.pages r.pageNo).slots r.slotNo).isSome
    · simp only [hsome, and_true]
      omega
    · simp [hsome]
  | succ pages ih =>
    intro rid r
    rw [ridsBehind, mem_append, hused, ih]
    by_cases hsome : ((h.pages r.pageNo).slots r.slotNo).isSome
    · simp only [hsome, and_true, Nat.cast_add, Nat.cast_one]
      omega
    · simp [hsome]

def Rid.Before (a b : Rid) : Prop := a.pageNo < b.pageNo ∨ a.pageNo = b.pageNo ∧ a.slotNo < b.slotNo

theorem sorted_ridsBehind : ∀ {pages : Nat} {rid : Rid}, (ridsBehind h pages rid).Pairwise Rid.Before := by
  have hused : ∀ rid, ((usedBehind h rid).map fun i : Nat => (⟨rid.pageNo, i⟩ : Rid)).Pairwise Rid.Before := fun rid =>
    pairwise_map.2 ((pairwise_lt_range.filter _).imp fun hij => .inr ⟨rfl, by simpa using hij⟩)
  intro pages
  induction pages with
  | zero => exact fun {rid} => hused rid
  | succ pages ih =>
    intro rid
    refine pairwise_append.2 ⟨hused rid, ih, fun r hr r' hr' => .inl ?_⟩
    obtain ⟨i, -, rfl⟩ := mem_map.1 hr
    have := pageNo_of_mem_ridsBehind hr'
    simp only at this ⊢
    omega

theorem length_ridsBehind (h : RmFileHandle) : ∀ (pages : Nat) (rid : Rid),
    (ridsBehind h pages rid).length ≤ (pages + 1) * h.numRecordsPerPage := by
  have hused : ∀ rid, (usedBehind h rid).length ≤ h.numRecordsPerPage := fun rid =>
    (length_filter_le _ _).trans (by rw [length_range])
  intro pages
  induction pages with
  | zero => exact fun rid => by simpa [ridsBehind] using hused rid
  | succ pages ih =>
    intro rid
    rw [ridsBehind, length_append, length_map, Nat.succ_mul, Nat.add_comm]
    exact Nat.add_le_add (ih _) (hused rid)

def tableRids (h : RmFileHandle) : List Rid :=
  if firstRecordPage < h.numPages then ridsBehind h (h.numPages - 2).toNat ⟨firstRecordPage, -1⟩ else []

theorem sorted_tableRids : (tableRids h).Pairwise Rid.Before := by
  unfold tableRids
  split
  · exact sorted_ridsBehind
  · exact .nil

theorem nodup_tableRids : (tableRids h).Nodup :=
  sorted_tableRids.imp fun {a b} hab heq => by
    rw [heq, Rid.Before] at hab
    omega

theorem mem_tableRids (hok : h.HeapOK) (hheader : ∀ i, (h.pages 0).slots i = none) :
    rid ∈ tableRids h ↔ (h.live rid).isSome := by
  have hlive : (h.live rid).isSome ↔
      (1 ≤ rid.pageNo ∧ rid.pageNo < h.numPages) ∧ ((h.pages rid.pageNo).slots rid.slotNo).isSome := by
    rw [RmFileHandle.live]
    by_cases hzero : rid.pageNo = 0
    · simp [hzero, hheader]
    · by_cases hpages : 0 ≤ rid.pageNo ∧ rid.pageNo < h.numPages
      · have : 1 ≤ rid.pageNo := by omega
        simp [hpages, this]
      · have : ¬ (1 ≤ rid.pageNo ∧ rid.pageNo < h.numPages) := by omega
        simp [hpages, this]
  rw [hlive]
  unfold tableRids
  split
  · next hfirst =>
    simp only [firstRecordPage] at hfirst ⊢
    rw [mem_ridsBehind]
    by_cases hsome : ((h.pages rid.pageNo).slots rid.slotNo).isSome
    · simp only [hsome, and_true]
      constructor
      · omega
      · intro hp
        have := (hok.counted rid.pageNo (by omega) (by omega)).range rid.slotNo (by simpa using Option.isSome_iff_ne_none.1 hsome)
        omega
    · simp [hsome]
  · next hfirst =>
    simp only [firstRecordPage] at hfirst
    have : ¬ (1 ≤ rid.pageNo ∧ rid.pageNo < h.numPages) := by omega
    simp [this]

theorem length_tableRids (h : RmFileHandle) : (tableRids h).length ≤ (h.numPages - 1).toNat * h.numRecordsPerPage := by
  unfold tableRids
  split
  · next hfirst =>
    simp only [firstRecordPage] at hfirst
    refine (length_ridsBehind h _ _).trans (Nat.mul_le_mul_right _ (by omega))
  · exact Nat.zero_le _

theorem rmScan_eq (hok : h.HeapOK) : rmScan h = some (tableRids h) := by
  have hbound := length_tableRids h
  rw [rmScan]
  unfold tableRids at hbound ⊢
  split
  · next hfirst =>
    rw [if_pos hfirst] at hbound
    simp only [firstRecordPage] at hfirst hbound ⊢
    have hpages : (1 : Int) + (h.numPages - 2).toNat + 1 = h.numPages := by omega
    have hnext := @rmScanNext_eq h h.numPages.toNat _ ⟨1, -1⟩ hpages (by omega)
    cases hbehind : ridsBehind h (h.numPages - 2).toNat ⟨1, -1⟩ with
    | nil => rw [rmScanFrom, if_pos (hnext.1 hbehind)]
    | cons r rest =>
      obtain ⟨heq, pages', hp, -, hb⟩ := hnext.2 r rest hbehind
      have hr : (1 : Int) ≤ r.pageNo := @pageNo_of_mem_ridsBehind h (h.numPages - 2).toNat ⟨1, -1⟩ r (by simp [hbehind])
      have hlen : (ridsBehind h pages' r).length + 1 < h.numPages.toNat * h.numRecordsPerPage + 1 := by
        rw [hbehind, length_cons] at hbound
        have hle : (h.numPages - 1).toNat * h.numRecordsPerPage + h.numRecordsPerPage =
            h.numPages.toNat * h.numRecordsPerPage := by
          rw [← Nat.succ_mul]
          congr 1
          omega
        have := hok.pos
        rw [hb]
        omega
      rw [heq, rmScanFrom_eq hp (by omega) hlen, hb]
  · rfl

theorem rmScan_spec (hok : h.HeapOK) (hheader : ∀ i, (h.pages 0).slots i = none) :
    ∃ rids, rmScan h = some rids ∧ rids.Nodup ∧ ∀ rid, rid ∈ rids ↔ (h.live rid).isSome :=
  ⟨tableRids h, rmScan_eq hok, nodup_tableRids, fun _ => mem_tableRids hok hheader⟩

end

def seqScan (h : RmFileHandle) (conds : List Condition) : Option (List Rid) := do
  let rids ← rmScan h
  some (rids.filter fun rid => (h.live rid).any (cmpConds conds))

theorem seqScan_spec {h : RmFileHandle} (hok : h.HeapOK) (hheader : ∀ i, (h.pages 0).slots i = none)
    (conds : List Condition) : ∃ rids, seqScan h conds = some rids ∧ rids.Nodup ∧
      ∀ rid, rid ∈ rids ↔ ∃ rec, h.live rid = some rec ∧ cmpConds conds rec = true := by
  obtain ⟨rids, hscan, hnodup, hmem⟩ := rmScan_spec hok hheader
  refine ⟨_, by rw [seqScan, hscan]; rfl, hnodup.filter _, fun rid => ?_⟩
  rw [mem_filter, hmem]
  cases h.live rid <;> simp

end Rmdb.Execution
