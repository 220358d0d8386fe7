/-
`SeqScanExecutor` call by call.

The scan stands on a rid. `beginTuple` and `nextTuple` go on to the next record
that satisfies the conditions and read it, and `Next` moves it out. What comes
out are the records of `RmScan`, in its order, that satisfy them.
-/
import Rmdb.Execution.SeqScan
import Rmdb.Execution.JoinCond

namespace Rmdb.Execution

open Index Record

structure SeqScan where
  rid : Rid
  rmRecord : Option (List UInt8)

namespace SeqScan

section

variable (h : RmFileHandle) (conds : List Condition)

def seek : Nat → Rid → Option SeqScan
  | 0, _ => none
  | fuel + 1, rid =>
    if rid.pageNo = noPage then some ⟨rid, none⟩
    else do
      let rec ← (h.getRecord rid).toOption
      if cmpConds conds rec then some ⟨rid, some rec⟩ else seek fuel (rmScanNext h h.numPages.toNat rid)

def start : Rid :=
  if firstRecordPage < h.numPages then rmScanNext h h.numPages.toNat ⟨firstRecordPage, -1⟩ else ⟨noPage, -1⟩

def nextTuple (fuel : Nat) (s : SeqScan) : Option SeqScan :=
  if s.rid.pageNo = noPage then some s else seek h conds fuel (rmScanNext h h.numPages.toNat s.rid)

def executor (cols : List Col) (tupleLen fuel : Nat) : Executor SeqScan where
  beginTuple _ := seek h conds fuel (start h)
  nextTuple := nextTuple h conds fuel
  isEnd s := s.rid.pageNo = noPage
  next s := s.rmRecord.map fun rec => (rec, { s with rmRecord := none })
  cols := cols
  tupleLen := tupleLen
  isSort := false

def Follows : Rid → List Rid → Prop
  | rid, [] => rid.pageNo = noPage
  | rid, r :: rids => rid = r ∧ r.pageNo ≠ noPage ∧ Follows (rmScanNext h h.numPages.toNat rid) rids

def records (rids : List Rid) : List (List UInt8) := (rids.filterMap h.live).filter (cmpConds conds)

end

variable {h : RmFileHandle} {conds : List Condition} {cols : List Col} {tupleLen fuel : Nat}

theorem shows_records : ∀ {rids : List Rid} {fuel' : Nat} {rid : Rid}, Follows h rid rids → rids.length < fuel →
    rids.length < fuel' → (∀ r ∈ rids, (h.live r).isSome) →
    ∃ s, seek h conds fuel' rid = some s ∧
      (executor h conds cols tupleLen fuel).Shows (fun _ => True) (records h conds rids) s
  | _, 0, _, _, _, hfuel', _ => absurd hfuel' (Nat.not_lt_zero _)
  | [], fuel' + 1, rid, hend, _, _, _ => by
    have hpage : rid.pageNo = noPage := hend
    refine ⟨⟨rid, none⟩, by rw [seek, if_pos hpage], trivial, ?_⟩
    simpa [executor] using hpage
  | r :: rids, fuel' + 1, rid, hfollows, hfuel, hfuel', hlive => by
    obtain ⟨rfl, hpage, hrest⟩ := hfollows
    obtain ⟨rec, hrec⟩ := Option.isSome_iff_exists.1 (hlive rid List.mem_cons_self)
    have hlive' : ∀ r ∈ rids, (h.live r).isSome := fun r hr => hlive r (List.mem_cons_of_mem _ hr)
    rw [List.length_cons] at hfuel hfuel'
    have hseek : seek h conds (fuel' + 1) rid =
        if cmpConds conds rec then some ⟨rid, some rec⟩ else seek h conds fuel'
          (rmScanNext h h.numPages.toNat rid) := by
      rw [seek, if_neg hpage, RmFileHandle.getRecord_eq hrec]
      rfl
    have hrecords : records h conds (rid :: rids) =
        if cmpConds conds rec then rec :: records h conds rids else records h conds rids := by
      unfold records
      rw [List.filterMap_cons_some hrec, List.filter_cons]
    rw [hseek, hrecords]
    split
    · -- the record is handed out, and `nextTuple` goes on behind it
      obtain ⟨s, hs, hshows⟩ := shows_records hrest (by omega) (by omega : rids.length < fuel) hlive'
      refine ⟨_, rfl, Iter.shows_cons trivial (by simpa [executor] using hpage) rfl ⟨trivial, ?_, s, ?_, hshows⟩⟩
      · simpa [executor] using hpage
      · show nextTuple h conds fuel ⟨rid, none⟩ = some s
        rw [nextTuple, if_neg hpage, hs]
    · exact shows_records hrest (by omega) (by omega) hlive'

theorem follows_ridsBehind : ∀ {rids : List Rid} {pages : Nat} {rid : Rid}, rid.pageNo + pages + 1 = h.numPages →
    0 ≤ rid.pageNo → ridsBehind h pages rid = rids → Follows h (rmScanNext h h.numPages.toNat rid) rids
  | [], pages, rid, hpages, hpos, hrids => (rmScanNext_eq hpages (by omega)).1 hrids
  | r :: rids, pages, rid, hpages, hpos, hrids => by
    obtain ⟨hnext, pages', hpages', -, hrest⟩ :=
      (@rmScanNext_eq h h.numPages.toNat pages rid hpages (by omega)).2 r rids hrids
    have hr : rid.pageNo ≤ r.pageNo := @pageNo_of_mem_ridsBehind h pages rid r (by simp [hrids])
    refine ⟨hnext, ?_, ?_⟩
    · simp only [noPage]
      omega
    · rw [hnext]
      exact follows_ridsBehind hpages' (by omega) hrest

theorem follows_tableRids : Follows h (start h) (tableRids h) := by
  unfold start tableRids
  split
  · next hfirst =>
    simp only [firstRecordPage] at hfirst ⊢
    exact follows_ridsBehind (by simp only; omega) (by decide) rfl
  · rfl

theorem replays_records (hok : h.HeapOK) (hheader : ∀ i, (h.pages 0).slots i = none)
    (hfuel : (tableRids h).length < fuel) :
    (executor h conds cols tupleLen fuel).Replays (fun _ => True) (records h conds (tableRids h)) := by
  intro s _
  exact shows_records follows_tableRids hfuel hfuel fun r hr => (mem_tableRids hok hheader).1 hr

end SeqScan

end Rmdb.Execution
