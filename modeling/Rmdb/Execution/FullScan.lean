/-
The scan of a heap file and its count.

The scan reads the bitmaps and the count the counters of the pages. They agree as
long as no page that is full is on the chain of free pages: a record that is
inserted there is counted and gets a slot behind the last one.
-/
import Rmdb.Execution.FastCount
import Rmdb.Record.TableMap

namespace Rmdb.Execution

open Function Record

variable {h h' : RmFileHandle} {rows : List (List UInt8)}

/-- `load_record`: a new page with `nums_record` records, on no chain. Its number is
the one that `new_page` gives, as the assertion has it. -/
def loadRecord (h : RmFileHandle) (rows : List (List UInt8)) : RmFileHandle :=
  { h with
    numPages := h.numPages + 1
    pages := update h.pages h.numPages
      { nextFreePageNo := noPage
        numRecords := rows.length
        slots := fun i => if 0 ≤ i then rows[i.toNat]? else none } }

inductive FileCall where
  | insert (buf : List UInt8)
  | insertAt (rid : Rid) (buf : List UInt8)
  | delete (rid : Rid)
  | update (rid : Rid) (buf : List UInt8)
  | load (rows : List (List UInt8))

def FileCall.exec (h : RmFileHandle) : FileCall → Except RMDBError RmFileHandle
  | .insert buf => (h.insertRecord buf).map Prod.snd
  | .insertAt rid buf => h.insertRecordAt rid buf
  | .delete rid => h.deleteRecord rid
  | .update rid buf => h.updateRecord rid buf
  | .load rows => .ok (loadRecord h rows)

def fileStep (h : RmFileHandle) (c : FileCall) : Option (Option RMDBError × RmFileHandle) :=
  match c.exec h with
  | .ok h' => some (none, h')
  | .error e => some (some e, h)

/-- The slots are slots of a page, and a positional insert is at a free one. -/
def FileCall.Proper (h : RmFileHandle) : FileCall → Prop
  | .insert _ => True
  | .insertAt rid _ => InRange h.numRecordsPerPage rid ∧ h.live rid = none
  | .delete rid | .update rid _ => InRange h.numRecordsPerPage rid
  | .load rows => rows.length ≤ h.numRecordsPerPage

/-- A positional insert that fills a page fills the first one of the chain. -/
def FileCall.Chained (h : RmFileHandle) : FileCall → Prop
  | .insertAt rid _ => (h.pages rid.pageNo).numRecords + 1 = h.numRecordsPerPage → h.firstFreePageNo = rid.pageNo
  | .insert _ | .delete _ | .update .. | .load _ => True

/-- The scan ends; it visits the records and no other rid, in order, and as many as are counted. -/
def CountAgrees (h : RmFileHandle) : Prop :=
  ∃ rids, rmScan h = some rids ∧ (∀ rid, rid ∈ rids ↔ (h.live rid).isSome) ∧ rids.Pairwise Rid.Before ∧
    fastCountStar h = UInt32.ofNat rids.length

theorem countAgrees_of_tableOK (ok : TableOK h) : CountAgrees h :=
  ⟨tableRids h, rmScan_eq ok.toHeapOK, fun _ => mem_tableRids ok.toHeapOK ok.header, sorted_tableRids,
    fastCountStar_eq ok.toHeapOK⟩

theorem counted_load {n : Nat} (hlen : rows.length ≤ n) : RmFileHandle.Counted n
    { nextFreePageNo := noPage, numRecords := rows.length, slots := fun i => if 0 ≤ i then rows[i.toNat]? else none } := by
  refine ⟨fun i hi => ?_, ?_⟩
  · simp only [ne_eq, ite_eq_right_iff, List.getElem?_eq_none_iff, Classical.not_imp] at hi
    omega
  · have hused : (Finset.range n).filter (fun i : Nat =>
        (if 0 ≤ (i : Int) then rows[(i : Int).toNat]? else none) ≠ none) = Finset.range rows.length := by
      ext i
      simp only [Finset.mem_filter, Finset.mem_range, Int.natCast_nonneg, if_true, Int.toNat_natCast, ne_eq,
        List.getElem?_eq_none_iff]
      omega
    rw [hused, Finset.card_range]

theorem tableOK_load (ok : TableOK h) (hlen : rows.length ≤ h.numRecordsPerPage) : TableOK (loadRecord h rows) := by
  have hsame : ∀ p, p ≠ h.numPages → (loadRecord h rows).pages p = h.pages p := fun p hp => update_of_ne hp _ _
  have hnum : h.numPages ≤ (loadRecord h rows).numPages := by simp [loadRecord]
  obtain ⟨c, hc⟩ := ok.chain
  have hc' : (loadRecord h rows).FreeChain c := by
    refine ⟨RmFileHandle.Links.congr (h := h) hc.links fun q hq => ?_, hc.nodup, fun q hq => ?_⟩
    · rw [hsame q (hc.free q hq).2.1.ne]
    · obtain ⟨h0, hlt, hfree⟩ := hc.free q hq
      rw [hsame q hlt.ne]
      exact ⟨h0, hlt.trans_le hnum, hfree⟩
  refine ok.change ⟨ok.pos, ok.start.trans hnum, fun p h0 hp => ?_, c, hc'⟩ ok.begun hnum hsame hc' (ok.behind c hc)
  by_cases hnew : p = h.numPages
  · subst hnew
    simp only [loadRecord, update_self]
    exact counted_load hlen
  · simp only [loadRecord] at hp
    rw [hsame p hnew]
    exact ok.counted p h0 (by omega)

theorem tableOK_insert (ok : TableOK h) (buf : List UInt8) {rid : Rid} (hexec : h.insertRecord buf = .ok (rid, h')) :
    TableOK h' := by
  obtain ⟨p, c, h₁, hcreate, ok₁, hc⟩ := ok.createPageHandle
  obtain ⟨h0, hp, hlt⟩ := hc.free p (by simp)
  obtain ⟨hslot, hfree⟩ := (ok₁.counted p h0 hp).firstFree_spec hlt
  rw [RmFileHandle.insertRecord, hcreate, ok_bind] at hexec
  cases hexec
  exact ok₁.fillSlot hc (ok₁.behind _ hc p (by simp)) hp ⟨by simp, by simpa using hslot⟩ hfree (fun _ => ⟨c, rfl⟩) buf

theorem slot_cases {rid : Rid} {free used : Except RMDBError RmFileHandle} (hexec : (do
      let pg ← h.fetchPageHandle rid.pageNo
      match pg.slots rid.slotNo with
      | none => free
      | some _ => used) = .ok h') :
    0 ≤ rid.pageNo ∧ rid.pageNo < h.numPages ∧
      (h.live rid = none ∧ free = .ok h' ∨ ∃ rec, h.live rid = some rec ∧ used = .ok h') := by
  unfold RmFileHandle.fetchPageHandle at hexec
  split at hexec
  · cases hexec
  · next hpage =>
    rw [ok_bind] at hexec
    refine ⟨by omega, by omega, ?_⟩
    rw [RmFileHandle.live, if_pos (by omega)]
    split at hexec
    · next hnone => exact .inl ⟨hnone, hexec⟩
    · next rec hrec => exact .inr ⟨rec, hrec, hexec⟩

theorem tableOK_exec (ok : TableOK h) {c : FileCall} (hproper : c.Proper h) (hchained : c.Chained h)
    (hexec : c.exec h = .ok h') : TableOK h' := by
  cases c with
  | insert buf =>
    change (h.insertRecord buf).map Prod.snd = .ok h' at hexec
    cases hins : h.insertRecord buf with
    | error e => simp [hins, Except.map] at hexec
    | ok r =>
      rw [hins] at hexec
      cases hexec
      exact tableOK_insert ok buf hins
  | load rows =>
    cases hexec
    exact tableOK_load ok hproper
  | insertAt rid buf =>
    obtain ⟨hrange, hfree⟩ := hproper
    obtain ⟨h0, hlt, ⟨hnone, hfill⟩ | ⟨rec, hrec, _⟩⟩ := slot_cases hexec
    · cases hfill
      rw [RmFileHandle.live, if_pos ⟨h0, hlt⟩] at hnone
      obtain ⟨c, hc⟩ := ok.chain
      have hpage := hrange.page
      refine ok.fillSlot hc (by simp only [firstRecordPage]; omega) hlt ⟨hrange.nonneg, hrange.lt⟩ hnone
        (fun hfull => ?_) buf
      have hfirst := hchained hfull
      cases c with
      | nil =>
        have hstop : h.firstFreePageNo = noPage := hc.links
        rw [hfirst, noPage] at hstop
        omega
      | cons q c => exact ⟨c, by rw [← hfirst, hc.links.1]⟩
    · rw [hfree] at hrec
      cases hrec
  | delete rid =>
    obtain ⟨_, _, ⟨_, herror⟩ | ⟨rec, hrec, hclear⟩⟩ := slot_cases hexec
    · cases herror
    · cases hclear
      exact ok.clearSlot hrec
  | update rid buf =>
    obtain ⟨_, _, ⟨_, herror⟩ | ⟨rec, hrec, hwrite⟩⟩ := slot_cases hexec
    · cases herror
    · cases hwrite
      exact ok.writeSlot hrec buf

/-- For records of every size and every run of calls: as long as a positional insert
that fills a page fills the first one of the chain, scan and count agree. -/
theorem run_countAgrees (recordSize : Nat) (hsize : recordSize ≤ maxRecordSize) (calls : List FileCall)
    (hcalls : Run.Along fileStep (fun h c => c.Proper h ∧ c.Chained h) (.createFile recordSize) calls) :
    ∃ trace h, Run.run fileStep (.createFile recordSize) calls = some (trace, h) ∧ CountAgrees h := by
  obtain ⟨trace, h, hrun, ok, _⟩ := Run.run_total (R := fun _ h => TableOK h) (.createFile hsize)
    (fun _ h c ok hc => by
      unfold fileStep
      cases hexec : c.exec h with
      | ok h' => exact ⟨_, h', rfl, tableOK_exec ok hc.1 hc.2 hexec⟩
      | error e => exact ⟨_, h, rfl, ok⟩) calls hcalls
  exact ⟨trace, h, hrun, countAgrees_of_tableOK ok⟩

instance (h : RmFileHandle) : (c : FileCall) → Decidable (c.Proper h)
  | .insert _ => .isTrue trivial
  | .insertAt rid _ => inferInstanceAs (Decidable (InRange h.numRecordsPerPage rid ∧ h.live rid = none))
  | .delete rid => inferInstanceAs (Decidable (InRange h.numRecordsPerPage rid))
  | .update rid _ => inferInstanceAs (Decidable (InRange h.numRecordsPerPage rid))
  | .load rows => inferInstanceAs (Decidable (rows.length ≤ h.numRecordsPerPage))

instance (h : RmFileHandle) : (c : FileCall) → Decidable (c.Chained h)
  | .insertAt rid _ => inferInstanceAs (Decidable
      ((h.pages rid.pageNo).numRecords + 1 = h.numRecordsPerPage → h.firstFreePageNo = rid.pageNo))
  | .insert _ | .delete _ | .update .. | .load _ => .isTrue trivial

def twoFreed : List FileCall :=
  [.load (List.replicate 7 []), .load (List.replicate 7 []), .delete ⟨1, 0⟩, .delete ⟨2, 0⟩]

theorem run_countAgrees_twoFreed : ∃ trace h, Run.run fileStep (.createFile 512) (twoFreed ++
    [.insertAt ⟨2, 0⟩ [], .insertAt ⟨1, 0⟩ [], .insert []]) = some (trace, h) ∧ CountAgrees h :=
  run_countAgrees 512 (by decide) _ (by decide +kernel)

/-- The records are put back in the order they were deleted in. Page 2 is filled last,
and page 1, which is full, becomes the first of the chain: the next record is counted
there, and not visited. -/
theorem full_page_counted : ∃ trace h rids, Run.run fileStep (.createFile 512) (twoFreed ++
      [.insertAt ⟨1, 0⟩ [], .insertAt ⟨2, 0⟩ [], .insert []]) = some (trace, h) ∧
    Run.Along fileStep (fun h c => c.Proper h) (.createFile 512) (twoFreed ++
      [.insertAt ⟨1, 0⟩ [], .insertAt ⟨2, 0⟩ [], .insert []]) ∧
    rmScan h = some rids ∧ rids.length = 14 ∧ fastCountStar h = 15 ∧ ¬ CountAgrees h := by
  have hscan : (Run.run fileStep (.createFile 512) (twoFreed ++
      [.insertAt ⟨1, 0⟩ [], .insertAt ⟨2, 0⟩ [], .insert []])).any (fun r =>
        (rmScan r.2).any (·.length = 14) ∧ fastCountStar r.2 = 15) = true := by decide +kernel
  obtain ⟨⟨trace, h⟩, hrun, hcheck⟩ := Option.any_eq_true _ _ |>.1 hscan
  obtain ⟨hrids, hcount⟩ := of_decide_eq_true hcheck
  obtain ⟨rids, hrids, hlen⟩ := Option.any_eq_true _ _ |>.1 hrids
  have hlen := of_decide_eq_true hlen
  refine ⟨trace, h, rids, hrun, by decide +kernel, hrids, hlen, hcount, fun ⟨rids', hrids', _, _, hcount'⟩ => ?_⟩
  obtain rfl := Option.some.inj (hrids.symm.trans hrids')
  rw [hlen, hcount] at hcount'
  exact absurd hcount' (by decide)

end Rmdb.Execution
