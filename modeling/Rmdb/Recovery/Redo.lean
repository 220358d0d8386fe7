/-
The redo pass, and what recovery leaves.

`RecoveryManager::redo` reads the records again that the analysis found to be
newer than their pages, and does them again; as in the undo pass, what is done
for a record is a parameter. For tables without indexes the three passes leave
what the transactions did that had ended.
-/
import Rmdb.Lib.Replay
import Rmdb.Recovery.Undo
import Rmdb.Transaction.Interleave

namespace Rmdb.Recovery

open Function List Record Undo Replay

/-- The open table files, by name. -/
abbrev Files : Type := List UInt8 → Option TableFile

/-- The loop of `RecoveryManager::redo` over `dirty_page_table_`; `buffer_.offset_` is 0 behind `analyze`. -/
def redo {σ ε : Type} (redoRecord : LogRecord → σ → Except ε σ) (log : List UInt8) (lsnMapping : Int → Option Nat) :
    List Int → List UInt8 → σ → Except ε σ
  | [], _, s => .ok s
  | lsn :: lsns, buffer, s =>
    let buffer := readLog buffer log ((lsnMapping lsn).getD 0)
    match LogRecord.deserialize buffer with
    | none => redo redoRecord log lsnMapping lsns buffer s
    | some rec =>
      match redoRecord rec s with
      | .error e => .error e
      | .ok s => redo redoRecord log lsnMapping lsns buffer s

/-- `delete_record` in a `try` that catches `RecordNotFoundError`. -/
def tryDeleteRecord (rid : Rid) (fh : RmFileHandle) : Except RMDBError RmFileHandle :=
  match fh.deleteRecord rid with
  | .error (.recordNotFound _) => .ok fh
  | r => r

/-- What `redo` does to the file of a table that has no indexes. -/
def redoTable (rec : LogRecord) (fhs : Files) : Except Escape Files :=
  match rec.body with
  | .begin | .commit | .abort => .ok fhs
  | .insert value rid tableName => onTable fhs tableName fun fh => fh.insertRecordAt rid value
  | .delete _ rid tableName => onTable fhs tableName (tryDeleteRecord rid)
  | .update _ updateValue rid tableName => onTable fhs tableName fun fh => fh.updateRecord rid updateValue

/-! ## Rows -/

/-- The name of a table, and a place in it. -/
abbrev Row : Type := List UInt8 × Rid

def rows (fhs : Files) (r : Row) : Option (List UInt8) := (fhs r.1).bind fun f => f.fh.live r.2

/-- The LSN of the page of a row. -/
def lsnOf (fhs : Files) (r : Row) : Int :=
  ((fhs r.1).map fun f => f.pageLsn r.2.pageNo).getD invalidLsn

/-- The record is about a row whose page does not have it yet. -/
def LogRecord.newer (fhs : Files) (rec : LogRecord) : Bool :=
  rec.body.place.any fun p => decide (lsnOf fhs (cstr p.2, p.1) < rec.lsn)

/-- What a record did to its row. -/
def LogRecord.write (rec : LogRecord) : Option (Write Row (List UInt8)) :=
  match rec.body with
  | .begin | .commit | .abort => none
  | .insert value rid tableName => some ⟨(cstr tableName, rid), none, some value⟩
  | .delete value rid tableName => some ⟨(cstr tableName, rid), some value, none⟩
  | .update oldValue updateValue rid tableName => some ⟨(cstr tableName, rid), some oldValue, some updateValue⟩

variable {fhs : Files} {f : TableFile} {rid : Rid} {rec : LogRecord} {log : List LogRecord}
  {tableName v : List UInt8} {s : Row → Option (List UInt8)}

/-- The outcome is files with the rows `s` and the pages of `fhs`. -/
def Leaves (fhs : Files) (s : Row → Option (List UInt8)) (r : Except Escape Files) : Prop :=
  ∃ fhs', r = .ok fhs' ∧ rows fhs' = s ∧ SamePages fhs fhs'

theorem onTable_puts {v : Option (List UInt8)} (op : RmFileHandle → Except RMDBError RmFileHandle)
    (hf : fhs (cstr tableName) = some f)
    (hput : ∃ fh', op f.fh = .ok fh' ∧ fh'.live = update f.fh.live rid v ∧ fh'.numPages = f.fh.numPages) :
    Leaves fhs (update (rows fhs) (cstr tableName, rid) v) (onTable fhs tableName op) := by
  obtain ⟨fh', hop, hlive, hpages⟩ := hput
  refine ⟨update fhs (cstr tableName) (some { f with fh := fh' }), by simp only [onTable, hf, hop],
    funext fun row => ?_, fun name => ?_⟩
  · obtain ⟨name, rid'⟩ := row
    by_cases hname : name = cstr tableName
    · subst hname
      simp [rows, hf, hlive, update_apply]
    · simp [rows, hname]
  · by_cases hname : name = cstr tableName
    · rw [hname, update_self, hf, Option.map_some, Option.map_some, hpages]
    · rw [update_of_ne hname]

theorem live_of_rows (hf : fhs (cstr tableName) = some f) (hrow : rows fhs (cstr tableName, rid) = some v) :
    f.fh.live rid = some v := by
  simpa [rows, hf] using hrow

theorem redoTable_leaves (hplaced : rec.Placed fhs) (h : Leads LogRecord.write (rows fhs) [rec] s) :
    Leaves fhs s (redoTable rec fhs) := by
  obtain ⟨lsn, tid, prevLsn, body⟩ := rec
  cases body with
  | begin | commit | abort => exact ⟨fhs, rfl, ((leads_of_none rfl).1 h).symm, fun _ => rfl⟩
  | insert value rid tableName =>
    obtain ⟨f, hf, h0, hlt⟩ := hplaced rid tableName rfl
    obtain ⟨-, rfl⟩ := (leads_of_some rfl).1 h
    exact onTable_puts (·.insertRecordAt rid value) hf (RmFileHandle.insertRecordAt_eq h0 hlt value)
  | delete value rid tableName =>
    obtain ⟨f, hf, -⟩ := hplaced rid tableName rfl
    obtain ⟨hold, rfl⟩ := (leads_of_some rfl).1 h
    obtain ⟨fh', hop, hput⟩ := RmFileHandle.deleteRecord_eq (live_of_rows hf hold)
    have htry : tryDeleteRecord rid f.fh = .ok fh' := by rw [tryDeleteRecord, hop]
    exact onTable_puts _ hf ⟨fh', htry, hput⟩
  | update oldValue updateValue rid tableName =>
    obtain ⟨f, hf, -⟩ := hplaced rid tableName rfl
    obtain ⟨hold, rfl⟩ := (leads_of_some rfl).1 h
    exact onTable_puts (·.updateRecord rid updateValue) hf (RmFileHandle.updateRecord_eq (live_of_rows hf hold) updateValue)

theorem undoTable_leaves (hplaced : rec.Placed fhs) (h : Leads (back LogRecord.write) (rows fhs) [rec] s) :
    Leaves fhs s (undoTable rec fhs) := by
  obtain ⟨lsn, tid, prevLsn, body⟩ := rec
  cases body with
  | begin | commit | abort => exact ⟨fhs, rfl, ((leads_of_none rfl).1 h).symm, fun _ => rfl⟩
  | insert value rid tableName =>
    obtain ⟨f, hf, -⟩ := hplaced rid tableName rfl
    obtain ⟨hold, rfl⟩ := (leads_of_some rfl).1 h
    exact onTable_puts (·.deleteRecord rid) hf (RmFileHandle.deleteRecord_eq (live_of_rows hf hold))
  | delete value rid tableName =>
    obtain ⟨f, hf, h0, hlt⟩ := hplaced rid tableName rfl
    obtain ⟨-, rfl⟩ := (leads_of_some rfl).1 h
    exact onTable_puts (·.insertRecordAt rid value) hf (RmFileHandle.insertRecordAt_eq h0 hlt value)
  | update oldValue updateValue rid tableName =>
    obtain ⟨f, hf, -⟩ := hplaced rid tableName rfl
    obtain ⟨hold, rfl⟩ := (leads_of_some rfl).1 h
    exact onTable_puts (·.updateRecord rid oldValue) hf (RmFileHandle.updateRecord_eq (live_of_rows hf hold) oldValue)

theorem foldlM_leaves {step : LogRecord → Files → Except Escape Files} {write : LogRecord → Option (Write Row (List UInt8))}
    (hstep : ∀ {fhs rec s}, rec.Placed fhs → Leads write (rows fhs) [rec] s → Leaves fhs s (step rec fhs))
    {recs : List LogRecord} (hplaced : ∀ rec ∈ recs, rec.Placed fhs) (hleads : Leads write (rows fhs) recs s) :
    Leaves fhs s (recs.foldlM (fun fhs rec => step rec fhs) fhs) := by
  induction recs generalizing fhs with
  | nil => exact ⟨fhs, rfl, funext hleads, fun _ => rfl⟩
  | cons rec recs ih =>
    obtain ⟨hrec, hrecs⟩ := forall_mem_cons.1 hplaced
    obtain ⟨s₁, hfirst, hrest⟩ := (@leads_append _ _ _ _ _ _ _ [rec] _).1 hleads
    obtain ⟨fhs₁, hfhs₁, rfl, hsame₁⟩ := hstep hrec hfirst
    obtain ⟨fhs₂, hfhs₂, hrows₂, hsame₂⟩ := ih (fun r hr => (hrecs r hr).of_samePages hsame₁) hrest
    refine ⟨fhs₂, ?_, hrows₂, fun name => (hsame₂ name).trans (hsame₁ name)⟩
    rw [foldlM_cons, hfhs₁]
    exact hfhs₂

/-! ## The passes -/

namespace RecoveryManager

variable {rm rm' : RecoveryManager}

/-- A record that is newer than its page is noted, and its LSN is the page's from then on. -/
theorem visit_dirty (hplaced : rec.Placed rm.fhs) {offset : Nat} (h : visit rec offset rm = .ok rm') :
    rm'.dirtyPageTable = rm.dirtyPageTable ++ (if rec.newer rm.fhs then [rec.lsn] else []) ∧ rows rm'.fhs = rows rm.fhs ∧
    ∀ row lsn, rec.lsn < lsn → (lsnOf rm'.fhs row < lsn ↔ lsnOf rm.fhs row < lsn) := by
  unfold visit at h
  split at h
  · next hplace =>
    cases h
    simp [LogRecord.newer, hplace]
  · next rid tableName hplace =>
    obtain ⟨f, hf, h0, hlt⟩ := hplaced rid tableName hplace
    have hfetch : f.fh.fetchPageHandle rid.pageNo = .ok (f.fh.pages rid.pageNo) := by
      rw [RmFileHandle.fetchPageHandle, if_neg (by omega)]
    have hnewer : rec.newer rm.fhs = decide (f.pageLsn rid.pageNo < rec.lsn) := by simp [LogRecord.newer, hplace, lsnOf, hf]
    simp only [analyzePage, hf, TableFile.fetchOrCreate, hfetch] at h
    split at h
    · next hless =>
      cases h
      refine ⟨by simp [hnewer, hless], funext fun row => ?_, fun row lsn hlsn => ?_⟩
      · by_cases hname : row.1 = cstr tableName <;> simp [rows, hname, hf, TableFile.setPageLsn]
      · by_cases hname : row.1 = cstr tableName
        · by_cases hpage : row.2.pageNo = rid.pageNo
          · simp [lsnOf, hname, hf, TableFile.setPageLsn, hpage]
            omega
          · simp [lsnOf, hname, hf, TableFile.setPageLsn, hpage]
        · simp [lsnOf, hname]
    · next hless =>
      cases h
      simp [hnewer, hless, ← hf]

theorem through_dirty (hplaced : ∀ rec ∈ log, rec.Placed rm.fhs) (hinc : log.Pairwise (·.lsn < ·.lsn)) {offset : Nat}
    (h : Frames.through LogRecord.serialize visit offset rm log = .ok rm') :
    rm'.dirtyPageTable = rm.dirtyPageTable ++ (log.filter (LogRecord.newer rm.fhs)).map LogRecord.lsn ∧
      rows rm'.fhs = rows rm.fhs ∧ SamePages rm.fhs rm'.fhs := by
  induction log generalizing rm offset with
  | nil =>
    cases h
    simp [SamePages]
  | cons rec log ih =>
    obtain ⟨hrec, hlog⟩ := forall_mem_cons.1 hplaced
    obtain ⟨hfirst, hrest⟩ := pairwise_cons.1 hinc
    obtain ⟨rm₁, hvisit, -, hsame⟩ := visit_ok hrec offset
    obtain ⟨hdirty, hrows, hlsn⟩ := visit_dirty hrec hvisit
    rw [Frames.through, hvisit] at h
    obtain ⟨hdirty', hrows', hsame'⟩ := ih (fun r hr => (hlog r hr).of_samePages hsame) hrest h
    have hnewer : log.filter (LogRecord.newer rm₁.fhs) = log.filter (LogRecord.newer rm.fhs) := by
      refine filter_congr fun r hr => ?_
      simp only [LogRecord.newer, hlsn _ r.lsn (hfirst r hr)]
    refine ⟨?_, hrows'.trans hrows, fun name => (hsame' name).trans (hsame name)⟩
    rw [hdirty', hdirty, hnewer, filter_cons]
    split <;> simp

/-- What the analysis of the log leaves. -/
structure Analyzed (log : List LogRecord) (fhs : Files) (rm : RecoveryManager) : Prop where
  run : ∀ fuel, log.length + 1 < fuel → analyze fuel (logBytes log) (start fhs) = some (.ok rm)
  notes : Analysis log rm.toNotes
  dirty : rm.dirtyPageTable = (log.filter (LogRecord.newer fhs)).map LogRecord.lsn
  rows : rows rm.fhs = Recovery.rows fhs
  same : SamePages fhs rm.fhs

theorem analyze_dirty (hvalid : ∀ rec ∈ log, rec.Valid) (hinc : log.Pairwise (·.lsn < ·.lsn))
    (hplaced : ∀ rec ∈ log, rec.Placed fhs) : ∃ rm, Analyzed log fhs rm := by
  obtain ⟨rm, hthrough, hnotes⟩ := @through_ok log (start fhs) hplaced 0
  obtain ⟨hdirty, hrows, hsame⟩ := through_dirty hplaced hinc hthrough
  refine ⟨rm, fun fuel hfuel => ?_, hnotes ▸ analysis_notesOf log, hdirty, hrows, hsame⟩
  rw [analyze, logBytes, Frames.read_frames (by decide) (fun rec hrec => (hvalid rec hrec).framed) _ hfuel, hthrough]

theorem redo_eq {σ ε : Type} {redoRecord : LogRecord → σ → Except ε σ} (hvalid : ∀ rec ∈ log, rec.Valid)
    (hinc : log.Pairwise (·.lsn < ·.lsn)) {notes : Notes} (hanalysis : Analysis log notes) {recs : List LogRecord}
    (hsub : recs ⊆ log) (buffer : List UInt8) (s : σ) :
    redo redoRecord (logBytes log) notes.lsnMapping (recs.map LogRecord.lsn) buffer s =
      recs.foldlM (fun s rec => redoRecord rec s) s := by
  induction recs generalizing buffer s with
  | nil => rfl
  | cons rec recs ih =>
    obtain ⟨hrec, hrecs⟩ := cons_subset.1 hsub
    obtain ⟨pre, post, rfl⟩ := append_of_mem hrec
    have hplace := hanalysis.place pre rec post rfl fun r hr => (pairwise_append.1 hinc).2.2 r hr rec (by simp) |>.ne
    rw [map_cons, redo, hplace, Option.getD_some, foldlM_cons]
    simp only [deserialize_readLog (hvalid rec hrec) buffer]
    cases redoRecord rec s with
    | error e => rfl
    | ok s' => exact ih hrecs _ s'

/-- Redo does the records again that were newer than their pages, each one once and the older ones first, up to the
first one that fails. -/
theorem redo_newer (log : List LogRecord) (hvalid : ∀ rec ∈ log, rec.Valid) (hinc : log.Pairwise (·.lsn < ·.lsn))
    (fhs : Files) (hplaced : ∀ rec ∈ log, rec.Placed fhs) :
    ∃ rm, (∀ fuel, log.length + 1 < fuel → analyze fuel (logBytes log) (start fhs) = some (.ok rm)) ∧
      ∀ {σ ε : Type} (redoRecord : LogRecord → σ → Except ε σ) (buffer : List UInt8) (s : σ),
        redo redoRecord (logBytes log) rm.lsnMapping rm.dirtyPageTable buffer s =
          (log.filter (LogRecord.newer fhs)).foldlM (fun s rec => redoRecord rec s) s := by
  obtain ⟨rm, h⟩ := analyze_dirty hvalid hinc hplaced
  refine ⟨rm, h.run, fun redoRecord buffer s => ?_⟩
  rw [h.dirty]
  exact redo_eq hvalid hinc h.notes filter_sublist.subset buffer s

theorem redo_newer_oneTxn : ∃ rm, analyze 5 (logBytes oneTxn) (start onePage) = some (.ok rm) ∧
    redo redoTable (logBytes oneTxn) rm.lsnMapping rm.dirtyPageTable [] onePage =
      (oneTxn.filter (LogRecord.newer onePage)).foldlM (fun s rec => redoTable rec s) onePage := by
  obtain ⟨rm, hanalyze, hredo⟩ := redo_newer oneTxn oneTxn_valid chained_oneTxn.increasing onePage oneTxn_placed
  exact ⟨rm, hanalyze 5 (by decide), hredo redoTable [] onePage⟩

theorem undo_active (hvalid : ∀ rec ∈ log, rec.Valid) (hchained : Chained log) (hanalysis : Analysis log rm.toNotes)
    {activeTxn : List (Int × Int)} (hactive : Lists rm.activeTxn activeTxn) {σ ε : Type}
    (undoRecord : LogRecord → σ → Except ε σ) (buffer : List UInt8) (s : σ) {fuel : Nat} (hfuel : log.length < fuel) :
    undo undoRecord (logBytes log) rm.lsnMapping fuel buffer (heapOf activeTxn) s =
      some ((log.filter fun rec => (rm.activeTxn rec.tid).isSome).reverse.foldlM (fun s rec => undoRecord rec s) s) := by
  obtain ⟨hdesc, hperm⟩ := heapOf_spec activeTxn
  have hlast : ∀ entry ∈ activeTxn, lastLsn log entry.1 = entry.2 ∧ entry.2 ≠ invalidLsn := fun entry hentry =>
    (hanalysis.activeTxn_eq hchained ((hactive.mem entry.1 entry.2).1 hentry)).imp_left Eq.symm
  have hdue : due (activeTxn.map Prod.fst) log = activeTxn.map Prod.snd := by
    have hmap : (activeTxn.map Prod.fst).map (lastLsn log) = activeTxn.map Prod.snd := by
      rw [map_map]
      exact map_congr_left fun entry hentry => (hlast entry hentry).1
    rw [due, hmap, filter_eq_self]
    intro lsn hlsn
    obtain ⟨entry, hentry, rfl⟩ := mem_map.1 hlsn
    exact decide_eq_true (hlast entry hentry).2
  have hlosers : losers (activeTxn.map Prod.fst) log = (log.filter fun rec => (rm.activeTxn rec.tid).isSome).reverse := by
    refine congrArg reverse (filter_congr fun rec _ => ?_)
    rw [Bool.eq_iff_iff]
    simp [hactive.mem, Option.isSome_iff_exists]
  rw [← hlosers]
  refine undo_due hvalid hchained hanalysis hactive.nodup log [] (append_nil log).symm hdesc (hdue ▸ hperm) ?_ buffer s
  exact (length_reverse.trans_le (length_filter_le _ _)).trans_lt hfuel

/-! ## What recovery leaves -/

/-- The tables as a crash leaves them. `base` is what they had before the log. Each page has the records of the log
up to its LSN, and nobody wrote a row behind a transaction that had not ended. The program does not see to that in
every case: `update_page` may write a page before its log, `abort` sets no page's LSN, and `commit` gives its locks
back before its record is in the log. -/
structure Crashed (log : List LogRecord) (base : Row → Option (List UInt8)) (fhs : Files) : Prop where
  placed : ∀ rec ∈ log, rec.Placed fhs
  leads : ∃ s, Leads LogRecord.write base log s
  pages : ∀ row, Goes (base row) ((log.filter (·.lsn ≤ lsnOf fhs row)).filterMap (change LogRecord.write row)) (rows fhs row)
  strict : ∀ row, log.Pairwise fun rec next => (change LogRecord.write row rec).isSome →
    (change LogRecord.write row next).isSome → Active log rec.tid → Active log next.tid

theorem newer_eq {row : Row} (h : (change LogRecord.write row rec).isSome) :
    rec.newer fhs = !decide (rec.lsn ≤ lsnOf fhs row) := by
  obtain ⟨lsn, tid, prevLsn, body⟩ := rec
  cases body <;> simp_all [change, LogRecord.write, LogRecord.newer, LogBody.place, ← decide_not]

open Classical in
/-- Recovery of tables without indexes: `analyze`, `redo` and `undo` come through, and the tables have what the
transactions did that had ended. The records of one that was aborted are followed by those that took it back. -/
theorem recover_ended (log : List LogRecord) (hvalid : ∀ rec ∈ log, rec.Valid) (hchained : Chained log)
    (base : Row → Option (List UInt8)) (fhs : Files) (hcrash : Crashed log base fhs) :
    ∃ rm, (∀ fuel, log.length + 1 < fuel → analyze fuel (logBytes log) (start fhs) = some (.ok rm)) ∧
      ∀ activeTxn, Lists rm.activeTxn activeTxn → ∀ buffer buffer', ∃ fhs₁ fhs₂,
        redo redoTable (logBytes log) rm.lsnMapping rm.dirtyPageTable buffer rm.fhs = .ok fhs₁ ∧
        (∀ fuel, log.length < fuel →
          undo undoTable (logBytes log) rm.lsnMapping fuel buffer' (heapOf activeTxn) fhs₁ = some (.ok fhs₂)) ∧
        Leads LogRecord.write base (log.filter fun rec => ¬ Active log rec.tid) (rows fhs₂) := by
  obtain ⟨rm, h⟩ := analyze_dirty hvalid hchained.increasing hcrash.placed
  refine ⟨rm, h.run, fun activeTxn hlists buffer buffer' => ?_⟩
  obtain ⟨s, hleads⟩ := hcrash.leads
  -- the rows lack the records that are newer than their pages
  have hredo : Leads LogRecord.write (rows rm.fhs) (log.filter (LogRecord.newer fhs)) s := by
    rw [h.rows]
    refine hleads.redo hcrash.pages (fun row rec _ hrec => newer_eq hrec) fun row => ?_
    exact hchained.increasing.imp fun hlt _ _ hle => decide_eq_true (hlt.le.trans (of_decide_eq_true hle))
  obtain ⟨fhs₁, hfold₁, rfl, hsame₁⟩ := foldlM_leaves redoTable_leaves
    (fun rec hrec => (hcrash.placed rec (mem_filter.1 hrec).1).of_samePages h.same) hredo
  have hactive : ∀ tid, (rm.activeTxn tid).isSome ↔ Active log tid := h.notes.active
  obtain ⟨s₂, hended, hundo⟩ := @Leads.undo _ _ _ _ _ _ _ _ (fun rec => (rm.activeTxn rec.tid).isSome) hleads fun row =>
    (hcrash.strict row).imp fun hs hrec hnext ha => (hactive _).2 (hs hrec hnext ((hactive _).1 ha))
  obtain ⟨fhs₂, hfold₂, rfl, -⟩ := foldlM_leaves undoTable_leaves (fun rec hrec =>
    ((hcrash.placed rec (mem_filter.1 (mem_reverse.1 hrec)).1).of_samePages h.same).of_samePages hsame₁) hundo
  refine ⟨fhs₁, fhs₂, ?_, fun fuel hfuel => ?_, ?_⟩
  · rw [h.dirty]
    exact (redo_eq hvalid hchained.increasing h.notes filter_sublist.subset buffer rm.fhs).trans hfold₁
  · rw [undo_active hvalid hchained h.notes hlists undoTable buffer' fhs₁ hfuel, hfold₂]
  · have hsame : (log.filter fun rec => ¬ Active log rec.tid) = log.filter fun rec => !(rm.activeTxn rec.tid).isSome := by
      refine filter_congr fun rec _ => ?_
      rw [Bool.eq_iff_iff]
      simp [← hactive]
    rw [hsame]
    exact hended

theorem crashed_oneTxn : Crashed oneTxn (fun _ => none) onePage where
  placed := oneTxn_placed
  leads := by
    refine ⟨update (fun _ => none) ([116], ⟨1, 0⟩) (some [2]), fun row => ?_⟩
    by_cases hrow : row = ([116], ⟨1, 0⟩)
    · subst hrow
      exact ⟨rfl, rfl, rfl⟩
    · simp [oneTxn, change, LogRecord.write, cstr, Goes, hrow, eq_comm]
  pages row := by
    have hlsn : lsnOf onePage row = -1 := by
      by_cases hname : row.1 = [116] <;> simp [lsnOf, onePage, hname, TableFile.createNewPage, invalidLsn]
    have hrow : rows onePage row = none := by
      by_cases hname : row.1 = [116]
      · simp [rows, onePage, hname, TableFile.createNewPage, RmFileHandle.live, RmFileHandle.createNewPageHandle,
          RmFileHandle.createFile]
      · simp [rows, onePage, hname]
    simp [hlsn, hrow, oneTxn, Goes]
  strict row := (by decide : oneTxn.Pairwise fun rec next => rec.tid = next.tid).imp fun htid _ _ => htid ▸ id

theorem recover_ended_oneTxn : ∃ rm, analyze 5 (logBytes oneTxn) (start onePage) = some (.ok rm) ∧
    ∀ activeTxn, Lists rm.activeTxn activeTxn → ∃ fhs₁ fhs₂,
      redo redoTable (logBytes oneTxn) rm.lsnMapping rm.dirtyPageTable [] rm.fhs = .ok fhs₁ ∧
      undo undoTable (logBytes oneTxn) rm.lsnMapping 4 [] (heapOf activeTxn) fhs₁ = some (.ok fhs₂) ∧
      rows fhs₂ = fun _ => none := by
  obtain ⟨rm, hanalyze, hrecover⟩ := recover_ended oneTxn oneTxn_valid chained_oneTxn _ onePage crashed_oneTxn
  refine ⟨rm, hanalyze 5 (by decide), fun activeTxn hlists => ?_⟩
  obtain ⟨fhs₁, fhs₂, hredo, hundo, hleads⟩ := hrecover activeTxn hlists [] []
  refine ⟨fhs₁, fhs₂, hredo, hundo 4 (by decide), funext fun row => ?_⟩
  have hactive : Active oneTxn 7 := ⟨oneTxn.take 2, _, [], rfl, rfl, by simp, by simp [LogRecord.Ends]⟩
  rw [filter_eq_nil_iff.2 fun rec hrec => by fin_cases hrec <;> simp [hactive]] at hleads
  exact (hleads row).symm

end RecoveryManager

end Rmdb.Recovery
