/-
The analysis of the log.

`RecoveryManager::analyze` reads the log chunk by chunk and goes through the
records: it notes where each one is, which transactions have not ended, and
which records are newer than their pages. A page that the file header does not
know is created, but only one.
-/
import Rmdb.Lib.Frames
import Rmdb.Record.Heap
import Rmdb.Recovery.LogRecord

namespace Rmdb.Recovery

open Function List Record Frames

/-! ## The pass over the log -/

structure TableFile where
  fh : RmFileHandle
  pageLsn : Int → Int

/-- What gets out of `analyze`, `redo` or `undo`: `std::out_of_range` of `fhs_.at`, or an `RMDBError`. -/
inductive Escape where
  | outOfRange (tableName : List UInt8)
  | rmdb (e : RMDBError)
  deriving DecidableEq, Repr

/-- What `analyze` takes from the headers of the records. -/
structure Notes where
  activeTxn : Int → Option Int := fun _ => none
  lsnMapping : Int → Option Nat := fun _ => none
  maxLsn : Int := invalidLsn
  maxTxnId : Int := invalidTxnId

structure RecoveryManager extends Notes where
  fhs : List UInt8 → Option TableFile
  dirtyPageTable : List Int := []

def cstr (name : List UInt8) : List UInt8 := name.takeWhile (· ≠ 0)

namespace TableFile

def createNewPage (f : TableFile) : TableFile where
  fh := f.fh.createNewPageHandle.2
  pageLsn := update f.pageLsn f.fh.numPages invalidLsn

def fetchOrCreate (f : TableFile) (pageNo : Int) : TableFile :=
  match f.fh.fetchPageHandle pageNo with
  | .ok _ => f
  | .error _ => f.createNewPage

def setPageLsn (f : TableFile) (pageNo lsn : Int) : TableFile :=
    { f with pageLsn := update f.pageLsn pageNo lsn }

end TableFile

def LogBody.place : LogBody → Option (Rid × List UInt8)
  | .begin | .commit | .abort => none
  | .insert _ rid tableName | .delete _ rid tableName | .update _ _ rid tableName => some (rid, tableName)

def Notes.note (notes : Notes) (rec : LogRecord) (offset : Nat) : Notes where
  activeTxn :=
    match rec.body with
    | .begin => emplace notes.activeTxn rec.tid rec.lsn
    | .commit | .abort => update notes.activeTxn rec.tid none
    | _ => update notes.activeTxn rec.tid (some rec.lsn)
  lsnMapping := emplace notes.lsnMapping rec.lsn offset
  maxLsn := max notes.maxLsn rec.lsn
  maxTxnId := max notes.maxTxnId rec.tid

namespace RecoveryManager

def analyzePage (rm : RecoveryManager) (lsn : Int) (rid : Rid) (tableName : List UInt8) :
    Except Escape RecoveryManager :=
  match rm.fhs (cstr tableName) with
  | none => .error (.outOfRange (cstr tableName))
  | some f =>
    let f := f.fetchOrCreate rid.pageNo
    match f.fh.fetchPageHandle rid.pageNo with
    | .error e => .error (.rmdb e)
    | .ok _ =>
      if f.pageLsn rid.pageNo < lsn then
        .ok { rm with
          fhs := update rm.fhs (cstr tableName) (some (f.setPageLsn rid.pageNo lsn))
          dirtyPageTable := rm.dirtyPageTable ++ [lsn] }
      else .ok { rm with fhs := update rm.fhs (cstr tableName) (some f) }

def visit (rec : LogRecord) (offset : Nat) (rm : RecoveryManager) : Except Escape RecoveryManager :=
  let rm := { rm with toNotes := rm.note rec offset }
  match rec.body.place with
  | none => .ok rm
  | some (rid, tableName) => rm.analyzePage rec.lsn rid tableName

/-- The two loops of `analyze`. A record of an unknown type is not stepped over. -/
def logReader : Reader RecoveryManager Escape where
  header := logHeaderSize
  cap := logBufferSize
  len := logSize
  visit src offset rm :=
    match LogRecord.deserialize src with
    | none => .ok (0, rm)
    | some rec => (visit rec offset rm).map fun rm => (logSize src, rm)

/-- `RecoveryManager::analyze` on a log file; `none` when it takes more than `fuel` rounds. -/
def analyze (fuel : Nat) (log : List UInt8) (rm : RecoveryManager) : Option (Except Escape RecoveryManager) :=
  logReader.read log fuel 0 rm

/-- `set_global_lsn(max_lsn + 1)` and `set_next_txn_id(max_txn_id + 1)` -/
def globalLsn (rm : RecoveryManager) : Int := rm.maxLsn + 1
def nextTxnId (rm : RecoveryManager) : Int := rm.maxTxnId + 1

end RecoveryManager

def logBytes (log : List LogRecord) : List UInt8 := log.flatMap LogRecord.serialize

variable {rec : LogRecord}

theorem LogRecord.Valid.framed (h : rec.Valid) :
    Framed RecoveryManager.logReader LogRecord.serialize RecoveryManager.visit rec where
  pos := by decide
  header := by
    rw [rec.length_serialize, logTotLen]
    exact Nat.le_add_right _ _
  cap := by
    rw [rec.length_serialize]
    exact h.fits
  len rest := by
    have htake : rec.serialize.take logHeaderSize = rec.header := take_left' rec.length_header
    change logSize (rec.serialize.take logHeaderSize ++ rest) = _
    rw [htake, logSize_header h.typed, rec.length_serialize]
  visit rest offset rm := by
    simp only [RecoveryManager.logReader, deserialize_serialize h.typed, logSize_serialize h.typed,
      rec.length_serialize]

/-! ## What the pass leaves -/

def LogRecord.Placed (fhs : List UInt8 → Option TableFile) (rec : LogRecord) : Prop :=
  ∀ rid tableName, rec.body.place = some (rid, tableName) →
    ∃ f, fhs (cstr tableName) = some f ∧ 0 ≤ rid.pageNo ∧ rid.pageNo < f.fh.numPages

def notesOf : Nat → Notes → List LogRecord → Notes
  | _, notes, [] => notes
  | offset, notes, rec :: log => notesOf (offset + rec.logTotLen) (notes.note rec offset) log

def SamePages (fhs fhs' : List UInt8 → Option TableFile) : Prop :=
  ∀ name, (fhs' name).map (fun f => f.fh.numPages) = (fhs name).map fun f => f.fh.numPages

theorem LogRecord.Placed.of_samePages {fhs fhs' : List UInt8 → Option TableFile} (h : rec.Placed fhs)
    (hsame : SamePages fhs fhs') : rec.Placed fhs' := by
  intro rid tableName hplace
  obtain ⟨f, hf, hpos, hlt⟩ := h rid tableName hplace
  have hname := hsame (cstr tableName)
  rw [hf, Option.map_some, Option.map_eq_some_iff] at hname
  obtain ⟨f', hf', hpages⟩ := hname
  exact ⟨f', hf', hpos, by omega⟩

theorem RecoveryManager.analyzePage_ok {rm : RecoveryManager} {rid : Rid} {tableName : List UInt8} {f : TableFile}
    (hf : rm.fhs (cstr tableName) = some f) (hpos : 0 ≤ rid.pageNo) (hlt : rid.pageNo < f.fh.numPages) (lsn : Int) :
    ∃ rm', rm.analyzePage lsn rid tableName = .ok rm' ∧ rm'.toNotes = rm.toNotes ∧ SamePages rm.fhs rm'.fhs := by
  have hfetch : f.fh.fetchPageHandle rid.pageNo = .ok (f.fh.pages rid.pageNo) := by
    rw [RmFileHandle.fetchPageHandle, if_neg (by omega)]
  have hsame : ∀ g : TableFile, g.fh = f.fh → SamePages rm.fhs (update rm.fhs (cstr tableName) (some g)) := by
    intro g hg name
    by_cases hname : name = cstr tableName
    · rw [hname, update_self, hf, Option.map_some, Option.map_some, hg]
    · rw [update_of_ne hname]
  unfold analyzePage
  simp only [hf, TableFile.fetchOrCreate, hfetch]
  split
  · exact ⟨_, rfl, rfl, hsame _ rfl⟩
  · exact ⟨_, rfl, rfl, hsame _ rfl⟩

theorem RecoveryManager.visit_ok {rm : RecoveryManager} (h : rec.Placed rm.fhs) (offset : Nat) :
    ∃ rm', visit rec offset rm = .ok rm' ∧ rm'.toNotes = rm.note rec offset ∧ SamePages rm.fhs rm'.fhs := by
  unfold visit
  split
  · exact ⟨_, rfl, rfl, fun _ => rfl⟩
  · next rid tableName hplace =>
    obtain ⟨f, hf, hpos, hlt⟩ := h rid tableName hplace
    exact @analyzePage_ok { rm with toNotes := rm.note rec offset } rid tableName f hf hpos hlt rec.lsn

variable {log : List LogRecord}

theorem through_ok {rm : RecoveryManager} (h : ∀ rec ∈ log, rec.Placed rm.fhs) (offset : Nat) :
    ∃ rm', through LogRecord.serialize RecoveryManager.visit offset rm log = .ok rm' ∧
      rm'.toNotes = notesOf offset rm.toNotes log := by
  induction log generalizing rm offset with
  | nil => exact ⟨rm, rfl, rfl⟩
  | cons rec log ih =>
    obtain ⟨hrec, hlog⟩ := forall_mem_cons.1 h
    obtain ⟨rm₁, hvisit, hnotes, hsame⟩ := RecoveryManager.visit_ok hrec offset
    obtain ⟨rm₂, hthrough, hnotes'⟩ := ih (fun r hr => (hlog r hr).of_samePages hsame) (offset + rec.logTotLen)
    refine ⟨rm₂, ?_, by rw [hnotes', hnotes, notesOf]⟩
    rw [through, hvisit, rec.length_serialize]
    exact hthrough

def LogRecord.Ends (rec : LogRecord) : Prop := rec.body = .commit ∨ rec.body = .abort

def Active (log : List LogRecord) (tid : Int) : Prop :=
  ∃ pre rec post, log = pre ++ rec :: post ∧ rec.tid = tid ∧ (∀ r ∈ post, r.tid ≠ tid) ∧ ¬ rec.Ends

/-- The notes are those of the log. A transaction whose last record is a `BEGIN`,
though it was active before, keeps the LSN it had: `last` leaves it out. -/
structure Analysis (log : List LogRecord) (notes : Notes) : Prop where
  place : ∀ pre rec post, log = pre ++ rec :: post → (∀ r ∈ pre, r.lsn ≠ rec.lsn) →
    notes.lsnMapping rec.lsn = some (logBytes pre).length
  noPlace : ∀ lsn, (∀ r ∈ log, r.lsn ≠ lsn) → notes.lsnMapping lsn = none
  active : ∀ tid, (notes.activeTxn tid).isSome ↔ Active log tid
  last : ∀ pre rec post, log = pre ++ rec :: post → (∀ r ∈ post, r.tid ≠ rec.tid) → ¬ rec.Ends →
    (rec.body = .begin → ¬ Active pre rec.tid) → notes.activeTxn rec.tid = some rec.lsn
  maxLsn : IsGreatest {lsn | lsn = invalidLsn ∨ ∃ r ∈ log, r.lsn = lsn} notes.maxLsn
  maxTxnId : IsGreatest {tid | tid = invalidTxnId ∨ ∃ r ∈ log, r.tid = tid} notes.maxTxnId

theorem notesOf_append (pre post : List LogRecord) (offset : Nat) (notes : Notes) :
    notesOf offset notes (pre ++ post) = notesOf (offset + (logBytes pre).length) (notesOf offset notes pre) post := by
  induction pre generalizing offset notes with
  | nil => rfl
  | cons rec pre ih =>
    rw [cons_append, notesOf, notesOf, ih, logBytes, logBytes, flatMap_cons, length_append,
      rec.length_serialize,
      Nat.add_assoc]

section

variable {κ α : Type} [DecidableEq κ] {m : κ → Option α} {k k' : κ} {v v' : α}

theorem emplace_of_ne (h : k' ≠ k) : emplace m k v k' = m k' := by
  unfold emplace
  split
  · rfl
  · rw [update_of_ne h]

theorem emplace_of_some (h : m k' = some v') : emplace m k v k' = some v' := by
  by_cases hk : k' = k
  · subst hk
    rw [emplace, if_pos (by rw [h]; rfl), h]
  · rw [emplace_of_ne hk, h]

theorem emplace_of_none (h : m k = none) : emplace m k v k = some v := by
  rw [emplace, if_neg (by simp [h]), update_self]

end

theorem activeTxn_notesOf {tid : Int} (h : ∀ r ∈ log, r.tid ≠ tid) (offset : Nat) (notes : Notes) :
    (notesOf offset notes log).activeTxn tid = notes.activeTxn tid := by
  induction log generalizing offset notes with
  | nil => rfl
  | cons rec log ih =>
    obtain ⟨hrec, hlog⟩ := forall_mem_cons.1 h
    rw [notesOf, ih hlog, Notes.note]
    have hne : tid ≠ rec.tid := hrec.symm
    split
    · exact emplace_of_ne hne
    · exact update_of_ne hne ..
    · exact update_of_ne hne ..
    · exact update_of_ne hne ..

theorem lsnMapping_notesOf {lsn : Int} (h : ∀ r ∈ log, r.lsn ≠ lsn) (offset : Nat) (notes : Notes) :
    (notesOf offset notes log).lsnMapping lsn = notes.lsnMapping lsn := by
  induction log generalizing offset notes with
  | nil => rfl
  | cons rec log ih =>
    obtain ⟨hrec, hlog⟩ := forall_mem_cons.1 h
    rw [notesOf, ih hlog, Notes.note]
    exact emplace_of_ne hrec.symm

theorem lsnMapping_notesOf_some {lsn : Int} {place : Nat} (offset : Nat) {notes : Notes}
    (h : notes.lsnMapping lsn = some place) : (notesOf offset notes log).lsnMapping lsn = some place := by
  induction log generalizing offset notes with
  | nil => exact h
  | cons rec log ih => exact ih _ (emplace_of_some h)

theorem isGreatest_foldl_max {α : Type} (f : α → Int) (as : List α) {S : Set Int} {n : Int} (h : IsGreatest S n) :
    IsGreatest (S ∪ {m | ∃ a ∈ as, f a = m}) (as.foldl (fun n a => max n (f a)) n) := by
  induction as generalizing S n with
  | nil => simpa using h
  | cons a as ih =>
    have hset : S ∪ {m | ∃ b ∈ a :: as, f b = m} = insert (f a) S ∪ {m | ∃ b ∈ as, f b = m} := by
      ext m
      simp [eq_comm, or_assoc, or_left_comm]
    have hmax : IsGreatest (insert (f a) S) (max n (f a)) := max_comm n (f a) ▸ h.insert (f a)
    rw [hset]
    exact ih hmax

theorem maxLsn_notesOf (log : List LogRecord) (offset : Nat) (notes : Notes) :
    (notesOf offset notes log).maxLsn = log.foldl (fun n rec => max n rec.lsn) notes.maxLsn := by
  induction log generalizing offset notes with
  | nil => rfl
  | cons rec log ih => exact ih _ _

theorem maxTxnId_notesOf (log : List LogRecord) (offset : Nat) (notes : Notes) :
    (notesOf offset notes log).maxTxnId = log.foldl (fun n rec => max n rec.tid) notes.maxTxnId := by
  induction log generalizing offset notes with
  | nil => rfl
  | cons rec log ih => exact ih _ _

theorem exists_last (log : List LogRecord) (tid : Int) : (∀ r ∈ log, r.tid ≠ tid) ∨
    ∃ pre rec post, log = pre ++ rec :: post ∧ rec.tid = tid ∧ ∀ r ∈ post, r.tid ≠ tid := by
  induction log with
  | nil => exact .inl (by simp)
  | cons rec log ih =>
    rcases ih with hnone | ⟨pre, r, post, hlog, hr, hpost⟩
    · by_cases hrec : rec.tid = tid
      · exact .inr ⟨[], rec, log, rfl, hrec, hnone⟩
      · exact .inl (forall_mem_cons.2 ⟨hrec, hnone⟩)
    · exact .inr ⟨rec :: pre, r, post, by rw [hlog, cons_append], hr, hpost⟩

variable {post pre : List LogRecord}

theorem activeTxn_last (hpost : ∀ r ∈ post, r.tid ≠ rec.tid) (offset : Nat)
    (notes : Notes) : (notesOf offset notes (pre ++ rec :: post)).activeTxn rec.tid =
      match rec.body with
      | .begin => some (((notesOf offset notes pre).activeTxn rec.tid).getD rec.lsn)
      | .commit | .abort => none
      | _ => some rec.lsn := by
  rw [notesOf_append, notesOf, activeTxn_notesOf hpost, Notes.note]
  split
  · cases hactive : (notesOf offset notes pre).activeTxn rec.tid with
    | none => exact emplace_of_none hactive
    | some lsn => exact emplace_of_some hactive
  · exact update_self ..
  · exact update_self ..
  · exact update_self ..

theorem activeTxn_last_isSome (hpost : ∀ r ∈ post, r.tid ≠ rec.tid) (offset : Nat) (notes : Notes) :
    ((notesOf offset notes (pre ++ rec :: post)).activeTxn rec.tid).isSome ↔ ¬ rec.Ends := by
  rw [activeTxn_last hpost, LogRecord.Ends]
  cases rec.body <;> simp

theorem isSome_activeTxn_iff (log : List LogRecord) (offset : Nat) (tid : Int) :
    ((notesOf offset {} log).activeTxn tid).isSome ↔ Active log tid := by
  constructor
  · intro hsome
    rcases exists_last log tid with hnone | ⟨pre, rec, post, rfl, rfl, hpost⟩
    · rw [activeTxn_notesOf hnone] at hsome
      simp at hsome
    · exact ⟨pre, rec, post, rfl, rfl, hpost, (activeTxn_last_isSome hpost offset {}).1 hsome⟩
  · intro ⟨pre, rec, post, hlog, htid, hpost, hends⟩
    subst hlog htid
    exact (activeTxn_last_isSome hpost offset {}).2 hends

theorem analysis_notesOf (log : List LogRecord) : Analysis log (notesOf 0 {} log) where
  place pre rec post hlog hpre := by
    subst hlog
    rw [notesOf_append, notesOf, Nat.zero_add]
    refine lsnMapping_notesOf_some _ (emplace_of_none ?_)
    rw [lsnMapping_notesOf hpre]
  noPlace lsn hlog := lsnMapping_notesOf hlog 0 {}
  active := isSome_activeTxn_iff log 0
  last pre rec post hlog hpost hends hbegin := by
    subst hlog
    rw [activeTxn_last hpost]
    have hpre := isSome_activeTxn_iff pre 0 rec.tid
    revert hbegin hends
    rw [LogRecord.Ends]
    cases rec.body with
    | begin =>
      intro _ hbegin
      have hnone : (notesOf 0 {} pre).activeTxn rec.tid = none := by
        rw [← Option.not_isSome_iff_eq_none, hpre]
        exact hbegin rfl
      rw [hnone]
      rfl
    | commit => simp
    | abort => simp
    | insert value rid tableName => exact fun _ _ => rfl
    | delete value rid tableName => exact fun _ _ => rfl
    | update oldValue updateValue rid tableName => exact fun _ _ => rfl
  maxLsn := by
    rw [maxLsn_notesOf]
    exact isGreatest_foldl_max _ log isGreatest_singleton
  maxTxnId := by
    rw [maxTxnId_notesOf]
    exact isGreatest_foldl_max _ log isGreatest_singleton

/-! ## Every log, and a log that is cut -/

namespace RecoveryManager

def start (fhs : List UInt8 → Option TableFile) : RecoveryManager := { fhs }

def oneTxn : List LogRecord :=
  [⟨0, 7, -1, .begin⟩, ⟨1, 7, 0, .insert [1] ⟨1, 0⟩ [116]⟩, ⟨2, 7, 1, .update [1] [2] ⟨1, 0⟩ [116]⟩]

def onePage : List UInt8 → Option TableFile :=
  update (fun _ => none) [116] (some (TableFile.createNewPage ⟨.createFile 1, fun _ => invalidLsn⟩))

theorem oneTxn_valid : ∀ rec ∈ oneTxn, rec.Valid := by
  intro rec hrec
  fin_cases hrec <;> exact ⟨by decide, by decide, by decide, by decide, by decide⟩

theorem oneTxn_placed : ∀ rec ∈ oneTxn, rec.Placed onePage := by
  intro rec hrec rid tableName hplace
  fin_cases hrec <;> cases hplace <;> exact ⟨_, rfl, by decide, by decide⟩

/-- Recovery survives the end of the log being cut off only if it is cut off
between two records: `torn` is the front of a record that was being written. -/
theorem analyze_torn_iff (log : List LogRecord) (hvalid : ∀ rec ∈ log, rec.Valid) (fhs : List UInt8 → Option TableFile)
    (hplaced : ∀ rec ∈ log, rec.Placed fhs) (rec : LogRecord) (hrec : rec.Valid) (torn : List UInt8)
    (hfront : torn <+: rec.serialize) (hproper : torn ≠ rec.serialize) :
    (∃ fuel rm, analyze fuel (logBytes log ++ torn) (start fhs) = some (.ok rm) ∧
      through LogRecord.serialize visit 0 (start fhs) log = .ok rm) ↔ torn = [] := by
  obtain ⟨rm, hthrough, -⟩ := @through_ok log (start fhs) hplaced 0
  have hframed : ∀ rec ∈ log, Framed logReader LogRecord.serialize visit rec := fun rec hrec => (hvalid rec hrec).framed
  constructor
  · intro ⟨fuel, rm', hrun, _⟩
    by_contra hne
    have hlt : torn.length < rec.serialize.length :=
      lt_of_le_of_ne hfront.length_le fun hlen => hproper (hfront.eq_of_length hlen)
    have hnever := read_torn (by decide) hframed (.inr ⟨rec, hrec.framed, hfront, hlt⟩) hne hthrough fuel
    rw [analyze, logBytes, hnever] at hrun
    cases hrun
  · intro hnil
    refine ⟨log.length + 2, rm, ?_, hthrough⟩
    rw [hnil, append_nil, analyze, logBytes, read_frames (by decide) hframed _ (by omega), hthrough]

theorem analyze_whole_log : ∃ fuel rm, analyze fuel (logBytes oneTxn ++ []) (start onePage) = some (.ok rm) ∧
    through LogRecord.serialize visit 0 (start onePage) oneTxn = .ok rm :=
  (analyze_torn_iff oneTxn oneTxn_valid onePage oneTxn_placed ⟨3, 7, 2, .commit⟩
    ⟨by decide, by decide, by decide, by decide, by decide⟩ [] nil_prefix (by decide)).2 rfl

/-- Ten bytes of a `BEGIN`: `analyze` reads them again and again. -/
theorem analyze_torn_begin :
    ¬ ∃ fuel r, analyze fuel ((LogRecord.mk 0 0 (-1) .begin).serialize.take 10) (start fun _ => none) = some r := by
  intro ⟨fuel, r, hrun⟩
  have hvalid : (LogRecord.mk 0 0 (-1) .begin).Valid := ⟨by decide, by decide, by decide, by decide, by decide⟩
  have hshort : Short logReader LogRecord.serialize visit ((LogRecord.mk 0 0 (-1) .begin).serialize.take 10) :=
    .inr ⟨_, hvalid.framed, take_prefix 10 _, by decide⟩
  rw [analyze, read_stuck (by decide) hshort (by decide) (drop_zero)] at hrun
  cases hrun

end RecoveryManager

end Rmdb.Recovery
