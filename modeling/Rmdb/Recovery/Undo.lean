/-
The undo pass.

`RecoveryManager::undo` takes back what the transactions did that had not ended.
A heap has the LSN of the last record of each one; the largest is taken out, its
record is read and taken back, and the LSN of the record before it of the same
transaction goes in. What taking a record back does is a parameter here.
-/
import Rmdb.Recovery.LogManager

namespace Rmdb.Recovery

open Function List Record

/-! ## The loop -/

/-- `read_log(buffer, LOG_BUFFER_SIZE, offset)`: the buffer keeps what is not read over. -/
def readLog (buffer log : List UInt8) (offset : Nat) : List UInt8 :=
  (log.drop offset).take logBufferSize ++ buffer.drop ((log.drop offset).take logBufferSize).length

/-- `lsn_heap.emplace`: `std::priority_queue` has the largest LSN on top. -/
def pushLsn (lsn : Int) (lsnHeap : List Int) : List Int := lsnHeap.orderedInsert (· ≥ ·) lsn

/-- The heap with the LSNs of `active_txn_`, in whatever order the map has its entries. -/
def heapOf (activeTxn : List (Int × Int)) : List Int :=
  activeTxn.foldl (fun lsnHeap entry => pushLsn entry.2 lsnHeap) []

/-- The loop of `RecoveryManager::undo`; `none` when it takes more than `fuel`
rounds. A record of an unknown type is tried again. -/
def undo {σ ε : Type} (undoRecord : LogRecord → σ → Except ε σ) (log : List UInt8) (lsnMapping : Int → Option Nat) :
    Nat → List UInt8 → List Int → σ → Option (Except ε σ)
  | 0, _, _, _ => none
  | _ + 1, _, [], s => some (.ok s)
  | fuel + 1, buffer, lsn :: lsnHeap, s =>
    let buffer := readLog buffer log ((lsnMapping lsn).getD 0)
    match LogRecord.deserialize buffer with
    | none => undo undoRecord log lsnMapping fuel buffer (pushLsn lsn lsnHeap) s
    | some rec =>
      match undoRecord rec s with
      | .error e => some (.error e)
      | .ok s =>
        let lsnHeap := if rec.prevLsn ≠ invalidLsn then pushLsn rec.prevLsn lsnHeap else lsnHeap
        undo undoRecord log lsnMapping fuel buffer lsnHeap s

def onTable (fhs : List UInt8 → Option TableFile) (tableName : List UInt8)
    (op : RmFileHandle → Except RMDBError RmFileHandle) : Except Escape (List UInt8 → Option TableFile) :=
  match fhs (cstr tableName) with
  | none => .error (.outOfRange (cstr tableName))
  | some f =>
    match op f.fh with
    | .error e => .error (.rmdb e)
    | .ok fh => .ok (update fhs (cstr tableName) (some { f with fh }))

/-- What `undo` does to the file of a table that has no indexes. -/
def undoTable (rec : LogRecord) (fhs : List UInt8 → Option TableFile) : Except Escape (List UInt8 → Option TableFile) :=
  match rec.body with
  | .begin | .commit | .abort => .ok fhs
  | .insert _ rid tableName => onTable fhs tableName fun fh => fh.deleteRecord rid
  | .delete value rid tableName => onTable fhs tableName fun fh => fh.insertRecordAt rid value
  | .update oldValue _ rid tableName => onTable fhs tableName fun fh => fh.updateRecord rid oldValue

/-! ## Logs of transactions -/

def lastLsn (log : List LogRecord) (tid : Int) : Int :=
  log.foldl (fun lsn rec => if rec.tid = tid then rec.lsn else lsn) invalidLsn

/-- A log as transactions write it: a `BEGIN` is the first record of its
transaction, every record has the LSN of the one before it of its transaction,
and none of them is missing. -/
structure Chained (log : List LogRecord) : Prop where
  increasing : log.Pairwise (·.lsn < ·.lsn)
  nonneg : ∀ rec ∈ log, 0 ≤ rec.lsn
  chain : ∀ pre rec post, log = pre ++ rec :: post → rec.prevLsn = lastLsn pre rec.tid
  begins : ∀ pre rec post, log = pre ++ rec :: post → rec.body = .begin → ∀ r ∈ pre, r.tid ≠ rec.tid

theorem lastLsn_concat (log : List LogRecord) (rec : LogRecord) (tid : Int) :
    lastLsn (log ++ [rec]) tid = if rec.tid = tid then rec.lsn else lastLsn log tid := by
  rw [lastLsn, foldl_concat]
  rfl

theorem lastLsn_cases (log : List LogRecord) (tid : Int) :
    lastLsn log tid = invalidLsn ∨ ∃ rec ∈ log, rec.lsn = lastLsn log tid := by
  induction log using List.reverseRecOn with
  | nil => exact .inl rfl
  | append_singleton log rec ih =>
    rw [lastLsn_concat]
    split
    · exact .inr ⟨rec, by simp, rfl⟩
    · rcases ih with hnone | ⟨r, hr, hlsn⟩
      · exact .inl hnone
      · exact .inr ⟨r, by simp [hr], hlsn⟩

variable {pre : List LogRecord} {rec : LogRecord} {tids : List Int} {lsn : Int}

variable {post : List LogRecord}

theorem lastLsn_of_last (hpost : ∀ r ∈ post, r.tid ≠ rec.tid) :
    lastLsn (pre ++ rec :: post) rec.tid = rec.lsn := by
  induction post using List.reverseRecOn with
  | nil => rw [lastLsn_concat, if_pos rfl]
  | append_singleton post r ih =>
    rw [← cons_append, ← append_assoc, lastLsn_concat, if_neg (hpost r (by simp))]
    exact ih fun r hr => hpost r (by simp [hr])

/-- The records that some transactions put into the log, one after another, from
an LSN on: `begin`, `commit`, `abort` and the executors take `prev_lsn_` from the
transaction and leave the LSN of the record there. -/
def txnRecords : Int → (Int → Int) → List (Int × LogBody) → List LogRecord
  | _, _, [] => []
  | lsn, prevLsn, (tid, body) :: es =>
    ⟨lsn, tid, prevLsn tid, body⟩ :: txnRecords (lsn + 1) (update prevLsn tid lsn) es

theorem Chained.concat {log : List LogRecord} (h : Chained log) (hlsn : ∀ r ∈ log, r.lsn < rec.lsn)
    (hpos : 0 ≤ rec.lsn) (hprev : rec.prevLsn = lastLsn log rec.tid)
    (hbegin : rec.body = .begin → ∀ r ∈ log, r.tid ≠ rec.tid) : Chained (log ++ [rec]) := by
  -- a record of the longer log is one of the log, or the new one
  have hsplit : ∀ pre r post, log ++ [rec] = pre ++ r :: post →
      (pre = log ∧ r = rec) ∨ ∃ post', log = pre ++ r :: post' := by
    intro pre r post heq
    rcases eq_nil_or_concat post with rfl | ⟨post', last, rfl⟩
    · obtain ⟨hlog, hrec⟩ := append_inj' heq rfl
      exact .inl ⟨hlog.symm, (List.cons.inj hrec).1.symm⟩
    · have heq' : log ++ [rec] = (pre ++ r :: post') ++ [last] := by
        rw [heq, concat_eq_append, append_assoc, cons_append]
      exact .inr ⟨post', (append_inj' heq' rfl).1⟩
  constructor
  · rw [pairwise_append]
    exact ⟨h.increasing, pairwise_singleton _ _, fun r hr r' hr' => mem_singleton.1 hr' ▸ hlsn r hr⟩
  · intro r hr
    rcases mem_append.1 hr with hr | hr
    · exact h.nonneg r hr
    · exact mem_singleton.1 hr ▸ hpos
  · intro pre r post heq
    rcases hsplit pre r post heq with ⟨rfl, rfl⟩ | ⟨post', hlog⟩
    · exact hprev
    · exact h.chain pre r post' hlog
  · intro pre r post heq
    rcases hsplit pre r post heq with ⟨rfl, rfl⟩ | ⟨post', hlog⟩
    · exact hbegin
    · exact h.begins pre r post' hlog

variable {es : List (Int × LogBody)}

theorem Chained.append_txnRecords :
    ∀ {log : List LogRecord} {lsn : Int} {prevLsn : Int → Int},
    Chained log → (∀ r ∈ log, r.lsn < lsn) → 0 ≤ lsn → (∀ tid, prevLsn tid = lastLsn log tid) →
    (∀ pre tid post, es = pre ++ (tid, .begin) :: post → (∀ r ∈ log, r.tid ≠ tid) ∧ ∀ e ∈ pre, e.1 ≠ tid) →
    Chained (log ++ txnRecords lsn prevLsn es) := by
  induction es with
  | nil =>
    intro log lsn prevLsn h _ _ _ _
    rwa [txnRecords, append_nil]
  | cons e es ih =>
    intro log lsn prevLsn h hlsn hpos hprev hbegin
    obtain ⟨tid, body⟩ := e
    rw [txnRecords, append_cons]
    refine ih (h.concat hlsn hpos (hprev tid) ?_) ?_ (by omega) ?_ ?_
    · intro (hbody : body = .begin)
      exact (hbegin [] tid es (by rw [hbody]; rfl)).1
    · intro r hr
      rcases mem_append.1 hr with hr | hr
      · have := hlsn r hr
        omega
      · rw [mem_singleton.1 hr]
        exact lt_add_one lsn
    · intro t
      rw [lastLsn_concat]
      by_cases ht : tid = t
      · rw [if_pos ht, ← ht, update_self]
      · rw [if_neg ht, update_of_ne (Ne.symm ht), hprev]
    · intro pre t post hes
      obtain ⟨hlog, hpre⟩ := hbegin ((tid, body) :: pre) t post (by rw [hes, cons_append])
      obtain ⟨hhead, htail⟩ := forall_mem_cons.1 hpre
      refine ⟨fun r hr => ?_, htail⟩
      rcases mem_append.1 hr with hr | hr
      · exact hlog r hr
      · exact mem_singleton.1 hr ▸ hhead

/-- Transactions that begin with `BEGIN`, and only then, write such a log. -/
theorem chained_txnRecords (hbegin : ∀ pre tid post, es = pre ++ (tid, .begin) :: post → ∀ e ∈ pre, e.1 ≠ tid) :
    Chained (txnRecords 0 (fun _ => invalidLsn) es) := by
  have hnil : Chained [] := ⟨.nil, by simp, by simp, by simp⟩
  refine hnil.append_txnRecords (by simp) le_rfl (fun _ => rfl) fun pre tid post hes => ?_
  exact ⟨by simp, hbegin pre tid post hes⟩

/-! ## What is left to do -/

def due (tids : List Int) (pre : List LogRecord) : List Int :=
  (tids.map (lastLsn pre)).filter (· ≠ invalidLsn)

theorem due_concat_of_notMem (h : rec.tid ∉ tids) (pre : List LogRecord) :
    due tids (pre ++ [rec]) = due tids pre := by
  have hmap : tids.map (lastLsn (pre ++ [rec])) = tids.map (lastLsn pre) := by
    refine map_congr_left fun tid htid => ?_
    rw [lastLsn_concat, if_neg]
    intro heq
    exact h (heq ▸ htid)
  rw [due, hmap, due]

theorem due_perm {tid : Int} (h : tid ∈ tids) (pre : List LogRecord) :
    (due tids pre).Perm (due [tid] pre ++ due (tids.erase tid) pre) := by
  have hperm : (tids.map (lastLsn pre)).Perm ((tid :: tids.erase tid).map (lastLsn pre)) :=
    (perm_cons_erase h).map _
  have hfilter := hperm.filter (· ≠ invalidLsn)
  rw [← singleton_append, map_append, filter_append] at hfilter
  exact hfilter

theorem due_concat_perm (hnodup : tids.Nodup) (h : rec.tid ∈ tids)
    (hlsn : rec.lsn ≠ invalidLsn) (pre : List LogRecord) :
    (due tids (pre ++ [rec])).Perm (rec.lsn :: due (tids.erase rec.tid) pre) := by
  have hself : due [rec.tid] (pre ++ [rec]) = [rec.lsn] := by simp [due, lastLsn_concat, hlsn]
  have hperm := due_perm h (pre ++ [rec])
  rw [hself, due_concat_of_notMem hnodup.not_mem_erase] at hperm
  exact hperm

theorem mem_due (h : lsn ∈ due tids pre) : ∃ rec ∈ pre, rec.lsn = lsn := by
  obtain ⟨hmem, hne⟩ := mem_filter.1 h
  obtain ⟨tid, _, hlast⟩ := mem_map.1 hmem
  rcases lastLsn_cases pre tid with hnone | ⟨rec, hrec, hlsn⟩
  · simp [← hlast, hnone] at hne
  · exact ⟨rec, hrec, hlsn.trans hlast⟩

abbrev Descending (lsnHeap : List Int) : Prop := lsnHeap.Pairwise (· ≥ ·)

theorem pushLsn_perm (lsn : Int) (lsnHeap : List Int) : (pushLsn lsn lsnHeap).Perm (lsn :: lsnHeap) :=
  perm_orderedInsert _ _ _

variable {lsnHeap : List Int}

theorem Descending.push (h : Descending lsnHeap) (lsn : Int) : Descending (pushLsn lsn lsnHeap) :=
  List.Pairwise.orderedInsert _ _ h

theorem heapOf_spec (activeTxn : List (Int × Int)) :
    Descending (heapOf activeTxn) ∧ (heapOf activeTxn).Perm (activeTxn.map Prod.snd) := by
  induction activeTxn using List.reverseRecOn with
  | nil => exact ⟨.nil, .nil⟩
  | append_singleton activeTxn entry ih =>
    obtain ⟨hdesc, hperm⟩ := ih
    rw [heapOf, foldl_concat, map_append]
    exact ⟨hdesc.push _, (pushLsn_perm _ _).trans ((hperm.cons _).trans (perm_append_singleton _ _).symm)⟩

theorem Descending.top {rest : List Int} (hdesc : Descending lsnHeap)
    (hperm : lsnHeap.Perm (lsn :: rest)) (hlt : ∀ m ∈ rest, m < lsn) :
    ∃ lsnHeap', lsnHeap = lsn :: lsnHeap' ∧ Descending lsnHeap' ∧ lsnHeap'.Perm rest := by
  cases lsnHeap with
  | nil => cases hperm.nil_eq
  | cons top lsnHeap' =>
    obtain ⟨htop, hdesc'⟩ := pairwise_cons.1 hdesc
    have heq : top = lsn := by
      rcases mem_cons.1 (hperm.subset (mem_cons_self ..)) with heq | hrest
      · exact heq
      · have hmem : lsn ∈ lsnHeap' := by
          have := hperm.symm.subset (mem_cons_self ..)
          rcases mem_cons.1 this with heq | hmem
          · have := hlt top hrest
            omega
          · exact hmem
        have hge := htop lsn hmem
        have := hlt top hrest
        omega
    subst heq
    exact ⟨lsnHeap', rfl, hdesc', hperm.cons_inv⟩

/-! ## The pass over the losers -/

theorem deserialize_readLog (hvalid : rec.Valid) (buffer : List UInt8) :
    LogRecord.deserialize (readLog buffer (logBytes (pre ++ rec :: post)) (logBytes pre).length) = some rec := by
  have hdrop : (logBytes (pre ++ rec :: post)).drop (logBytes pre).length = rec.serialize ++ logBytes post := by
    have hbytes : logBytes (pre ++ rec :: post) = logBytes pre ++ (rec.serialize ++ logBytes post) := by
      simp [logBytes]
    rw [hbytes]
    exact drop_left' rfl
  have htake : (rec.serialize ++ logBytes post).take logBufferSize =
      rec.serialize ++ (logBytes post).take (logBufferSize - rec.serialize.length) := by
    rw [take_append, take_of_length_le (by rw [rec.length_serialize]; exact hvalid.fits)]
  rw [readLog, hdrop, htake, append_assoc, LogRecord.deserialize_serialize hvalid.typed]

section

variable {log : List LogRecord} {notes : Notes} {tids : List Int} {σ ε : Type}
  {undoRecord : LogRecord → σ → Except ε σ}

def losers (tids : List Int) (log : List LogRecord) : List LogRecord := (log.filter (·.tid ∈ tids)).reverse

theorem losers_concat (tids : List Int) (pre : List LogRecord) (rec : LogRecord) :
    losers tids (pre ++ [rec]) = if rec.tid ∈ tids then rec :: losers tids pre else losers tids pre := by
  rw [losers, filter_append, reverse_append]
  split
  · next h => simp [h, losers]
  · next h => simp [h, losers]

/-- The heap has what is due of the records before; so the loop goes back through
them, from the last one. -/
theorem undo_due (hvalid : ∀ rec ∈ log, rec.Valid) (hchained : Chained log) (hanalysis : Analysis log notes)
    (hnodup : tids.Nodup) (pre post : List LogRecord) (hlog : log = pre ++ post) {lsnHeap : List Int}
    (hdesc : Descending lsnHeap) (hdue : lsnHeap.Perm (due tids pre)) {fuel : Nat}
    (hfuel : (losers tids pre).length < fuel) (buffer : List UInt8) (s : σ) :
    undo undoRecord (logBytes log) notes.lsnMapping fuel buffer lsnHeap s =
      some ((losers tids pre).foldlM (fun s rec => undoRecord rec s) s) := by
  induction pre using List.reverseRecOn generalizing post lsnHeap fuel buffer s with
  | nil =>
    have hnil : lsnHeap = [] := by
      have hempty : due tids [] = [] := by
        refine filter_eq_nil_iff.2 fun lsn hlsn => ?_
        obtain ⟨tid, _, hlast⟩ := mem_map.1 hlsn
        simp [← hlast, lastLsn]
      exact (hempty ▸ hdue).eq_nil
    obtain ⟨n, rfl⟩ : ∃ n, fuel = n + 1 := ⟨fuel - 1, by omega⟩
    rw [hnil]
    rfl
  | append_singleton pre rec ih =>
    rw [losers_concat] at hfuel ⊢
    have hsplit : log = pre ++ rec :: post := by rw [hlog, append_assoc, singleton_append]
    split
    · next hloser =>
      rw [if_pos hloser, length_cons] at hfuel
      have hmem : rec ∈ log := by simp [hsplit]
      have hlsn : rec.lsn ≠ invalidLsn := by
        have := hchained.nonneg rec hmem
        rw [invalidLsn]
        omega
      have hbefore : ∀ r ∈ pre, r.lsn < rec.lsn := by
        have hpair := hchained.increasing
        rw [hsplit, pairwise_append] at hpair
        exact fun r hr => hpair.2.2 r hr rec (by simp)
      obtain ⟨lsnHeap', rfl, hdesc', hperm'⟩ := hdesc.top (hdue.trans (due_concat_perm hnodup hloser hlsn pre))
        fun m hm => by
          obtain ⟨r, hr, hrm⟩ := mem_due hm
          exact hrm ▸ hbefore r hr
      obtain ⟨n, rfl⟩ : ∃ n, fuel = n + 1 := ⟨fuel - 1, by omega⟩
      have hplace : notes.lsnMapping rec.lsn = some (logBytes pre).length :=
        hanalysis.place pre rec post hsplit fun r hr => ne_of_lt (hbefore r hr)
      have hread : LogRecord.deserialize (readLog buffer (logBytes log) (logBytes pre).length) = some rec := by
        rw [hsplit]
        exact deserialize_readLog (hvalid rec hmem) buffer
      have hprev := hchained.chain pre rec post hsplit
      have hnext : Descending (if rec.prevLsn ≠ invalidLsn then pushLsn rec.prevLsn lsnHeap' else lsnHeap') ∧
          (if rec.prevLsn ≠ invalidLsn then pushLsn rec.prevLsn lsnHeap' else lsnHeap').Perm (due tids pre) := by
        have hall := due_perm hloser pre
        split
        · next hne =>
          have hself : due [rec.tid] pre = [rec.prevLsn] := by simp [due, ← hprev, hne]
          rw [hself] at hall
          exact ⟨hdesc'.push _, (pushLsn_perm _ _).trans ((hperm'.cons _).trans hall.symm)⟩
        · next heq =>
          have hself : due [rec.tid] pre = [] := by
            rw [not_not] at heq
            simp [due, ← hprev, heq]
          rw [hself] at hall
          exact ⟨hdesc', hperm'.trans hall.symm⟩
      rw [undo, hplace, Option.getD_some]
      simp only [hread]
      rw [foldlM_cons]
      cases undoRecord rec s with
      | error e => rfl
      | ok s' => exact ih (rec :: post) hsplit hnext.1 hnext.2 (by omega) _ s'
    · next hother =>
      rw [if_neg hother] at hfuel
      exact ih (rec :: post) hsplit hdesc (due_concat_of_notMem hother pre ▸ hdue) hfuel buffer s

end

/-- `activeTxn` has the last records of the transactions that have not ended. -/
theorem Analysis.activeTxn_eq {log : List LogRecord} {notes : Notes} (h : Analysis log notes) (hchained : Chained log)
    {tid : Int} (hactive : notes.activeTxn tid = some lsn) : lsn = lastLsn log tid ∧ lsn ≠ invalidLsn := by
  obtain ⟨pre, rec, post, rfl, rfl, hpost, hends⟩ := (h.active tid).1 (by simp [hactive])
  have hlast := h.last pre rec post rfl hpost hends fun hbegin ⟨pre', r, post', hpre, hr, _⟩ =>
    hchained.begins pre rec post rfl hbegin r (by simp [hpre]) hr
  rw [hactive, Option.some.injEq] at hlast
  have hpos := hchained.nonneg rec (by simp)
  rw [lastLsn_of_last hpost, hlast, invalidLsn]
  exact ⟨rfl, by omega⟩

structure Lists {κ α : Type} (m : κ → Option α) (entries : List (κ × α)) : Prop where
  nodup : (entries.map Prod.fst).Nodup
  mem : ∀ k a, (k, a) ∈ entries ↔ m k = some a

namespace RecoveryManager

variable {rm rm' : RecoveryManager}

theorem toNotes_of_analyzePage {lsn : Int} {rid : Rid} {tableName : List UInt8}
    (h : rm.analyzePage lsn rid tableName = .ok rm') : rm'.toNotes = rm.toNotes := by
  unfold analyzePage at h
  split at h
  · cases h
  · dsimp only at h
    split at h
    · cases h
    · split at h <;> cases h <;> rfl

variable {offset : Nat}

theorem toNotes_of_visit {rec : LogRecord} (h : visit rec offset rm = .ok rm') : rm'.toNotes = rm.note rec offset := by
  unfold visit at h
  split at h
  · cases h
    rfl
  · exact toNotes_of_analyzePage h

theorem toNotes_of_through {log : List LogRecord}
    (h : Frames.through LogRecord.serialize visit offset rm log = .ok rm') :
    rm'.toNotes = notesOf offset rm.toNotes log := by
  induction log generalizing offset rm with
  | nil =>
    cases h
    rfl
  | cons rec log ih =>
    rw [Frames.through] at h
    cases hvisit : visit rec offset rm with
    | error e => simp [hvisit] at h
    | ok rm₁ =>
      rw [hvisit] at h
      rw [ih h, toNotes_of_visit hvisit, rec.length_serialize, notesOf]

theorem analysis_of_analyze {log : List LogRecord} (hvalid : ∀ rec ∈ log, rec.Valid)
    {fhs : List UInt8 → Option TableFile} {fuel : Nat}
    (h : analyze fuel (logBytes log) (start fhs) = some (.ok rm)) : Analysis log rm.toNotes := by
  have hmore := Frames.read_add h (log.length + 2)
  rw [logBytes, Frames.read_frames (by decide) (fun rec hrec => (hvalid rec hrec).framed) _ (by omega),
    Option.some.injEq] at hmore
  have hnotes : rm.toNotes = notesOf 0 {} log := toNotes_of_through hmore
  exact hnotes ▸ analysis_notesOf log

/-- Undo takes back the records of the transactions that had not ended, each one
once, and the newer ones first. Whatever is done to take one back, the loop is
these records in this order, up to the first one that cannot be taken back. -/
theorem undo_losers (log : List LogRecord) (hvalid : ∀ rec ∈ log, rec.Valid) (hchained : Chained log)
    (fhs : List UInt8 → Option TableFile) (fuel₀ : Nat) (rm : RecoveryManager)
    (hanalyze : analyze fuel₀ (logBytes log) (start fhs) = some (.ok rm)) (activeTxn : List (Int × Int))
    (hactive : Lists rm.activeTxn activeTxn) {σ ε : Type} (undoRecord : LogRecord → σ → Except ε σ)
    (buffer : List UInt8) (s : σ) :
    ∃ visited : List LogRecord, (∀ rec, rec ∈ visited ↔ rec ∈ log ∧ (rm.activeTxn rec.tid).isSome) ∧
      visited.Pairwise (fun rec next => next.lsn < rec.lsn) ∧
      ∀ fuel, visited.length < fuel → undo undoRecord (logBytes log) rm.lsnMapping fuel buffer (heapOf activeTxn) s =
        some (visited.foldlM (fun s rec => undoRecord rec s) s) := by
  have hanalysis := analysis_of_analyze hvalid hanalyze
  obtain ⟨hdesc, hperm⟩ := heapOf_spec activeTxn
  have hmem : ∀ tid, tid ∈ activeTxn.map Prod.fst ↔ (rm.activeTxn tid).isSome := by
    intro tid
    simp [hactive.mem, Option.isSome_iff_exists]
  have hdue : activeTxn.map Prod.snd = due (activeTxn.map Prod.fst) log := by
    have hlast : ∀ entry ∈ activeTxn, entry.2 = lastLsn log entry.1 ∧ entry.2 ≠ invalidLsn := fun entry hentry =>
      hanalysis.activeTxn_eq hchained ((hactive.mem entry.1 entry.2).1 hentry)
    have hmap : (activeTxn.map Prod.fst).map (lastLsn log) = activeTxn.map Prod.snd := by
      rw [map_map]
      exact map_congr_left fun entry hentry => (hlast entry hentry).1.symm
    rw [due, hmap, filter_eq_self.2]
    intro lsn hlsn
    obtain ⟨entry, hentry, rfl⟩ := mem_map.1 hlsn
    exact decide_eq_true (hlast entry hentry).2
  refine ⟨losers (activeTxn.map Prod.fst) log, fun rec => ?_, ?_, fun fuel hfuel => ?_⟩
  · rw [losers, mem_reverse, mem_filter, decide_eq_true_eq, hmem]
  · rw [losers, pairwise_reverse]
    exact hchained.increasing.filter _
  · exact undo_due hvalid hchained hanalysis hactive.nodup log [] (append_nil log).symm hdesc
      (hdue ▸ hperm) hfuel buffer s

def oneRecord : List UInt8 → Option TableFile :=
  update (fun _ => none) [116]
    (some ⟨((RmFileHandle.createFile 1).createNewPageHandle.2).fillSlot ⟨1, 0⟩ [2], fun _ => invalidLsn⟩)

theorem chained_oneTxn : Chained oneTxn := by
  refine @chained_txnRecords [(7, .begin), (7, .insert [1] ⟨1, 0⟩ [116]), (7, .update [1] [2] ⟨1, 0⟩ [116])] ?_
  intro pre tid post hes
  cases pre with
  | nil => simp
  | cons e pre =>
    have hmem : (tid, LogBody.begin) ∈ [(7, .insert [1] ⟨1, 0⟩ [116]), (7, .update [1] [2] ⟨1, 0⟩ [116])] := by
      rw [(List.cons.inj hes).2]
      simp
    simp at hmem

theorem undo_losers_oneTxn : ∃ (rm : RecoveryManager) (visited : List LogRecord),
    analyze 5 (logBytes oneTxn) (start onePage) = some (.ok rm) ∧
    (∀ rec, rec ∈ visited ↔ rec ∈ oneTxn ∧ (rm.activeTxn rec.tid).isSome) ∧
    ∀ fuel, visited.length < fuel →
      undo undoTable (logBytes oneTxn) rm.lsnMapping fuel [] (heapOf [(7, 2)]) oneRecord =
        some (visited.foldlM (fun s rec => undoTable rec s) oneRecord) := by
  obtain ⟨rm, hthrough, hnotes⟩ := @through_ok oneTxn (start onePage) oneTxn_placed 0
  have hanalyze : analyze 5 (logBytes oneTxn) (start onePage) = some (.ok rm) := by
    rw [analyze, logBytes, Frames.read_frames (by decide) (fun rec hrec => (oneTxn_valid rec hrec).framed) _
      (by decide),
      hthrough]
  have hactive : Lists rm.activeTxn [(7, 2)] := by
    refine ⟨by simp, fun tid lsn => ?_⟩
    rw [hnotes]
    by_cases htid : tid = 7
    · simp [htid, oneTxn, notesOf, Notes.note, eq_comm]
    · simp [htid, oneTxn, notesOf, Notes.note, emplace, start]
  obtain ⟨visited, hmem, _, hundo⟩ := undo_losers oneTxn oneTxn_valid chained_oneTxn onePage 5 rm hanalyze
    [(7, 2)] hactive
    undoTable [] oneRecord
  exact ⟨rm, visited, hanalyze, hmem, hundo⟩

end RecoveryManager

end Rmdb.Recovery
