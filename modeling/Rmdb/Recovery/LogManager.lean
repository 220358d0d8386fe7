/-
The log manager.

Records go to a buffer, and the buffer goes to the end of the log file when the
next record does not fit, or when somebody asks for it. The LSN of a record is
taken when it is put into the buffer, behind the test whether it fits;
`persist_lsn_` is what the counter of LSNs says when the buffer is written.
-/
import Rmdb.Lib.Run
import Rmdb.Recovery.Analyze

namespace Rmdb.Recovery

open List

structure LogBuffer where
  buffer : List UInt8
  offset : Nat
  deriving Repr

def LogBuffer.isFull (log : LogBuffer) (appendSize : Nat) : Bool := log.offset + appendSize > logBufferSize

structure LogManager where
  globalLsn : Int
  persistLsn : Int
  logBuffer : LogBuffer
  logFile : List UInt8
  deriving Repr

inductive LogCall where
  | addLogToBuffer (rec : LogRecord)
  | flushLogToDisk

namespace LogManager

def flushLogToDisk (lm : LogManager) : LogManager :=
  if lm.logBuffer.offset = 0 then lm
  else { lm with
    logFile := lm.logFile ++ lm.logBuffer.buffer.take lm.logBuffer.offset
    logBuffer := { lm.logBuffer with offset := 0 }
    persistLsn := lm.globalLsn - 1 }

/-- The LSN of the record; `none` when it is written past the end of the buffer. -/
def addLogToBuffer (lm : LogManager) (rec : LogRecord) : Option (Int × LogManager) := do
  let lm := if lm.logBuffer.isFull rec.logTotLen then lm.flushLogToDisk else lm
  let logRecord := { rec with lsn := lm.globalLsn }
  let buffer ← logRecord.serializeTo lm.logBuffer.buffer lm.logBuffer.offset
  return (logRecord.lsn, { lm with
    globalLsn := lm.globalLsn + 1
    logBuffer := { buffer, offset := lm.logBuffer.offset + logRecord.logTotLen } })

def step (lm : LogManager) : LogCall → Option (Option Int × LogManager)
  | .addLogToBuffer rec => (lm.addLogToBuffer rec).map fun (lsn, lm) => (some lsn, lm)
  | .flushLogToDisk => some (none, lm.flushLogToDisk)

/-- Behind `analyze`: the buffer has nothing of value. -/
def recovered (rm : RecoveryManager) (logFile buffer : List UInt8) : LogManager where
  globalLsn := rm.globalLsn
  persistLsn := rm.maxLsn
  logBuffer := { buffer, offset := 0 }
  logFile := logFile

end LogManager

/-! ## The records in the order of the calls -/

theorem LogManager.fits (lm : LogManager) {rec : LogRecord} (hrec : rec.logTotLen ≤ logBufferSize) :
    (if lm.logBuffer.isFull rec.logTotLen then lm.flushLogToDisk else lm).logBuffer.offset + rec.logTotLen ≤
      logBufferSize := by
  split
  · unfold flushLogToDisk
    split
    · next h0 => omega
    · show 0 + rec.logTotLen ≤ logBufferSize
      omega
  · next hfull =>
    rw [LogBuffer.isFull, decide_eq_true_eq] at hfull
    omega

def recordsOf (calls : List LogCall) : List LogRecord :=
  calls.filterMap fun
    | .addLogToBuffer rec => some rec
    | .flushLogToDisk => none

def numbered : Int → List LogRecord → List LogRecord
  | _, [] => []
  | lsn, rec :: recs => { rec with lsn } :: numbered (lsn + 1) recs

theorem numbered_concat (lsn : Int) (recs : List LogRecord) (rec : LogRecord) :
    numbered lsn (recs ++ [rec]) = numbered lsn recs ++ [{ rec with lsn := lsn + recs.length }] := by
  induction recs generalizing lsn with
  | nil => simp [numbered]
  | cons r recs ih =>
    rw [cons_append, numbered, numbered, ih, cons_append, length_cons, Nat.cast_succ, add_assoc,
      add_comm 1]

theorem lsn_lt_of_mem_numbered {lsn : Int} {recs : List LogRecord} {rec : LogRecord} (h : rec ∈ numbered lsn recs) :
    rec.lsn < lsn + recs.length := by
  induction recs generalizing lsn with
  | nil => cases h
  | cons r recs ih =>
    rw [length_cons]
    rcases mem_cons.1 h with hrec | htail
    · rw [hrec]
      push_cast
      omega
    · have := ih htail
      push_cast
      omega

structure Appended (logFile : List UInt8) (maxLsn : Int) (recs : List LogRecord) (lm : LogManager) : Prop where
  bytes : lm.logFile ++ lm.logBuffer.buffer.take lm.logBuffer.offset = logFile ++ logBytes (numbered (maxLsn + 1) recs)
  persisted : lm.logFile =
    logFile ++ logBytes ((numbered (maxLsn + 1) recs).filter fun rec => rec.lsn ≤ lm.persistLsn)
  next : lm.globalLsn = maxLsn + 1 + recs.length
  behind : lm.persistLsn < lm.globalLsn
  size : lm.logBuffer.buffer.length = logBufferSize + 1
  room : lm.logBuffer.offset ≤ logBufferSize

namespace Appended

variable {logFile : List UInt8} {maxLsn : Int} {recs : List LogRecord} {lm : LogManager}

theorem flush (h : Appended logFile maxLsn recs lm) : Appended logFile maxLsn recs lm.flushLogToDisk := by
  unfold LogManager.flushLogToDisk
  split
  · exact h
  · have hall : (numbered (maxLsn + 1) recs).filter (fun rec => decide (rec.lsn ≤ lm.globalLsn - 1)) =
        numbered (maxLsn + 1) recs := by
      refine filter_eq_self.2 fun rec hrec => decide_eq_true ?_
      have := lsn_lt_of_mem_numbered hrec
      rw [h.next]
      omega
    refine ⟨?_, ?_, h.next, by show lm.globalLsn - 1 < lm.globalLsn; omega, h.size, Nat.zero_le _⟩
    · simpa using h.bytes
    · simp only [hall]
      exact h.bytes

theorem add (h : Appended logFile maxLsn recs lm) {rec : LogRecord} (hrec : rec.logTotLen ≤ logBufferSize) :
    ∃ lm', lm.addLogToBuffer rec = some (maxLsn + 1 + recs.length, lm') ∧
      Appended logFile maxLsn (recs ++ [rec]) lm' := by
  have hfits := lm.fits hrec
  have hroom : Appended logFile maxLsn recs (if lm.logBuffer.isFull rec.logTotLen then lm.flushLogToDisk else lm) := by
    split
    · exact h.flush
    · exact h
  unfold LogManager.addLogToBuffer
  generalize (if lm.logBuffer.isFull rec.logTotLen then lm.flushLogToDisk else lm) = lm₁ at hfits hroom
  have hsize := hroom.size
  have hcopy : LogRecord.serializeTo { rec with lsn := lm₁.globalLsn } lm₁.logBuffer.buffer lm₁.logBuffer.offset =
      some (lm₁.logBuffer.buffer.take lm₁.logBuffer.offset ++ (LogRecord.serialize { rec with lsn := lm₁.globalLsn } ++
        lm₁.logBuffer.buffer.drop (lm₁.logBuffer.offset + rec.logTotLen))) := by
    rw [LogRecord.serializeTo_eq, memcpy, LogRecord.length_serialize]
    exact if_pos (show lm₁.logBuffer.offset + rec.logTotLen ≤ _ by omega)
  have htake : (lm₁.logBuffer.buffer.take lm₁.logBuffer.offset).length = lm₁.logBuffer.offset :=
    length_take_of_le (by omega)
  have hlen : (LogRecord.serialize { rec with lsn := lm₁.globalLsn }).length = rec.logTotLen :=
    LogRecord.length_serialize _
  have hnumbered := numbered_concat (maxLsn + 1) recs rec
  rw [← hroom.next] at hnumbered
  refine ⟨_, by simp only [hcopy, ← hroom.next]; rfl, ?_, ?_, ?_, ?_, ?_, hfits⟩
  · -- the record stands behind what was in the buffer
    show lm₁.logFile ++ List.take (lm₁.logBuffer.offset + rec.logTotLen) _ = _
    rw [hnumbered, ← append_assoc (lm₁.logBuffer.buffer.take _),
      take_left' (by rw [length_append, htake, hlen]),
      ← append_assoc, hroom.bytes, logBytes, logBytes, flatMap_append, append_assoc,
      flatMap_singleton]
  · -- its LSN is above `persist_lsn_`
    show lm₁.logFile = _
    have hnew : ¬ lm₁.globalLsn ≤ lm₁.persistLsn := by
      have := hroom.behind
      omega
    rw [hnumbered, filter_append, filter_singleton, decide_eq_false hnew]
    simpa using hroom.persisted
  · show lm₁.globalLsn + 1 = _
    rw [hroom.next, length_append, length_singleton]
    push_cast
    omega
  · show lm₁.persistLsn < lm₁.globalLsn + 1
    have := hroom.behind
    omega
  · show List.length _ = _
    rw [length_append, length_append, htake, hlen, length_drop]
    omega

end Appended

structure Logged (rm : RecoveryManager) (logFile : List UInt8) (trace : List (LogCall × Option Int))
    (lm : LogManager) : Prop where
  appended : Appended logFile rm.maxLsn (recordsOf (trace.map Prod.fst).reverse) lm
  lsns : trace.reverse.filterMap Prod.snd =
    (numbered rm.globalLsn (recordsOf (trace.map Prod.fst).reverse)).map LogRecord.lsn

namespace Logged

variable {rm : RecoveryManager} {logFile : List UInt8} {trace : List (LogCall × Option Int)} {lm : LogManager}

theorem recordsOf_concat (calls : List LogCall) (call : LogCall) :
    recordsOf (calls ++ [call]) = recordsOf calls ++ recordsOf [call] := filterMap_append

theorem flush (h : Logged rm logFile trace lm) : ∃ reply lm', lm.step .flushLogToDisk = some (reply, lm') ∧
    Logged rm logFile ((.flushLogToDisk, reply) :: trace) lm' := by
  obtain ⟨happended, hlsns⟩ := h
  have hrecs : recordsOf (((LogCall.flushLogToDisk, none) :: trace).map Prod.fst).reverse =
      recordsOf (trace.map Prod.fst).reverse := by
    rw [map_cons, reverse_cons, recordsOf_concat]
    exact append_nil _
  refine ⟨none, lm.flushLogToDisk, rfl, hrecs ▸ happended.flush, ?_⟩
  rw [hrecs, reverse_cons, filterMap_append, ← hlsns]
  exact append_nil _

theorem add (h : Logged rm logFile trace lm) {rec : LogRecord} (hrec : rec.logTotLen ≤ logBufferSize) :
    ∃ reply lm', lm.step (.addLogToBuffer rec) = some (reply, lm') ∧
      Logged rm logFile ((.addLogToBuffer rec, reply) :: trace) lm' := by
  obtain ⟨happended, hlsns⟩ := h
  obtain ⟨lm', hadd, happended'⟩ := happended.add hrec
  have hrecs (reply : Option Int) : recordsOf (((LogCall.addLogToBuffer rec, reply) :: trace).map Prod.fst).reverse =
      recordsOf (trace.map Prod.fst).reverse ++ [rec] := by
    rw [map_cons, reverse_cons, recordsOf_concat]
    rfl
  refine ⟨_, lm', by rw [LogManager.step, hadd]; rfl, hrecs _ ▸ happended', ?_⟩
  rw [hrecs, reverse_cons, filterMap_append, hlsns, numbered_concat, map_append]
  rfl

end Logged

namespace LogManager

end LogManager

end Rmdb.Recovery
