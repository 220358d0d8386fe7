/-
Files of records that are read in chunks.

Every record starts with a header that tells its length. The reader goes through
the records that are in a chunk as a whole; the next chunk starts with the one
that was cut. `Framed` is what it takes of the format: then the reader goes
through the records of the file, each one once (`read_frames`). A record that is
cut by the end of the file keeps it reading for ever (`read_torn`).
-/
import Mathlib.Tactic

namespace Rmdb.Frames

open List

variable {α σ ε : Type}

/-- `len` reads the length of the record at the front; `visit` works on the
record there, which is at the given place in the file, and tells how far to
go on. -/
structure Reader (σ ε : Type) where
  header : Nat
  cap : Nat
  len : List UInt8 → Nat
  visit : List UInt8 → Nat → σ → Except ε (Nat × σ)

namespace Reader

def scan (r : Reader σ ε) (base : Nat) (buf : List UInt8) : Nat → Nat → σ → Option (Except ε (Nat × σ))
  | 0, _, _ => none
  | fuel + 1, offset, s =>
    if offset + r.header ≤ buf.length then
      if r.len (buf.drop offset) > buf.length - offset then some (.ok (offset, s))
      else
        match r.visit (buf.drop offset) (base + offset) s with
        | .error e => some (.error e)
        | .ok (n, s) => scan r base buf fuel (offset + n) s
    else some (.ok (offset, s))

def read (r : Reader σ ε) (file : List UInt8) : Nat → Nat → σ → Option (Except ε σ)
  | 0, _, _ => none
  | fuel + 1, offset, s =>
    match (file.drop offset).take r.cap with
    | [] => some (.ok s)
    | b :: buf =>
      match r.scan offset (b :: buf) fuel 0 s with
      | none => none
      | some (.error e) => some (.error e)
      | some (.ok (n, s)) => read r file fuel (offset + n) s

end Reader

def through (enc : α → List UInt8) (step : α → Nat → σ → Except ε σ) : Nat → σ → List α → Except ε σ
  | _, s, [] => .ok s
  | offset, s, a :: as =>
    match step a offset s with
    | .error e => .error e
    | .ok s => through enc step (offset + (enc a).length) s as

/-- The reader knows the record: its header tells its length, it fits into the
buffer, and `visit` does what `step` says, whatever comes behind it. -/
structure Framed (r : Reader σ ε) (enc : α → List UInt8) (step : α → Nat → σ → Except ε σ) (a : α) : Prop where
  pos : 0 < r.header
  header : r.header ≤ (enc a).length
  cap : (enc a).length ≤ r.cap
  len : ∀ rest, r.len ((enc a).take r.header ++ rest) = (enc a).length
  visit : ∀ rest offset s, r.visit (enc a ++ rest) offset s = (step a offset s).map fun s => ((enc a).length, s)

variable {r : Reader σ ε} {enc : α → List UInt8} {step : α → Nat → σ → Except ε σ}

def Cut (enc : α → List UInt8) (a : α) (tail : List UInt8) : Prop := tail <+: enc a ∧ tail.length < (enc a).length

theorem Framed.len_front {a : α} (h : Framed r enc step a) {tail : List UInt8} (ht : tail <+: enc a)
    (hle : r.header ≤ tail.length) : r.len tail = (enc a).length := by
  obtain ⟨rest, hrest⟩ := ht
  have htake : (enc a).take r.header = tail.take r.header := by
    rw [← hrest, take_append_of_le_length hle]
  rw [← h.len (tail.drop r.header), htake, take_append_drop]

theorem Framed.len_append {a : α} (h : Framed r enc step a) (rest : List UInt8) :
    r.len (enc a ++ rest) = (enc a).length := by
  have := h.len ((enc a).drop r.header ++ rest)
  rwa [← append_assoc, take_append_drop] at this

def Short (r : Reader σ ε) (enc : α → List UInt8) (step : α → Nat → σ → Except ε σ) (tail : List UInt8) : Prop :=
  tail = [] ∨ ∃ a, Framed r enc step a ∧ Cut enc a tail

variable {buf : List UInt8} {offset : Nat} {s : σ}

theorem Short.scan {tail : List UInt8} (h : Short r enc step tail) (hpos : 0 < r.header)
    {base fuel : Nat} (hdrop : buf.drop offset = tail) (hoffset : offset ≤ buf.length) :
    r.scan base buf (fuel + 1) offset s = some (.ok (offset, s)) := by
  unfold Reader.scan
  have hlen : tail.length = buf.length - offset := by rw [← hdrop, length_drop]
  rcases h with rfl | ⟨a, ha, hfront, hcut⟩
  · rw [if_neg (by simp at hlen; omega)]
  · split
    · rw [hdrop, ha.len_front hfront (by omega), if_pos (by omega)]
    · rfl

theorem scan_frames (hpos : 0 < r.header) {tail : List UInt8} (hshort : Short r enc step tail) {as : List α} :
    ∀ {front : List UInt8} {base fuel : Nat} {s : σ}, (∀ a ∈ as, Framed r enc step a) → as.length < fuel →
      r.scan base (front ++ as.flatMap enc ++ tail) fuel front.length s =
        some ((through enc step (base + front.length) s as).map fun s => ((front ++ as.flatMap enc).length, s)) := by
  induction as with
  | nil =>
    intro front base fuel s _ hfuel
    obtain ⟨fuel, rfl⟩ : ∃ n, fuel = n + 1 := ⟨fuel - 1, by omega⟩
    rw [flatMap_nil, append_nil, through]
    exact hshort.scan hpos drop_left (by simp)
  | cons a as ih =>
    intro front base fuel s has hfuel
    obtain ⟨ha, has⟩ := forall_mem_cons.1 has
    obtain ⟨fuel, rfl⟩ : ∃ n, fuel = n + 1 := ⟨fuel - 1, by simp at hfuel; omega⟩
    have hbuf : front ++ (a :: as).flatMap enc ++ tail = (front ++ enc a) ++ as.flatMap enc ++ tail := by
      simp [flatMap_cons]
    have hdrop : (front ++ (a :: as).flatMap enc ++ tail).drop front.length = enc a ++ (as.flatMap enc ++ tail) := by
      rw [append_assoc, drop_left, flatMap_cons, append_assoc]
    have hlen : (front ++ (a :: as).flatMap enc ++ tail).length =
        front.length + (enc a).length + (as.flatMap enc ++ tail).length := by
      simp [flatMap_cons]
      omega
    have hheader := ha.header
    rw [Reader.scan, if_pos (by omega), hdrop, ha.len_append, if_neg (by omega), ha.visit, through]
    cases hstep : step a (base + front.length) s with
    | error e => rfl
    | ok s' =>
      have hnext := @ih (front ++ enc a) base fuel s' has (by simpa using hfuel)
      rw [length_append, ← Nat.add_assoc] at hnext
      change r.scan base (front ++ (a :: as).flatMap enc ++ tail) fuel (front.length + (enc a).length) s' =
        some ((through enc step (base + front.length + (enc a).length) s' as).map _)
      rw [hbuf, hnext, flatMap_cons, append_assoc]

/-! ## The file -/

theorem through_append (as bs : List α) (offset : Nat) (s : σ) :
    through enc step offset s (as ++ bs) = match through enc step offset s as with
      | .error e => .error e
      | .ok s => through enc step (offset + (as.flatMap enc).length) s bs := by
  induction as generalizing offset s with
  | nil => rfl
  | cons a as ih =>
    rw [cons_append, through, through]
    cases step a offset s with
    | error e => rfl
    | ok s' =>
      change through enc step (offset + (enc a).length) s' (as ++ bs) = _
      rw [ih, flatMap_cons, length_append, Nat.add_assoc]

theorem exists_chunk {as : List α} (has : ∀ a ∈ as, Framed r enc step a) {torn : List UInt8}
    (htorn : Short r enc step torn)
    (n : Nat) : ∃ pre post tail, as = pre ++ post ∧ (as.flatMap enc ++ torn).take n = pre.flatMap enc ++ tail ∧
      Short r enc step tail ∧ ∀ a ∈ as.head?, (enc a).length ≤ n → pre ≠ [] := by
  induction as generalizing n with
  | nil =>
    refine ⟨[], [], torn.take n, rfl, by simp, ?_, by simp⟩
    rcases htorn with rfl | ⟨b, hb, hfront, hcut⟩
    · exact .inl (by simp)
    · exact .inr ⟨b, hb, ( take_prefix n torn).trans hfront, (length_take_le' n torn).trans_lt hcut⟩
  | cons a as ih =>
    obtain ⟨ha, has⟩ := forall_mem_cons.1 has
    by_cases hn : (enc a).length ≤ n
    · obtain ⟨pre, post, tail, happend, htake, hshort, -⟩ := ih has (n - (enc a).length)
      refine ⟨a :: pre, post, tail, by rw [happend, cons_append], ?_, hshort, by simp⟩
      rw [flatMap_cons, append_assoc, take_append, htake, take_of_length_le hn, flatMap_cons,
        append_assoc]
    · refine ⟨[], a :: as, (enc a).take n, rfl, ?_, .inr ⟨a, ha, take_prefix n _, ?_⟩, ?_⟩
      · rw [flatMap_cons, append_assoc, take_append_of_le_length (by omega), flatMap_nil,
        nil_append]
      · rw [length_take]
        omega
      · intro b hb hle
        obtain rfl : a = b := by simpa using hb
        exact absurd hle hn

theorem read_chunk {file : List UInt8} {fuel : Nat} (hbuf : (file.drop offset).take r.cap = buf)
    (hne : buf ≠ []) : r.read file (fuel + 1) offset s = match r.scan offset buf fuel 0 s with
      | none => none
      | some (.error e) => some (.error e)
      | some (.ok (n, s)) => r.read file fuel (offset + n) s := by
  rw [Reader.read, hbuf]
  cases buf with
  | nil => exact absurd rfl hne
  | cons b buf => rfl

theorem read_through (hpos : 0 < r.header) {file torn : List UInt8} (htorn : Short r enc step torn) {fuel : Nat} :
    ∀ {as : List α} {offset : Nat} {s : σ}, (∀ a ∈ as, Framed r enc step a) →
      file.drop offset = as.flatMap enc ++ torn → as.length + 1 < fuel →
      ∃ fuel', 0 < fuel' ∧ r.read file fuel offset s = match through enc step offset s as with
        | .error e => some (.error e)
        | .ok s => r.read file fuel' (offset + (as.flatMap enc).length) s := by
  induction fuel with
  | zero => intro as offset s _ _ hfuel; omega
  | succ fuel ih =>
    intro as offset s has hfile hfuel
    cases as with
    | nil => exact ⟨fuel + 1, by omega, rfl⟩
    | cons a as =>
      obtain ⟨pre, post, tail, happend, htake, hshort, hpre⟩ := exists_chunk has htorn r.cap
      have hpre := hpre a rfl (has a (by simp)).cap
      have hlen : pre.length + post.length = as.length + 1 := by rw [← length_append, ← happend, length_cons]
      have hprepos : 0 < pre.length := length_pos_iff.2 hpre
      have hne : pre.flatMap enc ++ tail ≠ [] := by
        obtain ⟨c, pre, rfl⟩ := exists_cons_of_ne_nil hpre
        have hc := has c (by simp [happend])
        have hcpos : 0 < (enc c).length := lt_of_lt_of_le hc.pos hc.header
        intro hnil
        have hlen := congrArg List.length hnil
        simp only [flatMap_cons, length_append, length_nil] at hlen
        omega
      rw [length_cons] at hfuel
      rw [read_chunk (by rw [hfile, htake]) hne, happend, through_append]
      have hscan := @scan_frames α σ ε r enc step hpos tail hshort pre [] offset fuel s
        (fun c hc => has c (by simp [happend, hc])) (by omega)
      simp only [nil_append, length_nil, Nat.add_zero] at hscan
      rw [hscan]
      cases through enc step offset s pre with
      | error e => exact ⟨1, by omega, rfl⟩
      | ok s' =>
        have hdrop : file.drop (offset + (pre.flatMap enc).length) = post.flatMap enc ++ torn := by
          rw [← drop_drop, hfile, happend, flatMap_append, append_assoc, drop_left]
        obtain ⟨fuel', hpos', hread⟩ := @ih post _ s' (fun c hc => has c (by simp [happend, hc])) hdrop (by omega)
        refine ⟨fuel', hpos', ?_⟩
        rw [flatMap_append, length_append, ← Nat.add_assoc]
        exact hread

/-- The reader goes through the records of the file, each one once, and stops. -/
theorem read_frames (hpos : 0 < r.header) {as : List α} (has : ∀ a ∈ as, Framed r enc step a) (s : σ) {fuel : Nat}
    (hfuel : as.length + 1 < fuel) : r.read (as.flatMap enc) fuel 0 s = some (through enc step 0 s as) := by
  have hfile : (as.flatMap enc).drop 0 = as.flatMap enc ++ [] := by simp
  obtain ⟨fuel', hpos', hread⟩ := @read_through α σ ε r enc step hpos _ [] (.inl rfl) fuel as 0 s has hfile hfuel
  obtain ⟨fuel', rfl⟩ : ∃ n, fuel' = n + 1 := ⟨fuel' - 1, by omega⟩
  rw [hread]
  cases through enc step 0 s as with
  | error e => rfl
  | ok s' =>
    have hend : (as.flatMap enc).drop (0 + (as.flatMap enc).length) = [] := by rw [Nat.zero_add, drop_length]
    simp only [Reader.read, hend, take_nil]

/-! ## A file that ends in the middle of a record -/

theorem read_stuck (hpos : 0 < r.header) {file torn : List UInt8} (htorn : Short r enc step torn) (hne : torn ≠ [])
    (hdrop : file.drop offset = torn) (s : σ) (fuel : Nat) : r.read file fuel offset s = none := by
  induction fuel with
  | zero => rfl
  | succ fuel ih =>
    have hcap : torn.take r.cap = torn := by
      obtain ⟨b, hb, hcut⟩ := htorn.resolve_left hne
      exact take_of_length_le (hcut.2.le.trans hb.cap)
    rw [read_chunk (by rw [hdrop, hcap]) hne]
    cases fuel with
    | zero => rfl
    | succ fuel =>
      rw [htorn.scan hpos (drop_zero) (Nat.zero_le _)]
      exact ih

theorem scan_succ {base fuel : Nat} {x : Except ε (Nat × σ)}
    (h : r.scan base buf fuel offset s = some x) : r.scan base buf (fuel + 1) offset s = some x := by
  induction fuel generalizing offset s with
  | zero => cases h
  | succ fuel ih =>
    rw [Reader.scan] at h ⊢
    split at h
    · next hle =>
      rw [if_pos hle]
      split at h
      · next hlong => rw [if_pos hlong, h]
      · next hlong =>
        rw [if_neg hlong]
        cases hvisit : r.visit (buf.drop offset) (base + offset) s with
        | error e =>
          rw [hvisit] at h
          exact h
        | ok p =>
          rw [hvisit] at h
          exact ih h
    · next hle => rw [if_neg hle, h]

theorem read_succ {file : List UInt8} {fuel : Nat} {x : Except ε σ}
    (h : r.read file fuel offset s = some x) : r.read file (fuel + 1) offset s = some x := by
  induction fuel generalizing offset s with
  | zero => cases h
  | succ fuel ih =>
    by_cases hbuf : (file.drop offset).take r.cap = []
    · rw [Reader.read, hbuf] at h ⊢
      exact h
    · rw [read_chunk rfl hbuf] at h ⊢
      cases hscan : r.scan offset ((file.drop offset).take r.cap) fuel 0 s with
      | none => simp [hscan] at h
      | some y =>
        rw [scan_succ hscan]
        rw [hscan] at h
        cases y with
        | error e => exact h
        | ok p => exact ih h

theorem read_add {file : List UInt8} {fuel : Nat} {x : Except ε σ}
    (h : r.read file fuel offset s = some x) (n : Nat) : r.read file (fuel + n) offset s = some x := by
  induction n with
  | zero => exact h
  | succ n ih => exact read_succ ih

/-- The reader never gets through a file that ends in the middle of a record. -/
theorem read_torn (hpos : 0 < r.header) {as : List α} (has : ∀ a ∈ as, Framed r enc step a) {torn : List UInt8}
    (htorn : Short r enc step torn) (hne : torn ≠ []) {s' : σ} (hthrough : through enc step 0 s as = .ok s')
    (fuel : Nat) :
    r.read (as.flatMap enc ++ torn) fuel 0 s = none := by
  cases hread : r.read (as.flatMap enc ++ torn) fuel 0 s with
  | none => rfl
  | some x =>
    obtain ⟨fuel', -, hfar⟩ := @read_through α σ ε r enc step hpos _ torn htorn (fuel + (as.length + 2)) as 0 s has
      (by rw [drop_zero]) (by omega)
    have hdrop : (as.flatMap enc ++ torn).drop (0 + (as.flatMap enc).length) = torn :=
      by rw [Nat.zero_add, drop_left]
    rw [hthrough, read_add hread] at hfar
    simp only [read_stuck hpos htorn hne hdrop] at hfar
    cases hfar

end Rmdb.Frames
