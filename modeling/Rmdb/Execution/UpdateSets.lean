/-
What an `UPDATE` writes.

A clause of `SET` is `x = v` or `x = y v`, where `v` has its sign. The grammar
keeps `x`, `v` and that there was a second column, but not which one it was;
the executor adds `v` to what is in `x`. So the row is what the statement says
exactly when `x` and `y` have the same value there.
-/
import Rmdb.Execution.Failure

namespace Rmdb

open List Index

/-! ## Bytes of a record -/

theorem leNat_bytesOf (v : UInt32) : leNat (bytesOf v) = v.toNat := by
  have h := UInt32.toNat_lt v
  simp only [bytesOf, leNat, UInt32.toNat_toUInt8, UInt32.toNat_shiftRight, Nat.shiftRight_eq_div_pow]
  simp
  omega

@[simp] theorem wordOf_bytesOf (v : UInt32) : wordOf (bytesOf v) = v := by
  rw [wordOf, take_of_length_le (by simp [bytesOf]), leNat_bytesOf, UInt32.ofNat_toNat]

theorem bytesOf_inj {v w : UInt32} : bytesOf v = bytesOf w ↔ v = w :=
  ⟨fun h => by rw [← wordOf_bytesOf v, h, wordOf_bytesOf], fun h => h ▸ rfl⟩

theorem wordOf_inj {as bs : List UInt8} (ha : as.length = 4) (hb : bs.length = 4) : wordOf as = wordOf bs ↔
    as = bs := by
  refine ⟨fun h => ?_, fun h => h ▸ rfl⟩
  have hlt : ∀ l : List UInt8, l.length = 4 → leNat l < 2 ^ 32 := fun l hl => by
    have := leNat_lt l
    rwa [hl] at this
  rw [wordOf, wordOf, take_of_length_le ha.le, take_of_length_le hb.le] at h
  have hnat := congrArg UInt32.toNat h
  rw [UInt32.toNat_ofNat_of_lt' (hlt as ha), UInt32.toNat_ofNat_of_lt' (hlt bs hb)] at hnat
  exact leNat_inj (ha.trans hb.symm) hnat

theorem Value.length_initRaw {v : Value} {len : Nat} {raw : List UInt8} (hlen : v.type ≠ .string → len = 4)
    (h : v.initRaw len = .ok raw) : raw.length = len := by
  cases v with
  | int v =>
    cases h
    exact (hlen nofun).symm
  | float v =>
    cases h
    exact (hlen nofun).symm
  | str bs =>
    simp only [Value.initRaw] at h
    split_ifs at h with hover
    cases h
    rw [length_append, length_replicate]
    omega

namespace ColMeta

variable {c : ColMeta}

theorem Disjoint.symm {d : ColMeta} (h : c.Disjoint d) : d.Disjoint c := Or.symm h

def Covers (c : ColMeta) (i : Nat) : Prop := c.offset ≤ i ∧ i < c.offset + c.len

@[simp] theorem length_write (c : ColMeta) (rec raw : List UInt8) : (c.write rec raw).length = rec.length := by
  simp [write]

theorem read_write_self {rec raw : List UInt8} (hfits : c.offset + c.len ≤ rec.length) (hraw : raw.length = c.len) :
    c.read (c.write rec raw) = raw := by
  apply ext_getElem
  · rw [length_read, hraw]
  · intro i hi hi'
    have hlen : c.offset + i < rec.length := by omega
    have hin : c.offset ≤ c.offset + i ∧ c.offset + i < c.offset + c.len := by omega
    simp only [read, write, getElem_map, getElem_range, getD_eq_getElem?_getD, List.getElem?_mapIdx,
      List.getElem?_eq_getElem hlen, Option.map_some, if_pos hin, Option.getD_some, Nat.add_sub_cancel_left,
      List.getElem?_eq_getElem hi']

theorem getElem?_write {i : Nat} (h : ¬ c.Covers i) (rec raw : List UInt8) :
    (c.write rec raw)[i]? = rec[i]? := by
  simp only [Covers] at h
  simp only [write, List.getElem?_mapIdx, if_neg h, Option.map_id']

theorem rawOf_int [FloatOps] (h : c.type = .int) (k : UInt32) : c.rawOf (.int k) = .ok (bytesOf k) := by
  simp [rawOf, h, Value.type, Value.initRaw]

theorem length_rawOf [FloatOps] {v : Value} {raw : List UInt8} (h : c.rawOf v = .ok raw) :
    raw.length = c.len := by
  unfold rawOf at h
  split at h
  · next htype => exact Value.length_initRaw (fun _ => c.len_eq (by simp [htype])) h
  · split_ifs at h with htype
    exact Value.length_initRaw (fun hne => c.len_eq (not_not.1 htype ▸ hne)) h

end ColMeta

namespace Execution

open Record Exec

/-! ## The clauses of the grammar -/

inductive SetSyntax where
  /-- `x = v` -/
  | const (colName : String) (val : Value)
  /-- `x = y v`, the value with its sign -/
  | plus (colName rhsName : String) (val : Value)

namespace SetSyntax

def colName : SetSyntax → String
  | .const x _ => x
  | .plus x _ _ => x

/-- What the parser builds. The action of the second production is
`SetClause($1, $4, true)`: the column on the right is not passed on. -/
def parse : SetSyntax → SetExpr
  | .const x v => ⟨x, v, false⟩
  | .plus x _ v => ⟨x, v, true⟩

@[simp] theorem parse_colName (cl : SetSyntax) : cl.parse.colName = cl.colName := by
  cases cl <;> rfl

variable [FloatOps] (m : TabMeta)

/-- The columns exist and the value is one for the column; sums are of `INT`. -/
def Accepted : SetSyntax → Prop
  | .const x v => ∃ c raw, m.getCol x = .ok c ∧ c.rawOf v = .ok raw
  | .plus x y v => ∃ c d k, m.getCol x = .ok c ∧ c.type = .int ∧ m.getCol y = .ok d ∧ d.type = .int ∧ v = .int k

/-- After the statement the column has the value of the right-hand side, evaluated on the record before it. -/
def Evaluated (old updated : List UInt8) : SetSyntax → Prop
  | .const x v => ∀ c, m.getCol x = .ok c → c.rawOf v = .ok (c.read updated)
  | .plus x y v => ∀ c d k, m.getCol x = .ok c → m.getCol y = .ok d → v = .int k →
      c.read updated = bytesOf (wordOf (d.read old) + k)

/-- The column on the left has the value of the one on the right. -/
def SameColumn (old : List UInt8) : SetSyntax → Prop
  | .const _ _ => True
  | .plus x y _ => ∀ c d, m.getCol x = .ok c → m.getCol y = .ok d → c.read old = d.read old

def Computes (clauses : List SetSyntax) (old updated : List UInt8) : Prop :=
  (∀ cl ∈ clauses, cl.Evaluated m old updated) ∧
    ∀ i, (∀ cl ∈ clauses, ∀ c, m.getCol cl.colName = .ok c → ¬ c.Covers i) → updated[i]? = old[i]?

end SetSyntax

/-! ## The clauses of the executor -/

namespace SetClause

def value (set : SetClause) (rec : List UInt8) : List UInt8 :=
  if set.isIncr then bytesOf (wordOf (set.col.read rec) + wordOf set.raw) else set.raw

structure Fits (set : SetClause) (size : Nat) : Prop where
  inside : set.col.offset + set.col.len ≤ size
  length_raw : set.raw.length = set.col.len
  int_of_incr : set.isIncr = true → set.col.type = .int

variable {set : SetClause} {rec : List UInt8} {size : Nat}

theorem Fits.length_value (h : set.Fits size) : (set.value rec).length = set.col.len := by
  unfold value
  split
  · next hincr =>
    rw [set.col.len_eq (by simp [h.int_of_incr hincr])]
    rfl
  · exact h.length_raw

theorem Fits.apply_eq [FloatOps] (h : set.Fits size) : set.apply rec = .ok (set.col.write rec (set.value rec)) := by
  unfold SetClause.apply value
  split
  · next hincr =>
    rw [h.int_of_incr hincr]
    rfl
  · rfl

end SetClause

theorem setAll_spec [FloatOps] : ∀ {sets : List SetClause} {rec : List UInt8},
    sets.Pairwise (fun a b => a.col.Disjoint b.col) → (∀ set ∈ sets, set.Fits rec.length) →
      ∃ updated, setAll sets rec = .ok updated ∧ (∀ set ∈ sets, set.col.read updated = set.value rec) ∧
        ∀ i, (∀ set ∈ sets, ¬ set.col.Covers i) → updated[i]? = rec[i]?
  | [], rec, _, _ => ⟨rec, rfl, by simp, fun _ _ => rfl⟩
  | clause :: sets, rec, hdisj, hfits => by
    obtain ⟨hset, hrest⟩ := forall_mem_cons.1 hfits
    obtain ⟨hhead, htail⟩ := pairwise_cons.1 hdisj
    obtain ⟨updated, hrun, hvalue, hframe⟩ := @setAll_spec _ sets (clause.col.write rec (clause.value rec)) htail
      (by simpa only [ColMeta.length_write] using hrest)
    refine ⟨updated, ?_, ?_, fun i hi => ?_⟩
    · rw [setAll, foldlM_cons, hset.apply_eq]
      exact hrun
    · intro set' hmem
      rcases mem_cons.1 hmem with rfl | hmem
      · rw [read_setAll hrun hhead, ColMeta.read_write_self hset.inside hset.length_value]
      · simp only [hvalue set' hmem, SetClause.value, ColMeta.read_write (hhead set' hmem).symm]
    · obtain ⟨hout, hrest⟩ := forall_mem_cons.1 hi
      rw [hframe i hrest, ColMeta.getElem?_write hout]

/-! ## From the grammar to the record -/

structure SetExpr.Analyzed [FloatOps] (m : TabMeta) (e : SetExpr) (set : SetClause) : Prop where
  getCol : m.getCol e.colName = .ok set.col
  rawOf : set.col.rawOf e.rhs = .ok set.raw
  isIncr : set.isIncr = e.isIncr

section Analysis

variable [FloatOps] {m : TabMeta}

theorem analyzeSets_analyzed : ∀ {exprs : List SetExpr} {sets : List SetClause}, analyzeSets m exprs = .ok sets →
    (∀ e ∈ exprs, ∃ set ∈ sets, e.Analyzed m set) ∧ ∀ set ∈ sets, ∃ e ∈ exprs, e.Analyzed m set
  | [], sets, h => by
    cases h
    simp
  | e :: exprs, sets, h => by
    rw [analyzeSets, mapM_cons, bind_eq_ok] at h
    obtain ⟨set, hset, h⟩ := h
    obtain ⟨rest, hrest, h⟩ := bind_eq_ok.1 h
    cases h
    obtain ⟨col, hcol, hset⟩ := bind_eq_ok.1 hset
    obtain ⟨raw, hraw, hset⟩ := bind_eq_ok.1 hset
    cases hset
    have hhead : e.Analyzed m ⟨col, raw, e.isIncr⟩ := ⟨hcol, hraw, rfl⟩
    obtain ⟨ihexprs, ihsets⟩ := analyzeSets_analyzed hrest
    constructor
    · intro e' he'
      rcases mem_cons.1 he' with rfl | he'
      · exact ⟨_, mem_cons_self, hhead⟩
      · obtain ⟨set, hmem, hset⟩ := ihexprs e' he'
        exact ⟨set, mem_cons_of_mem _ hmem, hset⟩
    · intro set' hset'
      rcases mem_cons.1 hset' with rfl | hset'
      · exact ⟨e, mem_cons_self, hhead⟩
      · obtain ⟨e', hmem, he'⟩ := ihsets set' hset'
        exact ⟨e', mem_cons_of_mem _ hmem, he'⟩

variable {cl : SetSyntax}

theorem SetSyntax.Accepted.int_of_incr {set : SetClause} (hcl : cl.Accepted m)
    (hset : cl.parse.Analyzed m set) (hincr : cl.parse.isIncr = true) : set.col.type = .int := by
  cases cl with
  | const x v => cases hincr
  | plus x y v =>
    obtain ⟨c, d, k, hc, hint, -⟩ := hcl
    obtain rfl : c = set.col := Except.ok.inj (hc.symm.trans hset.getCol)
    exact hint

theorem SetSyntax.evaluated_iff {set : SetClause} {old updated : List UInt8} (hcl : cl.Accepted m)
    (hset : cl.parse.Analyzed m set) (hread : set.col.read updated = set.value old) :
    cl.Evaluated m old updated ↔ cl.SameColumn m old := by
  cases cl with
  | const x v =>
    refine ⟨fun _ => trivial, fun _ c hc => ?_⟩
    obtain rfl : c = set.col := Except.ok.inj (hc.symm.trans hset.getCol)
    rw [hread, SetClause.value, hset.isIncr]
    exact hset.rawOf
  | plus x y v =>
    obtain ⟨c, d, k, hc, hcint, hd, hdint, rfl⟩ := hcl
    obtain rfl : c = set.col := Except.ok.inj (hc.symm.trans hset.getCol)
    have hraw : bytesOf k = set.raw := Except.ok.inj ((ColMeta.rawOf_int hcint k).symm.trans hset.rawOf)
    have hvalue : set.col.read updated = bytesOf (wordOf (set.col.read old) + k) := by
      rw [hread, SetClause.value, hset.isIncr, ← hraw, wordOf_bytesOf]
      rfl
    have hlen : ∀ c : ColMeta, c.type = .int → (c.read old).length = 4 := fun c h => by
      rw [ColMeta.length_read, c.len_eq (by simp [h])]
    have hiff : set.col.read updated = bytesOf (wordOf (d.read old) + k) ↔ set.col.read old = d.read old := by
      rw [hvalue, bytesOf_inj, UInt32.add_left_inj, wordOf_inj (hlen _ hcint) (hlen _ hdint)]
    constructor
    · intro h c' d' hc' hd'
      obtain rfl := Except.ok.inj (hc.symm.trans hc')
      obtain rfl := Except.ok.inj (hd.symm.trans hd')
      exact hiff.1 (h _ _ k hc hd rfl)
    · intro h c' d' k' hc' hd' hk
      obtain rfl := Except.ok.inj (hc.symm.trans hc')
      obtain rfl := Except.ok.inj (hd.symm.trans hd')
      cases hk
      exact hiff.2 (h _ _ hc hd)

/-- One row: the executor's record is there, and it is the one the clauses say
exactly when the columns they confuse have the same value. -/
theorem SetSyntax.setAll_computes_iff {clauses : List SetSyntax} {sets : List SetClause} {old : List UInt8}
    (hdistinct : (clauses.map SetSyntax.colName).Nodup) (hacc : ∀ cl ∈ clauses, cl.Accepted m)
    (hsets : analyzeSets m (clauses.map SetSyntax.parse) = .ok sets)
    (hold : ∀ c ∈ m.cols, c.offset + c.len ≤ old.length) :
    ∃ updated, setAll sets old = .ok updated ∧
      (SetSyntax.Computes m clauses old updated ↔ ∀ cl ∈ clauses, cl.SameColumn m old) := by
  obtain ⟨hexprs, hof⟩ := analyzeSets_analyzed hsets
  obtain ⟨hcols, hnames⟩ := analyzeSets_spec hsets
  have hdisj : sets.Pairwise fun a b => a.col.Disjoint b.col := by
    have hnd : (sets.map fun set => set.col.name).Nodup := by
      rw [hnames, map_map]
      simpa only [Function.comp_def, SetSyntax.parse_colName] using hdistinct
    rw [List.Nodup, pairwise_map] at hnd
    exact hnd.imp_of_mem fun ha hb hne => m.disjoint (hcols _ ha) (hcols _ hb) hne
  have hfits : ∀ set ∈ sets, set.Fits old.length := fun set hset => by
    obtain ⟨e, he, hanalyzed⟩ := hof set hset
    obtain ⟨cl, hcl, rfl⟩ := mem_map.1 he
    exact ⟨hold _ (hcols set hset), ColMeta.length_rawOf hanalyzed.rawOf,
      fun hincr => (hacc cl hcl).int_of_incr hanalyzed (hanalyzed.isIncr ▸ hincr)⟩
  obtain ⟨updated, hrun, hvalue, hframe⟩ := setAll_spec hdisj hfits
  refine ⟨updated, hrun, ?_⟩
  have hiff : ∀ cl ∈ clauses, (cl.Evaluated m old updated ↔ cl.SameColumn m old) := fun cl hcl => by
    obtain ⟨set, hset, hanalyzed⟩ := hexprs cl.parse (mem_map_of_mem hcl)
    exact SetSyntax.evaluated_iff (hacc cl hcl) hanalyzed (hvalue set hset)
  refine ⟨fun h cl hcl => (hiff cl hcl).1 (h.1 cl hcl), fun h =>
    ⟨fun cl hcl => (hiff cl hcl).2 (h cl hcl), fun i hi => ?_⟩⟩
  refine hframe i fun set hset => ?_
  obtain ⟨e, he, hanalyzed⟩ := hof set hset
  obtain ⟨cl, hcl, rfl⟩ := mem_map.1 he
  exact hi cl hcl set.col (cl.parse_colName ▸ hanalyzed.getCol)

end Analysis

/-- An `UPDATE` that goes through gives each of its rows what the clauses say
of the row before it, exactly when each `x = y v` finds in `x` what is in
`y`. -/
theorem updateStmt_computes_iff [FloatOps] {S : Schema} (s : Session S) (hdb : s.db.Valid) (tabName : String)
    (t : Fin S.length) (ht : S.getTable tabName = .ok t) (clauses : List SetSyntax)
    (hdistinct : (clauses.map SetSyntax.colName).Nodup) (hacc : ∀ cl ∈ clauses, cl.Accepted (S.get t)) (scan : ScanBy)
    (rids : Rids) (hsize : ∀ rid ∈ rids.val, ∀ rec, (s.db t).fh.live rid = some rec →
      ∀ c ∈ (S.get t).cols, c.offset + c.len ≤ rec.length) :
    wp (updateStmt tabName (clauses.map SetSyntax.parse) scan rids)
      (fun _ s' => ∀ rid ∈ rids.val, ∃ old updated, (s.db t).fh.live rid = some old ∧
        (s'.db t).fh.live rid = some updated ∧
          (SetSyntax.Computes (S.get t) clauses old updated ↔ ∀ cl ∈ clauses, cl.SameColumn (S.get t) old))
      (fun e _ => ∃ err, e = .rmdb err) s := by
  rw [updateStmt, wp_bind]
  refine wp_ofExcept_rmdb (fun t' ht' => ?_) fun e => ⟨e, rfl⟩
  obtain rfl : t = t' := Except.ok.inj (ht.symm.trans ht')
  rw [wp_bind]
  refine wp_ofExcept_rmdb (fun sets hsets => ?_) fun e => ⟨e, rfl⟩
  rw [wp_bind]
  refine wp_ofExcept_rmdb (fun isSet _ => ?_) fun e => ⟨e, rfl⟩
  obtain ⟨A₀, hA₀⟩ := hdb t
  refine wp_mono (wp_rows (x := updateNext sets isSet)
    (w := fun rid (r : List UInt8 × List UInt8) => .update tabName rid r.1 r.2 isSet)
    (F := fun e _ _ => ∃ err, e = .rmdb err)
    (R := fun pre A => Updated A₀ sets isSet pre A) hA₀ .nil (fun pre rid A T hR hT => ?_) rids.val) ?_ ?_
  · refine wp_mono (updateNext_spec hT sets isSet rid) (fun r T' h => ?_) fun _ _ h => ⟨h.1, h.2.2⟩
    exact ⟨_, h.2.2.2.1, .snoc hR h.1 h.2.1 h.2.2.1⟩
  · intro _ s' ⟨A, T, hR, hT, hdb'⟩ rid hrid
    obtain ⟨old, updated, hold, hset, hlive⟩ := (hR.live rids.property).2 rid hrid
    rw [← hA₀.live] at hold
    obtain ⟨updated', hset', hiff⟩ := SetSyntax.setAll_computes_iff hdistinct hacc hsets (hsize rid hrid old hold)
    obtain rfl : updated = updated' := Except.ok.inj (hset.symm.trans hset')
    refine ⟨old, updated, hold, ?_, hiff⟩
    rw [hdb', Function.update_self, hT.live, hlive]
  · intro e s' ⟨pre, rid, post, A, T, _, _, hF, _⟩
    exact hF

def rowsAB : List Request :=
  [.stmt (.insert "t" [.int 1, .int 5] fun _ => true), .stmt (.insert "t" [.int 5, .int 5] fun _ => true)]

def setFromB : List SetSyntax := [.plus "a" "b" (.int 1)]

def updateFromB (rid : Rid) : SesExec [tabA] Unit :=
  @updateStmt [tabA] noFloats "t" (setFromB.map SetSyntax.parse) .seq ⟨[rid], by simp⟩

theorem setFromB_accepted : ∀ cl ∈ setFromB, @SetSyntax.Accepted noFloats tabA cl := by
  intro cl hcl
  obtain rfl := mem_singleton.1 hcl
  exact ⟨colA, colB, 1, rfl, rfl, rfl, rfl, rfl⟩

theorem rowsAB_valid {s : Session [tabA]} {h : List (Request × Option RMDBError)}
    (hrun : Run.run (@clientHandler [tabA] noFloats) (.create [tabA]) rowsAB = some (h, s)) : s.db.Valid := by
  obtain ⟨h', s', hs', B, hB⟩ := @run_sessionOK [tabA] noFloats (.create [tabA]) (Session.create_agrees (by decide)) rfl
    rowsAB (by simp [rowsAB, Request.Maintained, Stmt.Maintained])
  obtain ⟨rfl, rfl⟩ : h = h' ∧ s = s' := by simpa [hrun] using hs'
  exact hB.agrees.valid

set_option maxRecDepth 10000 in
/-- In the second record `a` and `b` are the same. -/
theorem updateFromB_second : ∃ s : Session [tabA], s.db.Valid ∧
    (s.db 0).fh.live ⟨1, 1⟩ = some [5, 0, 0, 0, 5, 0, 0, 0] ∧
      wp (updateFromB ⟨1, 1⟩)
        (fun _ s' => ∃ updated, (s'.db 0).fh.live ⟨1, 1⟩ = some updated ∧
          @SetSyntax.Computes noFloats tabA setFromB [5, 0, 0, 0, 5, 0, 0, 0] updated)
        (fun e _ => ∃ err, e = .rmdb err) s := by
  have hrun : (Run.run (@clientHandler [tabA] noFloats) (.create [tabA]) rowsAB).any (fun r =>
      (r.2.db 0).fh.live ⟨1, 1⟩ = some [5, 0, 0, 0, 5, 0, 0, 0]) = true := by decide +kernel
  obtain ⟨⟨h, s⟩, hs, hcheck⟩ := Option.any_eq_true _ _ |>.1 hrun
  have hlive : (s.db 0).fh.live ⟨1, 1⟩ = some [5, 0, 0, 0, 5, 0, 0, 0] := of_decide_eq_true hcheck
  refine ⟨s, rowsAB_valid hs, hlive, ?_⟩
  have hthm := @updateStmt_computes_iff noFloats [tabA] s (rowsAB_valid hs) "t" 0 rfl setFromB (by simp [setFromB])
    setFromB_accepted .seq ⟨[⟨1, 1⟩], by simp⟩ (fun rid hrid rec hrec c hc => by
      obtain rfl := mem_singleton.1 hrid
      obtain rfl := Option.some.inj (hlive.symm.trans hrec)
      revert c
      decide)
  refine wp_mono hthm (fun _ s' h => ?_) fun _ _ h => h
  obtain ⟨old, updated, hold, hupd, hiff⟩ := h ⟨1, 1⟩ (by simp)
  obtain rfl := Option.some.inj (hlive.symm.trans hold)
  refine ⟨updated, hupd, hiff.2 fun cl hcl => ?_⟩
  obtain rfl := mem_singleton.1 hcl
  intro c d hc hd
  cases hc
  cases hd
  rfl

set_option maxRecDepth 10000 in
/-- In the first record `a` is 1 and `b` is 5: it gets `a` = 2. -/
theorem updateFromB_first : ∃ s s' : Session [tabA], s.db.Valid ∧ updateFromB ⟨1, 0⟩ s = (.ok (), s') ∧
    (s.db 0).fh.live ⟨1, 0⟩ = some [1, 0, 0, 0, 5, 0, 0, 0] ∧
      (s'.db 0).fh.live ⟨1, 0⟩ = some [2, 0, 0, 0, 5, 0, 0, 0] ∧
        ¬ @SetSyntax.Computes noFloats tabA setFromB [1, 0, 0, 0, 5, 0, 0, 0] [2, 0, 0, 0, 5, 0, 0, 0] := by
  have hrun : (Run.run (@clientHandler [tabA] noFloats) (.create [tabA]) rowsAB).any (fun r =>
      (r.2.db 0).fh.live ⟨1, 0⟩ = some [1, 0, 0, 0, 5, 0, 0, 0] ∧ (updateFromB ⟨1, 0⟩ r.2).1.isOk = true ∧
        ((updateFromB ⟨1, 0⟩ r.2).2.db 0).fh.live ⟨1, 0⟩ = some [2, 0, 0, 0, 5, 0, 0, 0]) = true := by decide +kernel
  obtain ⟨⟨h, s⟩, hs, hcheck⟩ := Option.any_eq_true _ _ |>.1 hrun
  obtain ⟨hlive, hok, hlive'⟩ := of_decide_eq_true hcheck
  refine ⟨s, _, rowsAB_valid hs, Prod.ext ?_ rfl, hlive, hlive', fun hcomp => ?_⟩
  · cases hres : (updateFromB ⟨1, 0⟩ s).1 with
    | error e => simp [hres, Except.isOk, Except.toBool] at hok
    | ok _ => rfl
  · have heval := hcomp.1 _ mem_cons_self colA colB 1 rfl rfl rfl
    exact absurd heval (by decide)

end Execution

end Rmdb
