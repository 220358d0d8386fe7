/-
`fast_count_star`.

A `SELECT` with one `COUNT` and no condition is answered from the page headers
of its first table. The plan that the planner has for it counts the rows of the
cross product, group by group, and prints the groups that `HAVING` lets through.
-/
import Rmdb.Execution.Portal
import Rmdb.Execution.AggregateRows

namespace Rmdb.Execution

open Option List Index Record
open Optimizer (AggType Plan Query Planner)

def countPages (h : RmFileHandle) : Nat → Int → UInt32 → UInt32
  | 0, _, count => count
  | fuel + 1, page, count =>
    if page < h.numPages then countPages h fuel (page + 1) (count + UInt32.ofNat (h.pages page).numRecords) else count

def fastCountStar (h : RmFileHandle) : UInt32 := countPages h h.numPages.toNat firstRecordPage 0

theorem length_usedBehind {h : RmFileHandle} (hok : h.HeapOK) {page : Int} (hpos : 0 ≤ page)
    (hpage : page < h.numPages) :
    (usedBehind h ⟨page, -1⟩).length = (h.pages page).numRecords := by
  have hnodup : (usedBehind h ⟨page, -1⟩).Nodup := nodup_range.filter _
  rw [(hok.counted page hpos hpage).count, ← toFinset_card_of_nodup hnodup]
  congr 1
  ext i
  have hi : (-1 : Int) < i := by omega
  simp [usedBehind, hi, isSome_iff_ne_none]

theorem countPages_end (h : RmFileHandle) (fuel : Nat) (count : UInt32) :
    countPages h fuel h.numPages count = count := by
  cases fuel with
  | zero => rfl
  | succ fuel => rw [countPages, if_neg (Int.lt_irrefl _)]

theorem countPages_eq {h : RmFileHandle} (hok : h.HeapOK) : ∀ {pages fuel : Nat} {page : Int} {count : UInt32},
    page + pages + 1 = h.numPages → 0 ≤ page → pages < fuel →
    countPages h fuel page count = count + UInt32.ofNat (ridsBehind h pages ⟨page, -1⟩).length
  | _, 0, _, _, _, _, hfuel => absurd hfuel (Nat.not_lt_zero _)
  | 0, fuel + 1, page, count, hpages, hpos, _ => by
    have hlt : page < h.numPages := by omega
    have hend : page + 1 = h.numPages := by omega
    rw [countPages, if_pos hlt, hend, countPages_end, ridsBehind, length_map, length_usedBehind hok hpos hlt]
  | pages + 1, fuel + 1, page, count, hpages, hpos, hfuel => by
    have hlt : page < h.numPages := by omega
    rw [countPages, if_pos hlt, countPages_eq hok (by omega) (by omega) (Nat.lt_of_succ_lt_succ hfuel), ridsBehind,
      length_append, length_map, length_usedBehind hok hpos hlt, UInt32.ofNat_add, UInt32.add_assoc]

theorem fastCountStar_eq {h : RmFileHandle} (hok : h.HeapOK) : fastCountStar h = UInt32.ofNat (tableRids h).length := by
  unfold fastCountStar tableRids
  split
  · next hfirst =>
    simp only [firstRecordPage] at hfirst ⊢
    have hpages : (1 : Int) + (h.numPages - 2).toNat + 1 = h.numPages := by omega
    rw [countPages_eq hok hpages (by decide) (by omega), UInt32.zero_add]
  · next hfirst =>
    cases hfuel : h.numPages.toNat with
    | zero => rfl
    | succ fuel => rw [countPages, if_neg hfirst]; rfl

/-! ## The two ways -/

namespace AggregateExecutor

variable {σ : Type} [FloatOps]

/-- What the plan prints is one row, with this count: the cross product is empty
and the count is zero, or `HAVING` lets one group through, which has as many rows. -/
def CountIs (ex : AggregateExecutor σ) (rows : List (List UInt8)) (n : UInt32) : Prop :=
  if rows = [] then n = 0
  else (ex.Adds ∨ Singles ex.sameKeys rows) ∧
    ∃ g, (groups ex.sameKeys rows).filter (fun g => ex.lets (ex.entryOf g)) = [g] ∧ UInt32.ofNat g.length = n

variable {ex : AggregateExecutor σ} {it : AggItem} {rows : List (List UInt8)} {fuel : Nat} {s : State σ}

theorem folded_count (hagg : it.agg = .count) : ∀ {g : List (List UInt8)}, g ≠ [] →
    (it.folded g).intVal = UInt32.ofNat g.length := by
  intro g hg
  induction g using List.reverseRecOn with
  | nil => exact absurd rfl hg
  | append_singleton g r ih =>
    by_cases hnil : g = []
    · subst hnil
      simp [AggItem.folded, AggItem.input, hagg, AggValue.one]
    · rw [AggItem.folded_concat hnil, AggItem.step, hagg, length_append, UInt32.ofNat_add, ← ih hnil]
      rfl

theorem record_count (hitems : ex.items = [it]) (hagg : it.agg = .count) (hint : it.col.type = .int)
    {g : List (List UInt8)} (hg : g ≠ []) : ex.record (ex.entryOf g) = bytesOf (UInt32.ofNat g.length) := by
  have hcol : ex.hasGroupCol = false := by simp [hasGroupCol, hitems, hagg]
  have hlen : it.col.len = 4 := it.col.len_eq (by simp [hint])
  rw [record, hcol]
  simp [entryOf, hitems, AggItem.written, hagg, folded_count hagg hg, hlen, bytesOf]

theorem begins_count_iff (hitems : ex.items = [it]) (hagg : it.agg = .count) (hint : it.col.type = .int)
    (hcompared : ex.Compared) (hprev : ex.prev.Begins rows s.prev) (hfuel : rows.length < fuel)
    (hfresh : s.isEmptyTable = false) (n : UInt32) :
    (ex.iter fuel).Begins [bytesOf n] s ↔ ex.CountIs rows n := by
  unfold CountIs
  split
  · next hrows =>
    subst hrows
    obtain ⟨prev, hbegin⟩ := beginTuple_nil hprev hfuel hfresh
    have hcol : ex.hasGroupCol = false := by simp [hasGroupCol, hitems, hagg]
    have hbegins : (ex.iter fuel).Begins [bytesOf n] s ↔ ex.EmptyOut [bytesOf n] := by
      rw [← @shows_nil σ ex _ fuel _ prev]
      exact Iter.begins_iff hbegin
    rw [hbegins, EmptyOut, if_neg (by simp [hcol])]
    simp [hitems, hagg, bytesOf_inj]
  · next hrows =>
    by_cases hadds : ex.Adds ∨ Singles ex.sameKeys rows
    · rw [and_iff_right hadds]
      have hnext : ∀ prev e es,
        (ex.iter fuel).next ⟨prev, e :: es, false⟩ = some (ex.record e, ⟨prev, e :: es, false⟩) :=
        fun _ _ _ => rfl
      obtain ⟨gs, hgs, hbegins⟩ := begins_groups hadds hcompared hprev hfuel hfresh hrows rfl hnext rfl rfl
      have hfilter := hgs.filter fun g => ex.lets (ex.entryOf g)
      have hne : ∀ g ∈ gs, g ≠ [] := fun g hg => groups_ne_nil rows g (hgs.subset hg)
      constructor
      · intro hone
        obtain ⟨g, hg, hrec⟩ := map_eq_singleton_iff.1 (hbegins.unique hone)
        have hmem : g ∈ gs := (mem_filter.1 (hg ▸ mem_singleton_self g)).1
        rw [record_count hitems hagg hint (hne g hmem), bytesOf_inj] at hrec
        exact ⟨g, perm_singleton.1 (hg ▸ hfilter.symm), hrec⟩
      · intro hone
        obtain ⟨g, hg, hlen⟩ := hone
        have hsingle : gs.filter (fun g => ex.lets (ex.entryOf g)) = [g] := perm_singleton.1 (hg ▸ hfilter)
        have hmem : g ∈ gs := (mem_filter.1 (hsingle ▸ mem_singleton_self g)).1
        rw [hsingle, map_singleton, record_count hitems hagg hint (hne g hmem), hlen] at hbegins
        exact hbegins
    · refine iff_of_false ?_ fun h => hadds h.1
      rw [not_or] at hadds
      intro hone
      obtain ⟨s', hs', -⟩ := hone
      have herror : (ex.iter fuel).beginTuple s = none := beginTuple_error hadds.1 hadds.2 hprev
      rw [herror] at hs'
      cases hs'

end AggregateExecutor

theorem countIs_of_no_groupBy [FloatOps] {σ : Type} {ex : AggregateExecutor σ} (hadds : ex.Adds)
    (hgroup : ex.groupBys = []) (hhaving : ex.having = []) (rows : List (List UInt8)) :
    ex.CountIs rows (UInt32.ofNat rows.length) := by
  unfold AggregateExecutor.CountIs
  split
  · next hrows =>
    rw [hrows]
    rfl
  · next hrows =>
    have hsame : ∀ r r', ex.sameKeys r r' = true := fun r r' => by
      simp [AggregateExecutor.sameKeys, AggregateExecutor.keysOf, hgroup]
    refine ⟨.inl hadds, rows, ?_, rfl⟩
    rw [groups_of_all_like hsame hrows, filter_cons_of_pos (by
      simp [AggregateExecutor.lets, hhaving, AggregateExecutor.passes]), filter_nil]

def fileOf (rows : List (List UInt8)) : RmFileHandle :=
  rows.foldl (fun h r => ((h.insertRecord r).toOption.map Prod.snd).getD h) (.createFile 8)

theorem fileOf_spec (rows : List (List UInt8)) : (fileOf rows).HeapOK ∧
    ∀ rid rec, (fileOf rows).live rid = some rec → rec ∈ rows := by
  induction rows using List.reverseRecOn with
  | nil => exact ⟨.createFile (by decide), fun rid rec h => by simp [fileOf, RmFileHandle.live_createFile] at h⟩
  | append_singleton rows r ih =>
    obtain ⟨rid, h', hins, hok, -, hlive, -⟩ := ih.1.insertRecord r
    have heq : fileOf (rows ++ [r]) = h' := by
      rw [fileOf, foldl_append]
      show ((RmFileHandle.insertRecord (fileOf rows) r).toOption.map Prod.snd).getD (fileOf rows) = h'
      rw [hins]
      rfl
    rw [heq]
    refine ⟨hok, fun rid' rec hrec => ?_⟩
    rw [hlive, Function.update_apply] at hrec
    split at hrec
    · obtain rfl := some.inj hrec
      simp
    · exact mem_append_left _ (ih.2 rid' rec hrec)

def tablesTU (tabName : String) : TableFile :=
  ⟨[colA, colB], 8, fileOf (if tabName = "t" then rowsOf [(1, 2)] else rowsOf [(1, 2), (3, 4)])⟩

def noSort : StdSort := ⟨fun _ rows => rows, fun _ _ => .refl _⟩

def somePlanner : Planner := ⟨fun _ => [], true, false, id, fun _ => .refl _⟩

def countQuery (ts : List String) : Query := ⟨ts, [], [.count], true, -1, false, ⟨"", ""⟩, false⟩

def countExecutor (t : String) (rest : List String) :
    Option (AggregateExecutor (joinedExecutor tablesTU 4 t rest).State) :=
  AggregateExecutor.make (joinedExecutor tablesTU 4 t rest).exec [(.count, ⟨"", ""⟩)] [] [] .inserted

def countU : AggregateExecutor (joinedExecutor tablesTU 4 "u" []).State := (countExecutor "u" []).get (by rfl)

def countTU : AggregateExecutor (joinedExecutor tablesTU 4 "t" ["u"]).State := (countExecutor "t" ["u"]).get (by rfl)

end Rmdb.Execution
