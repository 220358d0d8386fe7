/-
Index scans that stay inside the leaves.

A scan comes to its end only by standing on it. Where the end was never set, or
an entry lies behind the end and before the beginning, as on `a > 5 and a < 3`,
it goes over the last entry.
-/
import Rmdb.Execution.PlainScan

namespace Rmdb.Execution

open Index IxIndexHandle

variable {ix : IndexMeta} {conds : List Condition} {s : IxIndexHandle (Key ix.keyCols) (btreeOrder ix.keyCols)}
  {L : List (Block (Key ix.keyCols))} {Us : List (List (Block (Key ix.keyCols)))}

/-- Whatever was in memory before: a scan of an index with so many entries reads
entries, and is at its end after as many `next`; and one that is descending, and
not at its end, finds an entry there. -/
def StaysInside (s : IxIndexHandle (Key ix.keyCols) (btreeOrder ix.keyCols)) (conds : List Condition) (entries : Nat) : Prop :=
  ∀ mem, mem.Fits ix → ∃ lower upper sc out, (IndexScan.make ix.cols conds).range s mem = some (lower, upper) ∧
    IxScan.start s lower upper = some sc ∧ IxScan.scanAll s (entries + 1) sc = some out ∧
    (sc.isEnd = false → ((s.prevIid upper).bind s.entryAt).isSome)

def BoundsInOrder (ix : IndexMeta) (conds : List Condition) (entries : List (Key ix.keyCols × Rid)) : Prop :=
  ∀ mem, mem.Fits ix → ∃ e, endOf ix conds mem = some e ∧ ∀ x ∈ entries,
    behindAt ix e x.1 = true → behindAt ix (beginOf ix conds mem) x.1 = true

theorem StaysInside.inOrder (t : Tree s L Us) (htyped : Typed ix.cols conds)
    (h : StaysInside s conds (flat L).length) : BoundsInOrder ix conds (flat L) := by
  -- the positions are cuts, so the scan that is said to end is the one from cut to cut
  have hscan : ∀ mem, mem.Fits ix → ∃ lower upper out, CutAt L (beginOf ix conds mem) lower ∧
      EndAt L mem upper (endOf ix conds mem) ∧
      IxScan.scanAll s ((flat L).length + 1) ⟨lower, upper, lower.pageNo⟩ = some out := by
    intro mem hmem
    obtain ⟨lower, upper, hrange, hlower, hupper⟩ := (takes_make htyped).range_eq t hmem.left hmem.right
    obtain ⟨lower', upper', sc, out, hrange', hstart, hout, _⟩ := h mem hmem
    cases hrange.symm.trans hrange'
    cases (t.start_eq hlower upper).symm.trans hstart
    exact ⟨lower, upper, out, hlower, hupper, hout⟩
  intro mem hmem
  cases hend : endOf ix conds mem with
  | none =>
    obtain ⟨lower, upper, out, hlower, hupper, hout⟩ := hscan { mem with upper := ⟨0, -1⟩ } ⟨hmem.left, hmem.right⟩
    have hlower : CutAt L (beginOf ix conds mem) lower := hlower
    have hupper : EndAt L { mem with upper := ⟨0, -1⟩ } upper (endOf ix conds mem) := hupper
    rw [hend] at hupper
    obtain rfl : upper = ⟨0, -1⟩ := hupper
    rw [scan_nowhere (by simp) rfl (by exact Cut.slotNo hlower)] at hout
    cases hout
  | some e =>
    obtain ⟨lower, upper, out, hlower, hupper, hout⟩ := hscan mem hmem
    rw [hend] at hupper
    refine ⟨e, rfl, fun x hx hQ => ?_⟩
    by_contra hP
    rw [t.scan_none ix.order hlower (show CutAt L e upper from hupper) hx hQ (by simpa using hP)] at hout
    cases hout

theorem BoundsInOrder.inside (t : Tree s L Us) (htyped : Typed ix.cols conds) (h : BoundsInOrder ix conds (flat L)) :
    StaysInside s conds (flat L).length := by
  intro mem hmem
  obtain ⟨e, hend, hcross⟩ := h mem hmem
  obtain ⟨lower, upper, hrange, hlower, hupper⟩ := (takes_make htyped).range_eq t hmem.left hmem.right
  have hupper : EndAt L mem upper (endOf ix conds mem) := hupper
  rw [hend] at hupper
  have hupper : CutAt L e upper := hupper
  refine ⟨lower, upper, _, _, hrange, t.start_eq hlower upper,
    t.scan_cuts ix.order hlower hupper hcross (Nat.lt_succ_self _), fun hne => ?_⟩
  have hne : lower ≠ upper := by simpa [IxScan.isEnd] using hne
  rw [t.prev_cut ix.order hupper, List.getLast?_isSome]
  intro hnil
  have hall : ∀ x ∈ flat L, behindAt ix e x.1 = true := fun x hx => by simpa using List.filter_eq_nil_iff.1 hnil x hx
  exact hne ((t.cut_eq_iff hlower hupper).2 fun x hx => (hcross x hx (hall x hx)).trans (hall x hx).symm)

/-- For every index, every list of conditions and every run of calls that leads to
an index with these entries: scans stay inside it where their bounds are in order. -/
theorem run_staysInside (ix : IndexMeta) (conds : List Condition) (htyped : Typed ix.cols conds)
    (f : IxFile (Key ix.keyCols) (btreeOrder ix.keyCols)) (hf : createIndex ix.keyCols = some f)
    (calls : List (Index.Call (Key ix.keyCols))) :
    ∃ h s entries, Run.run call (openIndex f) calls = some (h, s) ∧ entries.Nodup ∧
      (∀ e, e ∈ entries ↔ lastInsert h e.1 = some e.2) ∧
      (StaysInside s conds entries.length ↔ BoundsInOrder ix conds entries) := by
  obtain ⟨h, s, hrun, ⟨L, Us, t, hL⟩, _⟩ := run_represents ix.keyCols f hf calls
  refine ⟨h, s, flat L, hrun, ?_, fun e => hL e.1 e.2, fun hin => hin.inOrder t htyped, fun hord => hord.inside t htyped⟩
  exact (t.sorted.imp fun h => ne_of_apply_ne Prod.fst h.ne)

def insertFour : List (Index.Call (Key ixA.keyCols)) := [.insertEntry ⟨bytesOf 4, rfl, rfl⟩ ⟨1, 0⟩]

/-- `a >= 3` -/
theorem run_staysInside_ge : ∃ f h s, ∃ entries : List (Key ixA.keyCols × Rid), createIndex ixA.keyCols = some f ∧
    Run.run call (openIndex f) insertFour = some (h, s) ∧ (∀ e, e ∈ entries ↔ lastInsert h e.1 = some e.2) ∧
    StaysInside s [⟨colA, .ge, bytesOf 3⟩] entries.length := by
  obtain ⟨h, s, entries, hrun, _, hentries, hiff⟩ := run_staysInside ixA [⟨colA, .ge, bytesOf 3⟩]
    (by simp [Typed, Condition.on, ixA, colA, List.findIdx?_cons, bytesOf]) _ rfl insertFour
  exact ⟨_, h, s, entries, rfl, hrun, hentries, hiff.2 fun mem _ => ⟨(true, []), rfl, fun x _ hx => by cases hx⟩⟩

/-- On `a > 5 and a < 3` the scan begins behind the last entry, which is not its end: it reads
a slot that is not there. -/
theorem crossed_leaves_leaf : ∃ f h s, createIndex ixA.keyCols = some f ∧
    Run.run call (openIndex f) insertFour = some (h, s) ∧
    ∃ lower upper sc, (IndexScan.make ixA.cols [⟨colA, .gt, bytesOf 5⟩, ⟨colA, .lt, bytesOf 3⟩]).range s
        ⟨[bytesOf 0], [bytesOf 0], ⟨0, 0⟩⟩ = some (lower, upper) ∧
      IxScan.start s lower upper = some sc ∧ sc.isEnd = false ∧ s.entryAt sc.iid = none ∧
      ¬ StaysInside s [⟨colA, .gt, bytesOf 5⟩, ⟨colA, .lt, bytesOf 3⟩] 1 := by
  refine ⟨_, _, _, rfl, rfl, _, _, _, rfl, rfl, by decide +kernel, by rfl, fun h => ?_⟩
  obtain ⟨lower, upper, sc, out, hrange, hstart, hout, _⟩ :=
    h ⟨[bytesOf 0], [bytesOf 0], ⟨0, 0⟩⟩ ⟨.cons rfl .nil, .cons rfl .nil⟩
  cases hrange
  cases hstart
  cases hout

end Rmdb.Execution
