/-
Logs of writes, row by row.

An event may write a row, and says what it found there and what it left. A log
leads from some rows to others if each event finds what it says. Each row can be
looked at alone, so what is replayed may begin at another event for each row, and
what some writers did can be taken back if nobody else wrote a row behind them.
-/
import Rmdb.Lib.Undo

namespace Rmdb.Replay

open Function List Undo

variable {β ρ α γ : Type}

/-- A row goes from `x` to `y` by these changes. -/
def Goes : Option α → List (Option α × Option α) → Option α → Prop
  | x, [], y => x = y
  | x, (old, new) :: cs, y => x = old ∧ Goes new cs y

section

variable {x y z : Option α} {cs cs' : List (Option α × Option α)}

theorem goes_append : Goes x (cs ++ cs') y ↔ ∃ z, Goes x cs z ∧ Goes z cs' y := by
  induction cs generalizing x with
  | nil => simp [Goes]
  | cons c cs ih => simp [Goes, ih, and_assoc]

theorem Goes.eq (h : Goes x cs y) (h' : Goes x cs z) : y = z := by
  induction cs generalizing x with
  | nil => exact h.symm.trans h'
  | cons c cs ih => exact ih h.2 h'.2

theorem Goes.reverse (h : Goes x cs y) : Goes y (cs.reverse.map Prod.swap) x := by
  induction cs generalizing x with
  | nil => exact h.symm
  | cons c cs ih =>
    rw [reverse_cons, map_append, goes_append]
    exact ⟨_, ih h.2, rfl, h.1.symm⟩

end

theorem filterMap_split {f : β → Option γ} {p : β → Bool} {es : List β}
    (h : es.Pairwise fun e e' => (f e).isSome → (f e').isSome → p e' → p e) :
    es.filterMap f = (es.filter p).filterMap f ++ (es.filter fun e => !p e).filterMap f := by
  induction es with
  | nil => rfl
  | cons e es ih =>
    obtain ⟨he, hes⟩ := pairwise_cons.1 h
    cases hp : p e with
    | true => cases hf : f e <;> simp [hp, hf, ih hes]
    | false =>
      cases hf : f e with
      | none => simp [hp, hf, ih hes]
      | some c =>
        have hnil : (es.filter p).filterMap f = [] := by
          refine filterMap_eq_nil_iff.2 fun e' he' => ?_
          obtain ⟨hmem, hp'⟩ := mem_filter.1 he'
          by_contra hsome
          simp [he e' hmem (by simp [hf]) (Option.isSome_iff_ne_none.2 hsome) hp'] at hp
        simp [hp, hf, ih hes, hnil]

/-- The writes that take writes back. -/
def back (write : β → Option (Write ρ α)) (e : β) : Option (Write ρ α) := (write e).map fun w => ⟨w.row, w.new, w.old⟩

variable [DecidableEq ρ]

/-- What an event does to a row. -/
def change (write : β → Option (Write ρ α)) (r : ρ) (e : β) : Option (Option α × Option α) :=
  (write e).bind fun w => if w.row = r then some (w.old, w.new) else none

/-- Each event finds what it says, and the last ones leave `s'`. -/
def Leads (write : β → Option (Write ρ α)) (s : ρ → Option α) (es : List β) (s' : ρ → Option α) : Prop :=
  ∀ r, Goes (s r) (es.filterMap (change write r)) (s' r)

variable {write : β → Option (Write ρ α)} {s s₀ s' : ρ → Option α} {e : β} {es es' : List β} {w : Write ρ α}

theorem leads_append : Leads write s (es ++ es') s' ↔ ∃ s₁, Leads write s es s₁ ∧ Leads write s₁ es' s' := by
  simp only [Leads, filterMap_append, goes_append, ← forall_and, Classical.skolem]

theorem leads_of_none (hw : write e = none) : Leads write s [e] s' ↔ s' = s := by
  simp [Leads, change, hw, Goes, funext_iff, eq_comm]

theorem leads_of_some (hw : write e = some w) : Leads write s [e] s' ↔ s w.row = w.old ∧ s' = update s w.row w.new := by
  constructor
  · intro h
    obtain ⟨hold, hnew⟩ : s w.row = w.old ∧ w.new = s' w.row := by simpa [change, hw, Goes] using h w.row
    refine ⟨hold, funext fun r => ?_⟩
    by_cases hr : r = w.row
    · rw [hr, update_self, hnew]
    · have hsame : s r = s' r := by simpa [change, hw, Goes, Ne.symm hr] using h r
      rw [update_of_ne hr, hsame]
  · rintro ⟨hold, rfl⟩ r
    by_cases hr : r = w.row
    · simp [hr, change, hw, Goes, hold]
    · simp [change, hw, Goes, Ne.symm hr, hr]

/-- The rows of `s₀` have the first events of the log, for `r` those in `old r`. The others lead on from there. -/
theorem Leads.redo {old : ρ → β → Bool} {newer : β → Bool} (h : Leads write s es s')
    (hold : ∀ r, Goes (s r) ((es.filter (old r)).filterMap (change write r)) (s₀ r))
    (hnewer : ∀ r, ∀ e ∈ es, (change write r e).isSome → newer e = !old r e)
    (hfirst : ∀ r, es.Pairwise fun e e' => (change write r e).isSome → (change write r e').isSome → old r e' → old r e) :
    Leads write s₀ (es.filter newer) s' := by
  intro r
  have hcut := h r
  rw [filterMap_split (hfirst r), goes_append] at hcut
  obtain ⟨x, hx, hrest⟩ := hcut
  have hsame : (es.filter newer).filterMap (change write r) = (es.filter fun e => !old r e).filterMap (change write r) := by
    rw [filterMap_filter, filterMap_filter]
    refine filterMap_congr fun e he => ?_
    cases hc : change write r e with
    | none => simp
    | some c => rw [hnewer r e he (by simp [hc])]
  rw [hsame, (hold r).eq hx]
  exact hrest

/-- Behind the losers nobody else writes a row of theirs: then their events can be taken back, the last one first,
and leave what the others did. -/
theorem Leads.undo {loser : β → Bool} (h : Leads write s es s')
    (hlast : ∀ r, es.Pairwise fun e e' => (change write r e).isSome → (change write r e').isSome → loser e → loser e') :
    ∃ s₁, Leads write s (es.filter fun e => !loser e) s₁ ∧ Leads (back write) s' (es.filter loser).reverse s₁ := by
  have hback : ∀ r e, change (back write) r e = (change write r e).map Prod.swap := by
    intro r e
    cases hw : write e with
    | none => simp [change, back, hw]
    | some w => by_cases hr : w.row = r <;> simp [change, back, hw, hr]
  have hrow : ∀ r, ∃ x, Goes (s r) ((es.filter fun e => !loser e).filterMap (change write r)) x ∧
      Goes (s' r) ((es.filter loser).reverse.filterMap (change (back write) r)) x := by
    intro r
    have hcut := h r
    rw [filterMap_split (p := fun e => !loser e) ((hlast r).imp fun hl he he' => by simpa using mt (hl he he')),
      goes_append] at hcut
    obtain ⟨x, hx, hrest⟩ := hcut
    refine ⟨x, hx, ?_⟩
    rw [funext (hback r), ← map_filterMap, filterMap_reverse]
    simpa using hrest.reverse
  obtain ⟨s₁, hs₁⟩ := Classical.skolem.1 hrow
  exact ⟨s₁, fun r => (hs₁ r).1, fun r => (hs₁ r).2⟩

end Rmdb.Replay
