/-
Calls on a state, one after another.

`run` keeps the calls with their replies, the last one first. An invariant may
speak about this trace as well as about the state.
-/
import Mathlib.Tactic

namespace Rmdb.Run

variable {σ α β : Type*}

def runFrom (step : σ → α → Option (β × σ)) : List (α × β) → σ → List α → Option (List (α × β) × σ)
  | h, s, [] => some (h, s)
  | h, s, a :: as =>
    match step s a with
    | none => none
    | some (b, s) => runFrom step ((a, b) :: h) s as

def run (step : σ → α → Option (β × σ)) (s : σ) (as : List α) : Option (List (α × β) × σ) :=
  runFrom step [] s as

/-- Every call meets the condition in the state it is made in. -/
def Along (step : σ → α → Option (β × σ)) (C : σ → α → Prop) : σ → List α → Prop
  | _, [] => True
  | s, a :: as => C s a ∧ ∀ b s', step s a = some (b, s') → Along step C s' as

variable {step : σ → α → Option (β × σ)} {R : List (α × β) → σ → Prop} {C : σ → α → Prop}

theorem Along.of_forall (h : ∀ s a, C s a) : ∀ (s : σ) (as : List α), Along step C s as
  | _, [] => trivial
  | s, a :: as => ⟨h s a, fun _ s' _ => Along.of_forall h s' as⟩

theorem Along.cons {s s' : σ} {a : α} {b : β} {as : List α} (ha : C s a) (hs : step s a = some (b, s'))
    (has : Along step C s' as) : Along step C s (a :: as) := by
  refine ⟨ha, fun b₁ s₁ h₁ => ?_⟩
  rw [hs, Option.some.injEq, Prod.mk.injEq] at h₁
  exact h₁.2 ▸ has

instance decidableAlong [∀ s a, Decidable (C s a)] : (s : σ) → (as : List α) → Decidable (Along step C s as)
  | _, [] => .isTrue trivial
  | s, a :: as =>
    letI : ∀ r : β × σ, Decidable (Along step C r.2 as) := fun r => decidableAlong r.2 as
    decidable_of_iff (C s a ∧ ∀ r ∈ step s a, Along step C r.2 as)
      ⟨fun h => ⟨h.1, fun b s' hs => h.2 (b, s') hs⟩, fun h => ⟨h.1, fun r hr => h.2 r.1 r.2 hr⟩⟩

theorem Along.of_mem {P : α → Prop} : ∀ {as : List α}, (∀ a ∈ as, P a) → ∀ s, Along step (fun _ a => P a) s as
  | [], _, _ => trivial
  | _ :: as, h, _ => ⟨h _ (by simp), fun _ s' _ => Along.of_mem (fun a ha => h a (by simp [ha])) s'⟩

theorem runFrom_append (as bs : List α) (h : List (α × β)) (s : σ) :
    runFrom step h s (as ++ bs) = (runFrom step h s as).bind fun r => runFrom step r.1 r.2 bs := by
  induction as generalizing h s with
  | nil => rfl
  | cons a as ih =>
    rw [List.cons_append, runFrom, runFrom]
    cases step s a with
    | none => rfl
    | some r => exact ih _ _

theorem runFrom_total (hstep : ∀ h s a, R h s → C s a → ∃ b s', step s a = some (b, s') ∧ R ((a, b) :: h) s') :
    ∀ (as : List α) {h : List (α × β)} {s : σ}, R h s → Along step C s as →
      ∃ h' s', runFrom step h s as = some (h', s') ∧ R h' s' ∧ h'.map Prod.fst = as.reverse ++ h.map Prod.fst
  | [], h, s, hR, _ => ⟨h, s, rfl, hR, by simp⟩
  | a :: as, h, s, hR, hC => by
    obtain ⟨b, s₁, hs, hR₁⟩ := hstep h s a hR hC.1
    obtain ⟨h', s', hrun, hR', hcalls⟩ := runFrom_total hstep as hR₁ (hC.2 b s₁ hs)
    refine ⟨h', s', ?_, hR', by simp [hcalls]⟩
    rw [runFrom, hs]
    exact hrun

/-- No call fails where the invariant and the condition hold, so none fails in
a run of such calls, and the invariant holds at its end. -/
theorem run_total {s : σ} (hinit : R [] s)
    (hstep : ∀ h s a, R h s → C s a → ∃ b s', step s a = some (b, s') ∧ R ((a, b) :: h) s') (as : List α)
    (hC : Along step C s as) :
    ∃ h s', run step s as = some (h, s') ∧ R h s' ∧ h.map Prod.fst = as.reverse := by
  obtain ⟨h, s', hrun, hR, hcalls⟩ := runFrom_total hstep as hinit hC
  exact ⟨h, s', hrun, hR, by simpa using hcalls⟩

/-- A condition on a run is one on its first part, and on the rest from where that ends. -/
theorem Along.of_append : ∀ {as bs : List α} {s : σ}, Along step C s (as ++ bs) → Along step C s as ∧
    ∀ {h h' : List (α × β)} {s' : σ}, runFrom step h s as = some (h', s') → Along step C s' bs
  | [], bs, s, hC => ⟨trivial, fun {h h' s'} hrun => by
      rw [runFrom, Option.some.injEq, Prod.mk.injEq] at hrun
      exact hrun.2 ▸ hC⟩
  | a :: as, bs, s, hC => by
    refine ⟨⟨hC.1, fun b s' hs => (Along.of_append (hC.2 b s' hs)).1⟩, fun {h h' s'} hrun => ?_⟩
    rw [runFrom] at hrun
    cases hs : step s a with
    | none => simp [hs] at hrun
    | some r =>
      rw [hs] at hrun
      exact (Along.of_append (hC.2 r.1 r.2 hs)).2 hrun

/-- What every call keeps, where the condition holds, holds at the end of a run. -/
theorem runFrom_invariant (hstep : ∀ h s a b s', R h s → C s a → step s a = some (b, s') → R ((a, b) :: h) s') :
    ∀ {as : List α} {h h' : List (α × β)} {s s' : σ}, R h s → Along step C s as →
      runFrom step h s as = some (h', s') → R h' s'
  | [], h, h', s, s', hR, _, hrun => by
    rw [runFrom, Option.some.injEq, Prod.mk.injEq] at hrun
    exact hrun.1 ▸ hrun.2 ▸ hR
  | a :: as, h, h', s, s', hR, hC, hrun => by
    rw [runFrom] at hrun
    cases hs : step s a with
    | none => simp [hs] at hrun
    | some r =>
      rw [hs] at hrun
      exact runFrom_invariant hstep (hstep h s a r.1 r.2 hR hC.1 hs) (hC.2 r.1 r.2 hs) hrun

theorem run_invariant (hstep : ∀ h s a b s', R h s → step s a = some (b, s') → R ((a, b) :: h) s') {as : List α}
    {h : List (α × β)} {s s' : σ} (hR : R [] s) (hrun : run step s as = some (h, s')) : R h s' :=
  runFrom_invariant (C := fun _ _ => True) (fun h s a b s' hR _ => hstep h s a b s' hR) hR
    (Along.of_forall (fun _ _ => trivial) s as) hrun

end Rmdb.Run
