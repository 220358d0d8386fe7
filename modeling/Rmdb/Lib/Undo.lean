/-
Undo logs of several writers.

Each writer keeps the rows it wrote, the last one first, with what was there
before and after, and takes them back in that order. As long as no writer touches
a row of another's log or takes a key that stands in one, each can take its own
rows back at any time: it finds what it wrote, and the keys it needs are free.
-/
import Mathlib.Logic.Function.Basic
import Mathlib.Tactic

namespace Rmdb.Undo

open Function

variable {ρ α τ ι : Type} {κ : ι → Type}

/-- A write of a row: `none` is a row that is not there. -/
structure Write (ρ α : Type) where
  row : ρ
  old : Option α
  new : Option α

def Write.Image (w : Write ρ α) (a : α) : Prop := w.old = some a ∨ w.new = some a

def Touched (ws : List (Write ρ α)) (r : ρ) : Prop := ∃ w ∈ ws, w.row = r

/-- The value has no key in common with a row of the log, before or after. -/
def Apart (key : (i : ι) → α → κ i) (ws : List (Write ρ α)) (a : α) : Prop :=
  ∀ w ∈ ws, ∀ b, w.Image b → ∀ i, key i a ≠ key i b

def Distinct (key : (i : ι) → α → κ i) (s : ρ → Option α) : Prop :=
  ∀ i r r' a b, s r = some a → s r' = some b → key i a = key i b → r = r'

/-- The log leads back from `s`: each write is found as it was left, and what
it puts back has no key of another row of the log. -/
def Chain [DecidableEq ρ] (key : (i : ι) → α → κ i) : (ρ → Option α) → List (Write ρ α) → Prop
  | _, [] => True
  | s, w :: ws =>
    s w.row = w.new ∧
      (∀ a r b, w.old = some a → r ≠ w.row → Touched ws r → s r = some b → ∀ i, key i a ≠ key i b) ∧
      (¬ Touched ws w.row → ∀ a, w.old = some a → Apart key ws a) ∧
      Chain key (update s w.row w.old) ws

structure LogsOK [DecidableEq ρ] (key : (i : ι) → α → κ i) (s : ρ → Option α) (logs : τ → List (Write ρ α)) : Prop where
  distinct : Distinct key s
  chain : ∀ t, Chain key s (logs t)
  rows : ∀ t u r, t ≠ u → Touched (logs t) r → ¬ Touched (logs u) r
  keys : ∀ t u, t ≠ u → ∀ w ∈ logs t, ∀ a, w.Image a → Apart key (logs u) a
  others : ∀ t r a, s r = some a → ¬ Touched (logs t) r → Apart key (logs t) a

variable {key : (i : ι) → α → κ i} {s : ρ → Option α} {logs : τ → List (Write ρ α)} {w : Write ρ α} {ws : List (Write ρ α)}
  {t : τ} {r : ρ} {a : α}

theorem touched_cons : Touched (w :: ws) r ↔ w.row = r ∨ Touched ws r := by simp [Touched]

theorem not_touched_nil : ¬ Touched ([] : List (Write ρ α)) r := by simp [Touched]

theorem apart_nil : Apart key ([] : List (Write ρ α)) a := fun _ hw => absurd hw List.not_mem_nil

theorem apart_cons : Apart key (w :: ws) a ↔ (∀ b, w.Image b → ∀ i, key i a ≠ key i b) ∧ Apart key ws a := by
  simp [Apart]

theorem Apart.of_cons (h : Apart key (w :: ws) a) : Apart key ws a := (apart_cons.1 h).2

variable [DecidableEq ρ]

theorem Chain.congr : ∀ {ws : List (Write ρ α)} {s s' : ρ → Option α}, Chain key s ws →
    (∀ r, Touched ws r → s' r = s r) → Chain key s' ws
  | [], _, _, _, _ => trivial
  | w :: ws, s, s', h, hs => by
    obtain ⟨hnew, hrows, hfresh, hrest⟩ := h
    refine ⟨(hs _ (touched_cons.2 (.inl rfl))).trans hnew, fun a r b ha hr hmem hb => ?_, hfresh, ?_⟩
    · exact hrows a r b ha hr hmem ((hs r (touched_cons.2 (.inr hmem))) ▸ hb)
    · refine hrest.congr fun r hr => ?_
      by_cases hrw : r = w.row
      · subst hrw
        simp
      · rw [update_of_ne hrw, update_of_ne hrw, hs r (touched_cons.2 (.inr hr))]

theorem LogsOK.init (h : Distinct key s) : LogsOK key s fun _ : τ => [] where
  distinct := h
  chain _ := trivial
  rows _ _ _ _ h := absurd h not_touched_nil
  keys _ _ _ _ h := absurd h List.not_mem_nil
  others _ _ _ _ _ := apart_nil

/-- What the last write found has no key of a row that is there. -/
theorem LogsOK.old_apart (h : LogsOK key s logs) (ht : logs t = w :: ws) (ha : w.old = some a) {r : ρ} {b : α}
    (hr : r ≠ w.row) (hb : s r = some b) (i : ι) : key i a ≠ key i b := by
  obtain ⟨-, hrows, -, -⟩ := ht ▸ h.chain t
  by_cases hown : Touched ws r
  · exact hrows a r b ha hr hown hb i
  · have hnot : ¬ Touched (logs t) r := by
      rw [ht, touched_cons, not_or]
      exact ⟨Ne.symm hr, hown⟩
    have hmem : w ∈ logs t := ht ▸ List.mem_cons_self
    exact fun hkey => h.others t r b hb hnot w hmem a (.inl ha) i hkey.symm

variable [DecidableEq τ]

theorem LogsOK.write (h : LogsOK key s logs) (hold : s w.row = w.old) (hdistinct : Distinct key (update s w.row w.new))
    (hrow : ∀ u ≠ t, ¬ Touched (logs u) w.row) (hkeys : ∀ u ≠ t, ∀ a, w.new = some a → Apart key (logs u) a) :
    LogsOK key (update s w.row w.new) (update logs t (w :: logs t)) := by
  have himage : ∀ u ≠ t, ∀ a, w.Image a → Apart key (logs u) a := by
    rintro u hu a (ha | ha)
    · exact h.others u w.row a (hold.trans ha) (hrow u hu)
    · exact hkeys u hu a ha
  refine ⟨hdistinct, fun u => ?_, fun u v r huv hu hv => ?_, fun u v huv w' hw' a ha => ?_, fun u r a ha hr => ?_⟩
  · by_cases hu : u = t
    · subst hu
      rw [update_self]
      refine ⟨by simp, fun a r b ha hr _ hb i hkey => ?_, fun hnot a ha => ?_, ?_⟩
      · rw [update_of_ne hr] at hb
        exact hr (h.distinct i _ _ _ _ (hold.trans ha) hb hkey).symm
      · exact h.others u w.row a (hold.trans ha) hnot
      · rw [update_idem, ← hold, update_eq_self]
        exact h.chain u
    · rw [update_of_ne hu]
      refine (h.chain u).congr fun r hr => update_of_ne ?_ _ _
      rintro rfl
      exact hrow u hu hr
  · by_cases hut : u = t
    · subst hut
      rw [update_self, touched_cons] at hu
      rw [update_of_ne (Ne.symm huv)] at hv
      rcases hu with rfl | hu
      · exact hrow v (Ne.symm huv) hv
      · exact h.rows u v r huv hu hv
    · rw [update_of_ne hut] at hu
      by_cases hvt : v = t
      · subst hvt
        rw [update_self, touched_cons] at hv
        rcases hv with rfl | hv
        · exact hrow u hut hu
        · exact h.rows u v r huv hu hv
      · rw [update_of_ne hvt] at hv
        exact h.rows u v r huv hu hv
  · by_cases hut : u = t
    · subst hut
      rw [update_of_ne (Ne.symm huv)]
      rw [update_self] at hw'
      rcases List.mem_cons.1 hw' with rfl | hw'
      · exact himage v (Ne.symm huv) a ha
      · exact h.keys u v huv w' hw' a ha
    · rw [update_of_ne hut] at hw'
      by_cases hvt : v = t
      · subst hvt
        rw [update_self, apart_cons]
        exact ⟨fun b hb i hkey => himage u hut b hb w' hw' a ha i hkey.symm, h.keys u v huv w' hw' a ha⟩
      · rw [update_of_ne hvt]
        exact h.keys u v huv w' hw' a ha
  · by_cases hut : u = t
    · subst hut
      rw [update_self, touched_cons, not_or] at hr
      rw [update_of_ne (Ne.symm hr.1)] at ha
      rw [update_self, apart_cons]
      refine ⟨fun b hb i hkey => hr.1 ?_, h.others u r a ha hr.2⟩
      rcases hb with hb | hb
      · exact h.distinct i _ _ _ _ (hold.trans hb) ha hkey.symm
      · exact hdistinct i _ _ _ _ ((update_self ..).trans hb) (by rwa [update_of_ne (Ne.symm hr.1)]) hkey.symm
    · rw [update_of_ne hut] at hr ⊢
      by_cases hrw : r = w.row
      · subst hrw
        rw [update_self] at ha
        exact hkeys u hut a ha
      · rw [update_of_ne hrw] at ha
        exact h.others u r a ha hr

theorem LogsOK.drop (h : LogsOK key s logs) (t : τ) : LogsOK key s (update logs t []) := by
  refine ⟨h.distinct, fun u => ?_, fun u v r huv hu hv => ?_, fun u v huv w hw a ha => ?_, fun u r a ha hr => ?_⟩
  · by_cases hut : u = t
    · subst hut
      rw [update_self]
      trivial
    · rw [update_of_ne hut]
      exact h.chain u
  · by_cases hut : u = t
    · subst hut
      rw [update_self] at hu
      exact not_touched_nil hu
    · by_cases hvt : v = t
      · subst hvt
        rw [update_self] at hv
        exact not_touched_nil hv
      · rw [update_of_ne hut] at hu
        rw [update_of_ne hvt] at hv
        exact h.rows u v r huv hu hv
  · by_cases hut : u = t
    · subst hut
      rw [update_self] at hw
      exact absurd hw List.not_mem_nil
    · rw [update_of_ne hut] at hw
      by_cases hvt : v = t
      · subst hvt
        rw [update_self]
        exact apart_nil
      · rw [update_of_ne hvt]
        exact h.keys u v huv w hw a ha
  · by_cases hut : u = t
    · subst hut
      rw [update_self]
      exact apart_nil
    · rw [update_of_ne hut] at hr ⊢
      exact h.others u r a ha hr

/-- What a writer's last write put down is there, and what it found can be put back. -/
theorem LogsOK.undo (h : LogsOK key s logs) (ht : logs t = w :: ws) :
    s w.row = w.new ∧ LogsOK key (update s w.row w.old) (update logs t ws) := by
  have hmem : w ∈ logs t := ht ▸ List.mem_cons_self
  have hsub : ∀ r, Touched ws r → Touched (logs t) r := fun r hr => ht ▸ touched_cons.2 (.inr hr)
  have hw : Touched (logs t) w.row := ⟨w, hmem, rfl⟩
  obtain ⟨hnew, -, hfresh, hrest⟩ := ht ▸ h.chain t
  refine ⟨hnew, fun i r r' a b ha hb hkey => ?_, fun u => ?_, fun u v r huv hu hv => ?_,
    fun u v huv w' hw' a ha => ?_, fun u r a ha hr => ?_⟩
  · -- only the row that was put back is new
    by_cases hr : r = w.row
    · by_cases hr' : r' = w.row
      · exact hr.trans hr'.symm
      · rw [hr, update_self] at ha
        rw [update_of_ne hr'] at hb
        exact absurd hkey (h.old_apart ht ha hr' hb i)
    · rw [update_of_ne hr] at ha
      by_cases hr' : r' = w.row
      · rw [hr', update_self] at hb
        exact absurd hkey.symm (h.old_apart ht hb hr ha i)
      · rw [update_of_ne hr'] at hb
        exact h.distinct i r r' a b ha hb hkey
  · by_cases hut : u = t
    · subst hut
      rwa [update_self]
    · rw [update_of_ne hut]
      refine (h.chain u).congr fun r hr => update_of_ne ?_ _ _
      rintro rfl
      exact h.rows u t _ hut hr hw
  · by_cases hut : u = t
    · subst hut
      rw [update_self] at hu
      rw [update_of_ne (Ne.symm huv)] at hv
      exact h.rows u v r huv (hsub r hu) hv
    · rw [update_of_ne hut] at hu
      by_cases hvt : v = t
      · subst hvt
        rw [update_self] at hv
        exact h.rows u v r huv hu (hsub r hv)
      · rw [update_of_ne hvt] at hv
        exact h.rows u v r huv hu hv
  · by_cases hut : u = t
    · subst hut
      rw [update_self] at hw'
      rw [update_of_ne (Ne.symm huv)]
      exact h.keys u v huv w' (ht ▸ List.mem_cons_of_mem _ hw') a ha
    · rw [update_of_ne hut] at hw'
      by_cases hvt : v = t
      · subst hvt
        rw [update_self]
        exact (ht ▸ h.keys u v huv w' hw' a ha).of_cons
      · rw [update_of_ne hvt]
        exact h.keys u v huv w' hw' a ha
  · by_cases hut : u = t
    · subst hut
      rw [update_self] at hr ⊢
      by_cases hrw : r = w.row
      · subst hrw
        rw [update_self] at ha
        exact hfresh hr a ha
      · rw [update_of_ne hrw] at ha
        have hnot : ¬ Touched (logs u) r := by
          rw [ht, touched_cons, not_or]
          exact ⟨Ne.symm hrw, hr⟩
        exact (ht ▸ h.others u r a ha hnot).of_cons
    · rw [update_of_ne hut] at hr ⊢
      by_cases hrw : r = w.row
      · subst hrw
        rw [update_self] at ha
        exact h.keys t u (Ne.symm hut) w hmem a (.inl ha)
      · rw [update_of_ne hrw] at ha
        exact h.others u r a ha hr

end Rmdb.Undo
