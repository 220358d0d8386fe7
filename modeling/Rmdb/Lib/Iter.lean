/-
Iterators that are pulled row by row.

`beginTuple` puts an iterator on its first row, `next` hands out the row it
stands on, once, and `nextTuple` moves it on. `Shows rows s` says that from
`s` on it gives these rows and is then at its end, and `Replays rows` that it
does so after every `beginTuple`. Both are relative to a set of states that
the calls do not leave.
-/
import Mathlib.Tactic

namespace Rmdb

open Option

structure Iter (σ ρ : Type) where
  beginTuple : σ → Option σ
  nextTuple : σ → Option σ
  isEnd : σ → Bool
  next : σ → Option (ρ × σ)

namespace Iter

variable {σ ρ : Type} {e : Iter σ ρ} {P : σ → Prop} {s : σ} {r : ρ} {rows rows' : List ρ}

def Shows (e : Iter σ ρ) (P : σ → Prop) : List ρ → σ → Prop
  | [], s => P s ∧ e.isEnd s = true
  | r :: rows, s => P s ∧ e.isEnd s = false ∧ ∃ s₁, e.next s = some (r, s₁) ∧ P s₁ ∧ e.isEnd s₁ = false ∧
      ∃ s₂, e.nextTuple s₁ = some s₂ ∧ e.Shows P rows s₂

def Replays (e : Iter σ ρ) (P : σ → Prop) (rows : List ρ) : Prop :=
  ∀ s, P s → ∃ s', e.beginTuple s = some s' ∧ e.Shows P rows s'

def Begins (e : Iter σ ρ) (rows : List ρ) (s : σ) : Prop :=
  ∃ s', e.beginTuple s = some s' ∧ e.Shows (fun _ => True) rows s'

theorem begins_iff {s' : σ} (h : e.beginTuple s = some s') : e.Begins rows s ↔ e.Shows (fun _ => True) rows s' := by
  simp [Begins, h]

def Stands (e : Iter σ ρ) (P : σ → Prop) (rows : List ρ) (s : σ) : Prop :=
  P s ∧ e.isEnd s = false ∧ ∃ s', e.nextTuple s = some s' ∧ e.Shows P rows s'

theorem Shows.next (h : e.Shows P (r :: rows) s) : ∃ s', e.next s = some (r, s') ∧ e.Stands P rows s' := by
  obtain ⟨-, -, s', hnext, hstands⟩ := h
  exact ⟨s', hnext, hstands⟩

theorem shows_cons {s' : σ} (hs : P s) (hend : e.isEnd s = false) (hnext : e.next s = some (r, s'))
    (h : e.Stands P rows s') : e.Shows P (r :: rows) s := ⟨hs, hend, s', hnext, h⟩

theorem Shows.state : ∀ {rows : List ρ}, e.Shows P rows s → P s
  | [], h => h.1
  | _ :: _, h => h.1

theorem Shows.isEnd_eq : ∀ {rows : List ρ}, e.Shows P rows s → e.isEnd s = rows.isEmpty
  | [], h => h.2
  | _ :: _, h => h.2.1

theorem Shows.unique : ∀ {rows rows' : List ρ} {s : σ}, e.Shows P rows s → e.Shows P rows' s → rows = rows'
  | [], [], _, _, _ => rfl
  | [], _ :: _, _, h, h' => absurd (h.isEnd_eq.symm.trans h'.isEnd_eq) (by simp)
  | _ :: _, [], _, h, h' => absurd (h.isEnd_eq.symm.trans h'.isEnd_eq) (by simp)
  | r :: rows, r' :: rows', s, h, h' => by
    obtain ⟨-, -, s₁, hnext, -, -, s₂, hstep, hrows⟩ := h
    obtain ⟨-, -, s₁', hnext', -, -, s₂', hstep', hrows'⟩ := h'
    rw [hnext, some.injEq, Prod.mk.injEq] at hnext'
    obtain ⟨rfl, rfl⟩ := hnext'
    rw [hstep, some.injEq] at hstep'
    subst hstep'
    rw [Shows.unique hrows hrows']

theorem Replays.unique (h : e.Replays P rows) (h' : e.Replays P rows') (hs : P s) : rows = rows' := by
  obtain ⟨s₁, hs₁, hrows⟩ := h s hs
  obtain ⟨s₂, hs₂, hrows'⟩ := h' s hs
  rw [hs₁, some.injEq] at hs₂
  subst hs₂
  exact hrows.unique hrows'

theorem Shows.forget : ∀ {rows : List ρ} {s : σ}, e.Shows P rows s → e.Shows (fun _ => True) rows s
  | [], _, h => ⟨trivial, h.2⟩
  | _ :: _, _, ⟨_, hend, s₁, hnext, _, hend₁, s₂, hstep, hrows⟩ =>
    ⟨trivial, hend, s₁, hnext, trivial, hend₁, s₂, hstep, hrows.forget⟩

theorem Replays.begins (h : e.Replays P rows) (hs : P s) : e.Begins rows s := by
  obtain ⟨s', hs', hrows⟩ := h s hs
  exact ⟨s', hs', hrows.forget⟩

theorem Begins.unique (h : e.Begins rows s) (h' : e.Begins rows' s) : rows = rows' := by
  obtain ⟨s₁, hs₁, hrows⟩ := h
  obtain ⟨s₂, hs₂, hrows'⟩ := h'
  rw [hs₁, some.injEq] at hs₂
  subst hs₂
  exact hrows.unique hrows'

def take (e : Iter σ ρ) : Nat → σ → Option σ
  | 0, s => some s
  | k + 1, s =>
    if e.isEnd s then some s
    else do
      let (_, s) ← e.next s
      e.take k (← e.nextTuple s)

def passes (e : Iter σ ρ) : List Nat → σ → Option σ
  | [], s => some s
  | k :: ks, s => do e.passes ks (← e.take k (← e.beginTuple s))

theorem Shows.take : ∀ {rows : List ρ} {s : σ} (k : Nat), e.Shows P rows s →
    ∃ s', e.take k s = some s' ∧ e.Shows P (rows.drop k) s'
  | _, s, 0, h => ⟨s, rfl, h⟩
  | [], s, _ + 1, h => ⟨s, by rw [Iter.take, if_pos h.2], h⟩
  | _ :: _, s, k + 1, ⟨_, hend, s₁, hnext, _, _, s₂, hstep, hrows⟩ => by
    obtain ⟨s', hs', hrest⟩ := hrows.take k
    refine ⟨s', ?_, hrest⟩
    rw [Iter.take, if_neg (by simp [hend]), hnext]
    simpa [hstep] using hs'

theorem take_of_isEnd (h : e.isEnd s = true) (k : Nat) : e.take k s = some s := by
  cases k with
  | zero => rfl
  | succ k => rw [take, if_pos h]

/-- An iterator over the rows of a list; its state are the rows to come. -/
def ofList (rows : List ρ) : Iter (List ρ) ρ where
  beginTuple _ := some rows
  nextTuple s := some s.tail
  isEnd s := s.isEmpty
  next s := s.head?.map fun r => (r, s)

theorem shows_ofList (all : List ρ) : ∀ rows : List ρ, (ofList all).Shows (fun _ => True) rows rows
  | [] => ⟨trivial, rfl⟩
  | r :: rows => ⟨trivial, rfl, r :: rows, rfl, trivial, rfl, rows, rfl, shows_ofList all rows⟩

theorem replays_ofList (rows : List ρ) : (ofList rows).Replays (fun _ => True) rows :=
  fun _ _ => ⟨rows, rfl, shows_ofList rows rows⟩

end Iter

end Rmdb
