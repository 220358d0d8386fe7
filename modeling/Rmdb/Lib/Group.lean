/-
Rows put into groups, one after the other.

A row goes to the first group whose first row it is like, and begins a group of
its own if there is none. A table that keeps a summary of each group instead of
its rows is the image of the groups when its step is the image of adding a row.
-/
import Mathlib.Tactic

namespace Rmdb

open List

variable {α β : Type}

def addToGroup (like : α → α → Bool) (a : α) : List (List α) → List (List α)
  | [] => [[a]]
  | g :: gs => if g.head?.any fun b => like b a then (g ++ [a]) :: gs else g :: addToGroup like a gs

def groups (like : α → α → Bool) (rows : List α) : List (List α) :=
  rows.foldl (fun gs a => addToGroup like a gs) []

variable {like : α → α → Bool} {rows : List α} {gs : List (List α)} {g : List α} {a : α}

theorem mem_addToGroup : g ∈ addToGroup like a gs →
    g ∈ gs ∨ g = [a] ∨ ∃ g' ∈ gs, g'.head?.any (like · a) ∧ g = g' ++ [a] := by
  induction gs with
  | nil => exact fun h => .inr (.inl (mem_singleton.1 h))
  | cons g' gs ih =>
    intro h
    unfold addToGroup at h
    split at h
    · next hlike =>
      obtain rfl | h := mem_cons.1 h
      · exact .inr (.inr ⟨g', mem_cons_self, hlike, rfl⟩)
      · exact .inl (mem_cons_of_mem _ h)
    · obtain rfl | h := mem_cons.1 h
      · exact .inl mem_cons_self
      · obtain h | h | ⟨g'', hg'', h⟩ := ih h
        · exact .inl (mem_cons_of_mem _ h)
        · exact .inr (.inl h)
        · exact .inr (.inr ⟨g'', mem_cons_of_mem _ hg'', h⟩)

theorem addToGroup_ne_nil (h : ∀ g ∈ gs, g ≠ []) (hg : g ∈ addToGroup like a gs) : g ≠ [] := by
  obtain h' | rfl | ⟨g', -, -, rfl⟩ := mem_addToGroup hg
  · exact h g h'
  · simp
  · simp

theorem flatten_addToGroup : ∀ gs : List (List α), (addToGroup like a gs).flatten.Perm (gs.flatten ++ [a])
  | [] => by simp [addToGroup]
  | g :: gs => by
    unfold addToGroup
    split
    · simpa using (@perm_append_comm _ [a] gs.flatten).append_left g
    · simpa using (flatten_addToGroup gs).append_left g

theorem groups_concat (rows : List α) (a : α) : groups like (rows ++ [a]) = addToGroup like a (groups like rows) := by
  simp [groups]

theorem groups_ne_nil (rows : List α) : ∀ g ∈ groups like rows, g ≠ [] := by
  induction rows using List.reverseRecOn with
  | nil => exact nofun
  | append_singleton rows a ih => exact fun g hg => addToGroup_ne_nil ih (groups_concat rows a ▸ hg)

theorem groups_eq_nil : groups like rows = [] ↔ rows = [] := by
  constructor
  · intro h
    obtain rfl | ⟨rows, a, rfl⟩ := rows.eq_nil_or_concat
    · rfl
    · have hperm := @flatten_addToGroup _ like a (groups like rows)
      rw [← groups_concat, ← concat_eq_append, h] at hperm
      simpa using hperm.length_eq
  · rintro rfl
    rfl

theorem groups_of_all_like (h : ∀ a b, like a b = true) (hrows : rows ≠ []) : groups like rows = [rows] := by
  induction rows using List.reverseRecOn with
  | nil => exact absurd rfl hrows
  | append_singleton rows a ih =>
    rw [groups_concat]
    cases rows with
    | nil => rfl
    | cons b rows => rw [ih (cons_ne_nil _ _), addToGroup, if_pos (by simp [h])]

/-! ## Groups of one row -/

def Singles (like : α → α → Bool) (rows : List α) : Prop := ∀ g ∈ groups like rows, g.length = 1

theorem mem_addToGroup_or (a : α) (hg : g ∈ gs) : g ∈ addToGroup like a gs ∨ g ++ [a] ∈ addToGroup like a gs := by
  induction gs with
  | nil => cases hg
  | cons g' gs ih =>
    unfold addToGroup
    obtain rfl | hg := mem_cons.1 hg
    · split
      · exact .inr mem_cons_self
      · exact .inl mem_cons_self
    · split
      · exact .inl (mem_cons_of_mem _ hg)
      · exact (ih hg).imp (mem_cons_of_mem _) (mem_cons_of_mem _)

theorem exists_grown (hg : g ∈ gs) (hlike : g.head?.any (like · a)) : ∃ g' ∈ gs, g' ++ [a] ∈ addToGroup like a gs := by
  induction gs with
  | nil => cases hg
  | cons g' gs ih =>
    unfold addToGroup
    split
    · exact ⟨g', mem_cons_self, mem_cons_self⟩
    · next hne =>
      obtain rfl | hg := mem_cons.1 hg
      · exact absurd hlike hne
      · obtain ⟨g'', hmem, hgrown⟩ := ih hg
        exact ⟨g'', mem_cons_of_mem _ hmem, mem_cons_of_mem _ hgrown⟩

theorem length_concat_ne_one (hg : g ≠ []) : (g ++ [a]).length ≠ 1 := by
  have := length_pos_iff.2 hg
  rw [length_append, length_singleton]
  omega

theorem Singles.of_concat (h : Singles like (rows ++ [a])) : Singles like rows := by
  intro g hg
  rw [Singles, groups_concat] at h
  obtain hmem | hmem := mem_addToGroup_or a hg
  · exact h g hmem
  · exact absurd (h _ hmem) (length_concat_ne_one (groups_ne_nil rows g hg))

theorem Singles.of_append {rows' : List α} (h : Singles like (rows ++ rows')) : Singles like rows := by
  induction rows' using List.reverseRecOn with
  | nil => rwa [append_nil] at h
  | append_singleton rows' a ih =>
    rw [← append_assoc] at h
    exact ih h.of_concat

theorem Singles.alone (h : Singles like (rows ++ [a])) : ∀ g ∈ groups like rows, ¬ g.head?.any (like · a) := by
  intro g hg hlike
  rw [Singles, groups_concat] at h
  obtain ⟨g', hg', hgrown⟩ := exists_grown hg hlike
  exact length_concat_ne_one (groups_ne_nil rows g' hg') (h _ hgrown)

theorem Singles.concat (h : Singles like rows) (halone : ∀ g ∈ groups like rows, ¬ g.head?.any (like · a)) :
    Singles like (rows ++ [a]) := by
  intro g hg
  rw [groups_concat] at hg
  obtain hg | rfl | ⟨g', hg', hlike, -⟩ := mem_addToGroup hg
  · exact h g hg
  · rfl
  · exact absurd hlike (halone g' hg')

end Rmdb
