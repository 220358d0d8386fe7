/-
Lists cut at an element: where an element of a concatenation sits, when a list
without repetitions fits into a range, and when a concatenation tells its parts.
-/
import Mathlib.Tactic

namespace Rmdb.Lists

open List

variable {α β : Type}

theorem flatMap_cut {f : α → List β} : ∀ {l : List α} {X : List β} {e : β} {Y : List β},
    l.flatMap f = X ++ e :: Y →
    ∃ l₁ a l₂ x y, l = l₁ ++ a :: l₂ ∧ f a = x ++ e :: y ∧ X = l₁.flatMap f ++ x ∧ Y = y ++ l₂.flatMap f
  | [], X, e, Y, h => by simp at h
  | a :: l, X, e, Y, h => by
    rw [flatMap_cons] at h
    rcases append_eq_append_iff.1 h with ⟨Z, hX, hZ⟩ | ⟨Z, ha, hY⟩
    · -- the cut is behind the first block
      obtain ⟨l₁, a', l₂, x, y, rfl, hf, hx, hy⟩ := flatMap_cut hZ
      exact ⟨a :: l₁, a', l₂, x, y, rfl, hf, by rw [hX, hx, flatMap_cons, append_assoc], hy⟩
    · cases Z with
      | nil =>
        simp only [append_nil, nil_append] at ha hY
        obtain ⟨l₁, a', l₂, x, y, rfl, hf, hx, hy⟩ := flatMap_cut (X := []) hY.symm
        exact ⟨a :: l₁, a', l₂, x, y, rfl, hf, by rw [flatMap_cons, append_assoc, ← hx, ha, append_nil], hy⟩
      | cons z Z =>
        simp only [cons_append, List.cons.injEq] at hY
        obtain ⟨rfl, rfl⟩ := hY
        exact ⟨[], a, l, X, Z, rfl, ha, by simp, rfl⟩

theorem forall_mem_replace {Q : α → Prop} {A B : List α} {x y : α} (h : ∀ b ∈ A ++ x :: B, Q b) (hy : Q y) :
    ∀ b ∈ A ++ y :: B, Q b := by
  simp only [mem_append, mem_cons] at h ⊢
  rintro b (hb | rfl | hb)
  · exact h b (.inl hb)
  · exact hy
  · exact h b (.inr (.inr hb))

theorem forall_mem_insert {Q : α → Prop} {A B : List α} {x : α} (h : ∀ b ∈ A ++ B, Q b) (hx : Q x) :
    ∀ b ∈ A ++ x :: B, Q b := by
  simp only [mem_append, mem_cons] at h ⊢
  rintro b (hb | rfl | hb)
  · exact h b (.inl hb)
  · exact hx
  · exact h b (.inr hb)

theorem forall_mem_insert_two {Q : α → Prop} {A B : List α} {x y : α} (h : ∀ b ∈ A ++ B, Q b) (hx : Q x) (hy : Q y) :
    ∀ b ∈ A ++ x :: y :: B, Q b := by
  simp only [mem_append, mem_cons] at h ⊢
  rintro b (hb | rfl | rfl | hb)
  · exact h b (.inl hb)
  · exact hx
  · exact hy
  · exact h b (.inr hb)

theorem length_le_of_nodup {l : List Int} {a b : Int} (h : l.Nodup) (hl : ∀ x ∈ l, a ≤ x ∧ x < b) :
    l.length ≤ (b - a).toNat := by
  have hsub : l.toFinset ⊆ Finset.Ico a b := fun x hx => by
    simpa using hl x (mem_toFinset.1 hx)
  have hcard := Finset.card_le_card hsub
  rwa [toFinset_card_of_nodup h, Int.card_Ico] at hcard

/-- The length of the blocks of one element, where each entry tells its element. -/
theorem countP_flatMap_tag [DecidableEq α] {f : α → List β} {tag : β → α} (a : α) : ∀ {l : List α},
    (∀ a ∈ l, ∀ b ∈ f a, tag b = a) → (l.flatMap f).countP (fun b => tag b = a) = l.count a * (f a).length
  | [], _ => by simp
  | x :: l, h => by
    have ih := countP_flatMap_tag a (l := l) fun y hy => h y (mem_cons_of_mem _ hy)
    rw [flatMap_cons, countP_append, ih, count_cons]
    by_cases hx : x = a
    · subst hx
      have hall : (f x).countP (fun b => tag b = x) = (f x).length :=
        countP_eq_length.2 fun b hb => decide_eq_true (h x mem_cons_self b hb)
      simp [hall, Nat.add_mul, Nat.add_comm]
    · have hnone : (f x).countP (fun b => tag b = a) = 0 :=
        countP_eq_zero.2 fun b hb => by simp [h x mem_cons_self b hb, hx]
      simp [hnone, hx]

/-- Where each entry tells the element it comes from, two maps agree in total
when they agree on every element. -/
theorem flatMap_inj_of_tag [DecidableEq α] {f g : α → List β} {l : List α} (tag : β → α)
    (hf : ∀ a ∈ l, ∀ b ∈ f a, tag b = a) (hg : ∀ a ∈ l, ∀ b ∈ g a, tag b = a) :
    l.flatMap f = l.flatMap g ↔ ∀ a ∈ l, f a = g a := by
  refine ⟨fun h => ?_, fun h => flatMap_congr h⟩
  have hlen : ∀ a ∈ l, (f a).length = (g a).length := by
    intro a ha
    have hcount := countP_flatMap_tag a hf
    rw [h, countP_flatMap_tag a hg] at hcount
    exact (Nat.eq_of_mul_eq_mul_left (count_pos_iff.2 ha) hcount).symm
  clear hf hg
  induction l with
  | nil => simp
  | cons x l ih =>
    rw [flatMap_cons, flatMap_cons] at h
    obtain ⟨hx, hl⟩ := append_inj h (hlen x mem_cons_self)
    intro a ha
    rcases mem_cons.1 ha with rfl | ha
    · exact hx
    · exact ih hl (fun a ha => hlen a (mem_cons_of_mem _ ha)) a ha

theorem mem_of_mapM {α β : Type} {f : α → Option β} : ∀ {as : List α} {bs : List β}, as.mapM f = some bs →
    ∀ b ∈ bs, ∃ a ∈ as, f a = some b
  | [], bs, h, b, hb => by
    rw [mapM_nil] at h
    exact absurd (Option.some.inj h ▸ hb) not_mem_nil
  | a :: as, bs, h, b, hb => by
    rw [mapM_cons] at h
    simp only [Option.bind_eq_bind, Option.bind_eq_some_iff] at h
    obtain ⟨b', hb', bs', hbs', h⟩ := h
    rw [← Option.some.inj h] at hb
    obtain rfl | hb := mem_cons.1 hb
    · exact ⟨a, mem_cons_self, hb'⟩
    · obtain ⟨a', ha', hf⟩ := mem_of_mapM hbs' b hb
      exact ⟨a', mem_cons_of_mem _ ha', hf⟩

end Rmdb.Lists
