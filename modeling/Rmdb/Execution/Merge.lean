/-
The pairs that a sort-merge join gives.

`mergeFrom` goes along two lists of rows as the executor does: it remembers the
first right row that was matched and how many there were, and when the next
left row matches the remembered one it gives that one as often. On sorted rows
`merged` is the join exactly when the rows are `Exact`.
-/
import Rmdb.Execution.Scan

namespace Rmdb.Execution.Merge

open List Index

variable {α β : Type} (op : CompOp) (hits less : α → β → Bool) (all : List β)

/-- The pairs from a left row and the right rows that are left on, when `cnt`
rows were matched, the first of them `prev`. -/
def mergeFrom (l : α) (ls : List α) (rs : List β) (cnt : Nat) (prev : β) : List (α × β) :=
  match ls, rs with
  | [], [] => []
  | l' :: ls, [] =>
    if op = .ne then mergeFrom l' ls all cnt prev
    else if 0 < cnt ∧ hits l' prev then List.replicate cnt (l', prev) ++ mergeFrom l' ls [] cnt prev
    else []
  | [], r :: rs =>
    if hits l r then (l, r) :: mergeFrom l [] rs (cnt + 1) (if cnt = 0 then r else prev)
    else
      match op with
      | .eq => if less l r then [] else mergeFrom l [] rs 0 prev
      | .ne => mergeFrom l [] rs cnt prev
      | .lt | .le => if rs.isEmpty then [] else mergeFrom l [] rs cnt prev
      | .gt | .ge => []
  | l' :: ls, r :: rs =>
    if hits l r then (l, r) :: mergeFrom l (l' :: ls) rs (cnt + 1) (if cnt = 0 then r else prev)
    else
      match op with
      | .eq =>
        if less l r then
          if 0 < cnt ∧ hits l' prev then List.replicate cnt (l', prev) ++ mergeFrom l' ls (r :: rs) cnt prev
          else mergeFrom l' ls (r :: rs) 0 prev
        else mergeFrom l (l' :: ls) rs 0 prev
      | .ne => mergeFrom l (l' :: ls) rs cnt prev
      | .lt | .le => if rs.isEmpty then [] else mergeFrom l (l' :: ls) rs cnt prev
      | .gt | .ge => mergeFrom l' ls (r :: rs) cnt prev
termination_by (ls.length, rs.length)

section Equations

variable {op hits less all} {l l' : α} {ls : List α} {r : β} {rs : List β} {cnt : Nat} {prev : β}

theorem mergeFrom_end : mergeFrom op hits less all l [] [] cnt prev = [] := by rw [mergeFrom]

theorem mergeFrom_end_cons : mergeFrom op hits less all l (l' :: ls) [] cnt prev =
    if op = .ne then mergeFrom op hits less all l' ls all cnt prev
    else if 0 < cnt ∧ hits l' prev then List.replicate cnt (l', prev) ++ mergeFrom op hits less all l' ls [] cnt prev
    else [] := by rw [mergeFrom]

theorem mergeFrom_hit (h : hits l r = true) : mergeFrom op hits less all l ls (r :: rs) cnt prev =
    (l, r) :: mergeFrom op hits less all l ls rs (cnt + 1) (if cnt = 0 then r else prev) := by
  cases ls <;> rw [mergeFrom.eq_def] <;> simp only [h, if_true]

theorem mergeFrom_eq_last (h : hits l r = false) (hless : less l r = true) :
    mergeFrom .eq hits less all l [] (r :: rs) cnt prev = [] := by
  rw [mergeFrom]
  simp [h, hless]

def kept (hits : α → β → Bool) (l : α) (cnt : Nat) (prev : β) : Nat := if 0 < cnt ∧ hits l prev then cnt else 0

theorem mergeFrom_eq_left (h : hits l r = false) (hless : less l r = true) :
    mergeFrom .eq hits less all l (l' :: ls) (r :: rs) cnt prev = List.replicate (kept hits l' cnt prev) (l', prev) ++
      mergeFrom .eq hits less all l' ls (r :: rs) (kept hits l' cnt prev) prev := by
  rw [mergeFrom]
  simp only [h, hless, Bool.false_eq_true, if_false, if_true, kept]
  split_ifs <;> rfl

theorem mergeFrom_eq_right (h : hits l r = false) (hless : less l r = false) :
    mergeFrom .eq hits less all l ls (r :: rs) cnt prev = mergeFrom .eq hits less all l ls rs 0 prev := by
  cases ls <;> rw [mergeFrom] <;> simp only [h, hless, Bool.false_eq_true, if_false]

theorem mergeFrom_eq_end : mergeFrom .eq hits less all l ls [] 0 prev = [] := by
  cases ls <;> simp [mergeFrom_end, mergeFrom_end_cons]

theorem mergeFrom_eq_end_cons : mergeFrom .eq hits less all l (l' :: ls) [] cnt prev =
    List.replicate (kept hits l' cnt prev) (l', prev) ++
      mergeFrom .eq hits less all l' ls [] (kept hits l' cnt prev) prev := by
  rw [mergeFrom_end_cons, if_neg (by simp), kept]
  split_ifs
  · rfl
  · rw [mergeFrom_eq_end]; rfl

theorem mergeFrom_ne (h : hits l r = false) :
    mergeFrom .ne hits less all l ls (r :: rs) cnt prev = mergeFrom .ne hits less all l ls rs cnt prev := by
  cases ls <;> rw [mergeFrom] <;> simp only [h, Bool.false_eq_true, if_false]

theorem mergeFrom_up (hop : op = .lt ∨ op = .le) (h : hits l r = false) :
    mergeFrom op hits less all l ls (r :: rs) cnt prev =
      if rs.isEmpty then [] else mergeFrom op hits less all l ls rs cnt prev := by
  rcases hop with rfl | rfl <;> cases ls <;> rw [mergeFrom] <;> simp only [h, Bool.false_eq_true, if_false]

theorem mergeFrom_down_last (hop : op = .gt ∨ op = .ge) (h : hits l r = false) :
    mergeFrom op hits less all l [] (r :: rs) cnt prev = [] := by
  rcases hop with rfl | rfl <;> rw [mergeFrom] <;> simp [h]

theorem mergeFrom_down (hop : op = .gt ∨ op = .ge) (h : hits l r = false) :
    mergeFrom op hits less all l (l' :: ls) (r :: rs) cnt prev =
      mergeFrom op hits less all l' ls (r :: rs) cnt prev := by
  rcases hop with rfl | rfl <;> rw [mergeFrom] <;> simp only [h, Bool.false_eq_true, if_false]

end Equations

def merged : List α → List β → List (α × β)
  | l :: ls, r :: rs => mergeFrom op hits less (r :: rs) l ls (r :: rs) 0 r
  | _, _ => []

variable {p : α × β}

theorem mem_mergeFrom {l : α} {ls : List α} {rs : List β} {cnt : Nat} {prev : β}
    (h : p ∈ mergeFrom op hits less all l ls rs cnt prev) : p.1 ∈ l :: ls ∧ p.2 ∈ prev :: rs ++ all := by
  fun_induction mergeFrom op hits less all l ls rs cnt prev <;> grind

theorem mem_merged {ls : List α} {rs : List β} (h : p ∈ merged op hits less ls rs) :
    p.1 ∈ ls ∧ p.2 ∈ rs := by
  match ls, rs with
  | [], _ => simp [merged] at h
  | l :: ls, [] => simp [merged] at h
  | l :: ls, r :: rs =>
    obtain ⟨hl, hr⟩ := mem_mergeFrom op hits less (r :: rs) h
    simp only [cons_append, mem_cons, mem_append] at hr ⊢
    exact ⟨mem_cons.1 hl, by tauto⟩

/-! ## The join -/

section Join

variable {op hits less all}

def joined (hits : α → β → Bool) (ls : List α) (rs : List β) : List (α × β) :=
  ls.flatMap fun l => (rs.filter (hits l)).map (Prod.mk l)

variable {l : α} {ls : List α} {r : β} {rs : List β} {cnt : Nat} {prev : β}

theorem joined_cons : joined hits (l :: ls) rs = (rs.filter (hits l)).map (Prod.mk l) ++ joined hits ls rs := rfl

theorem joined_eq_nil (h : ∀ l ∈ ls, ∀ r ∈ rs, hits l r = false) : joined hits ls rs = [] := by
  refine flatMap_eq_nil_iff.2 fun l hl => ?_
  rw [map_eq_nil_iff, filter_eq_nil_iff]
  exact fun r hr => by simp [h l hl r hr]

theorem countP_map_mk [DecidableEq β] (l : α) (rs : List β) (x : β) :
    (rs.map (Prod.mk l)).countP (fun p => p.2 = x) = rs.count x := by
  rw [countP_map, List.count]
  rfl

theorem countP_joined [DecidableEq β] (x : β) :
    (joined hits ls rs).countP (fun p => p.2 = x) = ls.countP (fun l => hits l x) * rs.count x := by
  induction ls with
  | nil => simp [joined]
  | cons l ls ih =>
    rw [joined_cons, countP_append, ih, countP_map_mk, countP_cons, Nat.add_mul, Nat.add_comm]
    cases hx : hits l x with
    | true => simp [count_filter, hx]
    | false =>
      have hnone : x ∉ rs.filter (hits l) := by simp [hx]
      simp [count_eq_zero.2 hnone]

/-- A right row that comes no more often than it is there matches one left row at most. -/
theorem not_two_of_count [DecidableEq β] {out : List (α × β)} {a b : α} {x : β} (hperm : out.Perm (joined hits ls rs))
    (hx : x ∈ rs) (hout : out.countP (fun p => p.2 = x) ≤ rs.count x) (hsub : List.Sublist [a, b] ls)
    (ha : hits a x = true) (hb : hits b x = true) : False := by
  rw [hperm.countP_eq, countP_joined] at hout
  have hpos : 0 < rs.count x := count_pos_iff.2 hx
  have hle := hsub.countP_le (p := fun l => hits l x)
  have htwo : 2 ≤ ls.countP fun l => hits l x := by simpa [ha, hb] using hle
  have := Nat.mul_le_mul_right (rs.count x) htwo
  omega

theorem mergeFrom_ne_eq (l : α) (ls : List α) (rs : List β) (cnt : Nat) (prev : β) :
    mergeFrom .ne hits less all l ls rs cnt prev = (rs.filter (hits l)).map (Prod.mk l) ++ joined hits ls all := by
  match ls, rs with
  | [], [] => simp [mergeFrom_end, joined]
  | l' :: ls, [] => rw [mergeFrom_end_cons, if_pos rfl, mergeFrom_ne_eq l' ls all, joined_cons]; rfl
  | ls, r :: rs =>
    cases h : hits l r with
    | true => rw [mergeFrom_hit h, mergeFrom_ne_eq l ls rs, filter_cons_of_pos h]; rfl
    | false => rw [mergeFrom_ne h, mergeFrom_ne_eq l ls rs, filter_cons_of_neg (by simp [h])]
termination_by (ls.length, rs.length)

def copies (hits : α → β → Bool) (n : Nat) (x : β) (ls : List α) : List (α × β) :=
  (ls.takeWhile fun l => hits l x).flatMap fun l => List.replicate n (l, x)

theorem countP_copies [DecidableEq β] {x y : β} (h : x ≠ y) (n : Nat) (ls : List α) :
    (copies hits n x ls).countP (fun p => p.2 = y) = 0 := by
  refine countP_eq_zero.2 fun p hp => ?_
  obtain ⟨l, -, hp⟩ := mem_flatMap.1 hp
  rw [(mem_replicate.1 hp).2]
  simpa using h

/-- At the end of the right rows the remembered one is given for each left row
that it matches. -/
theorem mergeFrom_copies (hop : op ≠ .ne) (hcnt : 0 < cnt) : ∀ {ls : List α} {l : α},
    mergeFrom op hits less all l ls [] cnt prev = copies hits cnt prev ls
  | [], _ => by rw [mergeFrom_end]; rfl
  | l' :: ls, l => by
    rw [mergeFrom_end_cons, if_neg hop, copies, takeWhile_cons]
    cases h : hits l' prev with
    | true =>
      rw [if_pos ⟨hcnt, rfl⟩, mergeFrom_copies hop hcnt]
      simp [copies]
    | false => simp

/-- With a row remembered, right rows that all match come one after the other. -/
theorem mergeFrom_all (hop : op ≠ .ne) : ∀ {rs : List β} {cnt : Nat}, 0 < cnt → (∀ r ∈ rs, hits l r = true) →
    mergeFrom op hits less all l ls rs cnt prev = rs.map (Prod.mk l) ++ copies hits (cnt + rs.length) prev ls
  | [], _, hcnt, _ => mergeFrom_copies hop hcnt
  | r :: rs, cnt, hcnt, h => by
    rw [mergeFrom_hit (h r mem_cons_self), if_neg (by omega),
      mergeFrom_all hop (by omega) fun r' hr' => h r' (mem_cons_of_mem _ hr')]
    simp [Nat.add_assoc, Nat.add_comm 1]

theorem forall_of_head {γ : Type} {p : γ → Prop} {c : γ} {cs : List γ} (h : (c :: cs).Pairwise fun a b => p a → p b)
    (hc : p c) : ∀ a ∈ c :: cs, p a :=
  forall_mem_cons.2 ⟨hc, fun a ha => (pairwise_cons.1 h).1 a ha hc⟩

end Join

/-! ## `<` and `<=` -/

/-- No two left rows match one right row, unless it is all that the first one matches. -/
def Shareless (hits : α → β → Bool) (ls : List α) (rs : List β) : Prop :=
  ls.Pairwise fun l l' => ∀ r ∈ rs, ∀ r' ∈ rs, hits l r = true → hits l' r = true → hits l r' = true → r = r'

section Up

variable {op hits less all} {l : α} {ls : List α} {r : β} {rs : List β} {cnt : Nat} {prev : β}

/-- The first left row gives its matches, the others copies of the first of them. -/
theorem mergeFrom_up_eq (hop : op = .lt ∨ op = .le) : ∀ {rs : List β}, rs ≠ [] →
    rs.Pairwise (fun r r' => hits l r = true → hits l r' = true) →
    mergeFrom op hits less all l ls rs 0 prev = (rs.filter (hits l)).map (Prod.mk l) ++
      match rs.filter (hits l) with
      | [] => []
      | h :: t => copies hits (t.length + 1) h ls
  | [], hne, _ => absurd rfl hne
  | r :: rs, _, h => by
    cases hhit : hits l r with
    | true =>
      have hall := (forall_mem_cons.1 (forall_of_head h hhit)).2
      rw [mergeFrom_hit hhit, if_pos rfl, mergeFrom_all (by rcases hop with rfl | rfl <;> simp) Nat.one_pos hall,
        filter_cons_of_pos hhit, filter_eq_self.2 hall]
      simp [Nat.add_comm 1]
    | false =>
      rw [mergeFrom_up hop hhit, filter_cons_of_neg (by simp [hhit])]
      cases rs with
      | nil => rfl
      | cons r' rs => exact mergeFrom_up_eq hop (by simp) (pairwise_cons.1 h).2

theorem merged_up (hop : op = .lt ∨ op = .le) (hup : rs.Pairwise fun r r' => hits l r = true → hits l r' = true) :
    merged op hits less (l :: ls) rs = (rs.filter (hits l)).map (Prod.mk l) ++
      match rs.filter (hits l) with
      | [] => []
      | h :: t => copies hits (t.length + 1) h ls := by
  cases rs with
  | nil => rfl
  | cons r rs => exact mergeFrom_up_eq hop (by simp) hup

/-- Copies of a row are the join when each left row that matches it matches
nothing else, and the others nothing at all. -/
theorem copies_eq_joined {x : β} {n : Nat} : ∀ {ls : List α},
    (∀ l ∈ ls, if hits l x then rs.filter (hits l) = List.replicate n x
      else rs.filter (hits l) = []) → ls.Pairwise (fun l l' => hits l' x = true → hits l x = true) →
    copies hits n x ls = joined hits ls rs
  | [], _, _ => rfl
  | l :: ls, hrow, hdown => by
    obtain ⟨hfirst, hrest⟩ := pairwise_cons.1 hdown
    have hl := hrow l mem_cons_self
    rw [copies, takeWhile_cons, joined_cons]
    cases hhit : hits l x with
    | true =>
      rw [hhit, if_pos rfl] at hl
      simp only [flatMap_cons, if_true, hl, map_replicate]
      rw [← copies_eq_joined (fun l' hl' => hrow l' (mem_cons_of_mem _ hl')) hrest]
      rfl
    | false =>
      simp only [hhit, Bool.false_eq_true, if_false] at hl ⊢
      rw [hl]
      refine (joined_eq_nil fun l' hl' r hr => ?_).symm
      have hmiss : hits l' x = false := Bool.eq_false_iff.2 fun h' => by simp [hfirst l' hl' h'] at hhit
      have hl' := hrow l' (mem_cons_of_mem _ hl')
      rw [hmiss, if_neg (by simp)] at hl'
      simpa using filter_eq_nil_iff.1 hl' r hr

structure UpSorted (hits : α → β → Bool) (ls : List α) (rs : List β) : Prop where
  right : ∀ l ∈ ls, rs.Pairwise fun r r' => hits l r = true → hits l r' = true
  left : ∀ r ∈ rs, ls.Pairwise fun l l' => hits l' r = true → hits l r = true

theorem merged_up_of_shareless (hop : op = .lt ∨ op = .le) (hsort : UpSorted hits ls rs) (h : Shareless hits ls rs) :
    merged op hits less ls rs = joined hits ls rs := by
  cases ls with
  | nil => cases rs <;> rfl
  | cons l ls =>
    rw [merged_up hop (hsort.right l mem_cons_self), joined_cons]
    congr 1
    have hleft := fun r hr => pairwise_cons.1 (hsort.left r hr)
    have hpair := (pairwise_cons.1 h).1
    cases hm : rs.filter (hits l) with
    | nil =>
      -- no later row can match either
      refine (joined_eq_nil fun l' hl' r hr => ?_).symm
      by_contra hhit
      have hfirst := (hleft r hr).1 l' hl' (by simpa using hhit)
      exact absurd (filter_eq_nil_iff.1 hm r hr) (by simp [hfirst])
    | cons x m =>
      have hx : x ∈ rs ∧ hits l x = true := mem_filter.1 (hm ▸ mem_cons_self)
      have hin : ∀ r ∈ rs, hits l r = true → r ∈ x :: m := fun r hr hhit => hm ▸ mem_filter.2 ⟨hr, hhit⟩
      have hmem : ∀ r ∈ x :: m, r ∈ rs ∧ hits l r = true := fun r hr => mem_filter.1 (hm ▸ hr)
      -- a later row matches all of them, and they are equal, or none
      have hrow : ∀ l' ∈ ls, if hits l' x then rs.filter (hits l') = List.replicate (m.length + 1) x
          else rs.filter (hits l') = [] := by
        intro l' hl'
        have hsame : ∀ r ∈ rs, hits l' r = true → r = x := fun r hr hhit =>
          hpair l' hl' r hr x hx.1 ((hleft r hr).1 l' hl' hhit) hhit hx.2
        split_ifs with hhit
        · have hall : ∀ r ∈ x :: m, r = x := fun r hr =>
            (hpair l' hl' x hx.1 r (hmem r hr).1 hx.2 hhit (hmem r hr).2).symm
          have hfilter : rs.filter (hits l') = rs.filter (hits l) := by
            refine filter_congr fun r hr => Bool.eq_iff_iff.2 ⟨fun h' => (hleft r hr).1 l' hl' h', fun h' => ?_⟩
            rw [hall r (hin r hr h')]
            exact hhit
          rw [hfilter, hm]
          exact eq_replicate_iff.2 ⟨rfl, hall⟩
        · refine filter_eq_nil_iff.2 fun r hr h' => hhit ?_
          rw [← hsame r hr h']
          exact h'
      exact copies_eq_joined hrow (hleft x hx.1).2

/-- A right row that two left rows match must be the one that is copied. -/
theorem shareless_of_merged_up [DecidableEq β] (hop : op = .lt ∨ op = .le) (hsort : UpSorted hits ls rs)
    (hperm : (merged op hits less ls rs).Perm (joined hits ls rs)) : Shareless hits ls rs := by
  cases ls with
  | nil => exact List.Pairwise.nil
  | cons l ls =>
    have hleft := fun r hr => pairwise_cons.1 (hsort.left r hr)
    have hhead : ∀ a ∈ l :: ls, ∀ r ∈ rs, hits a r = true → hits l r = true := fun a ha r hr =>
      forall_mem_cons.2 ⟨id, (hleft r hr).1⟩ a ha
    refine pairwise_iff_forall_sublist.2 fun {a b} hsub r hr r' hr' har hbr har' => ?_
    have ha : a ∈ l :: ls := hsub.subset (by simp)
    rw [merged_up hop (hsort.right l mem_cons_self)] at hperm
    cases hm : rs.filter (hits l) with
    | nil => exact absurd (filter_eq_nil_iff.1 hm r hr) (by simp [hhead a ha r hr har])
    | cons x m =>
      rw [hm] at hperm
      simp only at hperm
      have hx : ∀ y ∈ rs, hits a y = true → hits b y = true → y = x := by
        intro y hy hay hby
        by_contra hne
        refine not_two_of_count hperm hy ?_ hsub hay hby
        rw [countP_append, countP_map_mk, ← hm, countP_copies (Ne.symm hne), Nat.add_zero]
        exact filter_sublist.count_le y
      -- the second left row matches the copied one, and so all that stand behind it
      have hrx : r = x := hx r hr har hbr
      have hbr' : hits b r' = true := by
        have hcut : (x :: m).Pairwise fun r r' => hits b r = true → hits b r' = true :=
          hm ▸ (hsort.right b (hsub.subset (by simp))).sublist filter_sublist
        exact forall_of_head hcut (hrx ▸ hbr) r' (hm ▸ mem_filter.2 ⟨hr', hhead a ha r' hr' har'⟩)
      rw [hrx, hx r' hr' har' hbr']

end Up

/-! ## `>` and `>=` -/

/-- Only the last left row matches anything, unless all right rows are equal. -/
def Lonely (hits : α → β → Bool) (ls : List α) (rs : List β) : Prop :=
  ls.Pairwise fun l _ => ∀ r ∈ rs, ∀ r' ∈ rs, hits l r = true → r = r'

section Down

variable {op hits less all} {l : α} {ls : List α} {r : β} {rs : List β} {cnt : Nat} {prev : β}

structure DownSorted (hits : α → β → Bool) (ls : List α) (rs : List β) : Prop where
  right : ∀ l ∈ ls, rs.Pairwise fun r r' => hits l r' = true → hits l r = true
  left : ∀ r ∈ rs, ls.Pairwise fun l l' => hits l r = true → hits l' r = true

theorem DownSorted.tail (h : DownSorted hits (l :: ls) rs) : DownSorted hits ls rs where
  right l' hl' := h.right l' (mem_cons_of_mem _ hl')
  left r hr := (pairwise_cons.1 (h.left r hr)).2

theorem none_of_head {p : β → Bool} (h : (r :: rs).Pairwise fun r r' => p r' = true → p r = true) (hr : p r = false) :
    ∀ r' ∈ r :: rs, p r' = false := by
  refine forall_of_head (p := fun r' => p r' = false) (h.imp fun {r r'} himp hr => ?_) hr
  exact Bool.eq_false_iff.2 fun h' => by simp [himp h'] at hr

theorem mergeFrom_down_eq (hop : op = .gt ∨ op = .ge) : ∀ {rs : List β} {cnt : Nat} {prev : β},
    rs.Pairwise (fun r r' => hits l r' = true → hits l r = true) →
    mergeFrom op hits less all l [] rs cnt prev = (rs.filter (hits l)).map (Prod.mk l)
  | [], _, _, _ => mergeFrom_end
  | r :: rs, _, _, h => by
    cases hhit : hits l r with
    | true =>
      rw [mergeFrom_hit hhit, mergeFrom_down_eq hop (pairwise_cons.1 h).2, filter_cons_of_pos hhit]
      rfl
    | false =>
      rw [mergeFrom_down_last hop hhit, filter_eq_nil_iff.2 (by simpa using none_of_head h hhit)]
      rfl

theorem merged_down_skip (hop : op = .gt ∨ op = .ge) (h : hits l r = false) :
    merged op hits less (l :: ls) (r :: rs) = merged op hits less ls (r :: rs) := by
  cases ls with
  | nil => rw [merged, mergeFrom_down_last hop h]; rfl
  | cons l' ls => rw [merged, mergeFrom_down hop h]; rfl

theorem merged_down_of_lonely (hop : op = .gt ∨ op = .ge) {r₀ : β} {rs : List β} : ∀ {ls : List α},
    DownSorted hits ls (r₀ :: rs) → Lonely hits ls (r₀ :: rs) →
    merged op hits less ls (r₀ :: rs) = joined hits ls (r₀ :: rs)
  | [], _, _ => rfl
  | [l], hsort, _ => by
    rw [merged, mergeFrom_down_eq hop (hsort.right l mem_cons_self)]
    simp [joined]
  | l :: l' :: ls, hsort, h => by
    have hright := hsort.right l mem_cons_self
    cases hhit : hits l r₀ with
    | false =>
      rw [merged_down_skip hop hhit, merged_down_of_lonely hop hsort.tail (pairwise_cons.1 h).2,
        joined_cons (l := l), filter_eq_nil_iff.2 (by simpa using none_of_head hright hhit)]
      rfl
    | true =>
      -- all right rows are one row
      have hall : ∀ r ∈ r₀ :: rs, r = r₀ := fun r hr =>
        ((pairwise_cons.1 h).1 l' mem_cons_self r₀ mem_cons_self r hr hhit).symm
      have hhits : ∀ a ∈ l :: l' :: ls, ∀ r ∈ r₀ :: rs, hits a r = true := fun a ha r hr =>
        hall r hr ▸ forall_of_head (hsort.left r₀ mem_cons_self) hhit a ha
      have hl := hhits l mem_cons_self
      rw [merged, mergeFrom_hit hhit, if_pos rfl, mergeFrom_all (by rcases hop with rfl | rfl <;> simp) Nat.one_pos
        fun r hr => hl r (mem_cons_of_mem r₀ hr), joined_cons, filter_eq_self.2 hl,
        @copies_eq_joined _ _ _ (r₀ :: rs)]
      · rfl
      · intro a ha
        rw [if_pos (hhits a (mem_cons_of_mem _ ha) r₀ mem_cons_self),
          filter_eq_self.2 (hhits a (mem_cons_of_mem _ ha))]
        exact eq_replicate_iff.2 ⟨by simp [Nat.add_comm], hall⟩
      · exact pairwise_of_forall_mem_list fun a ha b hb _ =>
          hhits a (mem_cons_of_mem _ ha) r₀ mem_cons_self

/-- A row comes at most once for each time it is there. Only the remembered one may come
more often, when two left rows match all that is left. -/
theorem countP_mergeFrom [DecidableEq β] (hop : op = .gt ∨ op = .ge) (x : β) (l : α) (ls : List α) (rs : List β)
    (cnt : Nat) (hcnt : 0 < cnt) (hleft : ∀ r ∈ rs, (l :: ls).Pairwise fun a b => hits a r = true → hits b r = true) :
    (mergeFrom op hits less all l ls rs cnt prev).countP (fun p => p.2 = x) ≤ rs.count x ∨
      x = prev ∧ ∃ a b, List.Sublist [a, b] (l :: ls) ∧ ∀ r ∈ rs, hits a r = true ∧ hits b r = true := by
  match ls, rs with
  | [], [] => exact .inl (by rw [mergeFrom_end]; simp)
  | l' :: ls, [] =>
    by_cases hx : x = prev
    · exact .inr ⟨hx, l, l', by simp, by simp⟩
    · rw [mergeFrom_copies (by rcases hop with rfl | rfl <;> simp) hcnt, countP_copies (Ne.symm hx)]
      exact .inl (Nat.zero_le _)
  | ls, r :: rs =>
    cases hhit : hits l r with
    | true =>
      rcases countP_mergeFrom hop x l ls rs (cnt + 1) (Nat.succ_pos cnt) fun r' hr' =>
        hleft r' (mem_cons_of_mem _ hr') with
        ih | ⟨hx, a, b, hsub, hab⟩
      · left
        rw [mergeFrom_hit hhit, if_neg (by omega), countP_cons, count_cons]
        simp only [beq_iff_eq, decide_eq_true_eq]
        omega
      · have hmono := forall_of_head (hleft r mem_cons_self) hhit
        refine .inr ⟨hx, a, b, hsub, forall_mem_cons.2 ⟨⟨?_, ?_⟩, hab⟩⟩
        · exact hmono a (hsub.subset (by simp))
        · exact hmono b (hsub.subset (by simp))
    | false =>
      match ls with
      | [] => exact .inl (by rw [mergeFrom_down_last hop hhit]; simp)
      | l' :: ls =>
        rw [mergeFrom_down hop hhit]
        refine (countP_mergeFrom hop x l' ls (r :: rs) cnt hcnt fun r' hr' =>
          (pairwise_cons.1 (hleft r' hr')).2).imp_right ?_
        intro ⟨hx, a, b, hsub, hab⟩
        exact ⟨hx, a, b, hsub.cons l, hab⟩
termination_by (ls.length, rs.length)

theorem lonely_of_merged_down [DecidableEq β] (hop : op = .gt ∨ op = .ge) {r₀ : β} {rs : List β} : ∀ {ls : List α},
    DownSorted hits ls (r₀ :: rs) → (merged op hits less ls (r₀ :: rs)).Perm (joined hits ls (r₀ :: rs)) →
    Lonely hits ls (r₀ :: rs)
  | [], _, _ => List.Pairwise.nil
  | l :: ls, hsort, hperm => by
    cases hhit : hits l r₀ with
    | false =>
      have hnone := none_of_head (hsort.right l mem_cons_self) hhit
      rw [merged_down_skip hop hhit, joined_cons, filter_eq_nil_iff.2 (by simpa using hnone)] at hperm
      refine pairwise_cons.2 ⟨fun _ _ r hr _ _ h' => ?_, lonely_of_merged_down hop hsort.tail hperm⟩
      simp [hnone r hr] at h'
    | true =>
      have hhits := forall_of_head (hsort.left r₀ mem_cons_self) hhit
      refine pairwise_iff_forall_sublist.2 fun {a b} hsub r hr r' hr' _ => ?_
      rw [merged, mergeFrom_hit hhit, if_pos rfl] at hperm
      have hcount (x : β) := @countP_mergeFrom _ _ op hits less (r₀ :: rs) r₀ _ hop x l ls rs 1 Nat.one_pos
        fun r hr => hsort.left r (mem_cons_of_mem r₀ hr)
      rcases hcount r₀ with hle | ⟨-, c, d, hcd, hall⟩
      · -- the first right row matches both, but it comes once
        refine (not_two_of_count hperm mem_cons_self ?_ hsub (hhits a (hsub.subset (by simp)))
          (hhits b (hsub.subset (by simp)))).elim
        simpa [countP_cons, count_cons] using hle
      · -- every right row matches two left rows
        have hsame : ∀ x ∈ r₀ :: rs, x = r₀ := by
          intro x hx
          by_contra hne
          have hx' : x ∈ rs := (mem_cons.1 hx).resolve_left hne
          refine not_two_of_count hperm hx ?_ hcd (hall x hx').1 (hall x hx').2
          have hle := (hcount x).resolve_right fun h => hne h.1
          simpa [countP_cons, count_cons, Ne.symm hne] using hle
        rw [hsame r hr, hsame r' hr']

end Down

/-! ## `=` -/

section Equal

variable {hits less : α → β → Bool} {all : List β} {κ : Type} [LinearOrder κ] {kl : α → κ} {kr : β → κ}

def copiesOf (l : α) : List β → List (α × β)
  | [] => []
  | x :: t => List.replicate (t.length + 1) (l, x)

def equalOut (hits : α → β → Bool) (kl : α → κ) (R : List β) : Option κ → List α → List (α × β)
  | _, [] => []
  | k, l :: ls =>
    (if k = some (kl l) then copiesOf l (R.filter (hits l)) else (R.filter (hits l)).map (Prod.mk l)) ++
      equalOut hits kl R (some (kl l)) ls

structure EqualSorted (hits less : α → β → Bool) (kl : α → κ) (kr : β → κ) (ls : List α) (rs : List β) : Prop where
  hits_iff : ∀ l ∈ ls, ∀ r ∈ rs, hits l r = true ↔ kl l = kr r
  less_iff : ∀ l ∈ ls, ∀ r ∈ rs, less l r = true ↔ kl l < kr r
  left : ls.Pairwise fun l l' => kl l ≤ kl l'
  right : rs.Pairwise fun r r' => kr r ≤ kr r'

theorem EqualSorted.tail {l : α} {ls : List α} {rs : List β} (h : EqualSorted hits less kl kr (l :: ls) rs) :
    EqualSorted hits less kl kr ls rs where
  hits_iff l' hl' := h.hits_iff l' (mem_cons_of_mem _ hl')
  less_iff l' hl' := h.less_iff l' (mem_cons_of_mem _ hl')
  left := (pairwise_cons.1 h.left).2
  right := h.right

/-- What was done for a left row, behind the right rows `done`: `cnt` rows of
them matched it, the first one is `prev`. -/
structure Behind (hits : α → β → Bool) (kl : α → κ) (kr : β → κ) (l : α) (done : List β) (cnt : Nat) (prev : β) :
    Prop where
  le : ∀ d ∈ done, kr d ≤ kl l
  count : cnt = (done.filter (hits l)).length
  first : ∀ x t, done.filter (hits l) = x :: t → prev = x

/-- The next left row, when the right rows that are left are beyond the current one. -/
theorem Behind.nextLeft {l l' : α} {ls : List α} {done rs : List β} {cnt : Nat} {prev : β}
    (hsort : EqualSorted hits less kl kr (l :: l' :: ls) (done ++ rs)) (h : Behind hits kl kr l done cnt prev)
    (hrs : ∀ r ∈ rs, kl l < kr r) :
    Behind hits kl kr l' done (kept hits l' cnt prev) prev ∧
      List.replicate (kept hits l' cnt prev) (l', prev) ++ ((rs.filter (hits l')).map (Prod.mk l') ++
        equalOut hits kl (done ++ rs) (some (kl l')) ls) = equalOut hits kl (done ++ rs) (some (kl l)) (l' :: ls) := by
  have hle : kl l ≤ kl l' := (pairwise_cons.1 hsort.left).1 l' mem_cons_self
  have hdone : ∀ d ∈ done, kr d ≤ kl l' := fun d hd => (h.le d hd).trans hle
  have hiff : ∀ r ∈ done ++ rs, hits l' r = true ↔ kl l' = kr r := hsort.hits_iff l' (by simp)
  have hiff₀ : ∀ r ∈ done ++ rs, hits l r = true ↔ kl l = kr r := hsort.hits_iff l (by simp)
  rcases hle.eq_or_lt with heq | hlt
  · -- the same key: the same rows match
    have hsame : done.filter (hits l') = done.filter (hits l) :=
      filter_congr fun r hr => Bool.eq_iff_iff.2 (by
        rw [hiff r (mem_append_left _ hr), hiff₀ r (mem_append_left _ hr), heq])
    have hnone : rs.filter (hits l') = [] := filter_eq_nil_iff.2 fun r hr hhit =>
      (hrs r hr).ne (heq.trans ((hiff r (mem_append_right _ hr)).1 hhit))
    have hkept : kept hits l' cnt prev = cnt ∧ List.replicate cnt (l', prev) = copiesOf l' (done.filter (hits l)) := by
      cases hm : done.filter (hits l) with
      | nil => simp [kept, h.count, hm, copiesOf]
      | cons x t =>
        have hx : x ∈ done.filter (hits l') := by rw [hsame, hm]; exact mem_cons_self
        simp [kept, h.count, hm, h.first x t hm, (mem_filter.1 hx).2, copiesOf]
    rw [hkept.1, hkept.2, equalOut, heq, if_pos rfl, filter_append, hnone, append_nil, hsame]
    exact ⟨⟨hdone, hsame ▸ h.count, hsame ▸ h.first⟩, rfl⟩
  · have hnone : done.filter (hits l') = [] := filter_eq_nil_iff.2 fun d hd hhit =>
      ((h.le d hd).trans_lt hlt).ne' ((hiff d (mem_append_left _ hd)).1 hhit)
    have hkept : kept hits l' cnt prev = 0 := by
      refine if_neg fun ⟨hpos, hhit⟩ => ?_
      obtain ⟨x, t, hm⟩ : ∃ x t, done.filter (hits l) = x :: t :=
        exists_cons_of_length_pos (h.count ▸ hpos)
      have hx := mem_filter.1 (hm ▸ mem_cons_self : x ∈ done.filter (hits l))
      rw [h.first x t hm] at hhit
      exact absurd (mem_filter.2 ⟨hx.1, hhit⟩) (by rw [hnone]; simp)
    rw [hkept, equalOut, if_neg (by simpa using hlt.ne), filter_append, hnone, nil_append]
    exact ⟨⟨hdone, by rw [hnone]; rfl, by rw [hnone]; simp⟩, rfl⟩

/-- What the merge gives behind the right rows `done`. -/
theorem mergeFrom_equal (l : α) (ls : List α) (done rs : List β) (cnt : Nat) (prev : β)
    (hsort : EqualSorted hits less kl kr (l :: ls) (done ++ rs)) (h : Behind hits kl kr l done cnt prev) :
    mergeFrom .eq hits less all l ls rs cnt prev =
      (rs.filter (hits l)).map (Prod.mk l) ++ equalOut hits kl (done ++ rs) (some (kl l)) ls := by
  match ls, rs with
  | [], [] => rw [mergeFrom_end]; rfl
  | l' :: ls, [] =>
    obtain ⟨hbehind, hout⟩ := h.nextLeft hsort (by simp)
    rw [mergeFrom_eq_end_cons, mergeFrom_equal l' ls done [] _ prev hsort.tail hbehind, hout]
    rfl
  | ls, r :: rs =>
    obtain ⟨-, hrsort, hcross⟩ := pairwise_append.1 hsort.right
    have hiff := hsort.hits_iff l mem_cons_self r (by simp)
    have hshift : done ++ r :: rs = (done ++ [r]) ++ rs := by simp
    have hbehind : kr r ≤ kl l → ∀ d ∈ done ++ [r], kr d ≤ kl l := fun hle d hd =>
      (mem_append.1 hd).elim (h.le d) fun hd => mem_singleton.1 hd ▸ hle
    cases hhit : hits l r with
    | true =>
      have hfilter : (done ++ [r]).filter (hits l) = done.filter (hits l) ++ [r] := by
        rw [filter_append, filter_cons_of_pos hhit, filter_nil]
      have hfirst : ∀ x t, (done ++ [r]).filter (hits l) = x :: t → (if cnt = 0 then r else prev) = x := by
        intro x t hm
        rw [hfilter] at hm
        cases hf : done.filter (hits l) with
        | nil =>
          rw [hf, nil_append, List.cons.injEq] at hm
          rw [if_pos (by rw [h.count, hf]; rfl), hm.1]
        | cons y u =>
          rw [hf, cons_append, List.cons.injEq] at hm
          rw [if_neg (by rw [h.count, hf]; simp), h.first y u hf, hm.1]
      rw [mergeFrom_hit hhit, filter_cons_of_pos hhit, mergeFrom_equal l ls (done ++ [r]) rs (cnt + 1) _
        (hshift ▸ hsort) ⟨hbehind (hiff.1 hhit).ge, by rw [hfilter, length_append, h.count]; rfl, hfirst⟩,
          ← hshift]
      rfl
    | false =>
      have hne : kl l ≠ kr r := fun heq => by simp [hiff.2 heq] at hhit
      have hless := hsort.less_iff l mem_cons_self r (by simp)
      rcases lt_or_gt_of_ne hne with hlt | hgt
      · have hbeyond : ∀ r' ∈ r :: rs, kl l < kr r' :=
          forall_of_head (p := fun r' => kl l < kr r') (hrsort.imp fun hle hlt => hlt.trans_le hle) hlt
        have hnone : (r :: rs).filter (hits l) = [] := filter_eq_nil_iff.2 fun r' hr' hhit' =>
          (hbeyond r' hr').ne ((hsort.hits_iff l mem_cons_self r' (mem_append_right _ hr')).1 hhit')
        rw [hnone, map_nil, nil_append]
        match ls with
        | [] => rw [mergeFrom_eq_last hhit (hless.2 hlt)]; rfl
        | l' :: ls =>
          obtain ⟨hbehind, hout⟩ := h.nextLeft hsort hbeyond
          rw [mergeFrom_eq_left hhit (hless.2 hlt), mergeFrom_equal l' ls done (r :: rs) _ prev hsort.tail hbehind,
            hout]
      · -- nothing up to this row can match
        have hfilter : (done ++ [r]).filter (hits l) = [] := by
          refine filter_eq_nil_iff.2 fun d hd h' => ?_
          have hle : kr d ≤ kr r := (mem_append.1 hd).elim (fun hd => hcross d hd r mem_cons_self)
            fun hd => (congrArg kr (mem_singleton.1 hd)).le
          have hmem : d ∈ done ++ r :: rs := hshift ▸ mem_append_left _ hd
          exact ((hsort.hits_iff l mem_cons_self d hmem).1 h' ▸ hle).not_gt hgt
        rw [mergeFrom_eq_right hhit (Bool.eq_false_iff.2 fun h' => (hless.1 h').not_gt hgt),
          filter_cons_of_neg (by simp [hhit]), mergeFrom_equal l ls (done ++ [r]) rs 0 prev
          (hshift ▸ hsort) ⟨hbehind hgt.le, by rw [hfilter]; rfl, by rw [hfilter]; simp⟩, ← hshift]
termination_by (ls.length, rs.length)

theorem merged_equal {ls : List α} {r₀ : β} {rs : List β} (hsort : EqualSorted hits less kl kr ls (r₀ :: rs)) :
    merged .eq hits less ls (r₀ :: rs) = equalOut hits kl (r₀ :: rs) none ls := by
  cases ls with
  | nil => rfl
  | cons l ls =>
    rw [merged, mergeFrom_equal l ls [] (r₀ :: rs) 0 r₀ hsort ⟨by simp, rfl, by simp⟩, equalOut, if_neg (by simp)]
    rfl

theorem copiesOf_eq_map {l : α} : ∀ {rs : List β}, (∀ r ∈ rs, ∀ r' ∈ rs, r = r') → copiesOf l rs = rs.map (Prod.mk l)
  | [], _ => rfl
  | x :: t, h => by
    have hall : x :: t = List.replicate (t.length + 1) x :=
      eq_replicate_iff.2 ⟨rfl, fun r hr => h r hr x mem_cons_self⟩
    rw [copiesOf, hall, map_replicate]

variable {R : List β}

theorem equalOut_eq_joined : ∀ {k : Option κ} {ls : List α},
    (∀ l ∈ ls, ∀ r ∈ R, hits l r = true ↔ kl l = kr r) → Shareless hits ls R →
    (∀ l ∈ ls, k = some (kl l) → ∀ r ∈ R.filter (hits l), ∀ r' ∈ R.filter (hits l), r = r') →
    equalOut hits kl R k ls = joined hits ls R
  | _, [], _, _, _ => rfl
  | k, l :: ls, hiff, h, hk => by
    obtain ⟨hl, hls⟩ := pairwise_cons.1 h
    have hhead : (if k = some (kl l) then copiesOf l (R.filter (hits l)) else (R.filter (hits l)).map (Prod.mk l)) =
        (R.filter (hits l)).map (Prod.mk l) := by
      split_ifs with hkey
      · exact copiesOf_eq_map (hk l mem_cons_self hkey)
      · rfl
    rw [equalOut, hhead, joined_cons, equalOut_eq_joined (fun l' hl' => hiff l' (mem_cons_of_mem _ hl')) hls]
    intro l' hl' hkey r hr r' hr'
    have hsame : ∀ y ∈ R.filter (hits l'), y ∈ R ∧ hits l y = true := fun y hy => by
      obtain ⟨hyR, hhit⟩ := mem_filter.1 hy
      refine ⟨hyR, (hiff l mem_cons_self y hyR).2 ?_⟩
      rw [Option.some.inj hkey, (hiff l' (mem_cons_of_mem _ hl') y hyR).1 hhit]
    exact hl l' hl' r (hsame r hr).1 r' (hsame r' hr').1 (hsame r hr).2 (mem_filter.1 hr).2 (hsame r' hr').2

variable {x : β}

theorem countP_copiesOf [DecidableEq β] {l : α} {rs : List β} (h : rs.head? ≠ some x) :
    (copiesOf l rs).countP (fun p => p.2 = x) = 0 := by
  cases rs with
  | nil => rfl
  | cons y t =>
    refine countP_eq_zero.2 fun p hp => ?_
    rw [(mem_replicate.1 hp).2]
    simpa using h

/-- A row that is not the first of its group comes for one left row, and not again once
its key was there. -/
theorem countP_equalOut [DecidableEq β] : ∀ {k : Option κ} {ls : List α},
    (∀ l ∈ ls, (R.filter (hits l)).head? ≠ some x) → (∀ l ∈ ls, hits l x = true ↔ kl l = kr x) →
    ls.Pairwise (fun l l' => kl l ≤ kl l') →
    (equalOut hits kl R k ls).countP (fun p => p.2 = x) ≤ R.count x ∧
      ((k = some (kr x) ∧ ∀ l ∈ ls, kr x ≤ kl l) ∨ (∀ l ∈ ls, kl l ≠ kr x) →
        (equalOut hits kl R k ls).countP (fun p => p.2 = x) = 0)
  | _, [], _, _, _ => ⟨Nat.zero_le _, fun _ => rfl⟩
  | k, l :: ls, hx, hiff, hsort => by
    obtain ⟨hl, hls⟩ := pairwise_cons.1 hsort
    obtain ⟨ihle, ihzero⟩ := countP_equalOut (k := some (kl l)) (fun l' hl' => hx l' (mem_cons_of_mem l hl'))
      (fun l' hl' => hiff l' (mem_cons_of_mem l hl')) hls
    have hhead : (if k = some (kl l) then copiesOf l (R.filter (hits l)) else (R.filter (hits l)).map
      (Prod.mk l)).countP
        (fun p => p.2 = x) = if k = some (kl l) then 0 else (R.filter (hits l)).count x := by
      split_ifs
      · exact countP_copiesOf (hx l mem_cons_self)
      · rw [countP_map_mk]
    rw [equalOut, countP_append, hhead]
    by_cases hkey : kl l = kr x
    · rw [ihzero (.inl ⟨congrArg some hkey, fun l' hl' => hkey ▸ hl l' hl'⟩), Nat.add_zero]
      refine ⟨?_, fun hk => ?_⟩
      · split_ifs
        · exact Nat.zero_le _
        · exact filter_sublist.count_le x
      · rcases hk with ⟨hk, -⟩ | hk
        · rw [hk, hkey, if_pos rfl]
        · exact absurd hkey (hk l mem_cons_self)
    · have hmiss : (R.filter (hits l)).count x = 0 :=
        count_eq_zero.2 fun hmem => hkey ((hiff l mem_cons_self).1 (mem_filter.1 hmem).2)
      rw [hmiss, ite_self, Nat.zero_add]
      refine ⟨ihle, fun hk => ihzero (.inr fun l' hl' => ?_)⟩
      rcases hk with ⟨-, hk⟩ | hk
      · exact ((lt_of_le_of_ne (hk l mem_cons_self) (Ne.symm hkey)).trans_le (hl l' hl')).ne'
      · exact hk l' (mem_cons_of_mem _ hl')

theorem shareless_of_equalOut [DecidableEq β] {ls : List α} {k : Option κ}
    (hsort : EqualSorted hits less kl kr ls R) (hperm : (equalOut hits kl R k ls).Perm (joined hits ls R)) :
    Shareless hits ls R := by
  refine pairwise_iff_forall_sublist.2 fun {a b} hsub r hr r' hr' har hbr har' => ?_
  have ha : a ∈ ls := hsub.subset (by simp)
  have hb : b ∈ ls := hsub.subset (by simp)
  have hkeys : kl a = kl b := by rw [(hsort.hits_iff a ha r hr).1 har, (hsort.hits_iff b hb r hr).1 hbr]
  -- each row that both match is the first of its group
  have hfirst : ∀ x ∈ R, hits a x = true → (R.filter (hits a)).head? = some x := by
    intro x hxR hax
    have hxkey := (hsort.hits_iff a ha x hxR).1 hax
    have hbx : hits b x = true := (hsort.hits_iff b hb x hxR).2 (hkeys ▸ hxkey)
    by_contra hne
    refine not_two_of_count hperm hxR ?_ hsub hax hbx
    refine (countP_equalOut (fun l hl hhead => hne ?_) (fun l hl => hsort.hits_iff l hl x hxR) hsort.left).1
    have hlx : hits l x = true := (mem_filter.1 (mem_of_head? hhead)).2
    have hkey : kl l = kl a := by rw [(hsort.hits_iff l hl x hxR).1 hlx, hxkey]
    rw [← hhead]
    exact congrArg List.head? (filter_congr fun y hy => Bool.eq_iff_iff.2 (by
      rw [hsort.hits_iff a ha y hy, hsort.hits_iff l hl y hy, hkey]))
  exact Option.some.inj ((hfirst r hr har).symm.trans (hfirst r' hr' har'))

end Equal

/-! ## All operators -/

section Keys

variable {op : CompOp} {hits less : α → β → Bool} {κ : Type} [IxOrder κ] {kl : α → κ} {kr : β → κ} {ls : List α}
  {rs : List β}

def Exact (op : CompOp) (hits : α → β → Bool) (ls : List α) (rs : List β) : Prop :=
  match op with
  | .ne => True
  | .eq | .lt | .le => Shareless hits ls rs
  | .gt | .ge => Lonely hits ls rs

theorem Exact.congr {hits' : α → β → Bool} (h : ∀ l ∈ ls, ∀ r ∈ rs, hits l r = hits' l r) :
    Exact op hits ls rs ↔ Exact op hits' ls rs := by
  have hshare : Shareless hits ls rs ↔ Shareless hits' ls rs :=
    List.Pairwise.iff_of_mem fun {l l'} hl hl' => forall₂_congr fun r hr => forall₂_congr fun r' hr' => by
      rw [h l hl r hr, h l' hl' r hr, h l hl r' hr']
  have hlone : Lonely hits ls rs ↔ Lonely hits' ls rs :=
    List.Pairwise.iff_of_mem fun {l _} hl _ => forall₂_congr fun r hr => forall₂_congr fun r' _ => by
      rw [h l hl r hr]
  cases op with
  | ne => exact Iff.rfl
  | eq | lt | le => exact hshare
  | gt | ge => exact hlone

structure KeySorted (op : CompOp) (hits less : α → β → Bool) (kl : α → κ) (kr : β → κ) (ls : List α) (rs : List β) :
    Prop where
  hits_eq : ∀ l ∈ ls, ∀ r ∈ rs, hits l r = op.test (ixCmp (kl l) (kr r))
  less_eq : ∀ l ∈ ls, ∀ r ∈ rs, less l r = decide (ixCmp (kl l) (kr r) < 0)
  left : ls.Pairwise fun l l' => kl l ≤ kl l'
  right : rs.Pairwise fun r r' => kr r ≤ kr r'

theorem KeySorted.equal (h : KeySorted .eq hits less kl kr ls rs) : EqualSorted hits less kl kr ls rs where
  hits_iff l hl r hr := by simp [h.hits_eq l hl r hr, CompOp.test]
  less_iff l hl r hr := by simp [h.less_eq l hl r hr]
  left := h.left
  right := h.right

variable {x' y y' x : κ}

theorem test_up (hop : op = .lt ∨ op = .le) (hx : x' ≤ x) (hy : y ≤ y') :
    op.test (ixCmp x y) = true → op.test (ixCmp x' y') = true := by
  rcases hop with rfl | rfl
  · simpa [CompOp.test] using fun hlt => lt_of_le_of_lt hx (lt_of_lt_of_le hlt hy)
  · simpa [CompOp.test] using fun hle => le_trans hx (le_trans hle hy)

theorem test_down (hop : op = .gt ∨ op = .ge) (hx : x ≤ x') (hy : y' ≤ y) :
    op.test (ixCmp x y) = true → op.test (ixCmp x' y') = true := by
  rcases hop with rfl | rfl
  · simpa [CompOp.test] using fun hlt => lt_of_le_of_lt hy (lt_of_lt_of_le hlt hx)
  · simpa [CompOp.test] using fun hle => le_trans hy (le_trans hle hx)

theorem KeySorted.up (hop : op = .lt ∨ op = .le) (h : KeySorted op hits less kl kr ls rs) : UpSorted hits ls rs where
  right l hl := h.right.imp_of_mem fun {r r'} hr hr' hle => by
    rw [h.hits_eq l hl r hr, h.hits_eq l hl r' hr']
    exact test_up hop le_rfl hle
  left r hr := h.left.imp_of_mem fun {l l'} hl hl' hle => by
    rw [h.hits_eq l hl r hr, h.hits_eq l' hl' r hr]
    exact test_up hop hle le_rfl

theorem KeySorted.down (hop : op = .gt ∨ op = .ge) (h : KeySorted op hits less kl kr ls rs) :
    DownSorted hits ls rs where
  right l hl := h.right.imp_of_mem fun {r r'} hr hr' hle => by
    rw [h.hits_eq l hl r hr, h.hits_eq l hl r' hr']
    exact test_down hop le_rfl hle
  left r hr := h.left.imp_of_mem fun {l l'} hl hl' hle => by
    rw [h.hits_eq l hl r hr, h.hits_eq l' hl' r hr]
    exact test_down hop hle le_rfl

theorem merged_nil_right : merged op hits less ls [] = [] := by cases ls <;> rfl

theorem exact_nil_right : Exact op hits ls [] := by
  cases op <;> first | trivial | exact pairwise_of_forall (by simp)

/-- On ascending rows the merge gives the join, up to the order, exactly then. -/
theorem merged_perm_iff [DecidableEq β] (h : KeySorted op hits less kl kr ls rs) :
    (merged op hits less ls rs).Perm (joined hits ls rs) ↔ Exact op hits ls rs := by
  cases rs with
  | nil => exact iff_of_true (by simp [merged_nil_right, joined]) exact_nil_right
  | cons r₀ rs =>
    cases op with
    | eq =>
      rw [merged_equal h.equal]
      refine ⟨shareless_of_equalOut h.equal, fun hs => ?_⟩
      rw [equalOut_eq_joined h.equal.hits_iff hs (by simp)]
    | ne =>
      refine iff_of_true ?_ trivial
      cases ls with
      | nil => exact List.Perm.refl _
      | cons l ls => rw [merged, mergeFrom_ne_eq, joined_cons]
    | lt =>
      refine ⟨shareless_of_merged_up (Or.inl rfl) (h.up (Or.inl rfl)), fun hs => ?_⟩
      rw [merged_up_of_shareless (Or.inl rfl) (h.up (Or.inl rfl)) hs]
    | le =>
      refine ⟨shareless_of_merged_up (Or.inr rfl) (h.up (Or.inr rfl)), fun hs => ?_⟩
      rw [merged_up_of_shareless (Or.inr rfl) (h.up (Or.inr rfl)) hs]
    | gt =>
      refine ⟨lonely_of_merged_down (Or.inl rfl) (h.down (Or.inl rfl)), fun hs => ?_⟩
      rw [merged_down_of_lonely (Or.inl rfl) (h.down (Or.inl rfl)) hs]
    | ge =>
      refine ⟨lonely_of_merged_down (Or.inr rfl) (h.down (Or.inr rfl)), fun hs => ?_⟩
      rw [merged_down_of_lonely (Or.inr rfl) (h.down (Or.inr rfl)) hs]

end Keys

end Rmdb.Execution.Merge
