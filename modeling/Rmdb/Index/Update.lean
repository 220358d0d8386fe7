/-
`insert_entry` and `delete_entry` keep the invariant and change the entries of
the leaves by one.
-/
import Rmdb.Index.Tree

namespace Rmdb.Index

open Option List IxIndexHandle

variable {κ : Type} {order : Nat}

variable {L₁ L₂ : List (Block κ)} {p : Int} {es : List (κ × Rid)} {s : IxIndexHandle κ order} {Us : List (List (Block κ))}

theorem getLast?_insert {new lastLeaf : Int} {l r : List (κ × Rid)}
    (hnd : (pagesOf (L₁ ++ (p, es) :: L₂)).Nodup) (hlast : (pagesOf (L₁ ++ (p, es) :: L₂)).getLast? = some lastLeaf) :
    (pagesOf (L₁ ++ (p, l) :: (new, r) :: L₂)).getLast? = some (if p = lastLeaf then new else lastLeaf) := by
  simp only [pagesOf_append, pagesOf_cons, List.getLast?_append_cons, List.getLast?_cons_cons] at hlast ⊢
  cases L₂ with
  | nil =>
    simp only [pagesOf_nil, List.getLast?_singleton, some.injEq] at hlast ⊢
    rw [if_pos hlast]
  | cons b L₂ =>
    simp only [pagesOf_cons, List.getLast?_cons_cons] at hlast ⊢
    rw [hlast, if_neg]
    rintro rfl
    simp only [pagesOf_append, pagesOf_cons, nodup_append, nodup_cons] at hnd
    exact hnd.2.1.1 (mem_of_getLast? hlast)

variable [IxOrder κ]

/-! ## One leaf -/

/-- New entries for one leaf, with the first keys above corrected when the
first key of the leaf may have changed. -/
theorem PreTree.setLeaf {es' : List (κ × Rid)} {n : IxNode κ} {c : Prop} (hord : 2 < order)
    (t : PreTree s (L₁ ++ (p, es) :: L₂) Us) (hn : s.pages p = some n)
    (hs : IxNode.Sorted (flat (L₁ ++ (p, es') :: L₂))) (hne : Us ≠ [] → es' ≠ [])
    (hhead : ¬ c → es'.head?.map Prod.fst = es.head?.map Prod.fst) :
    ∃ s' Us', (c → maintainParent (s.putNode p { n with entries := es' }).fuel
        (s.putNode p { n with entries := es' }) p = some s') ∧ (¬ c → s.putNode p { n with entries := es' } = s') ∧
      PreTree s' (L₁ ++ (p, es') :: L₂) Us' ∧ shape Us' = shape Us := by
  set s₁ := s.putNode p { n with entries := es' } with hs₁
  set L := L₁ ++ (p, es) :: L₂ with hL
  set L' := L₁ ++ (p, es') :: L₂ with hL'
  have hpages : pagesOf L' = pagesOf L := by simp [hL, hL']
  have hpL : p ∈ pagesOf L := by simp [hL]
  obtain ⟨hndL, hndUs, hdisj⟩ := nodup_append.1 t.nodup
  have hn₁ : s₁.pages p = some { n with entries := es' } := by simp [hs₁]
  have hother : ∀ q, q ≠ p → s₁.pages q = s.pages q := fun q hq => by simp [hs₁, hq]
  have hnl : n.isLeaf = true := by
    obtain ⟨m, hm, hml, -⟩ := t.holds (p, es) (by simp [hL])
    obtain rfl : n = m := by simpa [hn] using hm
    exact hml
  have hpU : ∀ q, q ∈ pagesOf L₁ ∨ q ∈ pagesOf L₂ ∨ q ∈ allPages Us → q ≠ p := ne_of_nodup_levels t.nodup
  have hholds : ∀ b ∈ L', Holds s₁ true b := by
    have keep : ∀ b ∈ L, b.1 ≠ p → Holds s₁ true b := fun b hb hbp => by
      obtain ⟨m, hm, hml, hme⟩ := t.holds b hb
      exact ⟨m, by rw [hother _ hbp, hm], hml, hme⟩
    simp only [hL', hL, mem_append, mem_cons] at keep ⊢
    rintro b (hb | rfl | hb)
    · exact keep b (.inl hb) (hpU _ (.inl (mem_pagesOf hb)))
    · exact ⟨_, hn₁, hnl, rfl⟩
    · exact keep b (.inr (.inr hb)) (hpU _ (.inr (.inl (mem_pagesOf hb))))
  have hparents : ∀ q ∈ pagesOf L, ∀ p', ParentIs s q p' → ParentIs s₁ q p' := by
    rintro q hq p' ⟨m, hm, hmp⟩
    by_cases hqp : q = p
    · subst hqp
      obtain rfl : n = m := by simpa [hn] using hm
      exact ⟨_, hn₁, hmp⟩
    · exact ⟨m, by rw [hother q hqp, hm], hmp⟩
  have hupper : ∀ q ∈ allPages Us, ∀ m, s.pages q = some m → s₁.pages q = some m := fun q hq m hm => by
    rw [hother q (hpU q (.inr (.inr hq))), hm]
  -- the levels above, whether or not the first keys are corrected
  obtain ⟨s', Us', hrun, hrun', hup', hshape, hframe, hfd⟩ : ∃ s' Us',
      (c → maintainParent s₁.fuel s₁ p = some s') ∧ (¬ c → s₁ = s') ∧ Up s' L' Us' ∧ shape Us' = shape Us ∧
        Frame s₁ s' (allPages Us) [] ∧ s'.fd2pageno = s₁.fd2pageno := by
    by_cases hc : c
    · have hup₁ : Up s₁ L Us := t.up.congr rfl rfl hupper hparents
      obtain ⟨s', Us', h⟩ := maintainParent_up s₁.fuel hup₁ (hholds (p, es') (by simp [hL'])) hne t.nodup
        (fun q hq => (t.range q hq).2) (t.length_lt_fuel hord)
      exact ⟨s', Us', fun _ => h.1, fun h => absurd hc h, h.2⟩
    · refine ⟨s₁, Us, fun h => absurd h hc, fun _ => rfl, t.up.congr rfl ?_ hupper hparents, rfl, .refl _ _ _, rfl⟩
      simp [hL, hL', sep, hhead hc]
  have hall := allPages_of_shape hshape
  have hlinks : ∀ q, nextOf s₁ q = nextOf s q ∧ prevOf s₁ q = prevOf s q := by
    intro q
    by_cases hqp : q = p
    · subst hqp
      simp [nextOf, prevOf, hn₁, hn]
    · simp [nextOf, prevOf, hother q hqp]
  refine ⟨s', Us', hrun, hrun', ⟨fun b hb => ?_, hup', t.sizes.of_shape hshape, hs, ?_, ?_, ?_, ?_, ?_⟩, hshape⟩
  · have hb' : b.1 ∈ pagesOf L := hpages ▸ mem_pagesOf hb
    exact hframe.holds (hholds b hb) (fun h => hdisj _ hb' _ h rfl) (t.range _ (mem_append_left _ hb')).2
  · rw [hpages]
    exact (t.chained.congr fun q _ => hlinks q).of_frame hframe t.links_out
  · rw [hpages, hframe.first]; exact t.first
  · rw [hpages, hframe.last]; exact t.last
  · rw [hpages, hall]; exact t.nodup
  · rw [hpages, hall, hfd]; exact t.range

theorem PreTree.next {b : Block κ} {n : IxNode κ} (t : PreTree s (L₁ ++ b :: L₂) Us) (hn : s.pages b.1 = some n) :
    n.nextLeaf ∈ pagesOf L₂ ++ [leafHeaderPage] ∧ n.nextLeaf ≠ b.1 ∧ n.nextLeaf < s.fd2pageno ∧
      n.nextLeaf ∉ allPages Us ∧ ∃ m, s.pages n.nextLeaf = some m := by
  have hch := t.chained
  rw [pagesOf_append, pagesOf_cons] at hch
  have hmem := (seg_append.1 hch).2.next_mem (by simp [nextOf, hn] : nextOf s b.1 = some n.nextLeaf)
  have hin : n.nextLeaf ∈ leafHeaderPage :: pagesOf (L₁ ++ b :: L₂) := by
    simp only [mem_append, mem_cons, not_mem_nil, or_false, pagesOf_append, pagesOf_cons] at hmem ⊢
    tauto
  refine ⟨hmem, fun h => ?_, (t.links_out _ hin).2, (t.links_out _ hin).1, t.chained.exists_page hin⟩
  have hnd := (nodup_append.1 t.nodup).1
  rw [pagesOf_append, pagesOf_cons, nodup_append, nodup_cons] at hnd
  rw [h] at hmem
  rcases mem_append.1 hmem with h' | h'
  · exact hnd.2.1.1 h'
  · exact t.header.1 (mem_singleton.1 h' ▸ mem_append_left _ (by simp))

theorem PreTree.splitLeaf (hord : 2 < order) (t : PreTree s (L₁ ++ (p, es) :: L₂) Us) : let new := s.fd2pageno
    let left := es.take (minSize order)
    let right := es.drop (minSize order)
    ∃ s₁, s.split p = some (new, s₁) ∧ s₁.lastLeaf = s.lastLeaf ∧ s₁.firstLeaf = s.firstLeaf ∧
      s₁.fd2pageno = s.fd2pageno + 1 ∧ Up s₁ (L₁ ++ (p, left) :: L₂) Us ∧
      (∀ q, ParentIs s₁ p q → ParentIs s₁ new q) ∧ (∀ b ∈ L₁ ++ (p, left) :: (new, right) :: L₂, Holds s₁ true b) ∧
      Chained s₁ (pagesOf (L₁ ++ (p, left) :: (new, right) :: L₂)) := by
  intro new left right
  obtain ⟨n, hn, hnl, hne⟩ := t.holds (p, es) (by simp)
  simp only at hn hne
  obtain ⟨hymem, hyp, hylt, hyUs, m, hm⟩ := t.next (b := (p, es)) hn
  simp only at hyp
  have hlt : ∀ q ∈ pagesOf (L₁ ++ (p, es) :: L₂) ++ allPages Us, q < new := fun q hq => (t.range q hq).2
  have hpnew : p < new := hlt p (by simp)
  obtain ⟨s₁, hrun, hfd, hroot, hfirst, hlast, hpages⟩ := split_leaf hn hnl hpnew hm hyp hylt
  rw [hne] at hpages
  have hp₁ : s₁.pages p = some { n with entries := left, nextLeaf := new } := by rw [hpages, if_pos rfl]
  have hnew₁ : s₁.pages new = some ⟨n.parent, true, p, n.nextLeaf, right⟩ := by
    rw [hpages, if_neg hpnew.ne', if_pos rfl]
  -- the leaf behind `p` has another `prev_leaf`, everything else stays
  have hkeep : ∀ q, q ≠ p → q < new → ∀ c, s.pages q = some c → ∃ z, s₁.pages q = some { c with prevLeaf := z } := by
    intro q hqp hqn c hc
    rw [hpages, if_neg hqp, if_neg hqn.ne]
    by_cases hqy : q = n.nextLeaf
    · subst hqy
      obtain rfl : m = c := by simpa [hm] using hc
      exact ⟨_, by rw [if_pos rfl]⟩
    · exact ⟨c.prevLeaf, by rw [if_neg hqy, hc]⟩
  have hpU : ∀ q, q ∈ pagesOf L₁ ∨ q ∈ pagesOf L₂ ∨ q ∈ allPages Us → q ≠ p := ne_of_nodup_levels t.nodup
  refine ⟨s₁, hrun, hlast, hfirst, hfd, t.up.congr hroot ?_ ?_ ?_, ?_, ?_, ?_⟩
  · have hmin : minSize order ≠ 0 := by simp only [minSize, maxSize]; omega
    simp [sep, left, List.head?_take, hmin]
  · intro q hq c hc
    have hqn := hlt q (mem_append_right _ hq)
    rw [hpages, if_neg (hpU q (.inr (.inr hq))), if_neg hqn.ne, if_neg (fun h : q = n.nextLeaf => hyUs (h ▸ hq)), hc]
  · rintro q hq p' ⟨c, hc, hcp⟩
    by_cases hqp : q = p
    · subst hqp
      obtain rfl : n = c := by simpa [hn] using hc
      exact ⟨_, hp₁, hcp⟩
    · obtain ⟨z, hz⟩ := hkeep q hqp (hlt q (mem_append_left _ hq)) c hc
      exact ⟨_, hz, hcp⟩
  · rintro q ⟨c, hc, hcp⟩
    rw [hp₁] at hc
    cases hc
    exact ⟨_, hnew₁, hcp⟩
  · have hother : ∀ b, b ∈ L₁ ∨ b ∈ L₂ → Holds s₁ true b := by
      intro b hb
      have hb' : b ∈ L₁ ++ (p, es) :: L₂ := by simp only [mem_append, mem_cons]; tauto
      obtain ⟨c, hc, hcl, hce⟩ := t.holds b hb'
      obtain ⟨z, hz⟩ := hkeep b.1 (hpU _ (hb.imp mem_pagesOf fun h => .inl (mem_pagesOf h)))
        (hlt _ (mem_append_left _ (mem_pagesOf hb'))) c hc
      exact ⟨_, hz, hcl, hce⟩
    simp only [mem_append, mem_cons]
    rintro b (hb | rfl | rfl | hb)
    · exact hother b (.inl hb)
    · exact ⟨_, hp₁, hnl, rfl⟩
    · exact ⟨_, hnew₁, rfl, rfl⟩
    · exact hother b (.inr hb)
  · have hch := t.chained
    have hnd := (nodup_append.1 t.nodup).1
    have hhdr := t.header
    simp only [pagesOf_append, pagesOf_cons] at hch hnd hhdr ⊢
    have hnewh : new ≠ leafHeaderPage := hhdr.2.ne'
    refine hch.insert (y := n.nextLeaf) ?_ ?_ (by simp [nextOf, hn]) (fun q => ?_) fun q => ?_
    · exact nodup_cons.2 ⟨fun h => hhdr.1 (mem_append_left _ h), hnd⟩
    · intro h
      rcases mem_cons.1 h with h | h
      · exact hnewh h
      · exact absurd (hlt new (mem_append_left _ (by rwa [pagesOf_append, pagesOf_cons]))) (lt_irrefl _)
    · rw [nextOf, hpages]
      split_ifs with h1 h2 h3
      · rfl
      · rfl
      · simp [h3, nextOf, hm]
      · rfl
    · have hynew : n.nextLeaf ≠ new := hylt.ne
      rw [prevOf, hpages]
      by_cases hqp : q = p
      · rw [if_pos hqp, if_neg (hqp ▸ hyp.symm), if_neg (hqp ▸ hpnew.ne), hqp, prevOf, hn]
        rfl
      by_cases hqn : q = new
      · rw [if_neg hqp, if_pos hqn, if_neg (hqn ▸ hynew.symm), if_pos hqn]
        rfl
      by_cases hqy : q = n.nextLeaf
      · rw [if_neg hqp, if_neg hqn, if_pos hqy, if_pos hqy]
        rfl
      · rw [if_neg hqp, if_neg hqn, if_neg hqy, if_neg hqy, if_neg hqn, prevOf]

theorem PreTree.splitLeaf_up
    (hord : 2 < order) (t : PreTree s (L₁ ++ (p, es) :: L₂) Us) (hfull : es.length = order + 1) :
    let new := s.fd2pageno
    let right := es.drop (minSize order)
    ∃ s₁ s₂ m k s' Us', s.split p = some (new, s₁) ∧
      s₂ = (if p = s₁.lastLeaf then { s₁ with lastLeaf := new } else s₁) ∧ s₂.pages new = some m ∧
      m.getKey 0 = some k ∧ insertIntoParent s₂.fuel s₂ p k new = some s' ∧ Us' ≠ [] ∧
      PreTree s' (L₁ ++ (p, es.take (minSize order)) :: (new, right) :: L₂) Us' := by
  intro new right
  obtain ⟨s₁, hsplit, hlast, hfirst, hfd, hup, hpar, hholds, hchained⟩ := t.splitLeaf hord
  set left := es.take (minSize order) with hleft
  set L' := L₁ ++ (p, left) :: (new, right) :: L₂ with hL'
  have hmin : 1 ≤ minSize order ∧ minSize order ≤ order := by simp only [minSize, maxSize]; omega
  obtain ⟨⟨k, rid⟩, rest, hcons⟩ := exists_cons_of_length_pos (l := right) (by simp [right]; omega)
  let s₂ : IxIndexHandle κ order := if p = s₁.lastLeaf then { s₁ with lastLeaf := new } else s₁
  have hs₂ : s₂.pages = s₁.pages ∧ s₂.rootPage = s₁.rootPage ∧ s₂.fd2pageno = s₁.fd2pageno ∧
      s₂.firstLeaf = s₁.firstLeaf ∧ s₂.lastLeaf = if p = s₁.lastLeaf then new else s₁.lastLeaf := by
    simp only [s₂]; split_ifs <;> simp
  obtain ⟨hpages₂, hroot₂, hfd₂, hfirst₂, hlast₂⟩ := hs₂
  have hholds₂ : ∀ b ∈ L', Holds s₂ true b := fun b hb => by
    rw [Holds, hpages₂]; exact hholds b hb
  have hup₂ : Up s₂ (L₁ ++ (p, left) :: L₂) Us :=
    hup.congr hroot₂ rfl (fun q _ n hn => by rw [hpages₂, hn]) fun q _ p' hp' => by rw [ParentIs, hpages₂]; exact hp'
  have hchained₂ : Chained s₂ (pagesOf L') := hchained.congr fun q _ => by simp [nextOf, prevOf, hpages₂]
  have hlt : ∀ q ∈ pagesOf (L₁ ++ (p, es) :: L₂) ++ allPages Us, q < new := fun q hq => (t.range q hq).2
  have hnd' : (pagesOf L' ++ allPages Us).Nodup := nodup_split t.nodup fun h => absurd (hlt new h) (lt_irrefl _)
  have hlt' : ∀ q ∈ pagesOf L' ++ allPages Us, initRootPage ≤ q ∧ q < s₂.fd2pageno := by
    have hnew : initRootPage ≤ new := by
      have h := t.range p (by simp)
      exact h.1.trans h.2.le
    intro q hq
    rw [hfd₂, hfd]
    rcases mem_append.1 hq with hq | hq
    · rcases mem_pagesOf_split.1 hq with hq | rfl
      · have := t.range q (mem_append_left _ hq)
        exact ⟨this.1, by omega⟩
      · exact ⟨hnew, by omega⟩
    · have := t.range q (mem_append_right _ hq)
      exact ⟨this.1, by omega⟩
  obtain ⟨m, hm, -, hme⟩ := hholds₂ (new, right) (by simp [hL'])
  have hkey : ((new, right) : Block κ).2.head?.map Prod.fst = some k := by simp [hcons]
  have hfuel : Us.length < s₂.fuel := by
    have h1 := t.length_lt_fuel hord
    simp only [fuel] at h1 ⊢
    omega
  have hfd0 : 0 ≤ s₂.fd2pageno := by
    have := hlt' new (by simp [hL'])
    simp only [initRootPage] at this
    omega
  obtain ⟨s', Us', hrun, g⟩ := insertIntoParent_up hord s₂.fuel hup₂ t.sizes (hholds₂ (p, left) (by simp [hL']))
    (ne_nil_of_length_pos (by simp [left]; omega)) hkey
    (fun q hq => by rw [ParentIs, hpages₂] at hq ⊢; exact hpar q hq) hnd' (fun q hq => (hlt' q hq).2) hfd0 hfuel
  have hout : ∀ q ∈ leafHeaderPage :: pagesOf L', q ∉ allPages Us ∧ q < s₂.fd2pageno := by
    intro q hq
    rcases mem_cons.1 hq with rfl | hq
    · have hlth := t.header.2
      exact ⟨(t.links_out _ (by simp)).1, by omega⟩
    · exact ⟨fun h => (nodup_append.1 hnd').2.2 q hq q h rfl, (hlt' q (mem_append_left _ hq)).2⟩
  refine ⟨s₁, s₂, m, k, s', Us', hsplit, rfl, hm, by simp [IxNode.getKey, hme, hcons], hrun, ?_,
    ⟨fun b hb => ?_, g.up, g.sizes, ?_, hchained₂.of_frame g.frame hout, ?_, ?_, g.nodup, fun q hq => ?_⟩⟩
  · rintro rfl
    have := g.up.root.2.1
    simp at this
  · have hb' := hout b.1 (mem_cons_of_mem _ (mem_pagesOf hb))
    exact g.frame.holds (hholds₂ b hb) hb'.1 hb'.2
  · have hflat : flat L' = flat (L₁ ++ (p, es) :: L₂) := by
      simp only [hL', flat_append, flat_cons, hleft, right, ← append_assoc]
      rw [append_assoc (flat L₁), take_append_drop]
    rw [hflat]; exact t.sorted
  · have hhead : (pagesOf L').head? = (pagesOf (L₁ ++ (p, es) :: L₂)).head? := by
      cases L₁ <;> simp [hL']
    rw [hhead, g.frame.first, hfirst₂, hfirst]
    exact t.first
  · rw [g.frame.last, hlast₂, hlast]
    exact getLast?_insert (nodup_append.1 t.nodup).1 t.last
  · have hgrow := g.frame.grow
    rcases mem_append.1 hq with h | h
    · have := hlt' q (mem_append_left _ h)
      exact ⟨this.1, by omega⟩
    · refine ⟨?_, g.lt q h⟩
      rcases g.old_or_new q h with h' | h'
      · exact (hlt' q (mem_append_right _ h')).1
      · have := (hlt' new (by simp [hL'])).1
        omega

/-! ## Inserting -/

section Entries

variable {s : IxIndexHandle κ order} {L : List (Block κ)} {Us : List (List (Block κ))}

variable {x : κ}

theorem Tree.insertEntry_old (t : Tree s L Us) (hord : 2 < order) {r : Rid} (v : Rid) (hx : (x, r) ∈ flat L) :
    s.insertEntry x v = some (noPage, s) := by
  obtain ⟨L₁, p, n, L₂, rfl, hfind, hn, hs, hloc, h₁⟩ := t.leaf_eq hord x
  have hxb : (x, r) ∈ n.entries := (mem_flat_of_located h₁ hloc r).1 hx
  simp [insertEntry, hfind, fetchNode, hn, IxNode.insert_old hs v hxb]

theorem sorted_insert {A B : List (κ × Rid)} {v : Rid} (h : IxNode.Sorted (A ++ B)) (hA : ∀ e ∈ A, e.1 < x)
    (hB : ∀ e ∈ B, x < e.1) : IxNode.Sorted (A ++ (x, v) :: B) := by
  rw [IxNode.Sorted, pairwise_append] at h ⊢
  refine ⟨h.1, pairwise_cons.2 ⟨hB, h.2.1⟩, fun a ha b hb => ?_⟩
  rcases mem_cons.1 hb with rfl | hb
  · exact hA a ha
  · exact h.2.2 a ha b hb

theorem lowerBound_right {n : IxNode κ} {left : List (κ × Rid)} {v : Rid} (hne : n.entries ≠ [])
    (hs : IxNode.Sorted (left ++ n.entries)) (hx : (x, v) ∈ left ++ n.entries) :
    ∃ k, n.getKey (n.lowerBound x) = some k ∧ (k = x → (x, v) ∈ n.entries) ∧ (k ≠ x → (x, v) ∈ left) := by
  rw [IxNode.Sorted, pairwise_append] at hs
  rcases IxNode.cut_cases (n := n) hs.2.1 x with ⟨A, r, B, hn, hlen, hA, hB⟩ | ⟨A, B, hn, hlen, hA, hB⟩
  · refine ⟨x, by simp [IxNode.getKey, IxNode.getElem?_lowerBound hn hlen], fun _ => ?_, fun h => absurd rfl h⟩
    rcases mem_append.1 hx with h | h
    · exact absurd (hs.2.2 _ h (x, r) (by simp [hn])) (lt_irrefl _)
    · exact h
  · have hleft : (x, v) ∈ left := by
      rcases mem_append.1 hx with h | h
      · exact h
      · exact absurd (hn ▸ h) (IxNode.not_mem_cut hA hB)
    -- all keys on the right are larger, so the search stops at the first
    have hAnil : A = [] := by
      cases A with
      | nil => rfl
      | cons a A => exact absurd ((hA a (by simp)).trans (hs.2.2 _ hleft a (by simp [hn]))) (lt_irrefl _)
    subst hAnil
    obtain ⟨e, B, rfl⟩ := exists_cons_of_ne_nil (l := B) (by rintro rfl; simp [hn] at hne)
    exact ⟨e.1, by simp [IxNode.getKey, IxNode.getElem?_lowerBound hn hlen],
      fun h => absurd (hB e (by simp)) (by rw [h]; exact lt_irrefl _), fun _ => hleft⟩

theorem Tree.insertEntry_new (t : Tree s L Us) (hord : 2 < order) (v : Rid) (hx : ∀ r, (x, r) ∉ flat L) :
    ∃ page s' L' Us' A B es, s.insertEntry x v = some (page, s') ∧ Tree s' L' Us' ∧ flat L = A ++ B ∧
      flat L' = A ++ (x, v) :: B ∧ (page, es) ∈ L' ∧ (x, v) ∈ es := by
  obtain ⟨L₁, ⟨p, es⟩, L₂, rfl, hfind, hloc, h₁⟩ := t.findLeafPage_eq hord x
  obtain ⟨n, hn, hnl, hes⟩ := t.holds (p, es) (by simp)
  simp only at hfind hn hes
  have hs : IxNode.Sorted n.entries := hes ▸ sorted_of_mem t.sorted (by simp : (p, es) ∈ L₁ ++ (p, es) :: L₂)
  obtain ⟨A, B, hAB, hA, hB, hins⟩ := IxNode.insert_new hs x v fun r h =>
    hx r ((mem_flat_of_located h₁ hloc r).2 (hes ▸ h))
  rw [hes] at hAB
  subst hAB
  set es' := A ++ (x, v) :: B with hes'
  -- the entries of all leaves, cut at the new key
  have hflat : flat (L₁ ++ (p, A ++ B) :: L₂) = (flat L₁ ++ A) ++ (B ++ flat L₂) := by simp
  have hflat' : flat (L₁ ++ (p, es') :: L₂) = (flat L₁ ++ A) ++ (x, v) :: (B ++ flat L₂) := by simp [hes']
  have hsorted : IxNode.Sorted (flat (L₁ ++ (p, es') :: L₂)) := by
    rw [hflat']
    refine sorted_insert (hflat ▸ t.sorted) (fun e he => ?_) fun e he => ?_
    · exact (mem_append.1 he).elim (h₁ e) (hA e)
    · exact (mem_append.1 he).elim (hB e) (hloc.right e)
  obtain ⟨s₁, Us₁, hset, hset', t₁, hshape⟩ := t.toPreTree.setLeaf (c := (A.length : Int) = 0) hord hn hsorted
    (fun _ => by simp [hes']) (fun hc => by cases A <;> simp_all)
  obtain ⟨n₁, hn₁, -, hn₁e⟩ := t₁.holds (p, es') (by simp)
  simp only at hn₁ hn₁e
  have hmax := t.leafMax (p, A ++ B) (by simp)
  have hlen : es'.length = (A ++ B).length + 1 := by simp [hes']; omega
  simp only at hmax
  have hUs : Us₁ ≠ [] → Us ≠ [] := by
    rintro h rfl
    exact h (by simpa [shape] using hshape)
  have hothers : ∀ b, b ∈ L₁ ∨ b ∈ L₂ → b.2.length ≤ order ∧ (Us ≠ [] → minSize order ≤ b.2.length) := fun b hb => by
    have hb' : b ∈ L₁ ++ (p, A ++ B) :: L₂ := by simp only [mem_append, mem_cons]; tauto
    exact ⟨t.leafMax b hb', fun h => t.leafMin h b hb'⟩
  have hrun : s.insertEntry x v = (if es'.length = maxSize order then do
      let r ← s₁.split p
      let s := if p = r.2.lastLeaf then { r.2 with lastLeaf := r.1 } else r.2
      let sib ← s.fetchNode r.1
      let sibKey ← sib.getKey 0
      let s ← insertIntoParent s.fuel s p sibKey r.1
      let sib ← s.fetchNode r.1
      let found ← sib.getKey (sib.lowerBound x)
      some (if ixCmp found x = 0 then r.1 else p, s)
    else some (p, s₁)) := by
    rw [insertEntry]
    have hgrow : n.getSize + 1 ≠ n.getSize := by omega
    simp only [hfind, bind_eq_bind, bind_some, fetchNode, hn, hins, if_neg hgrow]
    by_cases hA0 : (A.length : Int) = 0
    · simp only [if_pos hA0, hset hA0, bind_some, hn₁, IxNode.isFull, IxNode.getSize, hn₁e, beq_iff_eq]
    · simp only [if_neg hA0, hset' hA0, bind_some, hn₁, IxNode.isFull, IxNode.getSize, hn₁e, beq_iff_eq]
  by_cases hfull : es'.length = maxSize order
  · rw [if_pos hfull] at hrun
    obtain ⟨s₂, s₃, m, k, s', Us', hsplit, hs₃, hm, hmk, hparent, hUs', t'⟩ := t₁.splitLeaf_up hord hfull
    set left := es'.take (minSize order) with hleft
    set right := es'.drop (minSize order) with hright
    set L' := L₁ ++ (p, left) :: (s₁.fd2pageno, right) :: L₂ with hL'
    have hlr : left ++ right = es' := take_append_drop _ _
    obtain ⟨m', hm', -, hm'e⟩ := t'.holds (s₁.fd2pageno, right) (by simp [hL'])
    simp only at hm' hm'e
    have hminsz : 1 ≤ minSize order ∧ minSize order + minSize order ≤ order + 1 := by
      simp only [minSize, maxSize]; omega
    simp only [maxSize] at hfull
    have hll : left.length = minSize order := by simp [hleft, hfull]; omega
    have hrl : right.length = order + 1 - minSize order := by simp [hright, hfull]
    have hsm : IxNode.Sorted (left ++ m'.entries) := by
      rw [hm'e, hlr]; exact sorted_of_mem hsorted (by simp : (p, es') ∈ L₁ ++ (p, es') :: L₂)
    obtain ⟨found, hfound, hin, hout⟩ := lowerBound_right (x := x) (v := v) (by rw [hm'e]; exact ne_nil_of_length_pos (by omega))
      hsm (by rw [hm'e, hlr, hes']; simp)
    refine ⟨if ixCmp found x = 0 then s₁.fd2pageno else p, s', L', Us', flat L₁ ++ A, B ++ flat L₂,
      if ixCmp found x = 0 then right else left, ?_, ⟨t', fun _ => ?_, ?_⟩, hflat, ?_, ?_, ?_⟩
    · rw [hrun]
      simp only [hsplit, bind_eq_bind, bind_some, ← hs₃, fetchNode, hm, hmk, hparent, hm', hfound]
    · intro b hb
      simp only [hL', mem_append, mem_cons] at hb
      have hUs0 : b ∈ L₁ ∨ b ∈ L₂ → Us ≠ [] := by
        rintro h rfl
        obtain ⟨rfl, rfl, -⟩ := t.up.root
        simp at h
      rcases hb with hb | rfl | rfl | hb
      · exact (hothers b (.inl hb)).2 (hUs0 (.inl hb))
      · exact hll.ge
      · simp only [hrl]; omega
      · exact (hothers b (.inr hb)).2 (hUs0 (.inr hb))
    · intro b hb
      simp only [hL', mem_append, mem_cons] at hb
      rcases hb with hb | rfl | rfl | hb
      · exact (hothers b (.inl hb)).1
      · simp only [hll]; omega
      · simp only [hrl]; omega
      · exact (hothers b (.inr hb)).1
    · rw [← hflat', hL']
      simp only [flat_append, flat_cons, ← append_assoc]
      rw [append_assoc (flat L₁), hlr]
    · split_ifs <;> simp [hL']
    · split_ifs with h
      · exact hm'e ▸ hin (by simpa using h)
      · exact hout (by simpa using h)
  · rw [if_neg hfull] at hrun
    simp only [maxSize] at hfull
    refine ⟨p, s₁, _, Us₁, flat L₁ ++ A, B ++ flat L₂, es', hrun, ⟨t₁, fun h b hb => ?_, fun b hb => ?_⟩, hflat, hflat', by simp,
      by simp [hes']⟩
    · simp only [mem_append, mem_cons] at hb
      rcases hb with hb | rfl | hb
      · exact (hothers b (.inl hb)).2 (hUs h)
      · have := t.leafMin (hUs h) (p, A ++ B) (by simp)
        simp only at this ⊢
        omega
      · exact (hothers b (.inr hb)).2 (hUs h)
    · simp only [mem_append, mem_cons] at hb
      rcases hb with hb | rfl | hb
      · exact (hothers b (.inl hb)).1
      · simp only; omega
      · exact (hothers b (.inr hb)).1

end Entries

end Rmdb.Index
