/-
Deleting.  A leaf that gets too small takes an entry of a neighbour or is
merged with it, and merging goes on in the levels above.
-/
import Rmdb.Index.Update

namespace Rmdb.Index

open Option List IxIndexHandle

variable {κ : Type} {order : Nat}

variable {A B V V₁ V₂ : List (Block κ)} {l r : Block κ} {s : IxIndexHandle κ order} {Vs : List (List (Block κ))}
    {R neighbor node : Int} {n : IxNode κ} {F₁ F₂ : List (κ × Rid)} {kl kr : κ} {index : Nat}

theorem getLast?_erase {b : Block κ} {lastLeaf : Int} (hb : b.1 = l.1)
    (hnd : (pagesOf (A ++ l :: r :: B)).Nodup) (hlast : (pagesOf (A ++ l :: r :: B)).getLast? = some lastLeaf) :
    (pagesOf (A ++ b :: B)).getLast? = some (if r.1 = lastLeaf then l.1 else lastLeaf) := by
  simp only [pagesOf_append, pagesOf_cons, List.getLast?_append_cons, List.getLast?_cons_cons, hb] at hlast ⊢
  cases B with
  | nil =>
    simp only [pagesOf_nil, List.getLast?_singleton, some.injEq] at hlast ⊢
    rw [if_pos hlast]
  | cons c B =>
    simp only [pagesOf_cons, List.getLast?_cons_cons] at hlast ⊢
    rw [hlast, if_neg]
    rintro h
    simp only [pagesOf_append, pagesOf_cons, nodup_append, nodup_cons] at hnd
    exact hnd.2.1.2.1 (h ▸ mem_of_getLast? hlast)

variable [IxOrder κ]

/-! ## Merging leaves -/

section Leaves

variable (t : PreTree s (A ++ l :: r :: B) (V :: Vs)) (hu : Beneath A l r B V V₁ R F₁ kl kr F₂ V₂)
  (hs : Siblings s true l r R n F₁ F₂ kl kr node neighbor index)

include t hu hs

theorem PreTree.coalesceLeaf (again : IxIndexHandle κ order → Int → Option (Bool × IxIndexHandle κ order)) :
    let L' := A ++ (l.1, l.2 ++ r.2) :: B
    ∃ s₁, s.coalesce again neighbor node R index = again s₁ R ∧ s₁.fd2pageno = s.fd2pageno ∧
      s₁.firstLeaf = s.firstLeaf ∧ s₁.lastLeaf = (if r.1 = s.lastLeaf then l.1 else s.lastLeaf) ∧
      Up s₁ L' ((V₁ ++ (R, F₁ ++ (kl, ⟨l.1, -1⟩) :: F₂) :: V₂) :: Vs) ∧ (∀ b ∈ L', Holds s₁ true b) ∧
      Chained s₁ (pagesOf L') := by
  intro L'
  obtain ⟨nl, hnl, hnll, hnle⟩ := hs.left
  obtain ⟨nr, hnr, hnrl, hnre⟩ := hs.right
  have tr : PreTree s ((A ++ [l]) ++ r :: B) (V :: Vs) := by simpa using t
  obtain ⟨hymem, hyr, hylt, hyV, m, hm⟩ := tr.next hnr
  have hRV : R ∈ allPages (V :: Vs) := hu.mem
  obtain ⟨hndL, hndV, hdisj⟩ := nodup_append.1 t.nodup
  have hyR : nr.nextLeaf ≠ R := fun h => hyV (h ▸ hRV)
  have hhdr := t.header
  have hch := t.chained
  simp only [pagesOf_append, pagesOf_cons] at hch
  have hyl : nr.nextLeaf ≠ l.1 := by
    intro h
    rw [h] at hymem
    rcases mem_append.1 hymem with h' | h'
    · exact (ne_of_nodup_pair hndL (mem_append_right _ h')).2.1 rfl
    · exact hhdr.1 (mem_append_left _ (by simp [← mem_singleton.1 h']))
  have hprev : nr.prevLeaf = l.1 := by
    have := (seg_nil.1 (seg_cons.1 (seg_append.1 hch).2).1).2
    simpa [prevOf, hnr] using this
  obtain ⟨s₁, hpages, hroot, hfirst, hlast, hfd, hrun⟩ :=
    coalesce_leaf again hnl hnr hs.parent hm hprev hs.ne hs.left_ne
    hyl hyR hs.pos hs.parent_entries hnrl
  rw [hnle, hnre] at hpages
  have hl₁ : s₁.pages l.1 = some { nl with entries := l.2 ++ r.2, nextLeaf := nr.nextLeaf } := by
    rw [hpages, if_neg hs.left_ne, if_neg hyl.symm, if_pos rfl]
  -- the leaf behind `r` has another `prev_leaf`, everything else stays
  have hkeep : ∀ q, q ≠ l.1 → q ≠ R → ∀ c, s.pages q = some c → ∃ z, s₁.pages q = some { c with prevLeaf := z } := by
    intro q hql hqR c hc
    rw [hpages, if_neg hqR]
    by_cases hqy : q = nr.nextLeaf
    · subst hqy
      obtain rfl : m = c := by simpa [hm] using hc
      exact ⟨_, by rw [if_pos rfl]⟩
    · exact ⟨c.prevLeaf, by rw [if_neg hqy, if_neg hql, hc]⟩
  refine ⟨s₁, hrun, hfd, hfirst, hlast, ?_, ?_, ?_⟩
  · have hseps : lift [(kl, ⟨l.1, -1⟩)] = [((l.1, l.2 ++ r.2) : Block κ)].map sep := by
      simp only [lift_cons, lift_nil, map_cons, map_nil, sep, hu.first_append r.2]
    have hR₁ : s₁.pages R = some { n with entries := F₁ ++ ([(kl, ⟨l.1, -1⟩)] ++ F₂) } := by
      rw [hpages, if_pos rfl]; rfl
    refine hu.replace t.up hndV hseps rfl hroot hs.parent hR₁ (fun q hq hqR c hc => ?_) ?_ ?_
    · rw [hpages, if_neg hqR, if_neg (fun h : q = nr.nextLeaf => hyV (h ▸ hq)),
        if_neg (fun h : q = l.1 => hdisj l.1 (by simp) q hq h.symm), hc]
    · rintro q hq p ⟨c, hc, hcp⟩
      obtain ⟨hqL, hql, -⟩ := ne_of_nodup_pair hndL hq
      obtain ⟨z, hz⟩ := hkeep q hql (hdisj q hqL R hRV) c hc
      exact ⟨_, hz, hcp⟩
    · simp only [mem_singleton, forall_eq]
      obtain ⟨c, hc, hcp⟩ := (hu.parents t.up).1
      obtain rfl : nl = c := by simpa [hnl] using hc
      exact ⟨_, hl₁, hcp⟩
  · have hother : ∀ b ∈ A ++ B, Holds s₁ true b := by
      intro b hb
      have hbpage : b.1 ∈ pagesOf A ++ pagesOf B := by
        rw [← pagesOf_append]; exact mem_pagesOf hb
      obtain ⟨hbL, hbl, -⟩ := ne_of_nodup_pair hndL hbpage
      obtain ⟨c, hc, hcl, hce⟩ := t.holds b (by simp only [mem_append, mem_cons] at hb ⊢; tauto)
      obtain ⟨z, hz⟩ := hkeep b.1 hbl (hdisj _ hbL R hRV) c hc
      exact ⟨_, hz, hcl, hce⟩
    exact Lists.forall_mem_insert hother ⟨_, hl₁, hnll, rfl⟩
  · simp only [L', pagesOf_append, pagesOf_cons]
    refine hch.erase (y := nr.nextLeaf) ?_ (by simp [nextOf, hnr]) (fun q _ => ?_) fun q _ => ?_
    · refine nodup_cons.2 ⟨fun h => hhdr.1 (mem_append_left _ ?_), ?_⟩
      · rwa [pagesOf_append, pagesOf_cons, pagesOf_cons]
      · rwa [pagesOf_append, pagesOf_cons, pagesOf_cons] at hndL
    · rw [nextOf, hpages]
      by_cases hqR : q = R
      · rw [if_pos hqR, if_neg (hqR ▸ hs.left_ne.symm), hqR, nextOf, hs.parent]
        rfl
      by_cases hqy : q = nr.nextLeaf
      · rw [if_neg hqR, if_pos hqy, if_neg (hqy ▸ hyl), hqy, nextOf, hm]
        rfl
      by_cases hql : q = l.1
      · rw [if_neg hqR, if_neg hqy, if_pos hql, if_pos hql]
        rfl
      · rw [if_neg hqR, if_neg hqy, if_neg hql, if_neg hql, nextOf]
    · rw [prevOf, hpages]
      by_cases hqR : q = R
      · rw [if_pos hqR, if_neg (hqR ▸ hyR.symm), hqR, prevOf, hs.parent]
        rfl
      by_cases hqy : q = nr.nextLeaf
      · rw [if_neg hqR, if_pos hqy, if_pos hqy]
        rfl
      by_cases hql : q = l.1
      · rw [if_neg hqR, if_neg hqy, if_pos hql, if_neg hqy, hql, prevOf, hnl]
        rfl
      · rw [if_neg hqR, if_neg hqy, if_neg hql, if_neg hqy, prevOf]

variable (hsz : OneShort order A l r B node) (hord : 2 < order)

include hsz hord

theorem PreTree.redistributeLeaf (htot : 2 * minSize order ≤ l.2.length + r.2.length) :
    ∃ s' L' Us', s.redistribute neighbor node R index = some s' ∧ Tree s' L' Us' ∧
      flat L' = flat (A ++ l :: r :: B) := by
  have hmin2 : 2 ≤ minSize order := by simp only [minSize, maxSize]; omega
  obtain ⟨ls, rs, k, s', hrun, hflat, hll, hlr, ⟨ml, hml, hml'⟩, ⟨mr, hmr, hmr'⟩, hup', hfd, hframe, -⟩ :=
    redistribute_up hu hs t.up t.nodup (fun q hq => (t.range q hq).2) (by simp) (by simp)
      (fun h => by have := hsz.left h; omega) (fun h => by have := hsz.right h; omega)
  simp only [if_true] at hframe
  obtain ⟨hndL, -, hdisj⟩ := nodup_append.1 t.nodup
  set L' := A ++ (l.1, ls) :: (r.1, rs) :: B with hL'
  have hRV : R ∈ allPages (V :: Vs) := hu.mem
  have hpages : pagesOf L' = pagesOf (A ++ l :: r :: B) := by simp [hL']
  have hshape : shape ((V₁ ++ (R, F₁ ++ (kl, ⟨l.1, -1⟩) :: (k, ⟨r.1, -1⟩) :: F₂) :: V₂) :: Vs) =
      shape (V :: Vs) := by simp [shape, hu.level]
  have hall := allPages_of_shape hshape
  have hflatL : flat L' = flat (A ++ l :: r :: B) := by
    simp only [hL', flat_append, flat_cons, ← append_assoc]
    rw [append_assoc (flat A), hflat, ← append_assoc]
  have hmoved := hsz.moved hs hflat hll hlr htot
  refine ⟨s', L', _, hrun,
    ⟨⟨?_, hup', t.sizes.of_shape hshape, hflatL ▸ t.sorted, ?_, ?_, ?_, ?_, ?_⟩, fun _ => ?_, ?_⟩,
    hflatL⟩
  · refine Lists.forall_mem_insert_two (fun b hb => ?_) ?_ ?_
    · have hbpage : b.1 ∈ pagesOf A ++ pagesOf B := by
        rw [← pagesOf_append]; exact mem_pagesOf hb
      obtain ⟨hqL, hql, hqr⟩ := ne_of_nodup_pair hndL hbpage
      refine hframe.holds (t.holds b ?_) (by simp [hql, hqr, hdisj _ hqL R hRV])
        (t.range _ (mem_append_left _ hqL)).2
      simp only [mem_append, mem_cons] at hb ⊢
      tauto
    · obtain ⟨c, hc, hcl, -⟩ := hs.left
      obtain rfl : ml = c := by simpa [hml] using hc
      exact ⟨_, hml', hcl, rfl⟩
    · obtain ⟨c, hc, hcl, -⟩ := hs.right
      obtain rfl : mr = c := by simpa [hmr] using hc
      exact ⟨_, hmr', hcl, rfl⟩
  · rw [hpages]
    refine t.chained.congr fun q hq => ?_
    by_cases hql : q = l.1
    · simp [hql, nextOf, prevOf, hml, hml']
    by_cases hqr : q = r.1
    · simp [hqr, nextOf, prevOf, hmr, hmr']
    have hqR : q ≠ R := fun h => (t.links_out q hq).1 (h ▸ hRV)
    obtain ⟨n', hn'⟩ := t.chained.exists_page hq
    exact hframe.links hn' (by simp [hql, hqr, hqR]) (t.links_out q hq).2
  · rw [hpages, hframe.first]; exact t.first
  · rw [hpages, hframe.last]; exact t.last
  · rw [hpages, hall]; exact t.nodup
  · rw [hpages, hall, hfd]; exact t.range
  · exact Lists.forall_mem_insert_two (fun b hb => (hsz.others b hb).1) hmoved.1.1 hmoved.2.1
  · exact Lists.forall_mem_insert_two (fun b hb => (hsz.others b hb).2) hmoved.1.2 hmoved.2.2

theorem PreTree.coalesceLeaf_up (fuel : Nat) (htot : l.2.length + r.2.length < 2 * minSize order)
    (hfuel : Vs.length < fuel) :
    ∃ b s' L' Us', s.coalesce (coalesceOrRedistribute fuel) neighbor node R index = some (b, s') ∧ Tree s' L' Us' ∧
      flat L' = flat (A ++ l :: r :: B) := by
  obtain ⟨s₁, hrun, hfd, hfirst, hlast, hup₁, hholds, hch⟩ := t.coalesceLeaf hu hs (coalesceOrRedistribute fuel)
  set L' := A ++ (l.1, l.2 ++ r.2) :: B with hL'
  have hsub : (pagesOf L').Sublist (pagesOf (A ++ l :: r :: B)) := by simp [hL']
  have hall : allPages ((V₁ ++ (R, F₁ ++ (kl, ⟨l.1, -1⟩) :: F₂) :: V₂) :: Vs) = allPages (V :: Vs) := by
    rw [allPages_cons, hu.pages_shorter, allPages_cons]
  have hnd₁ : (pagesOf L' ++ allPages (V :: Vs)).Nodup := t.nodup.sublist (hsub.append_right _)
  have hrange₁ : ∀ q ∈ pagesOf L' ++ allPages (V :: Vs), initRootPage ≤ q ∧ q < s₁.fd2pageno := by
    rw [hfd]
    exact fun q hq => t.range q ((hsub.append_right _).subset hq)
  obtain ⟨hothers, hle, hmin⟩ := hu.sizes_shorter t.sizes.1
  obtain ⟨b, s₂, Us', hrun₂, g⟩ := coalesceOrRedistribute_up hord fuel hup₁ hothers t.sizes.2 hle hmin (hall ▸ hnd₁)
    (fun q hq => (hrange₁ q (hall ▸ hq)).2) hfuel
  have hflat : flat L' = flat (A ++ l :: r :: B) := by simp [hL']
  have hmerged := hsz.merged hs htot
  have hdisj := (nodup_append.1 hnd₁).2.2
  refine ⟨b, s₂, L', Us', by rw [hrun, hrun₂], ⟨⟨fun b hb => ?_, g.up, g.sizes, hflat ▸ t.sorted, ?_, ?_, ?_, g.nodup,
    fun q hq => ?_⟩, fun _ => ?_, ?_⟩, hflat⟩
  · have hbL := mem_pagesOf hb
    exact g.frame.holds (hholds b hb) (fun h => hdisj _ hbL _ (hall ▸ h) rfl) (hrange₁ _ (mem_append_left _ hbL)).2
  · refine hch.of_frame g.frame fun q hq => ?_
    rw [hall, hfd]
    refine t.links_out q ?_
    rcases mem_cons.1 hq with hq | hq
    · exact hq ▸ mem_cons_self
    · exact mem_cons_of_mem _ (hsub.subset hq)
  · rw [g.frame.first, hfirst]
    refine ⟨?_, t.first.2⟩
    have := t.first.1
    cases A with
    | nil => simpa [hL'] using this
    | cons a A => simpa [hL'] using this
  · rw [g.frame.last, hlast]
    exact getLast?_erase rfl (nodup_append.1 t.nodup).1 t.last
  · rw [g.fd]
    rcases mem_append.1 hq with hq | hq
    · exact hrange₁ q (mem_append_left _ hq)
    · exact hrange₁ q (mem_append_right _ (hall ▸ g.sub q hq))
  · exact Lists.forall_mem_insert (fun b hb => (hsz.others b hb).1) hmerged.1
  · exact Lists.forall_mem_insert (fun b hb => (hsz.others b hb).2) hmerged.2

end Leaves

/-- One leaf is one entry too small: after `coalesce_or_redistribute` all nodes
have their size again, and the entries are those of before. -/
theorem PreTree.coalesceOrRedistribute_leaf {L₁ L₂ : List (Block κ)}
    {Us : List (List (Block κ))} {p : Int} {es : List (κ × Rid)} (hord : 2 < order)
    (t : PreTree s (L₁ ++ (p, es) :: L₂) Us)
    (hothers : ∀ b ∈ L₁ ++ L₂, b.2.length ≤ order ∧ (Us ≠ [] → minSize order ≤ b.2.length))
    (hmax : es.length ≤ order) (hmin : Us ≠ [] → minSize order ≤ es.length + 1) :
    ∃ b s' L' Us', coalesceOrRedistribute s.fuel s p = some (b, s') ∧ Tree s' L' Us' ∧
      flat L' = flat (L₁ ++ (p, es) :: L₂) := by
  obtain ⟨c, hc, hcl, hce⟩ := t.holds (p, es) (by simp)
  simp only at hc hce
  have hfuel := t.length_lt_fuel hord
  obtain ⟨fuel, hf⟩ : ∃ f, s.fuel = f + 1 := ⟨s.fuel - 1, by omega⟩
  rw [hf] at hfuel ⊢
  cases Us with
  | nil =>
    obtain ⟨rfl, rfl, hroot, c', hc', hcp⟩ := t.up.root
    obtain rfl : c = c' := by simpa [hc] using hc'
    have hp : p = initRootPage := by simpa using t.first.1
    have hroot' : s.rootPage = initRootPage := hroot.trans hp
    have hsame : { s with rootPage := initRootPage } = s := by rw [← hroot']
    refine ⟨false, s, _, _, ?_, ⟨t, fun h => absurd rfl h, ?_⟩, rfl⟩
    · simp [coalesceOrRedistribute, fetchNode, hc, IxNode.isRootPage, hcp, adjustRoot, hcl, IxNode.getSize, hce, hsame]
    · simpa using hmax
  | cons V Vs =>
    have hmin1 := hmin (by simp)
    have hmin2 : 2 ≤ minSize order ∧ 2 * minSize order ≤ order + 1 := by simp only [minSize, maxSize]; omega
    have hV2 : ∀ b ∈ V, 2 ≤ b.2.length := fun b hb => by
      have := (t.sizes.1 b hb).1
      split at this <;> omega
    obtain ⟨A, l, r, B, V₁, R, F₁, kl, kr, F₂, V₂, n, neighbor, index, hpos, hu, hs, hpar, hR, hfind, hval⟩ :=
      t.up.siblings t.nodup t.holds hV2
    obtain ⟨c', hc', hcp⟩ := id hpar
    obtain rfl : c = c' := by simpa [hc] using hc'
    by_cases hbig : minSize order ≤ es.length
    · refine ⟨false, s, _, _, ?_, ⟨t, fun _ b hb => ?_, fun b hb => ?_⟩, rfl⟩
      · simp [coalesceOrRedistribute, fetchNode, hc, IxNode.isRootPage, hcp, hR, IxNode.getSize, hce, hbig]
      · exact Lists.forall_mem_insert (fun b hb => (hothers b hb).2 (by simp)) hbig b hb
      · exact Lists.forall_mem_insert (fun b hb => (hothers b hb).1) hmax b hb
    · obtain ⟨hLeq, hsz⟩ := sizes_of_pos hpos hs.ne (by omega : es.length + 1 = minSize order) fun b hb =>
        ⟨(hothers b hb).2 (by simp), (hothers b hb).1⟩
      obtain ⟨m, hm, htot⟩ := hs.neighbor_size hc
      rw [hLeq] at t ⊢
      rw [coalesceOrRedistribute_small fuel hc hcp hR (by rw [hce]; omega) hs.parent hfind hval hm, htot]
      by_cases hred : 2 * minSize order ≤ l.2.length + r.2.length
      · obtain ⟨s', L', Us', hrun, t', hflat⟩ := t.redistributeLeaf hu hs hsz hord hred
        exact ⟨false, s', L', Us', by rw [if_pos hred, hrun]; rfl, t', hflat⟩
      · obtain ⟨b, s', L', Us', hrun, t', hflat⟩ := t.coalesceLeaf_up hu hs hsz hord fuel (by omega)
          (by simp at hfuel; omega)
        exact ⟨true, s', L', Us', by rw [if_neg hred, hrun]; rfl, t', hflat⟩

/-! ## Deleting -/

section Entries

variable {s : IxIndexHandle κ order} {L : List (Block κ)} {Us : List (List (Block κ))}

theorem Tree.deleteEntry_new (t : Tree s L Us) (hord : 2 < order) {x : κ} (hx : ∀ r, (x, r) ∉ flat L) :
    s.deleteEntry x = some (false, s) := by
  obtain ⟨L₁, p, n, L₂, rfl, hfind, hn, hs, hloc, h₁⟩ := t.leaf_eq hord x
  obtain ⟨pos, hrem⟩ := IxNode.remove_new hs fun r h => hx r ((mem_flat_of_located h₁ hloc r).2 h)
  simp [deleteEntry, hfind, fetchNode, hn, hrem]

theorem Tree.deleteEntry_old (t : Tree s L Us) (hord : 2 < order) {x : κ} {r : Rid} (hx : (x, r) ∈ flat L) :
    ∃ s' L' Us' A B, s.deleteEntry x = some (true, s') ∧ Tree s' L' Us' ∧ flat L = A ++ (x, r) :: B ∧
      flat L' = A ++ B := by
  obtain ⟨L₁, ⟨p, es⟩, L₂, rfl, hfind, hloc, h₁⟩ := t.findLeafPage_eq hord x
  obtain ⟨n, hn, hnl, hes⟩ := t.holds (p, es) (by simp)
  simp only at hfind hn hes
  have hs : IxNode.Sorted n.entries := hes ▸ sorted_of_mem t.sorted (by simp : (p, es) ∈ L₁ ++ (p, es) :: L₂)
  obtain ⟨A, B, hAB, hrem⟩ := IxNode.remove_old hs (hes ▸ (mem_flat_of_located h₁ hloc r).1 hx)
  rw [hes] at hAB
  subst hAB
  have hflat : flat (L₁ ++ (p, A ++ (x, r) :: B) :: L₂) = (flat L₁ ++ A) ++ (x, r) :: (B ++ flat L₂) := by simp
  have hflat' : flat (L₁ ++ (p, A ++ B) :: L₂) = (flat L₁ ++ A) ++ (B ++ flat L₂) := by simp
  have hsorted : IxNode.Sorted (flat (L₁ ++ (p, A ++ B) :: L₂)) := by
    rw [hflat']
    exact (hflat ▸ t.sorted).sublist ((sublist_cons_self _ _).append_left _)
  have hlen : (A ++ (x, r) :: B).length = (A ++ B).length + 1 := by simp; omega
  have hmin2 : 2 ≤ minSize order := by simp only [minSize, maxSize]; omega
  have hmin : Us ≠ [] → minSize order ≤ (A ++ B).length + 1 := fun h => by
    have := t.leafMin h (p, A ++ (x, r) :: B) (by simp)
    simp only at this
    omega
  obtain ⟨s₁, Us₁, hset, hset', t₁, hshape⟩ := t.toPreTree.setLeaf (c := A.length = 0) hord hn hsorted
    (fun h => ne_nil_of_length_pos (by have := hmin h; omega)) (fun hc => by cases A <;> simp_all)
  have hUs : Us₁ ≠ [] → Us ≠ [] := by
    rintro h rfl
    exact h (by simpa [shape] using hshape)
  have hmax := t.leafMax (p, A ++ (x, r) :: B) (by simp)
  simp only at hmax
  have hothers : ∀ b ∈ L₁ ++ L₂, b.2.length ≤ order ∧ (Us₁ ≠ [] → minSize order ≤ b.2.length) := fun b hb => by
    have hb' : b ∈ L₁ ++ (p, A ++ (x, r) :: B) :: L₂ := by
      simp only [mem_append, mem_cons] at hb ⊢; tauto
    exact ⟨t.leafMax b hb', fun h => t.leafMin (hUs h) b hb'⟩
  obtain ⟨b, s', L', Us', hrun, t', hflat''⟩ := t₁.coalesceOrRedistribute_leaf hord hothers (by omega)
    fun h => hmin (hUs h)
  refine ⟨s', L', Us', flat L₁ ++ A, B ++ flat L₂, ?_, t', hflat, hflat''.trans hflat'⟩
  have hsize : n.getSize - 1 ≠ n.getSize := by
    rw [IxNode.getSize, hes]; omega
  simp only [deleteEntry, hfind, bind_eq_bind, bind_some, fetchNode, hn, hrem, if_neg hsize]
  by_cases hA0 : A.length = 0
  · simp only [if_pos hA0, hset hA0, bind_some, hrun]
  · simp only [if_neg hA0, hset' hA0, bind_some, hrun]

end Entries

end Rmdb.Index
