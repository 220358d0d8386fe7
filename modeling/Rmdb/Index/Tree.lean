/-
The invariant of an open index: the leaves with the levels above them, the
sizes, the order of the keys and the list of leaves. Searching follows the
levels down to the one leaf that can hold a key.
-/
import Rmdb.Index.Merge

namespace Rmdb.Index

open Option List IxIndexHandle

variable {κ : Type} {order : Nat}

/-! ## The list of leaves -/

def nextOf (s : IxIndexHandle κ order) (p : Int) : Option Int := (s.pages p).map IxNode.nextLeaf

def prevOf (s : IxIndexHandle κ order) (p : Int) : Option Int := (s.pages p).map IxNode.prevLeaf

/-- From the page `a` through the pages `ps` to `b`, by `next_leaf` and, the
other way, by `prev_leaf`. -/
def Seg (s : IxIndexHandle κ order) (a : Int) (ps : List Int) (b : Int) : Prop :=
  (a :: ps).map (nextOf s) = (ps ++ [b]).map some ∧ (ps ++ [b]).map (prevOf s) = (a :: ps).map some

def Chained (s : IxIndexHandle κ order) (ps : List Int) : Prop := Seg s leafHeaderPage ps leafHeaderPage

variable {s s' : IxIndexHandle κ order}

theorem Seg.congr {a b : Int} {ps : List Int} (h : Seg s a ps b)
    (hnext : ∀ q ∈ a :: ps, nextOf s' q = nextOf s q) (hprev : ∀ q ∈ ps ++ [b], prevOf s' q = prevOf s q) :
    Seg s' a ps b :=
  ⟨(map_congr_left hnext).trans h.1, (map_congr_left hprev).trans h.2⟩

theorem seg_nil {a b : Int} : Seg s a [] b ↔ nextOf s a = some b ∧ prevOf s b = some a := by
  simp [Seg]

theorem seg_append {a p b : Int} {ps qs : List Int} : Seg s a (ps ++ p :: qs) b ↔ Seg s a ps p ∧ Seg s p qs b := by
  have hnext : (a :: (ps ++ p :: qs)).map (nextOf s) = ((ps ++ p :: qs) ++ [b]).map some ↔
      (a :: ps).map (nextOf s) ++ (p :: qs).map (nextOf s) = (ps ++ [p]).map some ++ (qs ++ [b]).map some := by
    simp
  have hprev : ((ps ++ p :: qs) ++ [b]).map (prevOf s) = (a :: (ps ++ p :: qs)).map some ↔
      (ps ++ [p]).map (prevOf s) ++ (qs ++ [b]).map (prevOf s) = (a :: ps).map some ++ (p :: qs).map some := by
    simp
  rw [Seg, hnext, hprev, append_eq_append_iff_of_size_eq_left (by simp),
    append_eq_append_iff_of_size_eq_left (by simp), Seg, Seg]
  tauto

theorem seg_cons {a p b : Int} {qs : List Int} :
    Seg s a (p :: qs) b ↔ Seg s a [] p ∧ Seg s p qs b := @seg_append _ _ s a p b [] qs

theorem Seg.rehead {a b c y : Int} {qs : List Int} (h : Seg s a qs b)
    (hnd : (qs ++ [b]).Nodup) (hy : nextOf s a = some y) (hcy : nextOf s' c = some y) (hyc : prevOf s' y = some c)
    (hnext : ∀ q ∈ qs, nextOf s' q = nextOf s q) (hprev : ∀ q ∈ qs ++ [b], q ≠ y → prevOf s' q = prevOf s q) :
    Seg s' c qs b := by
  cases qs with
  | nil =>
    obtain ⟨hab, -⟩ := seg_nil.1 h
    rw [hy, some.injEq] at hab
    subst hab
    exact seg_nil.2 ⟨hcy, hyc⟩
  | cons z zs =>
    obtain ⟨haz, hzs⟩ := seg_cons.1 h
    obtain ⟨haz, -⟩ := seg_nil.1 haz
    rw [hy, some.injEq] at haz
    subst haz
    refine seg_cons.2 ⟨seg_nil.2 ⟨hcy, hyc⟩, hzs.congr hnext fun q hq => ?_⟩
    rw [cons_append, nodup_cons] at hnd
    exact hprev q (mem_cons_of_mem _ hq) fun h => hnd.1 (h ▸ hq)

theorem Seg.next_mem {a b y : Int} {qs : List Int} (h : Seg s a qs b) (hy : nextOf s a = some y) : y ∈ qs ++ [b] := by
  have := h.1
  rw [map_cons, hy] at this
  have hmem : some y ∈ (qs ++ [b]).map some := by rw [← this]; simp
  simpa using hmem

theorem Chained.congr {ps : List Int} (h : Chained s ps)
    (hs : ∀ q ∈ leafHeaderPage :: ps, nextOf s' q = nextOf s q ∧ prevOf s' q = prevOf s q) : Chained s' ps :=
  Seg.congr h (fun q hq => (hs q hq).1) fun q hq => (hs q (by simpa [or_comm] using hq)).2

section Links

variable {s s' : IxIndexHandle κ order} {ps qs : List Int}

theorem Chained.insert {p new y : Int} (h : Chained s (ps ++ p :: qs)) (hnd : (leafHeaderPage :: (ps ++ p :: qs)).Nodup)
    (hnew : new ∉ leafHeaderPage :: (ps ++ p :: qs)) (hy : nextOf s p = some y)
    (hnext : ∀ q, nextOf s' q = if q = p then some new else if q = new then some y else nextOf s q)
    (hprev : ∀ q, prevOf s' q = if q = y then some new else if q = new then some p else prevOf s q) :
    Chained s' (ps ++ p :: new :: qs) := by
  obtain ⟨hps, hqs⟩ := seg_append.1 h
  have hyqs := hqs.next_mem hy
  simp only [nodup_cons, nodup_append, mem_append, mem_cons, not_or] at hnd hnew
  obtain ⟨⟨hhps, hhp, hhqs⟩, -, ⟨hpqs, hndqs⟩, hdisj⟩ := hnd
  obtain ⟨hnewh, hnewps, hnewp, hnewqs⟩ := hnew
  have hyback : y ∈ qs ∨ y = leafHeaderPage := by simpa using hyqs
  have hynew : new ≠ y := by
    rintro rfl
    exact hyback.elim hnewqs hnewh
  refine seg_append.2 ⟨hps.congr (fun q hq => ?_) fun q hq => ?_, seg_cons.2
    ⟨seg_nil.2 ⟨by rw [hnext, if_pos rfl], by rw [hprev, if_neg hynew, if_pos rfl]⟩,
      hqs.rehead ?_ hy (by rw [hnext, if_neg hnewp, if_pos rfl]) (by rw [hprev, if_pos rfl]) (fun q hq => ?_)
        fun q hq hqy => ?_⟩⟩
  · have hqp : q ≠ p := by
      rintro rfl
      rcases mem_cons.1 hq with h | h
      · exact hhp h.symm
      · exact hdisj q h q (.inl rfl) rfl
    have hqn : q ≠ new := by
      rintro rfl
      exact (mem_cons.1 hq).elim hnewh hnewps
    rw [hnext, if_neg hqp, if_neg hqn]
  · have hq' : q ∈ ps ∨ q = p := by simpa using hq
    have hqy : q ≠ y := by
      rintro rfl
      rcases hq' with h | rfl
      · exact hyback.elim (fun h' => hdisj q h q (.inr h') rfl) fun h' => hhps (h' ▸ h)
      · exact hyback.elim hpqs fun h' => hhp h'.symm
    have hqn : q ≠ new := by
      rintro rfl
      exact hq'.elim hnewps hnewp
    rw [hprev, if_neg hqy, if_neg hqn]
  · simp only [nodup_append, hndqs, nodup_singleton, mem_singleton, forall_eq, true_and]
    exact fun q hq h => hhqs (h ▸ hq)
  · rw [hnext, if_neg (ne_of_mem_of_not_mem hq hpqs), if_neg (ne_of_mem_of_not_mem hq hnewqs)]
  · have hqn : q ≠ new := by
      rintro rfl
      rcases mem_append.1 hq with h | h
      · exact hnewqs h
      · exact hnewh (by simpa using h)
    rw [hprev, if_neg hqy, if_neg hqn]

theorem Chained.erase {l r y : Int} (h : Chained s (ps ++ l :: r :: qs))
    (hnd : (leafHeaderPage :: (ps ++ l :: r :: qs)).Nodup) (hy : nextOf s r = some y)
    (hnext : ∀ q, q ≠ r → nextOf s' q = if q = l then some y else nextOf s q)
    (hprev : ∀ q, q ≠ r → prevOf s' q = if q = y then some l else prevOf s q) : Chained s' (ps ++ l :: qs) := by
  obtain ⟨hps, hlqs⟩ := seg_append.1 h
  obtain ⟨-, hqs⟩ := seg_cons.1 hlqs
  have hyback : y ∈ qs ∨ y = leafHeaderPage := by simpa using hqs.next_mem hy
  simp only [nodup_cons, nodup_append, mem_append, mem_cons, not_or] at hnd
  obtain ⟨⟨hhps, hhl, hhr, hhqs⟩, -, ⟨⟨hlr, hlqs⟩, hrqs, hndqs⟩, hdisj⟩ := hnd
  have hyr : y ≠ r := by
    rintro rfl
    exact hyback.elim hrqs fun h => hhr h.symm
  refine seg_append.2 ⟨hps.congr (fun q hq => ?_) fun q hq => ?_,
    hqs.rehead ?_ hy (by rw [hnext l hlr, if_pos rfl]) (by rw [hprev y hyr, if_pos rfl]) (fun q hq => ?_)
      fun q hq hqy => ?_⟩
  · have hq' := mem_cons.1 hq
    have hqr : q ≠ r := by
      rintro rfl
      exact hq'.elim (fun h => hhr h.symm) fun h => hdisj q h q (.inr (.inl rfl)) rfl
    have hql : q ≠ l := by
      rintro rfl
      exact hq'.elim (fun h => hhl h.symm) fun h => hdisj q h q (.inl rfl) rfl
    rw [hnext q hqr, if_neg hql]
  · have hq' : q ∈ ps ∨ q = l := by simpa using hq
    have hqr : q ≠ r := by
      rintro rfl
      exact hq'.elim (fun h => hdisj q h q (.inr (.inl rfl)) rfl) fun h => hlr h.symm
    have hqy : q ≠ y := by
      rintro rfl
      rcases hq' with h | rfl
      · exact hyback.elim (fun h' => hdisj q h q (.inr (.inr h')) rfl) fun h' => hhps (h' ▸ h)
      · exact hyback.elim hlqs fun h' => hhl h'.symm
    rw [hprev q hqr, if_neg hqy]
  · simp only [nodup_append, hndqs, nodup_singleton, mem_singleton, forall_eq, true_and]
    exact fun q hq h => hhqs (h ▸ hq)
  · rw [hnext q (ne_of_mem_of_not_mem hq hrqs), if_neg (ne_of_mem_of_not_mem hq hlqs)]
  · have hqr : q ≠ r := by
      rintro rfl
      rcases mem_append.1 hq with h | h
      · exact hrqs h
      · exact hhr (mem_singleton.1 h).symm
    rw [hprev q hqr, if_neg hqy]

end Links

theorem Frame.links {X Y : List Int} (h : Frame s s' X Y) {q : Int} {n : IxNode κ}
    (hn : s.pages q = some n) (hX : q ∉ X) (hlt : q < s.fd2pageno) :
    nextOf s' q = nextOf s q ∧ prevOf s' q = prevOf s q := by
  obtain ⟨p, hp⟩ := h.core q n hX hlt hn
  simp [nextOf, prevOf, hp, hn]

theorem Chained.exists_page {ps : List Int} (h : Chained s ps) {q : Int}
    (hq : q ∈ leafHeaderPage :: ps) : ∃ n, s.pages q = some n := by
  have hmem : nextOf s q ∈ (ps ++ [leafHeaderPage]).map some := by
    rw [← h.1]; exact mem_map_of_mem hq
  obtain ⟨y, -, hy⟩ := mem_map.1 hmem
  obtain ⟨n, hn, -⟩ := map_eq_some_iff.1 hy.symm
  exact ⟨n, hn⟩

theorem Chained.of_frame {ps X Y : List Int} (h : Chained s ps) (hf : Frame s s' X Y)
    (hX : ∀ q ∈ leafHeaderPage :: ps, q ∉ X ∧ q < s.fd2pageno) : Chained s' ps := by
  refine h.congr fun q hq => ?_
  obtain ⟨n, hn⟩ := h.exists_page hq
  exact hf.links hn (hX q hq).1 (hX q hq).2

/-! ## The invariant -/

theorem Up.length_le (hord : 2 < order) : ∀ {Us : List (List (Block κ))}
    {L : List (Block κ)}, Up s L Us → Sizes order Us → L ≠ [] ∧ Us.length ≤ (allPages Us).length
  | [], L, hup, _ => by
    obtain ⟨b, rfl, -⟩ := hup
    simp
  | U :: Us, L, hup, hsz => by
    obtain ⟨hne, hlen⟩ := Up.length_le hord hup.2.2.2.2 hsz.2
    obtain ⟨u, U', rfl⟩ := exists_cons_of_ne_nil hne
    have hu : 0 < u.2.length := by
      have := (hsz.1 u (by simp)).1
      simp only [minSize, maxSize] at this
      split at this <;> omega
    obtain ⟨e, es, hes⟩ := exists_cons_of_length_pos hu
    have hmem := hup.2.1.mem_pages (b := u) (by simp) (e := e) (by simp [hes])
    refine ⟨fun h => by simp [h] at hmem, ?_⟩
    simp only [length_cons, allPages_cons, pagesOf_cons, length_append]
    omega

section Invariant

variable [IxOrder κ]

/-- An open index with the leaves `L` below the levels `Us`, less the sizes of
the leaves. -/
structure PreTree (s : IxIndexHandle κ order) (L : List (Block κ)) (Us : List (List (Block κ))) : Prop where
  holds : ∀ b ∈ L, Holds s true b
  up : Up s L Us
  sizes : Sizes order Us
  sorted : IxNode.Sorted (flat L)
  chained : Chained s (pagesOf L)
  first : (pagesOf L).head? = some initRootPage ∧ s.firstLeaf = initRootPage
  last : (pagesOf L).getLast? = some s.lastLeaf
  nodup : (pagesOf L ++ allPages Us).Nodup
  range : ∀ q ∈ pagesOf L ++ allPages Us, initRootPage ≤ q ∧ q < s.fd2pageno

structure Tree (s : IxIndexHandle κ order) (L : List (Block κ)) (Us : List (List (Block κ))) : Prop
    extends PreTree s L Us where
  leafMin : Us ≠ [] → ∀ b ∈ L, minSize order ≤ b.2.length
  leafMax : ∀ b ∈ L, b.2.length ≤ order

variable {s : IxIndexHandle κ order} {L : List (Block κ)} {Us : List (List (Block κ))}

theorem PreTree.header
    (t : PreTree s L Us) : leafHeaderPage ∉ pagesOf L ++ allPages Us ∧ leafHeaderPage < s.fd2pageno := by
  refine ⟨fun h => ?_, ?_⟩
  · have := (t.range _ h).1
    simp [initRootPage, leafHeaderPage] at this
  · have hmem : initRootPage ∈ pagesOf L := mem_of_head? t.first.1
    have := (t.range _ (mem_append_left _ hmem)).2
    simp only [initRootPage] at this
    simp only [leafHeaderPage]
    omega

theorem PreTree.links_out
    (t : PreTree s L Us) : ∀ q ∈ leafHeaderPage :: pagesOf L, q ∉ allPages Us ∧ q < s.fd2pageno := by
  intro q hq
  rcases mem_cons.1 hq with rfl | hq
  · exact ⟨fun h => t.header.1 (mem_append_right _ h), t.header.2⟩
  · exact ⟨fun h => (nodup_append.1 t.nodup).2.2 q hq q h rfl, (t.range q (mem_append_left _ hq)).2⟩

/-! ## Keys in order -/

theorem sorted_of_mem (h : IxNode.Sorted (flat L)) {b : Block κ} (hb : b ∈ L) : IxNode.Sorted b.2 := by
  obtain ⟨L₁, L₂, rfl⟩ := append_of_mem hb
  rw [flat_append, flat_cons, IxNode.Sorted, pairwise_append, pairwise_append] at h
  exact h.2.1.1

theorem head_le_of_sorted {es : List (κ × Rid)} (hs : IxNode.Sorted es) {k : κ} (hk : es.head?.map Prod.fst = some k)
    {e : κ × Rid} (he : e ∈ es) : k ≤ e.1 := by
  cases es with
  | nil => simp at he
  | cons e' es =>
    simp only [List.head?_cons, map_some, some.injEq] at hk
    subst hk
    rcases mem_cons.1 he with rfl | he
    · exact le_refl _
    · exact ((pairwise_cons.1 hs).1 e he).le

variable {x : κ}

theorem lt_flat_of_lift {E : List (κ × Rid)} (h : lift E = L.map sep)
    (hs : IxNode.Sorted (flat L)) (hx : ∀ e ∈ E, x < e.1) : ∀ e ∈ flat L, x < e.1 := by
  intro e he
  obtain ⟨b, hb, heb⟩ := mem_flatMap.1 he
  obtain ⟨e₀, he₀, hk⟩ := exists_of_lift h hb
  exact (hx e₀ he₀).trans_le (head_le_of_sorted (sorted_of_mem hs hb) hk heb)

theorem sorted_of_lift : ∀ {E : List (κ × Rid)} {L : List (Block κ)}, lift E = L.map sep →
    IxNode.Sorted (flat L) → IxNode.Sorted E
  | [], _, _, _ => List.Pairwise.nil
  | e :: E, [], h, _ => by simp at h
  | e :: E, b :: L, h, hs => by
    simp only [lift_cons, map_cons, List.cons.injEq, sep, Prod.mk.injEq] at h
    rw [flat_cons, IxNode.Sorted, pairwise_append] at hs
    refine pairwise_cons.2 ⟨fun e' he' => ?_, sorted_of_lift h.2 hs.2.1⟩
    -- both are keys of the lower level, in different nodes
    obtain ⟨e₁, he₁, hk₁⟩ : ∃ e₁ ∈ b.2, e₁.1 = e.1 := by
      obtain ⟨e₁, he₁, hk₁⟩ := map_eq_some_iff.1 h.1.1.symm
      exact ⟨e₁, mem_of_head? he₁, hk₁⟩
    have hmem : (some e'.1, e'.2) ∈ L.map sep := by
      rw [← h.2]; exact mem_map_of_mem (f := fun e : κ × Rid => (some e.1, e.2)) he'
    obtain ⟨b', hb', hsep⟩ := mem_map.1 hmem
    simp only [sep, Prod.mk.injEq] at hsep
    obtain ⟨e₂, he₂, hk₂⟩ := map_eq_some_iff.1 hsep.1
    rw [← hk₁, ← hk₂]
    exact hs.2.2 e₁ he₁ e₂ (mem_flatMap.2 ⟨b', hb', mem_of_head? he₂⟩)

/-! ## Searching -/

/-- `b` is the one node of its level that can hold `x`: the nodes behind it
start above `x`, and `b` starts at or below `x` unless it is the first. -/
structure Located (x : κ) (L₁ : List (Block κ)) (b : Block κ) (L₂ : List (Block κ)) : Prop where
  right : ∀ e ∈ flat L₂, x < e.1
  left : L₁ ≠ [] → ∃ k, b.2.head?.map Prod.fst = some k ∧ k ≤ x

theorem Up.descend_step {U₁ U₂ : List (Block κ)}
    {u : Block κ} (hup : Up s L ((U₁ ++ u :: U₂) :: Us)) (hs : IxNode.Sorted (flat L)) (hu : u.2 ≠ [])
    (hloc : Located x U₁ u U₂) :
    ∃ L₁ b L₂, L = L₁ ++ b :: L₂ ∧ Located x L₁ b L₂ ∧
      ∀ fuel, s.findLeafFrom x (fuel + 1) u.1 = s.findLeafFrom x fuel b.1 := by
  obtain ⟨n, hn, hnl, hes⟩ := hup.1 u (by simp)
  have hlink := hup.2.1
  have hsU := sorted_of_lift hlink hs
  have hsu : IxNode.Sorted n.entries := hes ▸ sorted_of_mem hsU (by simp : u ∈ U₁ ++ u :: U₂)
  obtain ⟨A, e, B, hAB, hub, hle, hgt⟩ := IxNode.upperBound_cut hsu (by rwa [hes]) x
  -- the levels cut at the entry that was picked
  rw [hes] at hAB
  have hcut : lift (flat U₁ ++ A) ++ (some e.1, e.2) :: lift (B ++ flat U₂) = L.map sep := by
    rw [← hlink, flat_append, flat_cons, hAB]
    simp
  obtain ⟨L₁, L', rfl, h₁, h'⟩ := map_eq_append_iff.1 hcut.symm
  obtain ⟨b, L₂, rfl, hb, h₂⟩ := map_eq_cons_iff.1 h'
  simp only [sep, Prod.mk.injEq] at hb
  have hsL₂ : IxNode.Sorted (flat L₂) := by
    rw [flat_append, flat_cons, IxNode.Sorted, pairwise_append, pairwise_append] at hs
    exact hs.2.1.2.1
  refine ⟨L₁, b, L₂, rfl, ⟨lt_flat_of_lift h₂.symm hsL₂ fun e' he' => ?_, fun hne => ⟨e.1, hb.1, ?_⟩⟩, fun fuel => ?_⟩
  · rcases mem_append.1 he' with h | h
    · exact hgt e' h
    · exact hloc.right e' h
  · by_cases hA : A = []
    · -- the first entry of its node: then the node is not the first one, and starts with it
      subst hA
      have hU₁ : U₁ ≠ [] := by
        rintro rfl
        simp only [flat_nil, append_nil, lift_nil, map_eq_nil_iff] at h₁
        exact hne h₁
      obtain ⟨k, hk, hkx⟩ := hloc.left hU₁
      rw [hAB] at hk
      simp only [nil_append, List.head?_cons, map_some, some.injEq] at hk
      exact hk ▸ hkx
    · exact hle hA
  · have hval : n.internalLookup x = some b.1 := by
      rw [IxNode.internalLookup, ← hub, Nat.add_sub_cancel, IxNode.valueAt, IxNode.getRid, hes, hAB]
      simp [← hb.2]
    simp only [findLeafFrom, fetchNode, hn, bind_eq_bind, bind_some, hnl, Bool.false_eq_true, if_false,
      hval]

theorem Up.descend (hord : 2 < order) (x : κ) : ∀ {Us : List (List (Block κ))}
    {L : List (Block κ)}, Up s L Us → Sizes order Us → IxNode.Sorted (flat L) →
    ∃ L₁ b L₂, L = L₁ ++ b :: L₂ ∧ Located x L₁ b L₂ ∧
      ∀ fuel, s.findLeafFrom x (fuel + Us.length) s.rootPage = s.findLeafFrom x fuel b.1
  | [], L, hup, _, _ => by
    obtain ⟨b, rfl, hroot, -⟩ := hup
    exact ⟨[], b, [], rfl, ⟨by simp, by simp⟩, fun fuel => by rw [hroot]; rfl⟩
  | U :: Us, L, hup, hsz, hs => by
    obtain ⟨U₁, u, U₂, rfl, hloc, hrun⟩ := Up.descend hord x hup.2.2.2.2 hsz.2 (sorted_of_lift hup.2.1 hs)
    have hu : u.2 ≠ [] := by
      have := (hsz.1 u (by simp)).1
      refine ne_nil_of_length_pos ?_
      simp only [minSize, maxSize] at this
      split at this <;> omega
    obtain ⟨L₁, b, L₂, rfl, hloc', hstep⟩ := hup.descend_step hs hu hloc
    refine ⟨L₁, b, L₂, rfl, hloc', fun fuel => ?_⟩
    rw [length_cons, ← Nat.add_assoc, Nat.add_right_comm, hrun, hstep]

/-! ## The leaf for a key -/

theorem PreTree.length_lt_fuel (t : PreTree s L Us) (hord : 2 < order) : Us.length < s.fuel := by
  have hlen := Lists.length_le_of_nodup t.nodup t.range
  have hUs := (t.up.length_le hord t.sizes).2
  obtain ⟨b, L', rfl⟩ := exists_cons_of_ne_nil (t.up.length_le hord t.sizes).1
  simp only [length_append, pagesOf_cons, length_cons, initRootPage] at hlen
  simp only [fuel]
  omega

/-- The leaf that `find_leaf_page` gives is the one that can hold `x`. -/
theorem Tree.findLeafPage_eq (t : Tree s L Us) (hord : 2 < order) (x : κ) :
    ∃ L₁ b L₂, L = L₁ ++ b :: L₂ ∧ s.findLeafPage x = some b.1 ∧ Located x L₁ b L₂ ∧ ∀ e ∈ flat L₁, e.1 < x := by
  obtain ⟨L₁, b, L₂, rfl, hloc, hrun⟩ := t.up.descend hord x t.sizes t.sorted
  refine ⟨L₁, b, L₂, rfl, ?_, hloc, fun e he => ?_⟩
  · obtain ⟨n, hn, hnl, -⟩ := t.holds b (by simp)
    obtain ⟨f, hf⟩ : ∃ f, s.fuel = f + 1 + Us.length := ⟨s.fuel - Us.length - 1, by
      have := t.length_lt_fuel hord; omega⟩
    rw [findLeafPage, hf, hrun]
    simp [findLeafFrom, fetchNode, hn, hnl]
  · have hne : L₁ ≠ [] := by rintro rfl; simp at he
    obtain ⟨k, hk, hkx⟩ := hloc.left hne
    obtain ⟨e', he', rfl⟩ := map_eq_some_iff.1 hk
    have hs := t.sorted
    rw [flat_append, flat_cons, IxNode.Sorted, pairwise_append] at hs
    exact (hs.2.2 e he e' (mem_append_left _ (mem_of_head? he'))).trans_le hkx

theorem Tree.leaf_eq (t : Tree s L Us) (hord : 2 < order) (x : κ) : ∃ L₁ p n L₂, L = L₁ ++ (p, n.entries) :: L₂ ∧
    s.findLeafPage x = some p ∧ s.pages p = some n ∧ IxNode.Sorted n.entries ∧ Located x L₁ (p, n.entries) L₂ ∧
      ∀ e ∈ flat L₁, e.1 < x := by
  obtain ⟨L₁, ⟨p, es⟩, L₂, rfl, hfind, hloc, h₁⟩ := t.findLeafPage_eq hord x
  obtain ⟨n, hn, -, rfl : _ = es⟩ := t.holds (p, es) (by simp)
  exact ⟨L₁, p, n, L₂, rfl, hfind, hn, sorted_of_mem t.sorted (by simp : (p, n.entries) ∈ _), hloc, h₁⟩

theorem mem_flat_of_located {L₁ L₂ : List (Block κ)} {b : Block κ} (h₁ : ∀ e ∈ flat L₁, e.1 < x)
    (hloc : Located x L₁ b L₂) (r : Rid) : (x, r) ∈ flat (L₁ ++ b :: L₂) ↔ (x, r) ∈ b.2 := by
  simp only [flat_append, flat_cons, mem_append]
  constructor
  · rintro (h | h | h)
    · exact absurd (h₁ _ h) (lt_irrefl _)
    · exact h
    · exact absurd (hloc.right _ h) (lt_irrefl _)
  · exact fun h => .inr (.inl h)

theorem Tree.getValue_eq (t : Tree s L Us) (hord : 2 < order) (x : κ) :
    ∃ v, s.getValue x = some v ∧ ∀ r, v = some r ↔ (x, r) ∈ flat L := by
  obtain ⟨L₁, p, n, L₂, rfl, hfind, hn, hs, hloc, h₁⟩ := t.leaf_eq hord x
  refine ⟨n.leafLookup x, by simp [getValue, hfind, fetchNode, hn], fun r => ?_⟩
  rw [IxNode.leafLookup_eq_some hs, mem_flat_of_located h₁ hloc]

end Invariant

end Rmdb.Index
