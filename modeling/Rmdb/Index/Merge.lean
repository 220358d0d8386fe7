/-
Removing: a node that became too small takes an entry from a neighbour or is
merged with it, which removes an entry one level up, down to a root with one
child that gives way to it.
-/
import Rmdb.Index.Insert

namespace Rmdb.Index

open List IxIndexHandle

variable {κ : Type} {order : Nat}

/-! ## Neighbours -/

/-- Two neighbours under one parent `R`, of which one is the node that
`coalesce_or_redistribute` is about: the left one when it is the first child,
else the right one. -/
structure Siblings (s : IxIndexHandle κ order) (leaf : Bool) (l r : Block κ) (R : Int) (n : IxNode κ)
    (F₁ F₂ : List (κ × Rid)) (kl kr : κ) (node neighbor : Int) (index : Nat) : Prop where
  parent : s.pages R = some n
  parent_entries : n.entries = F₁ ++ (kl, ⟨l.1, -1⟩) :: (kr, ⟨r.1, -1⟩) :: F₂
  left : Holds s leaf l
  right : Holds s leaf r
  ne : l.1 ≠ r.1
  left_ne : l.1 ≠ R
  right_ne : r.1 ≠ R
  pos : index = 0 ∧ F₁ = [] ∧ node = l.1 ∧ neighbor = r.1 ∨
    index = F₁.length + 1 ∧ node = r.1 ∧ neighbor = l.1

/-- The children of two neighbours: their parents are right, and no page
occurs twice. -/
structure Kids (s : IxIndexHandle κ order) (l r : Block κ) (R : Int) : Prop where
  left : ∀ e ∈ l.2, ParentIs s e.2.pageNo l.1
  right : ∀ e ∈ r.2, ParentIs s e.2.pageNo r.1
  ne : ∀ e ∈ l.2 ++ r.2, e.2.pageNo ≠ l.1 ∧ e.2.pageNo ≠ r.1 ∧ e.2.pageNo ≠ R
  nodup : ((l.2 ++ r.2).map fun e => e.2.pageNo).Nodup

structure Beneath (A : List (Block κ)) (l r : Block κ) (B V V₁ : List (Block κ)) (R : Int) (F₁ : List (κ × Rid))
    (kl kr : κ)
    (F₂ : List (κ × Rid)) (V₂ : List (Block κ)) : Prop where
  level : V = V₁ ++ (R, F₁ ++ (kl, ⟨l.1, -1⟩) :: (kr, ⟨r.1, -1⟩) :: F₂) :: V₂
  before : lift (flat V₁ ++ F₁) = A.map sep
  behind : lift (F₂ ++ flat V₂) = B.map sep
  first : l.2.head?.map Prod.fst = some kl

structure OneShort (order : Nat) (A : List (Block κ)) (l r : Block κ) (B : List (Block κ)) (node : Int) : Prop where
  others : ∀ b ∈ A ++ B, minSize order ≤ b.2.length ∧ b.2.length ≤ order
  left : node = l.1 → l.2.length + 1 = minSize order ∧ minSize order ≤ r.2.length ∧ r.2.length ≤ order
  right : node = r.1 → r.2.length + 1 = minSize order ∧ minSize order ≤ l.2.length ∧ l.2.length ≤ order

variable {s : IxIndexHandle κ order} {leaf : Bool} {l r : Block κ} {R neighbor node P : Int} {n : IxNode κ}
    {F₁ F₂ ps : List (κ × Rid)} {kl kr : κ} {index : Nat} {U₁ U₂ V A B V₁ V₂ K : List (Block κ)}
    {Vs Us : List (List (Block κ))}

variable {ls rs : List (κ × Rid)}

/-- The state after one entry `e` moved between two neighbours, its page under
the new parent `dest` when it is a child. -/
theorem moved_spec {s₁ : IxIndexHandle κ order} {dest : Int} {ml mr mR : IxNode κ} {e : κ × Rid}
    (hpages : ∀ q, s₁.pages q = if q = R then some mR else if q = r.1 then some mr
      else if q = l.1 then some ml else s.pages q)
    (hfd : s₁.fd2pageno = s.fd2pageno) (hfirst : s₁.firstLeaf = s.firstLeaf) (hlast : s₁.lastLeaf = s.lastLeaf)
    (hkids : leaf = false → Kids s l r R) (hflat : ls ++ rs = l.2 ++ r.2) (he : e ∈ l.2 ++ r.2)
    (hls : ∀ x ∈ ls, x = e ∧ dest = l.1 ∨ x ∈ l.2 ∧ (leaf = false → x ≠ e))
    (hrs : ∀ x ∈ rs, x = e ∧ dest = r.1 ∨ x ∈ r.2 ∧ (leaf = false → x ≠ e)) :
    let s' := if leaf then s₁ else s₁.setParents [e.2.pageNo] dest
    (∀ q, (leaf = true ∨ q ≠ e.2.pageNo) → s'.pages q = s₁.pages q) ∧
      Frame s s' [l.1, r.1, R] (if leaf then [] else (l.2 ++ r.2).map fun e => e.2.pageNo) ∧
      (leaf = false → Kids s' (l.1, ls) (r.1, rs) R) := by
  intro s'
  have hout : ∀ q, q ∉ [l.1, r.1, R] → s₁.pages q = s.pages q := fun q hq => by
    simp only [mem_cons, not_mem_nil, or_false, not_or] at hq
    rw [hpages, if_neg hq.2.2, if_neg hq.2.1, if_neg hq.1]
  cases leaf with
  | true =>
    refine ⟨fun q _ => rfl, ⟨fun q m hq _ hm => ⟨m.parent, ?_⟩, fun q m hq _ _ hm => ?_, hfd.ge, hfirst, hlast⟩,
      by simp⟩
    · simp only [s', if_true, hout q hq, hm]
    · simp only [s', if_true, hout q hq, hm]
  | false =>
    have hk := hkids rfl
    have hs' : s' = s₁.setParents [e.2.pageNo] dest := rfl
    have hkid : ∀ x ∈ l.2 ++ r.2, x.2.pageNo ∉ [l.1, r.1, R] := fun x hx => by
      obtain ⟨h1, h2, h3⟩ := hk.ne x hx
      simp [h1, h2, h3]
    have hinj : ∀ x ∈ l.2 ++ r.2, x ≠ e → x.2.pageNo ≠ e.2.pageNo := fun x hx hne heq =>
      hne (inj_on_of_nodup_map hk.nodup hx he heq)
    have hmoved : ∀ p, ParentIs s e.2.pageNo p → ParentIs s' e.2.pageNo dest := by
      rintro p ⟨c, hc, -⟩
      exact ⟨_, setParents_of_mem dest (by simp) (by rw [hout _ (hkid e he), hc]), rfl⟩
    have hstay : ∀ x ∈ l.2 ++ r.2, x ≠ e → ∀ p, ParentIs s x.2.pageNo p → ParentIs s' x.2.pageNo p := by
      rintro x hx hne p ⟨c, hc, hp⟩
      exact ⟨c, by rw [hs', setParents_of_notMem _ (by simpa using hinj x hx hne), hout _ (hkid x hx), hc], hp⟩
    have hanyparent : ∃ p, ParentIs s e.2.pageNo p := by
      rcases mem_append.1 he with h | h
      · exact ⟨_, hk.left e h⟩
      · exact ⟨_, hk.right e h⟩
    obtain ⟨p₀, hp₀⟩ := hanyparent
    refine ⟨fun q hq => ?_, ⟨fun q m hq _ hm => ?_, fun q m hq hq' _ hm => ?_, hfd.ge, hfirst, hlast⟩,
      fun _ => ⟨fun x hx => ?_, fun x hx => ?_, ?_, ?_⟩⟩
    · rw [hs', setParents_of_notMem _ (by simpa using hq)]
    · by_cases hqe : q = e.2.pageNo
      · exact ⟨dest, by rw [hs', setParents_of_mem dest (by simp [hqe]) (by rw [hout q hq, hm])]⟩
      · exact ⟨m.parent, by rw [hs', setParents_of_notMem _ (by simpa using hqe), hout q hq, hm]⟩
    · have hqe : q ≠ e.2.pageNo := fun h => hq' (by
        rw [h]; exact mem_map_of_mem (f := fun e : κ × Rid => e.2.pageNo) he)
      rw [hs', setParents_of_notMem _ (by simpa using hqe), hout q hq, hm]
    · rcases hls x hx with ⟨rfl, rfl⟩ | ⟨hx', hne⟩
      · exact hmoved p₀ hp₀
      · exact hstay x (by simp [hx']) (hne rfl) _ (hk.left x hx')
    · rcases hrs x hx with ⟨rfl, rfl⟩ | ⟨hx', hne⟩
      · exact hmoved p₀ hp₀
      · exact hstay x (by simp [hx']) (hne rfl) _ (hk.right x hx')
    · simp only [hflat]; exact hk.ne
    · simp only [hflat]; exact hk.nodup

theorem redistribute_spec
    (hs : Siblings s leaf l r R n F₁ F₂ kl kr node neighbor index) (hkids : leaf = false → Kids s l r R)
    (hl : node = l.1 → 2 ≤ r.2.length) (hr : node = r.1 → 2 ≤ l.2.length) :
    ∃ ls rs k s', s.redistribute neighbor node R index = some s' ∧ ls ++ rs = l.2 ++ r.2 ∧
      ls.head?.map Prod.fst = (l.2 ++ r.2).head?.map Prod.fst ∧ rs.head?.map Prod.fst = some k ∧
      (node = l.1 → ls.length = l.2.length + 1) ∧ (node = r.1 → rs.length = r.2.length + 1) ∧
      (∃ m, s.pages l.1 = some m ∧ s'.pages l.1 = some { m with entries := ls }) ∧
      (∃ m, s.pages r.1 = some m ∧ s'.pages r.1 = some { m with entries := rs }) ∧
      s'.pages R = some { n with entries := F₁ ++ (kl, ⟨l.1, -1⟩) :: (k, ⟨r.1, -1⟩) :: F₂ } ∧
      s'.rootPage = s.rootPage ∧ s'.fd2pageno = s.fd2pageno ∧
      Frame s s' [l.1, r.1, R] (if leaf then [] else (l.2 ++ r.2).map fun e => e.2.pageNo) ∧
      (leaf = false → Kids s' (l.1, ls) (r.1, rs) R) := by
  obtain ⟨nl, hnl, hnll, hnle⟩ := hs.left
  obtain ⟨nr, hnr, hnrl, hnre⟩ := hs.right
  have hkid : ∀ e ∈ l.2 ++ r.2, leaf = false → e.2.pageNo ≠ l.1 ∧ e.2.pageNo ≠ r.1 ∧ e.2.pageNo ≠ R ∧
      ∃ c, s.pages e.2.pageNo = some c := by
    intro e he hleaf
    have hk := hkids hleaf
    obtain ⟨h1, h2, h3⟩ := hk.ne e he
    rcases mem_append.1 he with h | h
    · obtain ⟨c, hc, -⟩ := hk.left e h
      exact ⟨h1, h2, h3, c, hc⟩
    · obtain ⟨c, hc, -⟩ := hk.right e h
      exact ⟨h1, h2, h3, c, hc⟩
  have hsame : ∀ {s₁ s' : IxIndexHandle κ order} {e : κ × Rid}, e ∈ l.2 ++ r.2 →
      (∀ q, leaf = true ∨ q ≠ e.2.pageNo → s'.pages q = s₁.pages q) →
      ∀ q, q = l.1 ∨ q = r.1 ∨ q = R → s'.pages q = s₁.pages q := by
    intro s₁ s' e he h q hq
    refine h q ?_
    cases leaf with
    | true => exact .inl rfl
    | false =>
      obtain ⟨h1, h2, h3, -⟩ := hkid e he rfl
      rcases hq with rfl | rfl | rfl
      · exact .inr h1.symm
      · exact .inr h2.symm
      · exact .inr h3.symm
  rcases hs.pos with ⟨rfl, rfl, rfl, rfl⟩ | ⟨rfl, rfl, rfl⟩
  · -- the first entry of the right one goes to the end of the left one
    obtain ⟨e, e', rs, hrs⟩ : ∃ e e' rs, r.2 = e :: e' :: rs := by
      match h : r.2, hl rfl with
      | e :: e' :: rs, _ => exact ⟨e, e', rs, rfl⟩
    have hmem : e ∈ l.2 ++ r.2 := by simp [hrs]
    have honce : leaf = false → e ∉ l.2 ∧ e ∉ e' :: rs := fun h => by
      have := (hkids h).nodup.of_map
      rw [hrs, nodup_append, nodup_cons] at this
      exact ⟨fun h => this.2.2 e h e (by simp) rfl, this.2.1.1⟩
    have hls : ∀ x ∈ l.2 ++ [e], x = e ∧ l.1 = l.1 ∨ x ∈ l.2 ∧ (leaf = false → x ≠ e) := fun x hx => by
      rcases mem_append.1 hx with h | h
      · exact .inr ⟨h, fun hf hxe => (honce hf).1 (hxe ▸ h)⟩
      · exact .inl ⟨by simpa using h, rfl⟩
    have hrs' : ∀ x ∈ e' :: rs, x = e ∧ l.1 = r.1 ∨ x ∈ r.2 ∧ (leaf = false → x ≠ e) := fun x hx =>
      .inr ⟨by rw [hrs]; exact mem_cons_of_mem _ hx, fun hf hxe => (honce hf).2 (hxe ▸ hx)⟩
    obtain ⟨s₁, hpages, hroot, hfirst, hlast, hfd, hrun⟩ := redistribute_fromRight hnl hnr hs.parent hs.ne hs.left_ne
      hs.right_ne (by rw [hnre, hrs]) hs.parent_entries fun h => hkid e hmem (hnll ▸ h)
    obtain ⟨hkeep, hframe, hkids'⟩ := moved_spec hpages hfd hfirst hlast hkids (by simp [hrs]) hmem hls hrs'
    have hk := hsame hmem hkeep
    refine ⟨l.2 ++ [e], e' :: rs, e'.1, _, by rw [hrun, hnll], by simp [hrs], by cases l.2 <;> simp [hrs], rfl, by simp,
      fun h => absurd h hs.ne, ⟨nl, hnl, ?_⟩, ⟨nr, hnr, ?_⟩, ?_, ?_, ?_, hframe, hkids'⟩
    · rw [hk _ (by simp), hpages, if_neg hs.left_ne, if_neg hs.ne, if_pos rfl, hnle]
    · rw [hk _ (by simp), hpages, if_neg hs.right_ne, if_pos rfl]
    · rw [hk _ (by simp), hpages, if_pos rfl]; rfl
    · split_ifs <;> simp [hroot]
    · split_ifs <;> simp [hfd]
  · -- the last entry of the left one goes to the front of the right one
    have hne : l.2 ≠ [] := ne_nil_of_length_pos (by have := hr rfl; omega)
    obtain ⟨ls, e, hls₀⟩ : ∃ ls e, l.2 = ls ++ [e] := ⟨_, _, (dropLast_append_getLast hne).symm⟩
    have hmem : e ∈ l.2 ++ r.2 := by simp [hls₀]
    have honce : leaf = false → e ∉ ls ∧ e ∉ r.2 := fun h => by
      have := (hkids h).nodup.of_map
      rw [hls₀, nodup_append, nodup_append] at this
      exact ⟨fun h => this.1.2.2 e h e (by simp) rfl, fun h => this.2.2 e (by simp) e h rfl⟩
    have hls : ∀ x ∈ ls, x = e ∧ r.1 = l.1 ∨ x ∈ l.2 ∧ (leaf = false → x ≠ e) := fun x hx =>
      .inr ⟨by rw [hls₀]; exact mem_append_left _ hx, fun hf hxe => (honce hf).1 (hxe ▸ hx)⟩
    have hrs' : ∀ x ∈ e :: r.2, x = e ∧ r.1 = r.1 ∨ x ∈ r.2 ∧ (leaf = false → x ≠ e) := fun x hx => by
      rcases mem_cons.1 hx with h | h
      · exact .inl ⟨h, rfl⟩
      · exact .inr ⟨h, fun hf hxe => (honce hf).2 (hxe ▸ h)⟩
    obtain ⟨s₁, hpages, hroot, hfirst, hlast, hfd, hrun⟩ := redistribute_fromLeft hnl hnr hs.parent hs.ne hs.left_ne
      hs.right_ne (by rw [hnle, hls₀]) hs.parent_entries fun h => hkid e hmem (hnrl ▸ h)
    obtain ⟨hkeep, hframe, hkids'⟩ := moved_spec hpages hfd hfirst hlast hkids (by simp [hls₀]) hmem hls hrs'
    have hk := hsame hmem hkeep
    have hlen := hr rfl
    obtain ⟨x, ls', hls'⟩ : ∃ x ls', ls = x :: ls' := exists_cons_of_length_pos (by simp [hls₀] at hlen; omega)
    refine ⟨ls, e :: r.2, e.1, _, by rw [hrun, hnrl], by simp [hls₀], by simp [hls₀, hls'], rfl,
      fun h => absurd h.symm hs.ne, by simp, ⟨nl, hnl, ?_⟩, ⟨nr, hnr, ?_⟩, ?_, ?_, ?_, hframe, hkids'⟩
    · rw [hk _ (by simp), hpages, if_neg hs.left_ne, if_neg hs.ne, if_pos rfl]
    · rw [hk _ (by simp), hpages, if_neg hs.right_ne, if_pos rfl, hnre]
    · rw [hk _ (by simp), hpages, if_pos rfl]
    · split_ifs <;> simp [hroot]
    · split_ifs <;> simp [hfd]

theorem Up.siblings (hup : Up s (U₁ ++ (P, ps) :: U₂) (V :: Vs))
    (hnd : (pagesOf (U₁ ++ (P, ps) :: U₂) ++ allPages (V :: Vs)).Nodup)
    (hhold : ∀ b ∈ U₁ ++ (P, ps) :: U₂, Holds s leaf b) (hsz : ∀ b ∈ V, 2 ≤ b.2.length) :
    ∃ A l r B V₁ R F₁ kl kr F₂ V₂ n neighbor index,
      (U₁ = A ∧ l = (P, ps) ∧ U₂ = r :: B ∨ U₁ = A ++ [l] ∧ r = (P, ps) ∧ U₂ = B) ∧
      Beneath A l r B V V₁ R F₁ kl kr F₂ V₂ ∧ Siblings s leaf l r R n F₁ F₂ kl kr P neighbor index ∧
      ParentIs s P R ∧ R ≠ noPage ∧ n.findChild P = some index ∧
      n.valueAt (if index = 0 then 1 else index - 1) = some neighbor := by
  obtain ⟨hndU, -, hdisj⟩ := nodup_append.1 hnd
  obtain ⟨V₁, R, E₁, k, E₂, V₂, n, rfl, hk, h₁, h₂, hn, hnl, hes, hfind, hR, hpar⟩ := hup.parent hndU
  have hRne : ∀ b ∈ U₁ ++ (P, ps) :: U₂, b.1 ≠ R := fun b hb => hdisj b.1 (mem_pagesOf hb) R (by simp)
  have hndP := hndU
  rw [pagesOf_append, pagesOf_cons] at hndP
  have hsize := hsz _ (by simp : (R, E₁ ++ (k, (⟨P, -1⟩ : Rid)) :: E₂) ∈ V₁ ++ (R, _) :: V₂)
  simp only [length_append, length_cons] at hsize hfind hes
  rcases E₁.eq_nil_or_concat' with rfl | ⟨E₁, e, rfl⟩
  · -- the first child: the neighbour is the one on the right
    obtain ⟨e, E₂, rfl⟩ := exists_cons_of_length_pos (l := E₂) (by simp at hsize; omega)
    obtain ⟨r, B, rfl, hr, hB⟩ := map_eq_cons_iff.1 h₂.symm
    simp only [sep, Prod.mk.injEq] at hr
    obtain ⟨er, erid⟩ := e
    obtain ⟨hr, rfl⟩ := hr
    refine ⟨U₁, (P, ps), r, B, V₁, R, [], k, er, E₂, V₂, n, r.1, 0, .inl ⟨rfl, rfl, rfl⟩, ⟨rfl, h₁, hB.symm, hk⟩,
      ⟨hn, hes, hhold _ (by simp), hhold _ (by simp), ?_, hRne (P, ps) (by simp), hRne r (by simp),
        .inl ⟨rfl, rfl, rfl, rfl⟩⟩,
      hpar, hR, hfind, by simp [IxNode.valueAt, IxNode.getRid, hes]⟩
    have := (nodup_append.1 hndP).2.1
    simp only [pagesOf_cons, nodup_cons, mem_cons, not_or] at this
    exact this.1.1
  · -- else it is the one on the left
    have h₁' : (lift (flat V₁ ++ E₁)) ++ [(some e.1, e.2)] = U₁.map sep := by
      rw [← h₁]; simp
    obtain ⟨A, U', rfl, hA, hU'⟩ := map_eq_append_iff.1 h₁'.symm
    obtain ⟨l, rfl, hl⟩ := map_eq_singleton_iff.1 hU'
    simp only [sep, Prod.mk.injEq] at hl
    obtain ⟨el, elid⟩ := e
    obtain ⟨hl, rfl⟩ := hl
    refine ⟨A, l, (P, ps), U₂, V₁, R, E₁, el, k, E₂, V₂, n, l.1, E₁.length + 1, .inr ⟨rfl, rfl, rfl⟩,
      ⟨by simp, hA.symm, h₂, hl⟩,
        ⟨hn, by simp [hes], hhold _ (by simp), hhold _ (by simp), ?_, hRne l (by simp), hRne (P, ps) (by simp),
      .inr ⟨rfl, rfl, rfl⟩⟩, hpar, hR, by simpa using hfind, by simp [IxNode.valueAt, IxNode.getRid, hes]⟩
    exact (nodup_append.1 hndP).2.2 l.1 (by simp) P (by simp)

/-- What the picked neighbours are in the level, and their sizes, when the node
is one entry too small. -/
theorem sizes_of_pos
    (hpos : U₁ = A ∧ l = (P, ps) ∧ U₂ = r :: B ∨ U₁ = A ++ [l] ∧ r = (P, ps) ∧ U₂ = B) (hne : l.1 ≠ r.1)
    (hsmall : ps.length + 1 = minSize order) (hsz : ∀ b ∈ U₁ ++ U₂, minSize order ≤ b.2.length ∧ b.2.length ≤ order) :
    U₁ ++ (P, ps) :: U₂ = A ++ l :: r :: B ∧ OneShort order A l r B P := by
  rcases hpos with ⟨rfl, rfl, rfl⟩ | ⟨rfl, rfl, rfl⟩
  · refine ⟨rfl, fun b hb => hsz b ?_, fun _ => ⟨hsmall, hsz r (by simp)⟩, fun h => absurd h hne⟩
    simp only [mem_append, mem_cons] at hb ⊢
    tauto
  · refine ⟨by simp, fun b hb => hsz b ?_, fun h => absurd h.symm hne, fun _ => ⟨hsmall, hsz l (by simp)⟩⟩
    simp only [mem_append, mem_cons] at hb ⊢
    tauto

theorem Siblings.neighbor_size {c : IxNode κ}
    (hs : Siblings s leaf l r R n F₁ F₂ kl kr node neighbor index) (hc : s.pages node = some c) :
    ∃ m, s.pages neighbor = some m ∧ c.entries.length + m.entries.length = l.2.length + r.2.length := by
  obtain ⟨ml, hml, -, hmle⟩ := hs.left
  obtain ⟨mr, hmr, -, hmre⟩ := hs.right
  rcases hs.pos with ⟨-, -, rfl, rfl⟩ | ⟨-, rfl, rfl⟩
  · obtain rfl : c = ml := by simpa [hc] using hml
    exact ⟨mr, hmr, by rw [hmle, hmre]⟩
  · obtain rfl : c = mr := by simpa [hc] using hmr
    exact ⟨ml, hml, by rw [hmle, hmre, Nat.add_comm]⟩

theorem OneShort.moved (hsz : OneShort order A l r B node)
    (hs : Siblings s leaf l r R n F₁ F₂ kl kr node neighbor index) (hflat : ls ++ rs = l.2 ++ r.2)
    (hll : node = l.1 → ls.length = l.2.length + 1) (hlr : node = r.1 → rs.length = r.2.length + 1)
    (htot : 2 * minSize order ≤ l.2.length + r.2.length) :
    (minSize order ≤ ls.length ∧ ls.length ≤ order) ∧ minSize order ≤ rs.length ∧ rs.length ≤ order := by
  have hlen := congrArg List.length hflat
  simp only [length_append] at hlen
  rcases hs.pos with ⟨-, -, h, -⟩ | ⟨-, h, -⟩
  · have h1 := hll h
    have h2 := hsz.left h
    omega
  · have h1 := hlr h
    have h2 := hsz.right h
    omega

theorem OneShort.merged (hsz : OneShort order A l r B node)
    (hs : Siblings s leaf l r R n F₁ F₂ kl kr node neighbor index)
    (htot : l.2.length + r.2.length < 2 * minSize order) :
    minSize order ≤ (l.2 ++ r.2).length ∧ (l.2 ++ r.2).length ≤ order := by
  have hmin : 2 * minSize order ≤ order + 1 := by simp only [minSize, maxSize]; omega
  rw [length_append]
  rcases hs.pos with ⟨-, -, h, -⟩ | ⟨-, h, -⟩
  · have := hsz.left h
    omega
  · have := hsz.right h
    omega

namespace Beneath

variable (hu : Beneath A l r B V V₁ R F₁ kl kr F₂ V₂)

include hu

theorem mem : R ∈ allPages (V :: Vs) := by simp [hu.level]

theorem parents (hup : Up s (A ++ l :: r :: B) (V :: Vs)) : ParentIs s l.1 R ∧ ParentIs s r.1 R := by
  have hmem : (R, F₁ ++ (kl, (⟨l.1, -1⟩ : Rid)) :: (kr, ⟨r.1, -1⟩) :: F₂) ∈ V := by simp [hu.level]
  exact ⟨(hup.child hmem (e := (kl, ⟨l.1, -1⟩)) (by simp)).2, (hup.child hmem (e := (kr, ⟨r.1, -1⟩)) (by simp)).2⟩

theorem first_append (es : List (κ × Rid)) : (l.2 ++ es).head?.map Prod.fst = some kl := by
  have hfirst := hu.first
  cases hl : l.2 with
  | nil => simp [hl] at hfirst
  | cons e es => simpa [hl] using hfirst

theorem replace {s' : IxIndexHandle κ order} {M : List (Block κ)} {E : List (κ × Rid)}
    (hup : Up s (A ++ l :: r :: B) (V :: Vs)) (hnd : (allPages (V :: Vs)).Nodup) (hE : lift E = M.map sep)
    (hhead : E.head?.map Prod.fst = some kl) (hroot : s'.rootPage = s.rootPage) (hn : s.pages R = some n)
    (hn' : s'.pages R = some { n with entries := F₁ ++ (E ++ F₂) })
    (hsame : ∀ q ∈ allPages (V :: Vs), q ≠ R → ∀ m, s.pages q = some m → s'.pages q = some m)
    (hkids : ∀ q ∈ pagesOf A ++ pagesOf B, ∀ p, ParentIs s q p → ParentIs s' q p)
    (hpar : ∀ e ∈ E, ParentIs s' e.2.pageNo R) : Up s' (A ++ (M ++ B)) ((V₁ ++ (R, F₁ ++ (E ++ F₂)) :: V₂) :: Vs) := by
  obtain ⟨rfl, h₁, h₂, -⟩ := hu
  refine Up.segment (M := [l, r]) (E := [(kl, ⟨l.1, -1⟩), (kr, ⟨r.1, -1⟩)]) hup h₁ hE h₂ hroot hn hn' ?_
    (fun q hq => hsame q (mem_allPages_of_others hq) (ne_of_nodup_levels hnd q hq)) hkids hpar
  cases F₁ with
  | nil => cases E <;> simp_all
  | cons e F₁ => rfl

theorem pages_shorter : pagesOf (V₁ ++ (R, F₁ ++ (kl, ⟨l.1, -1⟩) :: F₂) :: V₂) = pagesOf V := by simp [hu.level]

theorem sizes_shorter (hsz : ∀ b ∈ V, SizeOK order Vs b) : (∀ b ∈ V₁ ++ V₂, SizeOK order Vs b) ∧
    (F₁ ++ (kl, (⟨l.1, -1⟩ : Rid)) :: F₂).length ≤ order ∧
    (if Vs.isEmpty then 2 else minSize order) ≤ (F₁ ++ (kl, (⟨l.1, -1⟩ : Rid)) :: F₂).length + 1 := by
  obtain ⟨rfl, -⟩ := hu
  obtain ⟨h1, h2⟩ := hsz (R, F₁ ++ (kl, ⟨l.1, -1⟩) :: (kr, ⟨r.1, -1⟩) :: F₂) (by simp)
  simp only [length_append, length_cons] at h1 h2 ⊢
  refine ⟨fun b hb => hsz b ?_, by omega, by omega⟩
  simp only [mem_append, mem_cons] at hb ⊢
  tauto

end Beneath

theorem redistribute_up (hu : Beneath A l r B V V₁ R F₁ kl kr F₂ V₂)
    (hs : Siblings s leaf l r R n F₁ F₂ kl kr node neighbor index) (hup : Up s (A ++ l :: r :: B) (V :: Vs))
    (hnd : (pagesOf (A ++ l :: r :: B) ++ allPages (V :: Vs)).Nodup)
    (hlt : ∀ q ∈ pagesOf (A ++ l :: r :: B) ++ allPages (V :: Vs), q < s.fd2pageno)
    (hkids : leaf = false → Kids s l r R)
    (hout : leaf = false → ∀ e ∈ l.2 ++ r.2, e.2.pageNo ∉ pagesOf (A ++ l :: r :: B) ++ allPages (V :: Vs))
    (hl : node = l.1 → 2 ≤ r.2.length) (hr : node = r.1 → 2 ≤ l.2.length) :
    ∃ ls rs k s', s.redistribute neighbor node R index = some s' ∧ ls ++ rs = l.2 ++ r.2 ∧
      (node = l.1 → ls.length = l.2.length + 1) ∧ (node = r.1 → rs.length = r.2.length + 1) ∧
      (∃ m, s.pages l.1 = some m ∧ s'.pages l.1 = some { m with entries := ls }) ∧
      (∃ m, s.pages r.1 = some m ∧ s'.pages r.1 = some { m with entries := rs }) ∧
      Up s' (A ++ (l.1, ls) :: (r.1, rs) :: B)
        ((V₁ ++ (R, F₁ ++ (kl, ⟨l.1, -1⟩) :: (k, ⟨r.1, -1⟩) :: F₂) :: V₂) :: Vs) ∧
      s'.fd2pageno = s.fd2pageno ∧
      Frame s s' [l.1, r.1, R] (if leaf then [] else (l.2 ++ r.2).map fun e => e.2.pageNo) ∧
      (leaf = false → Kids s' (l.1, ls) (r.1, rs) R) := by
  obtain ⟨ls, rs, k, s', hrun, hflat, hhead, hk, hll, hlr, hpl, hpr, hpR, hroot, hfd, hframe, hkids'⟩ :=
    redistribute_spec hs hkids hl hr
  refine ⟨ls, rs, k, s', hrun, hflat, hll, hlr, hpl, hpr, ?_, hfd, hframe, hkids'⟩
  obtain ⟨hndU, hndV, hdisj⟩ := nodup_append.1 hnd
  -- everything else in these levels stays
  have hsame : ∀ q ∈ pagesOf (A ++ l :: r :: B) ++ allPages (V :: Vs), q ∉ [l.1, r.1, R] →
      ∀ m, s.pages q = some m → s'.pages q = some m := by
    intro q hq hq' m hm
    refine hframe.same q m hq' ?_ (hlt q hq) hm
    cases leaf with
    | true => simp
    | false =>
      simp only [Bool.false_eq_true, if_false, mem_map, not_exists, not_and]
      exact fun e he heq => hout rfl e he (heq ▸ hq)
  have hseps : lift [(kl, ⟨l.1, -1⟩), (k, ⟨r.1, -1⟩)] = [((l.1, ls) : Block κ), (r.1, rs)].map sep := by
    simp [sep, hhead.trans (hu.first_append r.2), hk]
  refine hu.replace hup hndV hseps rfl hroot hs.parent hpR (fun q hq hqR => ?_) ?_ ?_
  · refine hsame q (mem_append_right _ hq) ?_
    simp only [mem_cons, not_mem_nil, or_false, not_or]
    exact ⟨fun h => hdisj l.1 (by simp) q hq h.symm, fun h => hdisj r.1 (by simp) q hq h.symm, hqR⟩
  · rintro q hq p ⟨m, hm, hmp⟩
    obtain ⟨hqU, hql, hqr⟩ := ne_of_nodup_pair hndU hq
    exact ⟨m, hsame q (mem_append_left _ hqU) (by simp [hql, hqr, hdisj q hqU R hu.mem]) m hm, hmp⟩
  · simp only [mem_cons, not_mem_nil, or_false, forall_eq_or_imp, forall_eq]
    obtain ⟨m, hm, hm'⟩ := hpl
    obtain ⟨m', hmr, hmr'⟩ := hpr
    obtain ⟨⟨c, hc, hcp⟩, c', hc', hcp'⟩ := hu.parents hup
    obtain rfl : m = c := by simpa [hm] using hc
    obtain rfl : m' = c' := by simpa [hmr] using hc'
    exact ⟨⟨_, hm', hcp⟩, ⟨_, hmr', hcp'⟩⟩

/-! ## Internal levels -/

/-- The levels `Us` above `K` became `Us'`, with no new page. -/
structure Shrunk (s s' : IxIndexHandle κ order) (K : List (Block κ)) (Us Us' : List (List (Block κ))) : Prop where
  up : Up s' K Us'
  sizes : Sizes order Us'
  frame : Frame s s' (allPages Us) (pagesOf K)
  nodup : (pagesOf K ++ allPages Us').Nodup
  sub : ∀ q ∈ allPages Us', q ∈ allPages Us
  fd : s'.fd2pageno = s.fd2pageno

theorem adjustRoot_up (hup : Up s K [[(P, ps)]]) (hpos : 1 ≤ ps.length) (hle : ps.length ≤ order)
    (hnd : (pagesOf K ++ allPages [[(P, ps)]]).Nodup) :
    ∃ b s' Us', s.adjustRoot P = some (b, s') ∧ Shrunk s s' K [[(P, ps)]] Us' := by
  obtain ⟨n, hn, hnl, hes⟩ := hup.1 (P, ps) (by simp)
  simp only at hn hes
  by_cases hone : ps.length = 1
  · obtain ⟨⟨k, rid⟩, rfl⟩ := length_eq_one_iff.1 hone
    have hlink := hup.2.1
    simp only [Linked, flat_cons, flat_nil, append_nil, lift_cons, lift_nil] at hlink
    obtain ⟨b, rfl, hb⟩ := map_eq_singleton_iff.1 hlink.symm
    simp only [sep, Prod.mk.injEq] at hb
    obtain ⟨-, rfl⟩ := hb
    obtain ⟨c, hc, -⟩ := (hup.child (b := (P, [(k, ⟨b.1, -1⟩)])) (by simp) (e := (k, ⟨b.1, -1⟩)) (by simp)).2
    simp only at hc
    have hne : b.1 ≠ P := by simp at hnd; exact hnd
    obtain ⟨n₀, hn₀⟩ : ∃ n₀ : IxNode κ, n₀ = { n with entries := [] } := ⟨_, rfl⟩
    let s₁ : IxIndexHandle κ order := { s.putNode P n₀ with rootPage := b.1 }
    have hc₁ : s₁.pages b.1 = some c := by simp [s₁, hne, hc]
    let s' := (s₁.putNode b.1 { c with parent := noPage }).releaseNodeHandle
    have hs' : ∀ q, q ≠ P → q ≠ b.1 → s'.pages q = s.pages q := fun q h1 h2 => by
      simp [s', s₁, releaseNodeHandle, h1, h2]
    have hs'b : s'.pages b.1 = some { c with parent := noPage } := by simp [s', releaseNodeHandle]
    refine ⟨true, s', [], ?_, ⟨b, rfl, rfl, _, hs'b, rfl⟩, trivial, ⟨?_, ?_, le_rfl, rfl, rfl⟩, by simp, by simp, rfl⟩
    · have hrem : n.removeAndReturnOnlyChild = some (b.1, n₀) := by
        simp [hn₀, IxNode.removeAndReturnOnlyChild, IxNode.getSize, hes, IxNode.valueAt, IxNode.getRid,
          IxNode.erasePair]
      rw [adjustRoot]
      simp only [fetchNode, hn, Option.bind_eq_bind, Option.bind_some, hnl, IxNode.getSize, hes, Bool.false_and,
        Bool.false_eq_true, if_false, Bool.not_false, length_singleton, BEq.rfl, Bool.and_self, if_true, hrem]
      exact congrArg (Option.bind · _) (modifyNode_eq _ hc₁)
    · intro q m hq _ hm
      have hqP : q ≠ P := by simpa using hq
      by_cases hqb : q = b.1
      · subst hqb
        obtain rfl : c = m := by simpa [hc] using hm
        exact ⟨noPage, hs'b⟩
      · exact ⟨m.parent, by rw [hs' q hqP hqb, hm]⟩
    · intro q m hq hqb _ hm
      rw [hs' q (by simpa using hq) (by simpa using hqb), hm]
  · refine ⟨false, s, [[(P, ps)]], ?_, hup, ⟨?_, trivial⟩, .refl _ _ _, hnd, fun _ h => h, rfl⟩
    · simp [adjustRoot, fetchNode, hn, hnl, IxNode.getSize, hes, hone]
    · simp only [mem_singleton, forall_eq]
      exact ⟨by simp; omega, hle⟩

theorem coalesceOrRedistribute_small {c m : IxNode κ}
    (fuel : Nat) (hc : s.pages P = some c) (hpar : c.parent = R) (hR : R ≠ noPage)
    (hsmall : c.entries.length < minSize order) (hn : s.pages R = some n) (hfind : n.findChild P = some index)
    (hval : n.valueAt (if index = 0 then 1 else index - 1) = some neighbor) (hm : s.pages neighbor = some m) :
    coalesceOrRedistribute (fuel + 1) s P =
      if 2 * minSize order ≤ c.entries.length + m.entries.length then do
        let s ← s.redistribute neighbor P R index
        some (false, s)
      else (do
        let (_, s) ← s.coalesce (coalesceOrRedistribute fuel) neighbor P R index
        some (true, s)) := by
  rw [coalesceOrRedistribute]
  simp only [fetchNode, hc, Option.bind_eq_bind, Option.bind_some, IxNode.isRootPage, hpar, beq_iff_eq, hR, if_false,
    IxNode.getSize, ge_iff_le, Nat.not_le.2 hsmall, hn, hfind, hval, hm]

theorem Up.kids
    (hup : Up s K ((A ++ l :: r :: B) :: Us)) (hnd : (pagesOf K ++ allPages ((A ++ l :: r :: B) :: Us)).Nodup)
    (hR : R ∈ allPages Us) :
    Kids s l r R ∧ ∀ e ∈ l.2 ++ r.2, e.2.pageNo ∉ pagesOf (A ++ l :: r :: B) ++ allPages Us := by
  obtain ⟨hndK, -, hdisj⟩ := nodup_append.1 hnd
  have hl : ∀ e ∈ l.2, e.2.pageNo ∈ pagesOf K ∧ ParentIs s e.2.pageNo l.1 := fun e he => hup.child (by simp) he
  have hr : ∀ e ∈ r.2, e.2.pageNo ∈ pagesOf K ∧ ParentIs s e.2.pageNo r.1 := fun e he => hup.child (by simp) he
  have hK : ∀ e ∈ l.2 ++ r.2, e.2.pageNo ∈ pagesOf K := fun e he =>
    (mem_append.1 he).elim (fun h => (hl e h).1) fun h => (hr e h).1
  have hout : ∀ e ∈ l.2 ++ r.2, e.2.pageNo ∉ pagesOf (A ++ l :: r :: B) ++ allPages Us := fun e he h =>
    hdisj _ (hK e he) _ h rfl
  refine ⟨⟨fun e he => (hl e he).2, fun e he => (hr e he).2, fun e he => ?_, ?_⟩, hout⟩
  · exact ⟨fun h => hdisj _ (hK e he) l.1 (by simp) h, fun h => hdisj _ (hK e he) r.1 (by simp) h,
      fun h => hdisj _ (hK e he) R (mem_append_right _ hR) h⟩
  · have hflat : ((flat (A ++ l :: r :: B)).map fun e => e.2.pageNo).Nodup := by rw [hup.2.1.pages]; exact hndK
    refine hflat.sublist (List.Sublist.map _ ?_)
    rw [flat_append, flat_cons, flat_cons, ← append_assoc l.2]
    exact (sublist_append_left _ _).trans (sublist_append_right _ _)

variable {Y X : List Int}

/-- The other nodes of the level are not touched when two neighbours, their
parent and their children are. -/
theorem Up.others {s' : IxIndexHandle κ order} (hup : Up s K ((A ++ l :: r :: B) :: Us))
    (hnd : (pagesOf K ++ allPages ((A ++ l :: r :: B) :: Us)).Nodup)
    (hlt : ∀ q ∈ pagesOf K ++ allPages ((A ++ l :: r :: B) :: Us), q < s.fd2pageno) (hR : R ∈ allPages Us)
    (hf : Frame s s' X Y) (hX : ∀ q ∈ X, q ∈ [l.1, r.1, R]) (hY : ∀ q ∈ Y, q ∈ (l.2 ++ r.2).map fun e => e.2.pageNo) :
    ∀ b ∈ A ++ B, Holds s' false b ∧ ∀ e ∈ b.2, ParentIs s' e.2.pageNo b.1 := by
  intro b hb
  obtain ⟨hndK, hndU, hdisj⟩ := nodup_append.1 hnd
  have hb' : b ∈ A ++ l :: r :: B := by
    simp only [mem_append, mem_cons] at hb ⊢
    tauto
  have hbpage : b.1 ∈ pagesOf A ++ pagesOf B := by
    rw [← pagesOf_append]; exact mem_pagesOf hb
  obtain ⟨-, hbl, hbr⟩ := ne_of_nodup_pair (nodup_append.1 hndU).1 hbpage
  have hbR : b.1 ≠ R := (nodup_append.1 hndU).2.2 _ (mem_pagesOf hb') R hR
  refine ⟨hf.holds (hup.1 b hb') (fun h => ?_) 
    (hlt _ (mem_append_right _ (mem_append_left _ (mem_pagesOf hb')))), fun e he => ?_⟩
  · have := hX _ h
    simp [hbl, hbr, hbR] at this
  · obtain ⟨hmem, hpar⟩ := hup.child hb' he
    refine hf.parentIs hpar (fun h => ?_) (fun h => ?_) (hlt _ (mem_append_left _ hmem))
    · have hall : ∀ q ∈ [l.1, r.1, R], q ∈ allPages ((A ++ l :: r :: B) :: Us) := by simp [hR]
      exact hdisj _ hmem _ (hall _ (hX _ h)) rfl
    · -- a child of another node is none of theirs
      obtain ⟨e', he', heq⟩ := mem_map.1 (hY _ h)
      have hflat : ((flat (A ++ l :: r :: B)).map fun e => e.2.pageNo).Nodup := by rw [hup.2.1.pages]; exact hndK
      simp only [flat_append, flat_cons, ← append_assoc] at hflat
      rw [append_assoc (flat A)] at hflat
      have hperm : (flat A ++ (l.2 ++ r.2)).Perm (l.2 ++ r.2 ++ flat A) := perm_append_comm
      rw [((hperm.append_right _).map _).nodup_iff, append_assoc, map_append] at hflat
      have hmem' : e ∈ flat A ++ flat B := by
        rw [← flat_append]; exact mem_flatMap.2 ⟨b, hb, he⟩
      exact (nodup_append.1 hflat).2.2 _ (mem_map_of_mem he') _ (mem_map_of_mem hmem') heq

theorem redistribute_internal (hord : 2 < order) (hu : Beneath A l r B V V₁ R F₁ kl kr F₂ V₂)
    (hs : Siblings s false l r R n F₁ F₂ kl kr node neighbor index) (hup : Up s K ((A ++ l :: r :: B) :: V :: Vs))
    (hnd : (pagesOf K ++ allPages ((A ++ l :: r :: B) :: V :: Vs)).Nodup)
    (hlt : ∀ q ∈ pagesOf K ++ allPages ((A ++ l :: r :: B) :: V :: Vs), q < s.fd2pageno)
    (hsz : OneShort order A l r B node) (hVs : Sizes order (V :: Vs))
    (htot : 2 * minSize order ≤ l.2.length + r.2.length) :
    ∃ s' Us', s.redistribute neighbor node R index = some s' ∧ Shrunk s s' K ((A ++ l :: r :: B) :: V :: Vs) Us' := by
  have hmin : 2 ≤ minSize order := by simp only [minSize, maxSize]; omega
  have hRV : R ∈ allPages (V :: Vs) := hu.mem
  obtain ⟨hkids, hout⟩ := hup.kids hnd hRV
  obtain ⟨ls, rs, k, s', hrun, hflat, hll, hlr, hpl, hpr, hup', hfd, hframe, hkids'⟩ :=
    redistribute_up hu hs hup.2.2.2.2 (nodup_append.1 hnd).2.1 (fun q hq => hlt q (mem_append_right _ hq))
      (fun _ => hkids) (fun _ => hout) (fun h => by have := (hsz.left h).1; omega)
      (fun h => by have := (hsz.right h).1; omega)
  simp only [Bool.false_eq_true, if_false] at hframe
  have hothers := hup.others hnd hlt hRV hframe (fun q hq => hq) fun q hq => hq
  have hkids'' := hkids' rfl
  set U' := A ++ (l.1, ls) :: (r.1, rs) :: B with hU'
  set V' := V₁ ++ (R, F₁ ++ (kl, (⟨l.1, -1⟩ : Rid)) :: (k, ⟨r.1, -1⟩) :: F₂) :: V₂ with hV'
  have hflatU : flat U' = flat (A ++ l :: r :: B) := by
    simp only [hU', flat_append, flat_cons, ← append_assoc]
    rw [append_assoc (flat A), hflat, ← append_assoc]
  have hshape : shape (V' :: Vs) = shape (V :: Vs) := by simp [shape, hV', hu.level]
  have hpages : allPages (U' :: V' :: Vs) = allPages ((A ++ l :: r :: B) :: V :: Vs) := by
    rw [allPages_cons, allPages_of_shape hshape, allPages_cons]
    simp [hU']
  refine ⟨s', U' :: V' :: Vs, hrun, ⟨?_, ?_, ?_, ?_, hup'⟩, ⟨?_, hVs.of_shape hshape⟩, ?_, ?_, ?_, hfd⟩
  · obtain ⟨m, hm, hm'⟩ := hpl
    obtain ⟨m', hmr, hmr'⟩ := hpr
    obtain ⟨c, hc, hcl, -⟩ := hs.left
    obtain ⟨c', hc', hcl', -⟩ := hs.right
    obtain rfl : m = c := by simpa [hm] using hc
    obtain rfl : m' = c' := by simpa [hmr] using hc'
    exact Lists.forall_mem_insert_two (fun b hb => (hothers b hb).1) ⟨_, hm', hcl, rfl⟩ ⟨_, hmr', hcl', rfl⟩
  · rw [Linked, hflatU]; exact hup.2.1
  · exact Lists.forall_mem_insert_two (fun b hb => (hothers b hb).2) hkids''.left hkids''.right
  · have hne := hup.2.2.2.1
    refine Lists.forall_mem_insert_two (fun b hb => hne b ?_) (hne l (by simp)) (hne r (by simp))
    simp only [mem_append, mem_cons] at hb ⊢
    tauto
  · have hmoved := hsz.moved hs hflat hll hlr htot
    exact Lists.forall_mem_insert_two (fun b hb => .of_min hord (hsz.others b hb).1 (hsz.others b hb).2 _)
      (.of_min hord hmoved.1.1 hmoved.1.2 _) (.of_min hord hmoved.2.1 hmoved.2.2 _)
  · refine hframe.mono (fun q hq _ => ?_) fun q hq _ => ?_
    · have hall : ∀ q ∈ [l.1, r.1, R], q ∈ allPages ((A ++ l :: r :: B) :: V :: Vs) := by simp [hu.level]
      exact hall q hq
    · obtain ⟨e, he, rfl⟩ := mem_map.1 hq
      rcases mem_append.1 he with he | he
      · exact .inr (hup.child (b := l) (by simp) he).1
      · exact .inr (hup.child (b := r) (by simp) he).1
  · rw [hpages]; exact hnd
  · rw [hpages]; exact fun q hq => hq

theorem coalesce_internal_up (again : IxIndexHandle κ order → Int → Option (Bool × IxIndexHandle κ order))
    (hu : Beneath A l r B V V₁ R F₁ kl kr F₂ V₂) (hs : Siblings s false l r R n F₁ F₂ kl kr node neighbor index)
    (hup : Up s K ((A ++ l :: r :: B) :: V :: Vs)) (hnd : (pagesOf K ++ allPages ((A ++ l :: r :: B) :: V :: Vs)).Nodup)
    (hlt : ∀ q ∈ pagesOf K ++ allPages ((A ++ l :: r :: B) :: V :: Vs), q < s.fd2pageno) :
    let U' := A ++ (l.1, l.2 ++ r.2) :: B
    ∃ s₁, s.coalesce again neighbor node R index = again s₁ R ∧ s₁.fd2pageno = s.fd2pageno ∧
      Up s₁ K (U' :: (V₁ ++ (R, F₁ ++ (kl, ⟨l.1, -1⟩) :: F₂) :: V₂) :: Vs) ∧
      Frame s s₁ [l.1, R] (r.2.map fun e => e.2.pageNo) := by
  intro U'
  have hRV : R ∈ allPages (V :: Vs) := hu.mem
  obtain ⟨hkids, hout⟩ := hup.kids hnd hRV
  obtain ⟨nl, hnl, hnll, hnle⟩ := hs.left
  obtain ⟨nr, hnr, hnrl, hnre⟩ := hs.right
  obtain ⟨s₁, hpages, hroot, hfirst, hlast, hfd, hrun⟩ := coalesce_internal again hnl hnr hs.parent hs.left_ne
    hs.pos hs.parent_entries hnll hnrl fun e he => by
      rw [hnre] at he
      obtain ⟨c, hc, -⟩ := hkids.right e he
      obtain ⟨h1, h2, h3⟩ := hkids.ne e (by simp [he])
      exact ⟨h1, h3, c, hc⟩
  rw [hnle, hnre] at hpages
  set kids := r.2.map fun e => e.2.pageNo with hkidsdef
  have hframe : Frame s s₁ [l.1, R] kids := by
    refine ⟨fun q m hq _ hm => ?_, fun q m hq hq' _ hm => ?_, hfd.ge, hfirst, hlast⟩
    · simp only [mem_cons, not_mem_nil, or_false, not_or] at hq
      rw [hpages, if_neg hq.2, if_neg hq.1]
      by_cases hk : q ∈ kids
      · exact ⟨l.1, by rw [if_pos hk, hm]; rfl⟩
      · exact ⟨m.parent, by rw [if_neg hk, hm]⟩
    · simp only [mem_cons, not_mem_nil, or_false, not_or] at hq
      rw [hpages, if_neg hq.2, if_neg hq.1, if_neg hq', hm]
  have hothers := hup.others hnd hlt hRV hframe (fun q hq => by simp at hq ⊢; tauto)
    fun q hq => by rw [map_append]; exact mem_append_right _ hq
  obtain ⟨hndK, hndU, hdisj⟩ := nodup_append.1 hnd
  obtain ⟨hndU₁, hndV, hdisjU⟩ := nodup_append.1 hndU
  -- pages of these levels are no children of `r`
  have hnokid : ∀ q ∈ allPages ((A ++ l :: r :: B) :: V :: Vs), q ∉ kids := by
    intro q hq hk
    obtain ⟨e, he, rfl⟩ := mem_map.1 hk
    exact hdisj _ (hup.child (b := r) (by simp) he).1 _ hq rfl
  have hsame : ∀ q ∈ allPages ((A ++ l :: r :: B) :: V :: Vs), q ≠ l.1 → q ≠ R → s₁.pages q = s.pages q :=
    fun q hq h1 h2 => by rw [hpages, if_neg h2, if_neg h1, if_neg (hnokid q hq)]
  have hl₁ : s₁.pages l.1 = some { nl with entries := l.2 ++ r.2 } := by
    rw [hpages, if_neg hs.left_ne, if_pos rfl]
  refine ⟨s₁, hrun, hfd, ⟨Lists.forall_mem_insert (fun b hb => (hothers b hb).1) ⟨_, hl₁, hnll, rfl⟩, ?_,
    Lists.forall_mem_insert (fun b hb => (hothers b hb).2) ?_, ?_, ?_⟩, hframe⟩
  · have hflat : flat U' = flat (A ++ l :: r :: B) := by simp [U']
    rw [Linked, hflat]; exact hup.2.1
  · intro e he
    have heK : e.2.pageNo ≠ R ∧ e.2.pageNo ≠ l.1 := ⟨(hkids.ne e he).2.2, (hkids.ne e he).1⟩
    rcases mem_append.1 he with h | h
    · obtain ⟨c, hc, hcp⟩ := hkids.left e h
      refine ⟨c, ?_, hcp⟩
      have hnot : e.2.pageNo ∉ kids := fun hk => by
        obtain ⟨e', he', heq⟩ := mem_map.1 hk
        have := hkids.nodup
        rw [map_append] at this
        exact (nodup_append.1 this).2.2 _ (mem_map_of_mem h) _ (mem_map_of_mem he') heq.symm
      rw [hpages, if_neg heK.1, if_neg heK.2, if_neg hnot, hc]
    · obtain ⟨c, hc, hcp⟩ := hkids.right e h
      have hk : e.2.pageNo ∈ kids := mem_map_of_mem (f := fun e : κ × Rid => e.2.pageNo) h
      exact ⟨{ c with parent := l.1 }, by rw [hpages, if_neg heK.1, if_neg heK.2, if_pos hk, hc]; rfl, rfl⟩
  · have hne := hup.2.2.2.1
    refine Lists.forall_mem_insert (fun b hb => hne b ?_) (hne l (by simp))
    simp only [mem_append, mem_cons] at hb ⊢
    tauto
  · have hseps : lift [(kl, ⟨l.1, -1⟩)] = [((l.1, l.2 ++ r.2) : Block κ)].map sep := by
      simp only [lift_cons, lift_nil, map_cons, map_nil, sep, hu.first_append r.2]
    have hR₁ : s₁.pages R = some { n with entries := F₁ ++ ([(kl, ⟨l.1, -1⟩)] ++ F₂) } := by
      rw [hpages, if_pos rfl]; rfl
    refine hu.replace hup.2.2.2.2 hndV hseps rfl hroot hs.parent hR₁ (fun q hq hqR m hm => ?_) ?_ ?_
    · rw [hsame q (mem_append_right _ hq) (fun h => hdisjU l.1 (by simp) q hq h.symm) hqR, hm]
    · rintro q hq p ⟨m, hm, hmp⟩
      obtain ⟨hqU, hql, -⟩ := ne_of_nodup_pair hndU₁ hq
      exact ⟨m, by rw [hsame q (mem_append_left _ hqU) hql (hdisjU q hqU R hRV), hm], hmp⟩
    · simp only [mem_singleton, forall_eq]
      obtain ⟨c, hc, hcp⟩ := (hu.parents hup.2.2.2.2).1
      obtain rfl : nl = c := by simpa [hnl] using hc
      exact ⟨_, hl₁, hcp⟩

theorem Shrunk.push {s₁ s₂ : IxIndexHandle κ order} {U U' V' : List (Block κ)} {Us' : List (List (Block κ))}
    (g : Shrunk s₁ s₂ U' (V' :: Vs) Us') (hup : Up s₁ K (U' :: V' :: Vs)) (hframe : Frame s s₁ X Y)
    (hfd : s₁.fd2pageno = s.fd2pageno) (hX : ∀ q ∈ X, q ∈ allPages (U :: V :: Vs)) (hY : ∀ q ∈ Y, q ∈ pagesOf K)
    (hU' : (pagesOf U').Sublist (pagesOf U)) (hV' : pagesOf V' = pagesOf V) (hsz : ∀ b ∈ U', SizeOK order Us' b)
    (hnd : (pagesOf K ++ allPages (U :: V :: Vs)).Nodup)
    (hlt : ∀ q ∈ pagesOf K ++ allPages (U :: V :: Vs), q < s.fd2pageno) :
    Shrunk s s₂ K (U :: V :: Vs) (U' :: Us') := by
  obtain ⟨hndK, hndU, hdisj⟩ := nodup_append.1 hnd
  have hV'pages : allPages (V' :: Vs) = allPages (V :: Vs) := by rw [allPages_cons, hV', allPages_cons]
  have hUlt : ∀ q ∈ pagesOf U', q ∉ allPages (V' :: Vs) ∧ q < s₁.fd2pageno := fun q hq => by
    rw [hV'pages]
    have hqU := hU'.subset hq
    exact ⟨fun h => (nodup_append.1 hndU).2.2 q hqU q h rfl,
      hfd ▸ hlt q (mem_append_right _ (mem_append_left _ hqU))⟩
  have hKlt : ∀ q ∈ pagesOf K, q ∉ allPages (V' :: Vs) ∧ q ∉ pagesOf U' ∧ q < s₁.fd2pageno := fun q hq => by
    rw [hV'pages]
    exact ⟨fun h => hdisj q hq q (mem_append_right _ h) rfl,
      fun h => hdisj q hq q (mem_append_left _ (hU'.subset h)) rfl, hfd ▸ hlt q (mem_append_left _ hq)⟩
  refine ⟨g.up.push g.frame hup.1 hup.2.1 hup.2.2.1 hup.2.2.2.1 hUlt hKlt, ⟨hsz, g.sizes⟩, ?_, ?_, ?_, g.fd.trans hfd⟩
  · refine (hframe.mono (fun q hq _ => hX q hq) fun q hq _ => .inr (hY q hq)).trans g.frame (fun q hq _ => ?_)
      fun q hq _ => .inl (mem_append_left _ (hU'.subset hq))
    rw [hV'pages] at hq
    exact mem_append_right _ hq
  · refine nodup_append.2 ⟨hndK, g.nodup, fun q hq q' hq' heq => ?_⟩
    subst heq
    rcases mem_append.1 hq' with h | h
    · exact (hKlt q hq).2.1 h
    · exact (hKlt q hq).1 (g.sub q h)
  · intro q hq
    rcases mem_append.1 hq with h | h
    · exact mem_append_left _ (hU'.subset h)
    · have := g.sub q h
      rw [hV'pages] at this
      exact mem_append_right _ this

/-- One node of an internal level is one entry too small: after
`coalesce_or_redistribute` all levels are as they should be. The induction is
on the levels above; a merge leaves the parent in the same situation. -/
theorem coalesceOrRedistribute_up (hord : 2 < order) (fuel : Nat)
    (hup : Up s K ((U₁ ++ (P, ps) :: U₂) :: Us)) (hsz : ∀ b ∈ U₁ ++ U₂, SizeOK order Us b) (hUs : Sizes order Us)
    (hle : ps.length ≤ order) (hmin : (if Us.isEmpty then 2 else minSize order) ≤ ps.length + 1)
    (hnd : (pagesOf K ++ allPages ((U₁ ++ (P, ps) :: U₂) :: Us)).Nodup)
    (hlt : ∀ q ∈ pagesOf K ++ allPages ((U₁ ++ (P, ps) :: U₂) :: Us), q < s.fd2pageno) (hfuel : Us.length < fuel) :
    ∃ b s' Us', coalesceOrRedistribute fuel s P = some (b, s') ∧
      Shrunk s s' K ((U₁ ++ (P, ps) :: U₂) :: Us) Us' := by
  obtain ⟨fuel, rfl⟩ : ∃ f, fuel = f + 1 := ⟨fuel - 1, by omega⟩
  induction Us generalizing s K U₁ U₂ P ps fuel with
  | nil =>
    obtain ⟨rfl, rfl, -, c, hc, hcp⟩ := hup.2.2.2.2.root
    have hroot : coalesceOrRedistribute (fuel + 1) s P = s.adjustRoot P := by
      simp [coalesceOrRedistribute, fetchNode, hc, IxNode.isRootPage, hcp]
    rw [hroot]
    exact adjustRoot_up hup (by simpa using hmin) hle hnd
  | cons V Vs ih =>
    simp only [isEmpty_cons, Bool.false_eq_true, if_false] at hmin
    have hmin2 : 2 ≤ minSize order ∧ 2 * minSize order ≤ order + 1 := by simp only [minSize, maxSize]; omega
    obtain ⟨c, hc, hcl, hce⟩ := hup.1 (P, ps) (by simp)
    simp only at hc hce
    have hupV := hup.2.2.2.2
    obtain ⟨-, hndU, -⟩ := nodup_append.1 hnd
    have hV2 : ∀ b ∈ V, 2 ≤ b.2.length := fun b hb => by
      have := (hUs.1 b hb).1
      split at this <;> omega
    obtain ⟨A, l, r, B, V₁, R, F₁, kl, kr, F₂, V₂, n, neighbor, index, hpos, hu, hs, hpar, hR, hfind, hval⟩ :=
      hupV.siblings hndU hup.1 hV2
    obtain ⟨c', hc', hcp⟩ := id hpar
    obtain rfl : c = c' := by simpa [hc] using hc'
    by_cases hbig : minSize order ≤ ps.length
    · refine ⟨false, s, _, ?_, hup, ⟨fun b hb => ?_, hUs⟩, .refl _ _ _, hnd, fun _ h => h, rfl⟩
      · simp [coalesceOrRedistribute, fetchNode, hc, IxNode.isRootPage, hcp, hR, IxNode.getSize, hce, hbig]
      · exact Lists.forall_mem_insert hsz (.of_min hord hbig hle _) b hb
    · obtain ⟨hUeq, hsized⟩ := sizes_of_pos hpos hs.ne (by omega : ps.length + 1 = minSize order) fun b hb => hsz b hb
      obtain ⟨m, hm, htot⟩ := hs.neighbor_size hc
      rw [hUeq] at hup hnd hlt ⊢
      rw [coalesceOrRedistribute_small fuel hc hcp hR (by rw [hce]; omega) hs.parent hfind hval hm, htot]
      by_cases hred : 2 * minSize order ≤ l.2.length + r.2.length
      · obtain ⟨s', Us', hrun, hshrunk⟩ := redistribute_internal hord hu hs hup hnd hlt hsized hUs hred
        exact ⟨false, s', Us', by rw [if_pos hred, hrun]; rfl, hshrunk⟩
      · obtain ⟨fuel, rfl⟩ : ∃ f, fuel = f + 1 := ⟨fuel - 1, by simp at hfuel; omega⟩
        obtain ⟨s₁, hrun, hfd, hup₁, hframe⟩ :=
          coalesce_internal_up (coalesceOrRedistribute (fuel + 1)) hu hs hup hnd hlt
        set U' := A ++ (l.1, l.2 ++ r.2) :: B with hU'
        have hU'sub : (pagesOf U').Sublist (pagesOf (A ++ l :: r :: B)) := by simp [hU']
        obtain ⟨hothers, hle', hmin'⟩ := hu.sizes_shorter hUs.1
        obtain ⟨b, s₂, Us', hrun₂, g⟩ := ih hup₁.2.2.2.2 hothers hUs.2 hle' hmin'
          (by
            rw [allPages_cons, hu.pages_shorter]
            exact (nodup_append.1 hnd).2.1.sublist (hU'sub.append_right _))
          (by
            rw [allPages_cons, hu.pages_shorter, hfd]
            exact fun q hq => hlt q (mem_append_right _ ((hU'sub.append_right _).subset hq)))
          fuel (by simpa using hfuel)
        refine ⟨true, s₂, U' :: Us', by rw [if_neg hred, hrun, hrun₂]; rfl, g.push hup₁ hframe hfd ?_ ?_ hU'sub
          hu.pages_shorter ?_ hnd hlt⟩
        · have hall : ∀ q ∈ [l.1, R], q ∈ allPages ((A ++ l :: r :: B) :: V :: Vs) := by simp [hu.level]
          exact hall
        · intro q hq
          obtain ⟨e, he, rfl⟩ := mem_map.1 hq
          exact (hup.child (b := r) (by simp) he).1
        · obtain ⟨h1, h2⟩ := hsized.merged hs (by omega)
          exact Lists.forall_mem_insert (fun b hb => .of_min hord (hsized.others b hb).1 (hsized.others b hb).2 _)
            (.of_min hord h1 h2 _)

end Rmdb.Index
