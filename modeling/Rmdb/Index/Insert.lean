/-
How the levels above follow a change of one level: a first key that changed is
copied upwards, and a node that was split off is put into the level above,
where it may split a node in turn, up to a new root.
-/
import Rmdb.Index.Steps

namespace Rmdb.Index

open List IxIndexHandle

variable {κ : Type} {order : Nat}

/-! ## First keys -/

def shape (Us : List (List (Block κ))) : List (List (Int × Nat)) := Us.map (List.map fun b => (b.1, b.2.length))

theorem allPages_of_shape {Us Us' : List (List (Block κ))} (h : shape Us' = shape Us) : allPages Us' = allPages Us := by
  have := congrArg (List.flatMap (List.map Prod.fst)) h
  simp only [shape, flatMap_map, map_map] at this
  exact this

theorem Sizes.of_shape : ∀ {Us Us' : List (List (Block κ))}, shape Us' = shape Us → Sizes order Us → Sizes order Us'
  | [], Us', h, _ => by
    obtain rfl : Us' = [] := by simpa [shape] using h
    trivial
  | U :: Us, [], h, _ => by simp [shape] at h
  | U :: Us, U' :: Us', h, hs => by
    simp only [shape, map_cons, List.cons.injEq] at h
    refine ⟨fun b hb => ?_, Sizes.of_shape h.2 hs.2⟩
    have hmem : (b.1, b.2.length) ∈ U.map fun b => (b.1, b.2.length) := by
      rw [← h.1]
      exact mem_map_of_mem (f := fun b : Block κ => (b.1, b.2.length)) hb
    obtain ⟨c, hc, hcb⟩ := mem_map.1 hmem
    have hempty : Us'.isEmpty = Us.isEmpty := by
      have := congrArg List.length h.2
      simp only [length_map] at this
      cases Us <;> cases Us' <;> simp_all
    have hlen : c.2.length = b.2.length := congrArg Prod.snd hcb
    have := hs.1 c hc
    rwa [SizeOK, hlen, ← hempty] at this

/-- The first key of a node changed, the levels above still have the old one:
`maintain_parent` corrects them. -/
theorem maintainParent_up [DecidableEq κ] {Us : List (List (Block κ))} {s : IxIndexHandle κ order}
    {L₁ L₂ : List (Block κ)} {p : Int} {es es' : List (κ × Rid)} {leaf : Bool} (fuel : Nat)
    (hup : Up s (L₁ ++ (p, es) :: L₂) Us) (hhold : Holds s leaf (p, es')) (hne : Us ≠ [] → es' ≠ [])
    (hnd : (pagesOf (L₁ ++ (p, es) :: L₂) ++ allPages Us).Nodup)
    (hlt : ∀ q ∈ pagesOf (L₁ ++ (p, es) :: L₂) ++ allPages Us, q < s.fd2pageno) (hfuel : Us.length < fuel) :
    ∃ s' Us', maintainParent fuel s p = some s' ∧ Up s' (L₁ ++ (p, es') :: L₂) Us' ∧ shape Us' = shape Us ∧
      Frame s s' (allPages Us) [] ∧ s'.fd2pageno = s.fd2pageno := by
  obtain ⟨fuel, rfl⟩ : ∃ f, fuel = f + 1 := ⟨fuel - 1, by omega⟩
  induction Us generalizing s L₁ L₂ p es es' leaf fuel with
  | nil =>
    obtain ⟨rfl, rfl, hroot, hpar⟩ := hup.root
    obtain ⟨c, hc, hcp⟩ := id hpar
    refine ⟨s, [], ?_, ⟨(p, es'), rfl, hroot, hpar⟩, rfl, .refl _ _ _, rfl⟩
    simp [maintainParent, fetchNode, hc, IxNode.isRootPage, hcp]
  | cons U Us ih =>
    have hndL : (pagesOf (L₁ ++ (p, es) :: L₂)).Nodup := hnd.sublist (sublist_append_left _ _)
    obtain ⟨U₁, P, E₁, k, E₂, U₂, n, rfl, hk, h₁, h₂, hn, hnl, hes, hfind, hP, c, hc, hcp⟩ := hup.parent hndL
    obtain ⟨c', hc', -, hce⟩ := hhold
    obtain rfl : c = c' := by simpa [hc] using hc'
    simp only at hce hc hfind hn hes
    obtain ⟨⟨k', rid⟩, rest, rfl⟩ := exists_cons_of_ne_nil (hne (by simp))
    set L := L₁ ++ (p, es) :: L₂
    set ps := E₁ ++ (k, (⟨p, -1⟩ : Rid)) :: E₂
    have hckey : c.getKey 0 = some k' := by simp [IxNode.getKey, hce]
    have hpkey : n.getKey E₁.length = some k := by simp [IxNode.getKey, hes, ps]
    by_cases heq : k = k'
    · -- the parent has the key already
      subst heq
      refine ⟨s, _, ?_, hup.congr rfl ?_ (fun _ _ _ h => h) fun _ _ _ h => h, rfl, .refl _ _ _, rfl⟩
      · simp [maintainParent, fetchNode, hc, IxNode.isRootPage, hcp, hP, hn, hfind, hpkey, hckey]
      · simp [L, sep, hk]
    · obtain ⟨-, hndU, hdisj⟩ := nodup_append.1 hnd
      have hPU := ne_of_nodup_levels hndU
      set ps' := E₁ ++ (k', (⟨p, -1⟩ : Rid)) :: E₂
      let n₁ : IxNode κ := { n with entries := ps' }
      have hset : s.onNode P (fun x => x.setKey E₁.length k') = some (s.putNode P n₁) :=
        onNode_eq hn (IxNode.setKey_eq hes k')
      -- the levels from the parent's on are those of before, the parent has new entries
      have hn₁ : (s.putNode P n₁).pages P = some n₁ := by simp
      have hup₁ : Up (s.putNode P n₁) (U₁ ++ (P, ps) :: U₂) Us :=
        hup.replace rfl hn hn₁ rfl rfl fun q hq m hm => by simp [hPU q hq, hm]
      have hhold₁ : ∀ b ∈ U₁ ++ (P, ps') :: U₂, Holds (s.putNode P n₁) false b :=
        hup.holds_replace hn₁ hnl rfl fun q hq m hm => by simp [hPU q (by tauto), hm]
      have hlink : Linked (L₁ ++ (p, (k', rid) :: rest) :: L₂) (U₁ ++ (P, ps') :: U₂) := by
        have := Linked.join (P := P) (E := [(k', ⟨p, -1⟩)]) (M := [(p, (k', rid) :: rest)]) h₁ (by simp [sep]) h₂
        simpa [ps'] using this
      have hpagesL : pagesOf (L₁ ++ (p, (k', rid) :: rest) :: L₂) = pagesOf L := by simp [L]
      obtain ⟨fuel, rfl⟩ : ∃ f, fuel = f + 1 := ⟨fuel - 1, by simp at hfuel; omega⟩
      obtain ⟨s', Us', hrun, hup', hshape, hframe, hfd⟩ := ih hup₁ (hhold₁ (P, ps') (by simp))
        (fun _ => by simp [ps']) hndU (fun q hq => hlt q (mem_append_right _ hq)) fuel (by simpa using hfuel)
      have hframe₁ : Frame s (s.putNode P n₁) (allPages ((U₁ ++ (P, ps) :: U₂) :: Us)) [] :=
        (Frame.putNode s P n₁ []).mono (fun q hq _ => by simp [mem_singleton.1 hq]) fun q hq _ => by simp at hq
      refine ⟨s', (U₁ ++ (P, ps') :: U₂) :: Us', ?_, hup'.push hframe hhold₁ hlink ?_ ?_ ?_ ?_, ?_,
        hframe₁.trans hframe (fun q hq _ => by simp [hq]) fun q hq _ => by simp at hq, hfd⟩
      · rw [maintainParent]
        simp only [fetchNode, hc, Option.bind_eq_bind, Option.bind_some, IxNode.isRootPage, hcp,
          beq_iff_eq, hP, if_false, hn, hfind, hpkey, hckey, heq, hset]
        exact hrun
      · have hkids := Lists.forall_mem_replace hup.2.2.1 (y := (P, ps')) fun e he => by
          by_cases hep : e = (k', ⟨p, -1⟩)
          · subst hep
            exact ⟨c, hc, hcp⟩
          · exact (hup.child (b := (P, ps)) (by simp) (by simp [ps, ps'] at he ⊢; tauto)).2
        intro b hb e he
        have hmem := hlink.mem_pages hb he
        rw [hpagesL] at hmem
        obtain ⟨m, hm, hmp⟩ := hkids b hb e he
        exact ⟨m, by simp [hdisj _ hmem P (by simp), hm], hmp⟩
      · exact Lists.forall_mem_replace hup.2.2.2.1 hP
      · intro q hq
        have hq' : q ∈ pagesOf (U₁ ++ (P, ps) :: U₂) := by simpa using hq
        exact ⟨fun h => (nodup_append.1 hndU).2.2 q hq' q h rfl,
          hlt q (mem_append_right _ (mem_append_left _ hq'))⟩
      · intro q hq
        rw [hpagesL] at hq
        exact ⟨fun h => hdisj q hq q (by simp [h]) rfl, by simp, hlt q (mem_append_left _ hq)⟩
      · simp only [shape, map_cons, List.cons.injEq] at hshape ⊢
        exact ⟨by simp [ps, ps'], hshape⟩

/-! ## A node that was split off -/

structure Grown (s s' : IxIndexHandle κ order) (L : List (Block κ)) (Us Us' : List (List (Block κ))) : Prop where
  up : Up s' L Us'
  sizes : Sizes order Us'
  frame : Frame s s' (allPages Us) (pagesOf L)
  nodup : (pagesOf L ++ allPages Us').Nodup
  lt : ∀ q ∈ allPages Us', q < s'.fd2pageno
  old_or_new : ∀ q ∈ allPages Us', q ∈ allPages Us ∨ s.fd2pageno ≤ q

theorem insertIntoParent_root {s : IxIndexHandle κ order} {old new : Block κ} {key : κ} {o : IxNode κ} {fuel : Nat}
    (hord : 2 ≤ order) (ho : s.pages old.1 = some o) (hpar : o.parent = noPage) (hes : o.entries = old.2)
    (hold : old.2 ≠ []) (hnew : ∃ m, s.pages new.1 = some m) (hkey : new.2.head?.map Prod.fst = some key)
    (hne : old.1 ≠ new.1) (hlt : old.1 < s.fd2pageno) (hlt' : new.1 < s.fd2pageno) (hfd : 0 ≤ s.fd2pageno) :
    ∃ s' Us', insertIntoParent (fuel + 1) s old.1 key new.1 = some s' ∧ Grown s s' [old, new] [] Us' := by
  obtain ⟨m, hm⟩ := hnew
  obtain ⟨⟨k, rid⟩, es, hcons⟩ := exists_cons_of_ne_nil hold
  set root := s.fd2pageno with hroot
  have h1 : old.1 ≠ root := by omega
  have h2 : new.1 ≠ root := by omega
  let entries : List (κ × Rid) := [(k, ⟨old.1, -1⟩), (key, ⟨new.1, -1⟩)]
  let top : IxNode κ := ⟨noPage, false, noPage, noPage, entries⟩
  let s₁ := ((s.createNode.2.putNode root ⟨noPage, false, noPage, noPage, []⟩).putNode root
    ⟨noPage, false, noPage, noPage, [(k, ⟨old.1, -1⟩)]⟩).putNode root top
  let s₂ := (s₁.putNode old.1 { o with parent := root }).putNode new.1 { m with parent := root }
  have hrun : insertIntoParent (fuel + 1) s old.1 key new.1 = some { s₂ with rootPage := root } := by
    have hk : o.getKey 0 = some k := by simp [IxNode.getKey, hes, hcons]
    have hc : s.createNode.2.pages root = some ⟨0, false, 0, 0, []⟩ := by simp [createNode_pages, hroot]
    simp only [insertIntoParent, fetchNode, ho, Option.bind_eq_bind, Option.bind_some, IxNode.isRootPage, hpar,
      BEq.rfl, if_true, hk]
    rw [show s.createNode = (root, s.createNode.2) from rfl]
    simp only
    rw [modifyNode_eq _ hc, Option.bind_some,
      onNode_eq (n := ⟨noPage, false, noPage, noPage, []⟩) (m := ⟨noPage, false, noPage, noPage, [(k, ⟨old.1, -1⟩)]⟩)
        (by simp) (by simp [IxNode.insertPair, IxNode.insertPairs, IxNode.getSize]), Option.bind_some,
      onNode_eq (n := ⟨noPage, false, noPage, noPage, [(k, ⟨old.1, -1⟩)]⟩) (m := top)
        (by simp) (by simp [IxNode.insertPair, IxNode.insertPairs, IxNode.getSize, top, entries]), Option.bind_some,
      modifyNode_eq (n := o) _ (by simp [h1, createNode_pages, ← hroot, ho]), Option.bind_some,
      modifyNode_eq (n := m) _ (by simp [h2, hne.symm, createNode_pages, ← hroot, hm]), Option.bind_some]
  have hpages : ∀ q, s₂.pages q = if q = new.1 then some { m with parent := root }
      else if q = old.1 then some { o with parent := root } else if q = root then some top else s.pages q := by
    intro q
    simp only [s₂, s₁, putNode_pages, createNode_pages, ← hroot]
    split_ifs <;> rfl
  have hrootp : s₂.pages root = some top := by rw [hpages, if_neg h2.symm, if_neg h1.symm, if_pos rfl]
  refine ⟨{ s₂ with rootPage := root }, [[(root, entries)]], hrun, ?_, ?_, ?_, ?_, ?_, ?_⟩
  · refine ⟨?_, ?_, ?_, ?_, (root, entries), rfl, rfl, top, hrootp, rfl⟩
    · simp only [mem_singleton, forall_eq]
      exact ⟨top, hrootp, rfl, rfl⟩
    · simp [Linked, sep, hcons, hkey, entries]
    · simp only [forall_eq, entries, mem_cons, not_mem_nil, or_false, forall_eq_or_imp]
      exact ⟨⟨_, by rw [hpages, if_neg hne, if_pos rfl], rfl⟩, ⟨_, by rw [hpages, if_pos rfl], rfl⟩⟩
    · simp only [mem_singleton, forall_eq, noPage]
      omega
  · simp [Sizes, SizeOK, entries, hord]
  · refine ⟨fun q n _ hq hn => ?_, fun q n _ hY hq hn => ?_, ?_, rfl, rfl⟩
    · by_cases hq1 : q = new.1
      · subst hq1
        obtain rfl : m = n := by simpa [hm] using hn
        exact ⟨root, by rw [hpages, if_pos rfl]⟩
      by_cases hq2 : q = old.1
      · subst hq2
        obtain rfl : o = n := by simpa [ho] using hn
        exact ⟨root, by rw [hpages, if_neg hq1, if_pos rfl]⟩
      exact ⟨n.parent, by rw [hpages, if_neg hq1, if_neg hq2, if_neg (by omega), hn]⟩
    · simp only [pagesOf_cons, pagesOf_nil, mem_cons, not_mem_nil, or_false, not_or] at hY
      rw [hpages, if_neg hY.2, if_neg hY.1, if_neg (by omega), hn]
    · show s.fd2pageno ≤ s.fd2pageno + 1
      omega
  · simp only [pagesOf_cons, pagesOf_nil, allPages_cons, allPages_nil]
    simp [hne, h1, h2]
  · simp only [allPages_cons, pagesOf_cons, pagesOf_nil, allPages_nil, append_nil, mem_singleton, forall_eq]
    show root < s.fd2pageno + 1
    omega
  · simp [hroot]

/-- The entry for `new` put behind the one for `old`; the parent may be one
entry too large now. -/
theorem insertIntoParent_entry {s : IxIndexHandle κ order} {L₁ L₂ U : List (Block κ)} {Us : List (List (Block κ))}
    {old new : Block κ} {key : κ} (fuel : Nat) (hup : Up s (L₁ ++ old :: L₂) (U :: Us))
    (hkey : new.2.head?.map Prod.fst = some key) (hpar : ∀ p, ParentIs s old.1 p → ParentIs s new.1 p)
    (hnd : (pagesOf (L₁ ++ old :: new :: L₂) ++ allPages (U :: Us)).Nodup) :
    ∃ U₁ P ps ps' U₂ s₁, U = U₁ ++ (P, ps) :: U₂ ∧ ps'.length = ps.length + 1 ∧
      s₁.fd2pageno = s.fd2pageno ∧ Frame s s₁ [P] [] ∧
      Up s₁ (L₁ ++ old :: new :: L₂) ((U₁ ++ (P, ps') :: U₂) :: Us) ∧
      insertIntoParent (fuel + 1) s old.1 key new.1 =
        if ps'.length = maxSize order then do
          let (sibling, s) ← s₁.split P
          let sib ← s.fetchNode sibling
          let sibKey ← sib.getKey 0
          insertIntoParent fuel s P sibKey sibling
        else some s₁ := by
  have hL : (pagesOf (L₁ ++ old :: L₂)).Nodup := by
    refine hnd.sublist (List.Sublist.trans ?_ (sublist_append_left _ _))
    simp
  obtain ⟨U₁, P, E₁, k, E₂, U₂, n, rfl, hk, h₁, h₂, hn, hnl, hes, hfind, hP, o, ho, hop⟩ := hup.parent hL
  set ps := E₁ ++ (k, (⟨old.1, -1⟩ : Rid)) :: E₂ with hps
  let ps' := E₁ ++ (k, (⟨old.1, -1⟩ : Rid)) :: (key, ⟨new.1, -1⟩) :: E₂
  let n₁ : IxNode κ := { n with entries := ps' }
  -- the pages of the parent and of the others are apart
  obtain ⟨-, hndU, hdisj⟩ := nodup_append.1 hnd
  have hPU := ne_of_nodup_levels hndU
  have hPL : ∀ q ∈ pagesOf (L₁ ++ old :: new :: L₂), q ≠ P := fun q hq => hdisj q hq P (by simp)
  have hkeep : ∀ q ∈ pagesOf (L₁ ++ old :: new :: L₂), ∀ p, ParentIs s q p → ParentIs (s.putNode P n₁) q p := by
    rintro q hq p ⟨c, hc, hcp⟩
    exact ⟨c, by simp [hPL q hq, hc], hcp⟩
  have hpo : ParentIs s old.1 P := ⟨o, ho, hop⟩
  have hn₁ : (s.putNode P n₁).pages P = some n₁ := by simp
  have hseps : lift [(k, ⟨old.1, -1⟩), (key, ⟨new.1, -1⟩)] = [old, new].map sep := by simp [sep, hk, hkey]
  have hup' : Up (s.putNode P n₁) (L₁ ++ ([old, new] ++ L₂)) ((U₁ ++ (P, ps') :: U₂) :: Us) := by
    refine Up.segment (M := [old]) (E := [(k, ⟨old.1, -1⟩)]) hup h₁ hseps h₂ ?_ hn hn₁ ?_ ?_ ?_ ?_
    · rfl
    · cases E₁ <;> simp
    · exact fun q hq m hm => by simp [hPU q hq, hm]
    · exact fun q hq => hkeep q (by simp at hq ⊢; tauto)
    · simp only [mem_cons, not_mem_nil, or_false, forall_eq_or_imp, forall_eq]
      exact ⟨hkeep old.1 (by simp) P hpo, hkeep new.1 (by simp) P (hpar P hpo)⟩
  refine ⟨U₁, P, ps, ps', U₂, s.putNode P n₁, rfl, by simp [ps', hps]; omega, rfl, .putNode s P n₁ _, hup', ?_⟩
  · have hins : s.onNode P (fun x => x.insertPair (E₁.length + 1) (key, ⟨new.1, -1⟩)) = some (s.putNode P n₁) := by
      have hes' : n.entries = (E₁ ++ [(k, ⟨old.1, -1⟩)]) ++ E₂ := by simp [hes, hps]
      have := IxNode.insertPair_eq hes' (key, ⟨new.1, -1⟩)
      rw [length_append, length_singleton] at this
      exact onNode_eq hn (by simpa [n₁, ps'] using this)
    rw [insertIntoParent]
    simp only [fetchNode, ho, Option.bind_eq_bind, Option.bind_some, IxNode.isRootPage, hop, beq_iff_eq, hP, if_false,
      hn, hfind, hins, putNode_pages, if_true, IxNode.isFull, IxNode.getSize, n₁]

/-- Splitting a node of the level above `L`: the new node is in its level, and
not yet in those above. -/
theorem split_up {s : IxIndexHandle κ order} {L U₁ U₂ : List (Block κ)} {Us : List (List (Block κ))} {P : Int}
    {ps : List (κ × Rid)} (hord : 2 < order) (hup : Up s L ((U₁ ++ (P, ps) :: U₂) :: Us))
    (hnd : (pagesOf L ++ allPages ((U₁ ++ (P, ps) :: U₂) :: Us)).Nodup)
    (hlt : ∀ q ∈ pagesOf L ++ allPages ((U₁ ++ (P, ps) :: U₂) :: Us), q < s.fd2pageno) (hfd : 0 ≤ s.fd2pageno) :
    let left := ps.take (minSize order)
    let right := ps.drop (minSize order)
    let U' := U₁ ++ (P, left) :: (s.fd2pageno, right) :: U₂
    ∃ s' m, s.split P = some (s.fd2pageno, s') ∧ s'.pages s.fd2pageno = some m ∧ m.entries = right ∧
      s'.fd2pageno = s.fd2pageno + 1 ∧ Frame s s' [P] (pagesOf L) ∧ Up s' (U₁ ++ (P, left) :: U₂) Us ∧
      (∀ p, ParentIs s' P p → ParentIs s' s.fd2pageno p) ∧ (∀ b ∈ U', Holds s' false b) ∧ Linked L U' ∧
      (∀ b ∈ U', ∀ e ∈ b.2, ParentIs s' e.2.pageNo b.1) ∧ ∀ b ∈ U', b.1 ≠ noPage := by
  intro left right U'
  obtain ⟨-, hndU, hdisj⟩ := nodup_append.1 hnd
  have hndL : (pagesOf L).Nodup := hnd.sublist (sublist_append_left _ _)
  have hPU := ne_of_nodup_levels hndU
  have hmemP : (P, ps) ∈ U₁ ++ (P, ps) :: U₂ := by simp
  obtain ⟨n, hn, hnl, hes⟩ := hup.1 _ hmemP
  simp only at hn hes
  have hright : ∀ e ∈ right, e.2.pageNo ∈ pagesOf L ∧ ParentIs s e.2.pageNo P := fun e he =>
    hup.child hmemP (mem_of_mem_drop he)
  obtain ⟨s', hsplit, hfd', hroot, hfirst, hlast, hP', hQ', hmoved, hsame⟩ :=
    split_internal hn hnl (hlt P (by simp)) fun e he => by
      rw [hes] at he
      obtain ⟨hmem, c, hc, -⟩ := hright e he
      exact ⟨hdisj _ hmem P (by simp), hlt _ (by simp [hmem]), c, hc⟩
  simp only [hes] at hP' hQ' hmoved hsame
  -- a page of the levels above is none of the moved children
  have hup_same : ∀ q, q ∈ pagesOf U₁ ∨ q ∈ pagesOf U₂ ∨ q ∈ allPages Us →
      ∀ m, s.pages q = some m → s'.pages q = some m := by
    intro q hq m hm
    have hmem : q ∈ allPages ((U₁ ++ (P, ps) :: U₂) :: Us) := by simp; tauto
    have hqlt : q < s.fd2pageno := hlt q (mem_append_right _ hmem)
    rw [hsame q (hPU q hq) (by omega) fun e he heq => hdisj _ (hright e he).1 q hmem heq, hm]
  have hhead : left.head?.map Prod.fst = ps.head?.map Prod.fst := by
    have : minSize order ≠ 0 := by simp only [minSize, maxSize]; omega
    simp [left, List.head?_take, this]
  have hU' := hup.holds_replace hP' hnl rfl fun q hq => hup_same q (by tauto)
  have hup' := hup.replace hroot hn hP' rfl hhead hup_same
  have hflat : flat U' = flat (U₁ ++ (P, ps) :: U₂) := by
    simp only [U', flat_append, flat_cons, ← append_assoc]
    rw [append_assoc (flat U₁), take_append_drop]
  have hlink : Linked L U' := by
    rw [Linked, hflat]; exact hup.2.1
  -- children that are not moved: their pages are not among the moved ones, since no page occurs twice
  have hndflat : ((flat U').map fun e => e.2.pageNo).Nodup := by rw [hlink.pages]; exact hndL
  have hstay : ∀ e, e ∈ flat U₁ ∨ e ∈ left ∨ e ∈ flat U₂ → e.2.pageNo ∈ pagesOf L →
      ∀ p, ParentIs s e.2.pageNo p → ParentIs s' e.2.pageNo p := by
    rintro e he hmem p ⟨c, hc, hp⟩
    have hlt' := hlt _ (mem_append_left _ hmem)
    refine ⟨c, ?_, hp⟩
    rw [hsame _ (hdisj _ hmem P (by simp)) (by omega), hc]
    intro e' he' heq
    simp only [U', flat_append, flat_cons, map_append, nodup_append, mem_append, mem_map] at hndflat
    rcases he with he | he | he
    · exact hndflat.2.2 _ ⟨e, he, rfl⟩ _ (.inr (.inl ⟨e', he', heq⟩)) rfl
    · exact hndflat.2.1.2.2 _ ⟨e, he, rfl⟩ _ (.inl ⟨e', he', heq⟩) rfl
    · exact hndflat.2.1.2.1.2.2 _ ⟨e', he', heq⟩ _ ⟨e, he, rfl⟩ rfl
  refine ⟨s', _, hsplit, hQ', rfl, hfd', ⟨?_, ?_, by omega, hfirst, hlast⟩, hup', ?_, ?_, hlink, ?_, ?_⟩
  · intro q m hq hqlt hm
    by_cases hkid : ∃ e ∈ right, e.2.pageNo = q
    · obtain ⟨e, he, rfl⟩ := hkid
      exact ⟨_, hmoved e he m hm⟩
    · exact ⟨m.parent, by rw [hsame q (by simpa using hq) (by omega) (by simpa using hkid), hm]⟩
  · intro q m hq hqL hqlt hm
    rw [hsame q (by simpa using hq) (by omega) fun e he heq => hqL (heq ▸ (hright e he).1), hm]
  · rintro p ⟨m, hm, hp⟩
    rw [hP'] at hm
    cases hm
    exact ⟨_, hQ', hp⟩
  · intro b hb
    simp only [U', mem_append, mem_cons] at hb
    rcases hb with hb | rfl | rfl | hb
    · exact hU' b (by simp [hb])
    · exact ⟨_, hP', hnl, rfl⟩
    · exact ⟨_, hQ', rfl, rfl⟩
    · exact hU' b (by simp [hb])
  · intro b hb e he
    have hmem := hlink.mem_pages hb he
    simp only [U', mem_append, mem_cons] at hb
    rcases hb with hb | rfl | rfl | hb
    · exact hstay e (.inl (mem_flatMap.2 ⟨b, hb, he⟩)) hmem _ (hup.child (by simp [hb]) he).2
    · exact hstay e (.inr (.inl he)) hmem _ (hup.child hmemP (mem_of_mem_take he)).2
    · obtain ⟨c, hc, -⟩ := (hright e he).2
      exact ⟨_, hmoved e he c hc, rfl⟩
    · exact hstay e (.inr (.inr (mem_flatMap.2 ⟨b, hb, he⟩))) hmem _ (hup.child (by simp [hb]) he).2
  · intro b hb
    simp only [U', mem_append, mem_cons] at hb
    rcases hb with hb | rfl | rfl | hb
    · exact hup.2.2.2.1 b (by simp [hb])
    · exact hup.2.2.2.1 (P, ps) hmemP
    · simp only [noPage]; omega
    · exact hup.2.2.2.1 b (by simp [hb])

/-- The level above `L` under levels that grew. -/
theorem Grown.push {s s₂ s₃ : IxIndexHandle κ order} {L U U' : List (Block κ)} {Us Us' : List (List (Block κ))}
    (g : Grown s₂ s₃ U' Us Us') (hU' : ∀ b ∈ U', Holds s₂ false b) (hlink : Linked L U')
    (hch : ∀ b ∈ U', ∀ e ∈ b.2, ParentIs s₂ e.2.pageNo b.1) (hne : ∀ b ∈ U', b.1 ≠ noPage)
    (hsz : ∀ b ∈ U', SizeOK order Us' b) (hframe : Frame s s₂ (allPages (U :: Us)) (pagesOf L))
    (hpages : ∀ q ∈ pagesOf U', (q ∈ pagesOf U ∨ s.fd2pageno ≤ q) ∧ q < s₂.fd2pageno)
    (hnd : (pagesOf L ++ allPages (U :: Us)).Nodup)
    (hlt : ∀ q ∈ pagesOf L ++ allPages (U :: Us), q < s.fd2pageno) : Grown s s₃ L (U :: Us) (U' :: Us') := by
  obtain ⟨hndL, hndU, hdisj⟩ := nodup_append.1 hnd
  have hgrow := hframe.grow
  have hLX : ∀ q ∈ pagesOf L, q ∉ allPages Us ∧ q ∉ pagesOf U' ∧ q < s.fd2pageno := by
    intro q hq
    have hqlt := hlt q (mem_append_left _ hq)
    refine ⟨fun h => hdisj q hq q (by simp [h]) rfl, fun h => ?_, hqlt⟩
    rcases (hpages q h).1 with h | h
    · exact hdisj q hq q (by simp [h]) rfl
    · omega
  have hUX : ∀ q ∈ pagesOf U', q ∉ allPages Us := by
    intro q hq hUs
    rcases (hpages q hq).1 with h | h
    · exact (nodup_append.1 hndU).2.2 q h q hUs rfl
    · have := hlt q (mem_append_right _ (mem_append_right _ hUs))
      omega
  refine ⟨g.up.push g.frame hU' hlink hch hne (fun q hq => ⟨hUX q hq, (hpages q hq).2⟩) fun q hq => ?_,
    ⟨hsz, g.sizes⟩, hframe.trans g.frame (fun q hq _ => by simp [hq]) fun q hq hqlt => ?_,
    nodup_append.2 ⟨hndL, g.nodup, fun q hq q' hq' heq => ?_⟩, fun q hq => ?_, fun q hq => ?_⟩
  · obtain ⟨h1, h2, h3⟩ := hLX q hq
    exact ⟨h1, h2, by omega⟩
  · rcases (hpages q hq).1 with h | h
    · exact .inl (by simp [h])
    · omega
  · subst heq
    obtain ⟨h1, h2, h3⟩ := hLX q hq
    rcases mem_append.1 hq' with h | h
    · exact h2 h
    · rcases g.old_or_new q h with h | h
      · exact h1 h
      · omega
  · rcases mem_append.1 hq with h | h
    · exact (hpages q h).2.trans_le g.frame.grow
    · exact g.lt q h
  · rcases mem_append.1 hq with h | h
    · exact (hpages q h).1.imp_left fun h => by simp [h]
    · rcases g.old_or_new q h with h | h
      · exact .inl (by simp [h])
      · exact .inr (by omega)

/-- A node was split into `old` and `new`, of which only `old` is in the levels
above: `insert_into_parent` puts `new` behind it. The induction is on those
levels; a split parent is in the same situation one level up. -/
theorem insertIntoParent_up (hord : 2 < order) {Us : List (List (Block κ))} {s : IxIndexHandle κ order}
    {L₁ L₂ : List (Block κ)} {old new : Block κ} {key : κ} {leaf : Bool} (fuel : Nat)
    (hup : Up s (L₁ ++ old :: L₂) Us) (hsz : Sizes order Us) (hold : Holds s leaf old) (hne : old.2 ≠ [])
    (hkey : new.2.head?.map Prod.fst = some key) (hpar : ∀ p, ParentIs s old.1 p → ParentIs s new.1 p)
    (hnd : (pagesOf (L₁ ++ old :: new :: L₂) ++ allPages Us).Nodup)
    (hlt : ∀ q ∈ pagesOf (L₁ ++ old :: new :: L₂) ++ allPages Us, q < s.fd2pageno) (hfd : 0 ≤ s.fd2pageno)
    (hfuel : Us.length < fuel) :
    ∃ s' Us', insertIntoParent fuel s old.1 key new.1 = some s' ∧ Grown s s' (L₁ ++ old :: new :: L₂) Us Us' := by
  obtain ⟨fuel, rfl⟩ : ∃ f, fuel = f + 1 := ⟨fuel - 1, by omega⟩
  induction Us generalizing s L₁ L₂ old new key leaf fuel with
  | nil =>
    obtain ⟨rfl, rfl, -, hp⟩ := hup.root
    obtain ⟨o, ho, hop⟩ := id hp
    obtain ⟨m, hm, -⟩ := hpar _ hp
    obtain ⟨o', ho', -, hes⟩ := hold
    obtain rfl : o = o' := by simpa [ho] using ho'
    exact insertIntoParent_root (by omega) ho hop hes hne ⟨m, hm⟩ hkey (by simp at hnd; tauto) (hlt _ (by simp))
      (hlt _ (by simp)) hfd
  | cons U Us ih =>
    obtain ⟨U₁, P, ps, ps', U₂, s₁, rfl, hlen, hfd₁, hframe₁, hup₁, hrun⟩ :=
      insertIntoParent_entry fuel hup hkey hpar hnd
    set L' := L₁ ++ old :: new :: L₂
    have hpages : allPages ((U₁ ++ (P, ps') :: U₂) :: Us) = allPages ((U₁ ++ (P, ps) :: U₂) :: Us) := by simp
    have hframe : Frame s s₁ (allPages ((U₁ ++ (P, ps) :: U₂) :: Us)) (pagesOf L') :=
      hframe₁.mono (fun q hq _ => by simp [mem_singleton.1 hq]) fun q hq _ => by simp at hq
    obtain ⟨-, hndU, hdisj⟩ := nodup_append.1 hnd
    have hold_sz : ∀ b, b ∈ U₁ ∨ b ∈ U₂ → ∀ Vs, SizeOK order Vs b := fun b hb =>
      hup₁.2.2.2.2.sizeOK_neighbour hord hb (hsz.1 b (by simp; tauto))
    have hps := hsz.1 (P, ps) (by simp)
    by_cases hfull : ps'.length = maxSize order
    · rw [hrun, if_pos hfull]
      rw [← hpages] at hnd hlt
      obtain ⟨s₂, m, hsplit, hm, hme, hfd₂, hframe₂, hup₂, hpar₂, hU₂, hlink₂, hch₂, hne₂⟩ :=
        split_up (s := s₁) hord hup₁ hnd (by rwa [hfd₁]) (by omega)
      rw [hfd₁] at hsplit hm hfd₂ hpar₂
      simp only [hfd₁] at hU₂ hlink₂ hch₂ hne₂
      set left := ps'.take (minSize order) with hleft
      set right := ps'.drop (minSize order) with hright
      set U' := U₁ ++ (P, left) :: (s.fd2pageno, right) :: U₂ with hU'
      rw [hpages] at hnd hlt
      have hl : left.length = minSize order := by simp [hleft, hfull, minSize, maxSize]; omega
      have hr : right.length = order + 1 - minSize order := by simp [hright, hfull, maxSize]
      have hmin : 2 ≤ minSize order ∧ minSize order + minSize order ≤ order + 1 := by
        simp only [minSize, maxSize]; omega
      obtain ⟨⟨k, rid⟩, rest, hcons⟩ := exists_cons_of_length_pos (l := right) (by omega)
      have hfresh : s.fd2pageno ∉ allPages ((U₁ ++ (P, ps) :: U₂) :: Us) := fun h =>
        absurd (hlt _ (mem_append_right _ h)) (lt_irrefl _)
      have hU'lt : ∀ q ∈ pagesOf U', (q ∈ pagesOf (U₁ ++ (P, ps) :: U₂) ∨ s.fd2pageno ≤ q) ∧ q < s₂.fd2pageno := by
        intro q hq
        rcases mem_pagesOf_split.1 hq with h | rfl
        · have := hlt q (mem_append_right _ (mem_append_left _ h))
          exact ⟨.inl h, by omega⟩
        · exact ⟨.inr le_rfl, by omega⟩
      have hlt' : ∀ q ∈ pagesOf U' ++ allPages Us, q < s₂.fd2pageno := by
        intro q hq
        rcases mem_append.1 hq with h | h
        · exact (hU'lt q h).2
        · have := hlt q (mem_append_right _ (mem_append_right _ h))
          omega
      have hndU' : (pagesOf U' ++ allPages Us).Nodup := nodup_split hndU hfresh
      have hleft_ne : ((P, left) : Block κ).2 ≠ [] := ne_nil_of_length_pos (by simp only; omega)
      have hkey₂ : ((s.fd2pageno, right) : Block κ).2.head?.map Prod.fst = some k := by simp [hcons]
      obtain ⟨fuel, rfl⟩ : ∃ f, fuel = f + 1 := ⟨fuel - 1, by simp at hfuel; omega⟩
      obtain ⟨s₃, Us', hrun₃, g⟩ := ih hup₂ hsz.2 (hU₂ (P, left) (by simp [hU'])) hleft_ne hkey₂ hpar₂ hndU' hlt'
        (by omega) fuel (by simpa using hfuel)
      have hkey₃ : m.getKey 0 = some k := by simp [IxNode.getKey, hme, hcons]
      refine ⟨s₃, U' :: Us', ?_, g.push hU₂ hlink₂ hch₂ hne₂ (fun b hb => ?_) ?_ hU'lt hnd hlt⟩
      · simp only [hsplit, Option.bind_eq_bind, Option.bind_some, fetchNode, hm, hkey₃]
        exact hrun₃
      · simp only [mem_append, mem_cons] at hb
        rcases hb with hb | rfl | rfl | hb
        · exact hold_sz b (.inl hb) _
        · exact .of_min hord (by simp only; omega) (by simp only; omega) _
        · exact .of_min hord (by simp only; omega) (by simp only; omega) _
        · exact hold_sz b (.inr hb) _
      · exact hframe.trans hframe₂ (fun q hq _ => by simp [mem_singleton.1 hq]) fun q hq _ => .inr hq
    · refine ⟨s₁, _, by rw [hrun, if_neg hfull], hup₁, ⟨fun b hb => ?_, hsz.2⟩, hframe, ?_, ?_, ?_⟩
      · simp only [mem_append, mem_cons] at hb
        rcases hb with hb | rfl | hb
        · exact hold_sz b (.inl hb) _
        · have hle := hps.2
          simp only [maxSize] at hfull hle
          exact ⟨hps.1.trans (by simp [hlen]), by simp only; omega⟩
        · exact hold_sz b (.inr hb) _
      · rw [hpages]; exact hnd
      · rw [hpages, hfd₁]; exact fun q hq => hlt q (mem_append_right _ hq)
      · rw [hpages]; exact fun q hq => .inl hq

end Rmdb.Index
