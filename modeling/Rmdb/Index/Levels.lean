/-
The tree seen level by level.

A level is the list of its nodes from left to right, each a page with its
entries. Two levels fit when the entries of the upper one are the first keys and
the pages of the nodes below. Splitting or merging two neighbours is a change of
one segment of a list.
-/
import Rmdb.Index.Handle
import Rmdb.Lib.Lists

namespace Rmdb.Index

open List

variable {κ : Type} {order : Nat}

abbrev Block (κ : Type) := Int × List (κ × Rid)

def flat (L : List (Block κ)) : List (κ × Rid) := L.flatMap Prod.snd

def pagesOf (L : List (Block κ)) : List Int := L.map Prod.fst

def allPages (Ls : List (List (Block κ))) : List Int := Ls.flatMap pagesOf

def sep (b : Block κ) : Option κ × Rid := (b.2.head?.map Prod.fst, ⟨b.1, -1⟩)

def lift (es : List (κ × Rid)) : List (Option κ × Rid) := es.map fun e => (some e.1, e.2)

def Linked (L U : List (Block κ)) : Prop := lift (flat U) = L.map sep

def Holds (s : IxIndexHandle κ order) (leaf : Bool) (b : Block κ) : Prop :=
  ∃ n, s.pages b.1 = some n ∧ n.isLeaf = leaf ∧ n.entries = b.2

def ParentIs (s : IxIndexHandle κ order) (c p : Int) : Prop :=
  ∃ n, s.pages c = some n ∧ n.parent = p

/-- The levels above `L`, nearest first, up to the root. -/
def Up (s : IxIndexHandle κ order) : List (Block κ) → List (List (Block κ)) → Prop
  | L, [] => ∃ b, L = [b] ∧ s.rootPage = b.1 ∧ ParentIs s b.1 noPage
  | L, U :: Us =>
    (∀ b ∈ U, Holds s false b) ∧ Linked L U ∧ (∀ b ∈ U, ∀ e ∈ b.2, ParentIs s e.2.pageNo b.1) ∧
      (∀ b ∈ U, b.1 ≠ noPage) ∧ Up s U Us

/-- The size of a node below the levels `Us`: an internal root has at least two
entries. -/
def SizeOK (order : Nat) (Us : List (List (Block κ))) (b : Block κ) : Prop :=
  (if Us.isEmpty then 2 else minSize order) ≤ b.2.length ∧ b.2.length ≤ order

def Sizes (order : Nat) : List (List (Block κ)) → Prop
  | [] => True
  | U :: Us => (∀ b ∈ U, SizeOK order Us b) ∧ Sizes order Us

/-! ## Entries and pages -/

@[simp] theorem flat_nil : flat ([] : List (Block κ)) = [] := rfl

@[simp] theorem flat_cons (b : Block κ) (L : List (Block κ)) : flat (b :: L) = b.2 ++ flat L := rfl

@[simp] theorem flat_append (L M : List (Block κ)) : flat (L ++ M) = flat L ++ flat M :=
  flatMap_append

@[simp] theorem pagesOf_nil : pagesOf ([] : List (Block κ)) = [] := rfl

@[simp] theorem pagesOf_cons (b : Block κ) (L : List (Block κ)) : pagesOf (b :: L) = b.1 :: pagesOf L := rfl

@[simp] theorem pagesOf_append (L M : List (Block κ)) : pagesOf (L ++ M) = pagesOf L ++ pagesOf M :=
  map_append

@[simp] theorem allPages_nil : allPages ([] : List (List (Block κ))) = [] := rfl

@[simp] theorem allPages_cons (L : List (Block κ)) (Ls : List (List (Block κ))) :
    allPages (L :: Ls) = pagesOf L ++ allPages Ls := rfl

@[simp] theorem lift_append (A B : List (κ × Rid)) : lift (A ++ B) = lift A ++ lift B := map_append

@[simp] theorem lift_cons (e : κ × Rid) (B : List (κ × Rid)) : lift (e :: B) = (some e.1, e.2) :: lift B := rfl

@[simp] theorem lift_nil : lift ([] : List (κ × Rid)) = [] := rfl

variable {b : Block κ} {L U L₁ L₂ U₁ U₂ : List (Block κ)} {E ps : List (κ × Rid)} {P : Int} {Us : List (List (Block κ))} {s s' : IxIndexHandle κ order} {X Y : List Int}

theorem mem_pagesOf (h : b ∈ L) : b.1 ∈ pagesOf L :=
  mem_map_of_mem h

theorem pages_of_lift (h : lift E = L.map sep) : E.map (fun e => e.2.pageNo) = pagesOf L := by
  have := congrArg (List.map fun e : Option κ × Rid => e.2.pageNo) h
  simpa [lift, sep, pagesOf, Function.comp_def] using this

theorem exists_of_lift (h : lift E = L.map sep) (hb : b ∈ L) : ∃ e ∈ E, b.2.head?.map Prod.fst = some e.1 := by
  have hmem : sep b ∈ lift E := by rw [h]; exact mem_map_of_mem hb
  obtain ⟨e, he, hsep⟩ := mem_map.1 hmem
  simp only [sep, Prod.mk.injEq] at hsep
  exact ⟨e, he, hsep.1.symm⟩

theorem Linked.pages (h : Linked L U) : (flat U).map (fun e => e.2.pageNo) = pagesOf L := pages_of_lift h

theorem Linked.mem_pages (h : Linked L U) (hb : b ∈ U) {e : κ × Rid} (he : e ∈ b.2) : e.2.pageNo ∈ pagesOf L := by
  rw [← h.pages]
  exact mem_map_of_mem (f := fun e : κ × Rid => e.2.pageNo)
    (mem_flatMap.2 ⟨b, hb, he⟩)

theorem Linked.cut (h : Linked (L₁ ++ b :: L₂) U) :
    ∃ U₁ P E₁ k E₂ U₂, U = U₁ ++ (P, E₁ ++ (k, ⟨b.1, -1⟩) :: E₂) :: U₂ ∧
      b.2.head?.map Prod.fst = some k ∧ lift (flat U₁ ++ E₁) = L₁.map sep ∧
      lift (E₂ ++ flat U₂) = L₂.map sep := by
  have h' : (flat U).map (fun e => (some e.1, e.2)) = L₁.map sep ++ sep b :: L₂.map sep := by
    simpa [Linked, lift] using h
  obtain ⟨X, Y', hflat, hX, hY'⟩ := map_eq_append_iff.1 h'
  obtain ⟨⟨k, rid⟩, Y, rfl, hk, hY⟩ := map_eq_cons_iff.1 hY'
  obtain ⟨U₁, ⟨P, ps⟩, U₂, E₁, E₂, rfl, hps, rfl, rfl⟩ := Lists.flatMap_cut hflat
  simp only [sep, Prod.mk.injEq] at hk
  obtain ⟨hk, rfl⟩ := hk
  exact ⟨U₁, P, E₁, k, E₂, U₂, by rw [← hps], hk.symm, hX, hY⟩

/-- A segment of a level and the entries for it can be replaced together. -/
theorem Linked.join {M : List (Block κ)} {E₁ E₂ : List (κ × Rid)}
    (h₁ : lift (flat U₁ ++ E₁) = L₁.map sep) (h : lift E = M.map sep) (h₂ : lift (E₂ ++ flat U₂) = L₂.map sep) :
    Linked (L₁ ++ (M ++ L₂)) (U₁ ++ (P, E₁ ++ (E ++ E₂)) :: U₂) := by
  simp only [Linked, flat_append, flat_cons, lift_append, map_append, append_assoc] at *
  rw [← h₁, ← h, ← h₂]
  simp

/-- The page of one node of a level is no other page of this level or of those
above. -/
theorem ne_of_nodup_levels (h : (allPages ((U₁ ++ (P, ps) :: U₂) :: Us)).Nodup) :
    ∀ q, q ∈ pagesOf U₁ ∨ q ∈ pagesOf U₂ ∨ q ∈ allPages Us → q ≠ P := by
  have hperm : (allPages ((U₁ ++ (P, ps) :: U₂) :: Us)).Perm (P :: (pagesOf U₁ ++ (pagesOf U₂ ++ allPages Us))) := by
    simp only [allPages_cons, pagesOf_append, pagesOf_cons, append_assoc, cons_append]
    exact perm_middle
  rintro q hq rfl
  exact (nodup_cons.1 (hperm.nodup_iff.1 h)).1 (by simpa using hq)

theorem mem_allPages_of_others {q : Int}
    (h : q ∈ pagesOf U₁ ∨ q ∈ pagesOf U₂ ∨ q ∈ allPages Us) : q ∈ allPages ((U₁ ++ b :: U₂) :: Us) := by
  simp only [allPages_cons, pagesOf_append, pagesOf_cons, mem_append, mem_cons]
  tauto

theorem ne_of_nodup_pair {A B : List (Block κ)} {l r : Block κ} (h : (pagesOf (A ++ l :: r :: B)).Nodup) {q : Int}
    (hq : q ∈ pagesOf A ++ pagesOf B) : q ∈ pagesOf (A ++ l :: r :: B) ∧ q ≠ l.1 ∧ q ≠ r.1 := by
  have hperm : (pagesOf (A ++ l :: r :: B)).Perm (l.1 :: r.1 :: (pagesOf A ++ pagesOf B)) := by
    rw [pagesOf_append, pagesOf_cons, pagesOf_cons]
    exact perm_middle.trans (perm_middle.cons _)
  have hnd := hperm.nodup_iff.1 h
  simp only [nodup_cons, mem_cons, not_or] at hnd
  exact ⟨hperm.mem_iff.2 (by simp [hq]), fun h => hnd.1.2 (h ▸ hq), fun h => hnd.2.1 (h ▸ hq)⟩

section SplitPages

variable {U₁ U₂ : List (Block κ)} {P Q : Int} {ps l r : List (κ × Rid)} {Us : List (List (Block κ))}

theorem mem_pagesOf_split {q : Int} :
    q ∈ pagesOf (U₁ ++ (P, l) :: (Q, r) :: U₂) ↔ q ∈ pagesOf (U₁ ++ (P, ps) :: U₂) ∨ q = Q := by
  simp only [pagesOf_append, pagesOf_cons, mem_append, mem_cons]
  tauto

theorem nodup_split (h : (allPages ((U₁ ++ (P, ps) :: U₂) :: Us)).Nodup)
    (hQ : Q ∉ allPages ((U₁ ++ (P, ps) :: U₂) :: Us)) :
    (pagesOf (U₁ ++ (P, l) :: (Q, r) :: U₂) ++ allPages Us).Nodup := by
  have hperm : (pagesOf (U₁ ++ (P, l) :: (Q, r) :: U₂) ++ allPages Us).Perm
      (Q :: allPages ((U₁ ++ (P, ps) :: U₂) :: Us)) := by
    simp only [allPages_cons, pagesOf_append, pagesOf_cons, append_assoc, cons_append]
    exact ((List.Perm.swap _ _ _).append_left _).trans perm_middle
  exact hperm.nodup_iff.2 (nodup_cons.2 ⟨hQ, h⟩)

end SplitPages

/-! ## What an operation leaves alone -/

/-- From `s` to `s'`, only the pages `X` change other than in their parent,
only those of `X` and `Y` change at all, and the ends of the list of leaves
stay. Pages not handed out yet do not count. -/
structure Frame (s s' : IxIndexHandle κ order) (X Y : List Int) : Prop where
  core : ∀ q n, q ∉ X → q < s.fd2pageno → s.pages q = some n → ∃ p, s'.pages q = some { n with parent := p }
  same : ∀ q n, q ∉ X → q ∉ Y → q < s.fd2pageno → s.pages q = some n → s'.pages q = some n
  grow : s.fd2pageno ≤ s'.fd2pageno
  first : s'.firstLeaf = s.firstLeaf
  last : s'.lastLeaf = s.lastLeaf

theorem Frame.refl (s : IxIndexHandle κ order) (X Y : List Int) : Frame s s X Y :=
  ⟨fun _ n _ _ h => ⟨n.parent, h⟩, fun _ _ _ _ _ h => h, le_refl _, rfl, rfl⟩

variable {Y' X' : List Int}

/-- What the second step changes need only be allowed where the first step has
pages already. -/
theorem Frame.trans {s'' : IxIndexHandle κ order} (h : Frame s s' X Y)
    (h' : Frame s' s'' X' Y') (hX : ∀ q ∈ X', q < s.fd2pageno → q ∈ X)
    (hY : ∀ q ∈ Y', q < s.fd2pageno → q ∈ X ∨ q ∈ Y) : Frame s s'' X Y where
  core q n hq hlt hn := by
    obtain ⟨p, hp⟩ := h.core q n hq hlt hn
    obtain ⟨p', hp'⟩ := h'.core q _ (fun hm => hq (hX q hm hlt)) (hlt.trans_le h.grow) hp
    exact ⟨p', hp'⟩
  same q n hq hq' hlt hn := h'.same q n (fun hm => hq (hX q hm hlt)) (fun hm => (hY q hm hlt).elim hq hq')
    (hlt.trans_le h.grow) (h.same q n hq hq' hlt hn)
  grow := h.grow.trans h'.grow
  first := h'.first.trans h.first
  last := h'.last.trans h.last

theorem Frame.mono (h : Frame s s' X Y)
    (hX : ∀ q ∈ X, q < s.fd2pageno → q ∈ X') (hY : ∀ q ∈ Y, q < s.fd2pageno → q ∈ X' ∨ q ∈ Y') :
    Frame s s' X' Y' := (Frame.refl s X' Y').trans h hX hY

theorem Frame.putNode (s : IxIndexHandle κ order) (P : Int) (n : IxNode κ) (Y : List Int) :
    Frame s (s.putNode P n) [P] Y where
  core q m hq _ hm := ⟨m.parent, by simp [IxIndexHandle.putNode, (by simpa using hq : q ≠ P), hm]⟩
  same q m hq _ _ hm := by simp [IxIndexHandle.putNode, (by simpa using hq : q ≠ P), hm]
  grow := le_refl _
  first := rfl
  last := rfl

theorem Frame.holds (h : Frame s s' X Y) {leaf : Bool}
    (hb : Holds s leaf b) (hX : b.1 ∉ X) (hlt : b.1 < s.fd2pageno) : Holds s' leaf b := by
  obtain ⟨n, hn, hl, he⟩ := hb
  obtain ⟨p, hp⟩ := h.core _ n hX hlt hn
  exact ⟨_, hp, hl, he⟩

theorem Frame.parentIs (h : Frame s s' X Y) {c p : Int}
    (hc : ParentIs s c p) (hX : c ∉ X) (hY : c ∉ Y) (hlt : c < s.fd2pageno) : ParentIs s' c p := by
  obtain ⟨n, hn, hp⟩ := hc
  exact ⟨n, h.same _ n hX hY hlt hn, hp⟩

/-- The levels above `L` stay when their pages do, together with the parents
of the nodes of `L` and their first keys. -/
theorem Up.congr : ∀ {Us : List (List (Block κ))} {L L' : List (Block κ)},
    Up s L Us → s'.rootPage = s.rootPage → L'.map sep = L.map sep →
    (∀ q ∈ allPages Us, ∀ n, s.pages q = some n → s'.pages q = some n) →
    (∀ q ∈ pagesOf L, ∀ p, ParentIs s q p → ParentIs s' q p) → Up s' L' Us
  | [], L, L', h, hroot, hL, _, hpar => by
    obtain ⟨b, rfl, hr, hp⟩ := h
    obtain ⟨b', rfl, hb'⟩ := map_eq_singleton_iff.1 hL
    have hpage : b'.1 = b.1 := by simpa [sep] using congrArg (fun e => e.2.pageNo) hb'
    exact ⟨b', rfl, by rw [hroot, hr, hpage], hpage ▸ hpar b.1 (by simp) _ hp⟩
  | U :: Us, L, L', ⟨hU, hlink, hch, hne, hup⟩, hroot, hL, hpages, hpar => by
    have hUp : ∀ q ∈ pagesOf U, ∀ n, s.pages q = some n → s'.pages q = some n :=
      fun q hq => hpages q (by simp [hq])
    refine ⟨fun b hb => ?_, Eq.trans hlink hL.symm, fun b hb e he => hpar _ (hlink.mem_pages hb he) _ (hch b hb e he),
      hne, hup.congr hroot rfl (fun q hq => hpages q (by simp [hq])) fun q hq p ⟨n, hn, hp⟩ => ?_⟩
    · obtain ⟨n, hn, hl, he⟩ := hU b hb
      exact ⟨n, hUp _ (mem_pagesOf hb) n hn, hl, he⟩
    · exact ⟨n, hUp q hq n hn, hp⟩

/-! ## Parents -/

theorem Up.root (h : Up s (L₁ ++ b :: L₂) []) : L₁ = [] ∧ L₂ = [] ∧ s.rootPage = b.1 ∧ ParentIs s b.1 noPage := by
  obtain ⟨b', hb, hroot, hpar⟩ := h
  have hlen := congrArg List.length hb
  simp only [length_append, length_cons, length_nil] at hlen
  obtain rfl : L₁ = [] := length_eq_zero_iff.1 (by omega)
  obtain rfl : L₂ = [] := length_eq_zero_iff.1 (by omega)
  simp only [nil_append, List.cons.injEq, and_true] at hb
  subst hb
  exact ⟨rfl, rfl, hroot, hpar⟩

/-- The parent of a node of `L`, and the place of the entry for it there. -/
theorem Up.parent (h : Up s (L₁ ++ b :: L₂) (U :: Us)) (hnd : (pagesOf (L₁ ++ b :: L₂)).Nodup) :
    ∃ U₁ P E₁ k E₂ U₂ n, U = U₁ ++ (P, E₁ ++ (k, ⟨b.1, -1⟩) :: E₂) :: U₂ ∧ b.2.head?.map Prod.fst = some k ∧
      lift (flat U₁ ++ E₁) = L₁.map sep ∧ lift (E₂ ++ flat U₂) = L₂.map sep ∧
      s.pages P = some n ∧ n.isLeaf = false ∧ n.entries = E₁ ++ (k, ⟨b.1, -1⟩) :: E₂ ∧
      n.findChild b.1 = some E₁.length ∧ P ≠ noPage ∧ ParentIs s b.1 P := by
  obtain ⟨hU, hlink, hch, hne, -⟩ := h
  obtain ⟨U₁, P, E₁, k, E₂, U₂, rfl, hk, h₁, h₂⟩ := hlink.cut
  have hmem : (P, E₁ ++ (k, ⟨b.1, -1⟩) :: E₂) ∈ U₁ ++ (P, E₁ ++ (k, (⟨b.1, -1⟩ : Rid)) :: E₂) :: U₂ := by simp
  obtain ⟨n, hn, hleaf, hes⟩ := hU _ hmem
  refine ⟨U₁, P, E₁, k, E₂, U₂, n, rfl, hk, h₁, h₂, hn, hleaf, hes, ?_, hne _ hmem, hch _ hmem (k, ⟨b.1, -1⟩) (by simp)⟩
  refine IxNode.findChild_eq (e := (k, ⟨b.1, -1⟩)) hes fun a ha heq => ?_
  -- an entry for the same page further left would repeat the page in `L`
  have ha' : a.2.pageNo ∈ pagesOf L₁ := by
    rw [← pages_of_lift h₁]
    exact mem_map_of_mem (f := fun e : κ × Rid => e.2.pageNo) (by simp [ha])
  rw [pagesOf_append, pagesOf_cons, nodup_append] at hnd
  exact hnd.2.2 _ ha' b.1 (by simp) heq

/-- A child page of a node is a page of the level below, with that node as its
parent. -/
theorem Up.child (h : Up s L (U :: Us)) (hb : b ∈ U) {e : κ × Rid} (he : e ∈ b.2) :
    e.2.pageNo ∈ pagesOf L ∧ ParentIs s e.2.pageNo b.1 :=
  ⟨h.2.1.mem_pages hb he, h.2.2.1 b hb e he⟩

variable {ps' : List (κ × Rid)} {n' n : IxNode κ}

theorem Up.holds_replace (h : Up s L ((U₁ ++ (P, ps) :: U₂) :: Us))
    (hn' : s'.pages P = some n') (hleaf : n'.isLeaf = false) (hes : n'.entries = ps')
    (hsame : ∀ q, q ∈ pagesOf U₁ ∨ q ∈ pagesOf U₂ → ∀ m, s.pages q = some m → s'.pages q = some m) :
    ∀ b ∈ U₁ ++ (P, ps') :: U₂, Holds s' false b := by
  have keep : ∀ b, b ∈ U₁ ∨ b ∈ U₂ → Holds s' false b := fun b hb => by
    obtain ⟨m, hm, hl, he⟩ := h.1 b (by simp; tauto)
    exact ⟨m, hsame _ (hb.imp mem_pagesOf mem_pagesOf) m hm, hl, he⟩
  simp only [mem_append, mem_cons]
  rintro b (hb | rfl | hb)
  · exact keep b (.inl hb)
  · exact ⟨n', hn', hleaf, hes⟩
  · exact keep b (.inr hb)

/-- One node of the level above `L` gets other entries, with the same first
key. -/
theorem Up.replace (h : Up s L ((U₁ ++ (P, ps) :: U₂) :: Us))
    (hroot : s'.rootPage = s.rootPage) (hn : s.pages P = some n) (hn' : s'.pages P = some n')
    (hpar : n'.parent = n.parent) (hhead : ps'.head?.map Prod.fst = ps.head?.map Prod.fst)
    (hsame : ∀ q, q ∈ pagesOf U₁ ∨ q ∈ pagesOf U₂ ∨ q ∈ allPages Us →
      ∀ m, s.pages q = some m → s'.pages q = some m) :
    Up s' (U₁ ++ (P, ps') :: U₂) Us := by
  refine h.2.2.2.2.congr hroot ?_ (fun q hq => hsame q (.inr (.inr hq))) ?_
  · simp [sep, hhead]
  · rintro q hq p ⟨m, hm, rfl⟩
    simp only [pagesOf_append, pagesOf_cons, mem_append, mem_cons] at hq
    by_cases hqP : q = P
    · subst hqP
      obtain rfl : n = m := by simpa [hn] using hm
      exact ⟨n', hn', hpar⟩
    · exact ⟨m, hsame q (by tauto) m hm, rfl⟩

/-- A segment of a level and the entries for it in their common parent are
replaced. -/
theorem Up.segment {A M M' B V₁ V₂ : List (Block κ)} {Vs : List (List (Block κ))} {R : Int} {F₁ E' F₂ : List (κ × Rid)}
    (hup : Up s (A ++ (M ++ B)) ((V₁ ++ (R, F₁ ++ (E ++ F₂)) :: V₂) :: Vs))
    (h₁ : lift (flat V₁ ++ F₁) = A.map sep) (h : lift E' = M'.map sep) (h₂ : lift (F₂ ++ flat V₂) = B.map sep)
    (hroot : s'.rootPage = s.rootPage) (hn : s.pages R = some n)
    (hn' : s'.pages R = some { n with entries := F₁ ++ (E' ++ F₂) })
    (hhead : (F₁ ++ (E' ++ F₂)).head?.map Prod.fst = (F₁ ++ (E ++ F₂)).head?.map Prod.fst)
    (hsame : ∀ q, q ∈ pagesOf V₁ ∨ q ∈ pagesOf V₂ ∨ q ∈ allPages Vs → ∀ m, s.pages q = some m → s'.pages q = some m)
    (hkids : ∀ q ∈ pagesOf A ++ pagesOf B, ∀ p, ParentIs s q p → ParentIs s' q p)
    (hE' : ∀ e ∈ E', ParentIs s' e.2.pageNo R) :
    Up s' (A ++ (M' ++ B)) ((V₁ ++ (R, F₁ ++ (E' ++ F₂)) :: V₂) :: Vs) := by
  have hnl : n.isLeaf = false := by
    obtain ⟨m, hm, hml, -⟩ := hup.1 (R, F₁ ++ (E ++ F₂)) (by simp)
    obtain rfl : n = m := by simpa [hn] using hm
    exact hml
  have hA : ∀ e ∈ flat V₁ ++ F₁, e.2.pageNo ∈ pagesOf A ++ pagesOf B := fun e he => by
    rw [← pages_of_lift h₁]
    exact mem_append_left _ (mem_map_of_mem (f := fun e : κ × Rid => e.2.pageNo) he)
  have hB : ∀ e ∈ F₂ ++ flat V₂, e.2.pageNo ∈ pagesOf A ++ pagesOf B := fun e he => by
    rw [← pages_of_lift h₂]
    exact mem_append_right _ (mem_map_of_mem (f := fun e : κ × Rid => e.2.pageNo) he)
  refine ⟨hup.holds_replace hn' hnl rfl fun q hq => hsame q (by tauto), Linked.join h₁ h h₂, ?_,
    Lists.forall_mem_replace hup.2.2.2.1 (hup.2.2.2.1 (R, F₁ ++ (E ++ F₂)) (by simp)),
    hup.replace hroot hn hn' rfl hhead hsame⟩
  simp only [mem_append, mem_cons]
  rintro b (hb | rfl | hb) e he
  · exact hkids _ (hA e (mem_append_left _ (mem_flatMap.2 ⟨b, hb, he⟩))) _ (hup.child (by simp [hb]) he).2
  · have hRchild : e ∈ F₁ ++ (E ++ F₂) → ParentIs s e.2.pageNo R := fun h =>
      (hup.child (b := (R, F₁ ++ (E ++ F₂))) (by simp) h).2
    simp only [mem_append] at he
    rcases he with he | he | he
    · exact hkids _ (hA e (by simp [he])) _ (hRchild (by simp [he]))
    · exact hE' e he
    · exact hkids _ (hB e (by simp [he])) _ (hRchild (by simp [he]))
  · exact hkids _ (hB e (mem_append_right _ (mem_flatMap.2 ⟨b, hb, he⟩))) _ (hup.child (by simp [hb]) he).2

theorem Up.push (hup : Up s' U Us) (hf : Frame s s' X Y) (hU : ∀ b ∈ U, Holds s false b) (hlink : Linked L U)
    (hch : ∀ b ∈ U, ∀ e ∈ b.2, ParentIs s e.2.pageNo b.1) (hne : ∀ b ∈ U, b.1 ≠ noPage)
    (hUX : ∀ q ∈ pagesOf U, q ∉ X ∧ q < s.fd2pageno)
    (hLX : ∀ q ∈ pagesOf L, q ∉ X ∧ q ∉ Y ∧ q < s.fd2pageno) : Up s' L (U :: Us) := by
  refine ⟨fun b hb => ?_, hlink, fun b hb e he => ?_, hne, hup⟩
  · obtain ⟨hX, hlt⟩ := hUX _ (mem_pagesOf hb)
    exact hf.holds (hU b hb) hX hlt
  · obtain ⟨hX, hY, hlt⟩ := hLX _ (hlink.mem_pages hb he)
    exact hf.parentIs (hch b hb e he) hX hY hlt

theorem SizeOK.of_min (hord : 2 < order) (h : minSize order ≤ b.2.length) (h' : b.2.length ≤ order)
    (Us : List (List (Block κ))) : SizeOK order Us b := by
  refine ⟨?_, h'⟩
  split
  · refine le_trans ?_ h
    simp only [minSize, maxSize]
    omega
  · exact h

/-- The neighbours of a node are not the root, so their size is that of any
inner node. -/
theorem Up.sizeOK_neighbour {c : Block κ} (hord : 2 < order) (h : Up s (U₁ ++ b :: U₂) Us)
    (hc : c ∈ U₁ ∨ c ∈ U₂) (hs : SizeOK order Us c) (Us' : List (List (Block κ))) : SizeOK order Us' c := by
  cases Us with
  | nil =>
    obtain ⟨rfl, rfl, -⟩ := h.root
    simp at hc
  | cons V Vs => exact .of_min hord hs.1 hs.2 Us'

end Rmdb.Index
