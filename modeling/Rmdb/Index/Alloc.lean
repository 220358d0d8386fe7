/-
Page numbers of new nodes.

While an index is open, `create_node` hands out page numbers in order. The number
to start from is read from the header when the index is opened, and
`release_node_handle` counts it down, whichever page was released: a page in use
may be handed out again, unless all pages in use are below the number read.
-/
import Rmdb.Index.Invariant
import Rmdb.Lib.Post

namespace Rmdb.Index

open List IxIndexHandle

variable {κ : Type} {order : Nat}

def fileHdrPage : Int := 0

inductive Reach (pages : Int → Option (IxNode κ)) (root : Int) : Int → Prop
  | root : Reach pages root root
  | child {p : Int} {n : IxNode κ} {e : κ × Rid} : Reach pages root p → pages p = some n → n.isLeaf = false →
      e ∈ n.entries → Reach pages root e.2.pageNo

def Created.Fresh (c : Created κ) : Prop :=
  c.page ≠ fileHdrPage ∧ c.page ≠ leafHeaderPage ∧ ∀ p, Reach c.pages c.rootPage p → c.page ≠ p

/-! ## Pages closed under pointers -/

/-- The pages `B` are in use: they have the root, and what they point to. Only
the page `x` may have a parent that is not in use, when it was just created. -/
structure Closed (B : Set Int) (fd x : Int) (s : IxIndexHandle κ order) : Prop where
  fd_eq : s.fd2pageno = fd
  bound : ∀ p ∈ B, initRootPage ≤ p ∧ p < fd
  root : s.rootPage ∈ B
  entries : ∀ p ∈ B, ∀ n, s.pages p = some n → n.isLeaf = false → ∀ e ∈ n.entries, e.2.pageNo ∈ B
  parent : ∀ p ∈ B, ∀ n, s.pages p = some n → p ≠ x → n.parent = noPage ∨ n.parent ∈ B
  created : ∀ c ∈ s.created, c.Fresh

section Closed

variable {B : Set Int} {fd x : Int} {s : IxIndexHandle κ order}

variable {p node new : Int}

theorem Closed.reach (h : Closed B fd x s) (hp : Reach s.pages s.rootPage p) : p ∈ B := by
  induction hp with
  | root => exact h.root
  | child _ hn hnl he ih => exact h.entries _ ih _ hn hnl _ he

variable {n : IxNode κ}

theorem Closed.putNode {y : Int} (h : Closed B fd x s)
    (hentries : p ∈ B → n.isLeaf = false → ∀ e ∈ n.entries, e.2.pageNo ∈ B)
    (hparent : p ∈ B → p ≠ y → n.parent = noPage ∨ n.parent ∈ B) (hx : ∀ q ∈ B, q ≠ p → q ≠ y → q ≠ x) :
    Closed B fd y (s.putNode p n) := by
  refine ⟨h.fd_eq, h.bound, h.root, fun q hq m hm => ?_, fun q hq m hm hqx => ?_, h.created⟩
  · by_cases hqp : q = p
    · subst hqp
      obtain rfl : n = m := by simpa using hm
      exact hentries hq
    · exact h.entries q hq m (by simpa [hqp] using hm)
  · by_cases hqp : q = p
    · subst hqp
      obtain rfl : n = m := by simpa using hm
      exact hparent hq hqx
    · exact h.parent q hq m (by simpa [hqp] using hm) (hx q hq hqp hqx)

/-- `f` changes keys and links only, or drops entries. -/
def KeepsPointers (f : IxNode κ → Option (IxNode κ)) : Prop :=
  ∀ n n', f n = some n' → n'.isLeaf = n.isLeaf ∧ n'.parent = n.parent ∧
    ∀ e ∈ n'.entries, ∃ e' ∈ n.entries, e'.2.pageNo = e.2.pageNo

theorem onNode_post (s : IxIndexHandle κ order) (p : Int) (f : IxNode κ → Option (IxNode κ)) :
    Post (s.onNode p f) fun s' => ∃ n n', s.pages p = some n ∧ f n = some n' ∧ s' = s.putNode p n' := by
  refine .bind .eq fun n hn => .bind .eq fun n' hn' => .some ⟨n, n', hn, hn', rfl⟩

theorem Closed.onNode (h : Closed B fd x s) {f : IxNode κ → Option (IxNode κ)} (hf : KeepsPointers f) :
    Post (s.onNode p f) (Closed B fd x) := by
  refine (onNode_post s p f).mono fun s' hs' => ?_
  obtain ⟨n, n', hn, hn', rfl⟩ := hs'
  obtain ⟨hleaf, hpar, hes⟩ := hf n n' hn'
  refine h.putNode (fun hp hl e he => ?_) (fun hp hpx => ?_) (fun _ _ _ hq => hq)
  · obtain ⟨e', he', hpage⟩ := hes e he
    rw [← hpage]
    exact h.entries p hp n hn (hleaf ▸ hl) e' he'
  · rw [hpar]
    exact h.parent p hp n hn hpx

theorem KeepsPointers.links {f : IxNode κ → IxNode κ}
    (h : ∀ n, (f n).isLeaf = n.isLeaf ∧ (f n).parent = n.parent ∧ (f n).entries = n.entries) :
    KeepsPointers fun n => some (f n) := by
  intro n n' hn'
  obtain rfl := Option.some.inj hn'
  exact ⟨(h n).1, (h n).2.1, fun e he => ⟨e, (h n).2.2 ▸ he, rfl⟩⟩

theorem KeepsPointers.setKey (i : Nat) (k : κ) : KeepsPointers fun n => n.setKey i k := by
  intro n n' hn'
  simp only [IxNode.setKey] at hn'
  split_ifs at hn'
  obtain rfl := Option.some.inj hn'
  refine ⟨rfl, rfl, fun e he => ?_⟩
  obtain ⟨j, hj, rfl⟩ := mem_iff_getElem.1 he
  have hj' : j < n.entries.length := by simpa using hj
  refine ⟨n.entries[j], getElem_mem _, ?_⟩
  simp only [getElem_modify]
  split <;> rfl

/-! ## The operations -/

theorem Closed.maintainChild (h : Closed B fd x s) (hnode : node ∈ B) (i : Nat) :
    Post (s.maintainChild node i) (Closed B fd x) := by
  refine .bind .eq fun n _ => .ite (fun _ => .some h) fun _ => .bind .eq fun child _ => ?_
  refine (onNode_post s child _).mono fun s' hs' => ?_
  obtain ⟨c, c', hc, hc', rfl⟩ := hs'
  obtain rfl := Option.some.inj hc'
  exact h.putNode (fun hp => h.entries child hp c hc) (fun _ _ => .inr hnode) (fun _ _ _ hq => hq)

theorem Closed.maintainChildren (h : Closed B fd x s) (hnode : node ∈ B) (from_ to_ : Nat) :
    Post (s.maintainChildren node from_ to_) (Closed B fd x) :=
  .foldlM (fun _ i hs => hs.maintainChild hnode i) _ h

theorem Closed.maintainParent [DecidableEq κ] (fuel : Nat) (h : Closed B fd x s) (curr : Int) :
    Post (maintainParent fuel s curr) (Closed B fd x) := by
  induction fuel generalizing s curr with
  | zero => exact .none
  | succ fuel ih =>
    refine .bind .eq fun c _ => .ite (fun _ => .some h) fun _ => ?_
    refine .bind .eq fun parent _ => .bind .eq fun rank _ => .bind .eq fun parentKey _ => .bind .eq fun key _ => ?_
    refine .ite (fun _ => .some h) fun _ => .bind (h.onNode (.setKey rank key)) fun s' hs' => ih hs' _

theorem Closed.linkLeaf (h : Closed B fd x s) (node new : Int) : Post (s.linkLeaf node new) (Closed B fd x) := by
  refine .bind .eq fun n _ => ?_
  refine .bind (h.onNode (.links fun _ => ⟨rfl, rfl, rfl⟩)) fun s h => ?_
  refine .bind (h.onNode (.links fun _ => ⟨rfl, rfl, rfl⟩)) fun s h => ?_
  exact h.onNode (.links fun _ => ⟨rfl, rfl, rfl⟩)

theorem Closed.createNode (h : Closed B fd noPage s) :
    s.createNode.1 = fd ∧ Closed (insert fd B) (fd + 1) fd s.createNode.2 := by
  have hroot := h.bound _ h.root
  have hfd : ∀ p ∈ B, p ≠ fd := fun p hp => (h.bound p hp).2.ne
  have hno : ∀ p ∈ B, p ≠ noPage := fun p hp => by
    have := (h.bound p hp).1
    simp only [initRootPage, noPage] at this ⊢
    omega
  have hold : ∀ p ∈ insert fd B, ∀ n, s.createNode.2.pages p = some n →
      n.entries = [] ∧ p = fd ∨ p ∈ B ∧ s.pages p = some n := by
    intro p hp n hn
    by_cases hpfd : p = fd
    · refine .inl ⟨?_, hpfd⟩
      rw [hpfd, ← h.fd_eq, createNode_pages, if_pos rfl, Option.some.injEq] at hn
      rw [← hn]
    · rw [createNode_pages, h.fd_eq, if_neg hpfd] at hn
      exact .inr ⟨hp.resolve_left hpfd, hn⟩
  refine ⟨h.fd_eq, ?_, ?_, .inr h.root, fun p hp n hn hnl e he => ?_, fun p hp n hn hpx => ?_, ?_⟩
  · simp only [IxIndexHandle.createNode, h.fd_eq]
  · intro p hp
    rcases hp with rfl | hp
    · exact ⟨hroot.1.trans hroot.2.le, lt_add_one _⟩
    · exact ⟨(h.bound p hp).1, (h.bound p hp).2.trans (lt_add_one _)⟩
  · rcases hold p hp n hn with ⟨hnil, -⟩ | ⟨hp, hn⟩
    · simp [hnil] at he
    · exact .inr (h.entries p hp n hn hnl e he)
  · rcases hold p hp n hn with ⟨-, hpfd⟩ | ⟨hp, hn⟩
    · exact absurd hpfd hpx
    · exact (h.parent p hp n hn (hno p hp)).imp_right .inr
  · intro c hc
    rcases mem_cons.1 hc with rfl | hc
    · simp only [Created.Fresh, h.fd_eq]
      simp only [initRootPage] at hroot
      refine ⟨by simp only [fileHdrPage]; omega, by simp only [leafHeaderPage]; omega, fun p hp => ?_⟩
      exact (hfd p (h.reach hp)).symm
    · exact h.created c hc

theorem Closed.split (h : Closed B fd noPage s) (hnode : node ∈ B) :
    Post (s.split node) fun r => r.1 = fd ∧ Closed (insert fd B) (fd + 1) noPage r.2 := by
  unfold IxIndexHandle.split
  obtain ⟨hnew, h₁⟩ := h.createNode
  have hnodefd : node ≠ fd := (h.bound node hnode).2.ne
  rcases hc : s.createNode with ⟨new, s₁⟩
  rw [hc] at hnew h₁
  obtain rfl : new = fd := hnew
  refine .bind .eq fun n hn => ?_
  have hentries := h₁.entries node (.inr hnode) n hn
  have hparent := h₁.parent node (.inr hnode) n hn hnodefd
  refine .iteBind (fun _ => h₁.linkLeaf node new) (fun _ => .some h₁) fun s₂ h₂ => ?_
  refine .bind (onNode_post s₂ new _) fun s₃ hs₃ => ?_
  obtain ⟨m, m', -, hm', rfl⟩ := hs₃
  obtain rfl := Option.some.inj hm'
  have h₃ := h₂.putNode (y := noPage) (p := new)
    (n := { m with entries := [], isLeaf := n.isLeaf, parent := n.parent }) (by simp) (fun _ _ => hparent)
    fun q _ hq _ => hq
  refine .bind (onNode_post _ new _) fun s₄ hs₄ => ?_
  obtain ⟨m₁, m₁', hm₁, hm₁', rfl⟩ := hs₄
  obtain rfl : { m with entries := [], isLeaf := n.isLeaf, parent := n.parent } = m₁ := by simpa using hm₁
  have h₄ := h₃.putNode (y := noPage) (p := new) (n := m₁') ?_ ?_ fun _ _ _ hq => hq
  · refine .bind (h₄.onNode ?_) fun s₅ h₅ => .bind .eq fun m₂ _ => ?_
    · intro c c' hc'
      obtain rfl := Option.some.inj hc'
      exact ⟨rfl, rfl, fun e he => ⟨e, mem_of_mem_take he, rfl⟩⟩
    · refine .iteBind (fun _ => .some h₅) (fun _ => h₅.maintainChildren (.inl rfl) _ _) fun s₆ h₆ => ?_
      exact .some ⟨rfl, h₆⟩
  all_goals
    simp only [IxNode.insertPairs] at hm₁'
    split_ifs at hm₁'
    obtain rfl := Option.some.inj hm₁'
  · intro _ hnl e he
    exact hentries hnl e (mem_of_mem_drop (by simpa using he))
  · exact fun _ _ => hparent

theorem Closed.parent_mem (h : Closed B fd noPage s) (hp : p ∈ B) (hn : s.pages p = some n)
    (hroot : ¬ n.isRootPage = true) : n.parent ∈ B := by
  have hno : p ≠ noPage := by
    have := (h.bound p hp).1
    simp only [initRootPage, noPage] at this ⊢
    omega
  refine (h.parent p hp n hn hno).resolve_left fun hpar => hroot ?_
  simp [IxNode.isRootPage, hpar]

theorem Closed.insertPair (h : Closed B fd x s) {pos : Nat} {key : κ} (hnew : new ∈ B) :
    Post (s.onNode p fun n => n.insertPair pos (key, ⟨new, -1⟩)) (Closed B fd x) := by
  refine (onNode_post s p _).mono fun s' hs' => ?_
  obtain ⟨n, n', hn, hn', rfl⟩ := hs'
  simp only [IxNode.insertPair, IxNode.insertPairs] at hn'
  split_ifs at hn'
  obtain rfl := Option.some.inj hn'
  refine h.putNode (fun hp hnl e he => ?_) (fun hp => h.parent p hp n hn) (fun _ _ _ hq => hq)
  simp only [mem_append, mem_singleton] at he
  rcases he with (he | rfl) | he
  · exact h.entries p hp n hn hnl e (mem_of_mem_take he)
  · exact hnew
  · exact h.entries p hp n hn hnl e (mem_of_mem_drop he)

theorem Closed.setParent (h : Closed B fd x s) {parent : Int} (hpar : parent ∈ B) :
    Post (s.modifyNode p fun n => { n with parent := parent }) (Closed B fd x) := by
  refine (onNode_post s p _).mono fun s' hs' => ?_
  obtain ⟨n, n', hn, hn', rfl⟩ := hs'
  obtain rfl := Option.some.inj hn'
  exact h.putNode (fun hp => h.entries p hp n hn) (fun _ _ => .inr hpar) (fun _ _ _ hq => hq)

theorem Closed.insertIntoParent (fuel : Nat) (h : Closed B fd noPage s) {old : Int} (hold : old ∈ B) (hnew : new ∈ B)
    (key : κ) : Post (insertIntoParent fuel s old key new) fun s' => ∃ B fd, Closed B fd noPage s' := by
  induction fuel generalizing s B fd old new key with
  | zero => exact .none
  | succ fuel ih =>
    refine .bind .eq fun o ho => .ite (fun _ => ?_) fun hroot => ?_
    · obtain ⟨hfd, h₁⟩ := h.createNode
      rcases hc : s.createNode with ⟨root, s₁⟩
      rw [hc] at hfd h₁
      obtain rfl : root = fd := hfd
      refine .bind (onNode_post s₁ root _) fun s₂ hs₂ => ?_
      obtain ⟨m, m', -, hm', rfl⟩ := hs₂
      obtain rfl := Option.some.inj hm'
      have h₂ := h₁.putNode (y := noPage) (p := root)
        (n := { m with parent := noPage, isLeaf := false, prevLeaf := noPage, nextLeaf := noPage, entries := [] })
        (by simp) (by simp) fun q _ hq _ => hq
      refine .bind .eq fun oldKey _ => .bind (h₂.insertPair (.inr hold)) fun s₃ h₃ => ?_
      refine .bind (h₃.insertPair (.inr hnew)) fun s₄ h₄ => .bind (h₄.setParent (.inl rfl)) fun s₅ h₅ => ?_
      refine .bind (h₅.setParent (.inl rfl)) fun s₆ h₆ => .some ⟨insert root B, root + 1, ?_⟩
      exact ⟨h₆.fd_eq, h₆.bound, .inl rfl, h₆.entries, h₆.parent, h₆.created⟩
    · have hpar := h.parent_mem hold ho hroot
      refine .bind .eq fun parent _ => .bind .eq fun pos _ => .bind (h.insertPair hnew) fun s₁ h₁ => ?_
      refine .bind .eq fun parent _ => .ite (fun _ => ?_) fun _ => .some ⟨B, fd, h₁⟩
      refine .bind (h₁.split hpar) fun r hr => ?_
      obtain ⟨sibling, s₂⟩ := r
      obtain ⟨rfl, h₂⟩ := hr
      exact .bind .eq fun sib _ => .bind .eq fun sibKey _ => ih h₂ (.inr hpar) (.inl rfl) sibKey

variable [IxOrder κ]

theorem Closed.findLeafFrom (h : Closed B fd x s) (key : κ) (fuel : Nat) (hnode : node ∈ B) :
    Post (s.findLeafFrom key fuel node) fun p => p ∈ B ∧ ∃ n, s.pages p = some n ∧ n.isLeaf = true := by
  induction fuel generalizing node with
  | zero => exact .none
  | succ fuel ih =>
    refine .bind .eq fun n hn => .ite (fun hl => .some ⟨hnode, n, hn, hl⟩) fun hl => .bind .eq fun child hchild => ?_
    refine ih ?_
    obtain ⟨rid, hrid, rfl⟩ := Option.map_eq_some_iff.1 hchild
    obtain ⟨e, he, rfl⟩ := Option.map_eq_some_iff.1 hrid
    exact h.entries node hnode n hn (by simpa using hl) e (mem_of_getElem? he)

theorem insert_keeps (n : IxNode κ) (key : κ) (value : Rid) :
    Post (n.insert key value) fun r => r.1.isLeaf = n.isLeaf ∧ r.1.parent = n.parent := by
  refine .ite (fun _ => .some ⟨rfl, rfl⟩) fun _ => .bind (P := fun m => m.isLeaf = n.isLeaf ∧ m.parent = n.parent) ?_
    fun m hm => .some hm
  exact .ite (fun _ => .none) fun _ => .some ⟨rfl, rfl⟩

/-- Every page that `insert_entry` takes for a new node is one not in use. -/
theorem Closed.insertEntry (h : Closed B fd noPage s) (key : κ) (value : Rid) :
    Post (s.insertEntry key value) fun r => ∀ c ∈ r.2.created, c.Fresh := by
  refine .bind (h.findLeafFrom key s.fuel h.root) fun leaf hleaf => ?_
  obtain ⟨hleafB, n, hn, hnl⟩ := hleaf
  refine .bind .eq fun n' hn' => ?_
  obtain rfl : n = n' := by simpa [fetchNode, hn] using hn'
  refine .bind .eq fun r hr => ?_
  obtain ⟨n', newSize, pos⟩ := r
  refine .ite (fun _ => .some h.created) fun _ => ?_
  have hkeep : n'.isLeaf = n.isLeaf ∧ n'.parent = n.parent := insert_keeps n key value _ hr
  have h₁ := h.putNode (p := leaf) (n := n') (y := noPage) (by simp [hkeep, hnl])
    (fun hp => hkeep.2 ▸ h.parent leaf hp n hn) fun _ _ _ hq => hq
  refine .iteBind (fun _ => h₁.maintainParent _ leaf) (fun _ => .some h₁) fun s₂ h₂ => .bind .eq fun n₂ _ => ?_
  refine .ite (fun _ => ?_) fun _ => .some h₂.created
  refine .bind (h₂.split hleafB) fun r hr => ?_
  obtain ⟨sibling, s₃⟩ := r
  obtain ⟨rfl, h₃⟩ := hr
  have h₄ : Closed (insert sibling B) (sibling + 1) noPage
      (if leaf = s₃.lastLeaf then { s₃ with lastLeaf := sibling } else s₃) := by
    split
    · exact ⟨h₃.fd_eq, h₃.bound, h₃.root, h₃.entries, h₃.parent, h₃.created⟩
    · exact h₃
  refine .bind .eq fun sib _ => .bind .eq fun sibKey _ => ?_
  refine .bind (h₄.insertIntoParent _ (.inr hleafB) (.inl rfl) sibKey) fun s₅ hs₅ => ?_
  obtain ⟨B', fd', h₅⟩ := hs₅
  exact .bind .eq fun sib _ => .bind .eq fun found _ => .some h₅.created

end Closed

/-! ## Deleting creates nothing -/

section Deleting

variable {cs : List (Created κ)} {s : IxIndexHandle κ order}

def Hist (cs : List (Created κ)) (s : IxIndexHandle κ order) : Prop := s.created = cs

theorem Hist.onNode (h : Hist cs s) (p : Int) (f : IxNode κ → Option (IxNode κ)) : Post (s.onNode p f) (Hist cs) := by
  refine (onNode_post s p f).mono fun s' hs' => ?_
  obtain ⟨n, n', -, -, rfl⟩ := hs'
  exact h

theorem Hist.maintainChild (h : Hist cs s) (node : Int) (i : Nat) : Post (s.maintainChild node i) (Hist cs) :=
  .bind .eq fun _ _ => .ite (fun _ => .some h) fun _ => .bind .eq fun _ _ => h.onNode _ _

theorem Hist.maintainParent [DecidableEq κ] (fuel : Nat) (h : Hist cs s) (curr : Int) :
    Post (maintainParent fuel s curr) (Hist cs) := by
  induction fuel generalizing s curr with
  | zero => exact .none
  | succ fuel ih =>
    refine .bind .eq fun c _ => .ite (fun _ => .some h) fun _ => ?_
    refine .bind .eq fun parent _ => .bind .eq fun rank _ => .bind .eq fun parentKey _ => .bind .eq fun key _ => ?_
    exact .ite (fun _ => .some h) fun _ => .bind (h.onNode _ _) fun s' hs' => ih hs' _

theorem Hist.eraseLeaf (h : Hist cs s) (leaf : Int) : Post (s.eraseLeaf leaf) (Hist cs) :=
  .bind .eq fun _ _ => .ite (fun _ => .none) fun _ => .bind (h.onNode _ _) fun _ h => h.onNode _ _

theorem Hist.adjustRoot (h : Hist cs s) (root : Int) : Post (s.adjustRoot root) fun r => Hist cs r.2 := by
  refine .bind .eq fun n _ => .ite (fun _ => .some h) fun _ => .ite (fun _ => ?_) fun _ => .some h
  refine .bind .eq fun r _ => ?_
  have h₁ : Hist cs ({ s.putNode root r.2 with rootPage := r.1 } : IxIndexHandle κ order) := h
  exact .bind (h₁.onNode _ _) fun s' hs' => .some hs'

theorem Hist.redistribute (h : Hist cs s) (neighbor node parent : Int) (index : Nat) :
    Post (s.redistribute neighbor node parent index) (Hist cs) := by
  refine .bind .eq fun b _ => .ite (fun _ => ?_) fun _ => ?_
  · refine .bind .eq fun e _ => .bind (h.onNode _ _) fun s h => .bind (h.onNode _ _) fun s h => ?_
    refine .bind .eq fun b _ => .bind .eq fun key _ => .bind (h.onNode _ _) fun s h => ?_
    exact .bind .eq fun n _ => h.maintainChild _ _
  · refine .bind .eq fun e _ => .bind (h.onNode _ _) fun s h => .bind (h.onNode _ _) fun s h => ?_
    refine .bind .eq fun b _ => .bind .eq fun key _ => .bind (h.onNode _ _) fun s h => ?_
    exact h.maintainChild _ _

theorem Hist.coalesce (h : Hist cs s) {again : IxIndexHandle κ order → Int → Option (Bool × IxIndexHandle κ order)}
    (hagain : ∀ s p, Hist cs s → Post (again s p) fun r => Hist cs r.2) (neighbor node parent : Int) (index : Nat) :
    Post (s.coalesce again neighbor node parent index) fun r => Hist cs r.2 := by
  refine .bind .eq fun l _ => .bind .eq fun r _ => .bind (h.onNode _ _) fun s h => ?_
  have rest : ∀ s : IxIndexHandle κ order, Hist cs s → Post (s.releaseNodeHandle.onNode parent (fun n =>
      n.erasePair (if index = 0 then index + 1 else index)) >>= fun s => again s parent) fun r => Hist cs r.2 := by
    intro s hs
    have hs' : Hist cs s.releaseNodeHandle := hs
    exact .bind (hs'.onNode _ _) fun s hs => hagain s _ hs
  refine .ite (fun _ => .bind (.foldlM (fun _ _ hs => hs.maintainChild _ _) _ h) rest) fun _ => ?_
  refine .bind (h.eraseLeaf _) fun s h => .bind (.some (Q := Hist cs) ?_) rest
  split_ifs <;> exact h

theorem Hist.coalesceOrRedistribute (fuel : Nat) (h : Hist cs s) (node : Int) :
    Post (coalesceOrRedistribute fuel s node) fun r => Hist cs r.2 := by
  induction fuel generalizing s node with
  | zero => exact .none
  | succ fuel ih =>
    refine .bind .eq fun n _ => .ite (fun _ => h.adjustRoot _) fun _ => .ite (fun _ => .some h) fun _ => ?_
    refine .bind .eq fun parent _ => .bind .eq fun index _ => .bind .eq fun neighbor _ => .bind .eq fun b _ => ?_
    refine .ite (fun _ => .bind (h.redistribute _ _ _ _) fun s h => .some h) fun _ => ?_
    exact .bind (h.coalesce (fun s p hs => ih hs p) _ _ _ _) fun r hr => .some hr

theorem Hist.deleteEntry [IxOrder κ] (h : Hist cs s) (key : κ) : Post (s.deleteEntry key) fun r => Hist cs r.2 := by
  refine .bind .eq fun leaf _ => .bind .eq fun n _ => .bind .eq fun r _ => .ite (fun _ => .some h) fun _ => ?_
  have h₁ : Hist cs (s.putNode leaf r.1) := h
  refine .iteBind (fun _ => h₁.maintainParent _ _) (fun _ => .some h₁) fun s h => ?_
  exact .bind (h.coalesceOrRedistribute _ _) fun r hr => .some hr

end Deleting

/-! ## Closing and opening -/

section Reopen

variable [IxOrder κ] {s : IxIndexHandle κ order} {L : List (Block κ)} {Us : List (List (Block κ))}

theorem Tree.mem_levels (t : Tree s L Us) {q : Int} : q ∈ pagesOf L ++ allPages Us ↔ ∃ d, AtDepth s d q := by
  constructor
  · intro hq
    obtain ⟨V, hV, hqV⟩ := mem_flatMap.1 (show q ∈ allPages (L :: Us) from hq)
    obtain ⟨A, B, hAB⟩ := append_of_mem hV
    exact ⟨_, (t.up.drop hAB).reached hqV⟩
  · intro hq
    obtain ⟨d, hd⟩ := hq
    obtain ⟨A, V, B, b, hV, -, hb, rfl, -⟩ := t.atDepth hd
    have hmem : b.1 ∈ allPages (L :: Us) := by
      rw [hV]
      exact mem_flatMap.2 ⟨V, by simp, mem_pagesOf hb⟩
    exact hmem

omit [IxOrder κ] in
theorem AtDepth.reach {d : Nat} {p : Int} (h : AtDepth s d p) : Reach s.pages s.rootPage p := by
  induction h with
  | root => exact .root
  | child _ hc ih =>
    obtain ⟨n, hn, hnl, e, he, rfl⟩ := hc
    exact .child ih hn hnl he

theorem Tree.closed (t : Tree s L Us) (hcreated : ∀ c ∈ s.created, c.Fresh) :
    Closed {q | q ∈ pagesOf L ++ allPages Us} s.fd2pageno noPage s := by
  refine ⟨rfl, t.range, t.mem_levels.2 ⟨0, .root⟩, fun p hp n hn hnl e he => ?_, fun p hp n hn _ => ?_, hcreated⟩
  · obtain ⟨d, hd⟩ := t.mem_levels.1 hp
    exact t.mem_levels.2 ⟨d + 1, .child hd ⟨n, hn, hnl, e, he, rfl⟩⟩
  · obtain ⟨d, hd⟩ := t.mem_levels.1 hp
    cases hd with
    | root =>
      obtain ⟨n', hn', hpar⟩ := t.repInvariant.rootParent
      obtain rfl : n = n' := by simpa [hn] using hn'
      exact .inl hpar
    | child hd hc =>
      obtain ⟨n', hn', hpar⟩ := t.repInvariant.parent _ _ _ hd hc
      obtain rfl : n = n' := by simpa [hn] using hn'
      exact .inr (hpar ▸ t.mem_levels.2 ⟨_, hd⟩)

theorem Tree.reopen (t : Tree s L Us) (h : ∀ p, Reach s.pages s.rootPage p → p < s.numPages) :
    Tree (openIndex (closeIndex s)) L Us := by
  refine ⟨⟨t.holds, ?_, t.sizes, t.sorted, ?_, t.first, t.last, t.nodup, fun q hq => ?_⟩, t.leafMin, t.leafMax⟩
  · exact t.up.congr rfl rfl (fun _ _ _ hn => hn) fun _ _ _ hp => hp
  · exact t.chained.congr fun _ _ => ⟨rfl, rfl⟩
  · obtain ⟨d, hd⟩ := t.mem_levels.1 hq
    exact ⟨(t.range q hq).1, h q hd.reach⟩

end Reopen

inductive IndexState (κ : Type) (order : Nat) where
  | opened (s : IxIndexHandle κ order)
  | closed (f : IxFile κ order)

inductive FileCall (κ : Type) where
  | insertEntry (key : κ) (rid : Rid)
  | deleteEntry (key : κ)
  | closeIndex
  | openIndex

/-- Only an open index has a handle to call, and only a closed one is opened. -/
def fileCall [DecidableEq κ] [IxCmp κ] : IndexState κ order → FileCall κ → Option (Unit × IndexState κ order)
  | .opened s, .insertEntry key rid => (s.insertEntry key rid).map fun r => ((), .opened r.2)
  | .opened s, .deleteEntry key => (s.deleteEntry key).map fun r => ((), .opened r.2)
  | .opened s, .closeIndex => some ((), .closed (closeIndex s))
  | .closed f, .openIndex => some ((), .opened (openIndex f))
  | .opened _, .openIndex => none
  | .closed _, _ => none

def Fits : IndexState κ order → FileCall κ → Prop
  | .opened _, c => c ≠ .openIndex
  | .closed _, c => c = .openIndex

def OpensAbove : IndexState κ order → FileCall κ → Prop
  | .closed f, .openIndex => ∀ p, Reach f.pages f.rootPage p → p < f.numPages
  | _, _ => True

section Files

variable [IxOrder κ]

/-- What holds of an index file between two calls that meet the condition. -/
def FileOK : IndexState κ order → Prop
  | .opened s => (∃ L Us, Tree s L Us) ∧ ∀ c ∈ s.created, c.Fresh
  | .closed f => ∃ s L Us, Tree s L Us ∧ f = closeIndex s

theorem FileOK.fileCall (hord : 2 < order) {st : IndexState κ order} {c : FileCall κ} (h : FileOK st)
    (hfits : Fits st c) (habove : OpensAbove st c) : ∃ st', Index.fileCall st c = some ((), st') ∧ FileOK st' := by
  cases st with
  | closed f =>
    obtain rfl : c = .openIndex := hfits
    obtain ⟨s, L, Us, t, rfl⟩ := h
    exact ⟨_, rfl, ⟨L, Us, t.reopen habove⟩, by simp [openIndex]⟩
  | opened s =>
    obtain ⟨⟨L, Us, t⟩, hcreated⟩ := h
    cases c with
    | insertEntry key rid =>
      have hfresh := (t.closed hcreated).insertEntry key rid
      by_cases hkey : ∃ r, (key, r) ∈ flat L
      · obtain ⟨r, hr⟩ := hkey
        have hrun := t.insertEntry_old hord rid hr
        exact ⟨.opened s, by simp [Index.fileCall, hrun], ⟨L, Us, t⟩, hcreated⟩
      · obtain ⟨page, s', L', Us', A, B, es, hrun, t', -⟩ := t.insertEntry_new hord rid (not_exists.1 hkey)
        exact ⟨.opened s', by simp [Index.fileCall, hrun], ⟨L', Us', t'⟩, hfresh _ hrun⟩
    | deleteEntry key =>
      by_cases hkey : ∃ r, (key, r) ∈ flat L
      · obtain ⟨r, hr⟩ := hkey
        obtain ⟨s', L', Us', A, B, hrun, t', -⟩ := t.deleteEntry_old hord hr
        have hhist : s'.created = s.created := Hist.deleteEntry rfl key _ hrun
        exact ⟨.opened s', by simp [Index.fileCall, hrun], ⟨L', Us', t'⟩, hhist ▸ hcreated⟩
      · have hrun := t.deleteEntry_new hord (not_exists.1 hkey)
        exact ⟨.opened s, by simp [Index.fileCall, hrun], ⟨L, Us, t⟩, hcreated⟩
    | closeIndex => exact ⟨_, rfl, s, L, Us, t, rfl⟩
    | openIndex => exact absurd rfl hfits

end Files

/-- In every run on a new index file that opens it only with a page counter
above the pages in use, each page taken for a new node was not in use. -/
theorem run_created_fresh (cols : List KeyCol) (f : IxFile (Key cols) (btreeOrder cols)) (hf : createIndex cols = some f)
    (calls : List (FileCall (Key cols)))
    (hcalls : Run.Along fileCall (fun st c => Fits st c ∧ OpensAbove st c) (.closed f) calls) :
    ∃ h st, Run.run fileCall (.closed f) calls = some (h, st) ∧
      ∀ s, st = .opened s → ∀ c ∈ s.created, c.Fresh := by
  obtain ⟨hord, t⟩ := createIndex_eq hf
  obtain ⟨h, st, hrun, hst, -⟩ := Run.run_total (R := fun _ st => FileOK st) (s := IndexState.closed f)
    ⟨openIndex f, _, _, t, rfl⟩ (fun _ st c hst hc => ⟨(), hst.fileCall hord hc.1 hc.2⟩) calls hcalls
  refine ⟨h, st, hrun, fun s hs => ?_⟩
  subst hs
  exact hst.2

/-- A new index is opened, closed, opened again and used. -/
theorem run_created_fresh_int :
    ∃ f : IxFile (Key [.int]) _, createIndex [.int] = some f ∧ ∃ h st,
      Run.run fileCall (.closed f) [.openIndex, .closeIndex, .openIndex, .insertEntry ⟨[7, 0, 0, 0], rfl, rfl⟩ ⟨1, 0⟩] =
        some (h, st) ∧ ∀ s, st = .opened s → ∀ c ∈ s.created, c.Fresh := by
  obtain ⟨f, hf⟩ : ∃ f : IxFile (Key [.int]) _, createIndex [.int] = some f := ⟨_, rfl⟩
  have hreach : ∀ p, Reach f.pages f.rootPage p → p < f.numPages := by
    intro p hp
    have hmem := ((createIndex_eq hf).2.closed (by simp [openIndex])).reach hp
    exact ((createIndex_eq hf).2.range p hmem).2
  refine ⟨f, hf, run_created_fresh [.int] f hf _ ?_⟩
  refine ⟨⟨rfl, hreach⟩, fun b st hst => ?_⟩
  obtain ⟨rfl, rfl⟩ := Prod.mk.inj (Option.some.inj hst)
  refine ⟨⟨by simp [Fits], trivial⟩, fun b st hst => ?_⟩
  obtain ⟨rfl, rfl⟩ := Prod.mk.inj (Option.some.inj hst)
  refine ⟨⟨rfl, hreach⟩, fun b st hst => ?_⟩
  obtain ⟨rfl, rfl⟩ := Prod.mk.inj (Option.some.inj hst)
  exact ⟨⟨by simp [Fits], trivial⟩, fun _ _ _ => trivial⟩

/-! ## A page in use that is handed out again -/

def charKey (b : UInt8) : Key [.char 512] :=
  ⟨b :: List.replicate 511 0, by rw [length_cons, length_replicate]; rfl, rfl⟩

/-- Ten keys make three leaves, and a delete merges the first two: the pages in
use are 2, 4 and 5, and `num_pages_` is 5 when the index is opened again. -/
def reopenCalls : List (FileCall (Key [.char 512])) :=
  .openIndex :: [10, 20, 30, 40, 50, 60, 70, 80, 90, 100].map (fun b => .insertEntry (charKey b) ⟨1, 0⟩) ++
    [.deleteEntry (charKey 50), .closeIndex, .openIndex, .insertEntry (charKey 11) ⟨1, 0⟩,
      .insertEntry (charKey 12) ⟨1, 0⟩]

def takesChild : IndexState κ order → Bool
  | .closed _ => false
  | .opened s => s.created.any fun c =>
      (c.pages c.rootPage).any fun n => !n.isLeaf && n.entries.any fun e => e.2.pageNo == c.page

theorem takesChild_reach {st : IndexState κ order} (h : takesChild st = true) :
    ∃ s, st = .opened s ∧ ∃ c ∈ s.created, Reach c.pages c.rootPage c.page := by
  cases st with
  | closed f => simp [takesChild] at h
  | opened s =>
    simp only [takesChild, any_eq_true, Option.any_eq_true, Bool.and_eq_true, Bool.not_eq_true', beq_iff_eq] at h
    obtain ⟨c, hc, n, hn, hnl, e, he, hpage⟩ := h
    exact ⟨s, rfl, c, hc, hpage ▸ .child .root hn hnl he⟩

set_option maxRecDepth 10000 in
/-- The split of the first leaf takes page 5 for the new one, which is the
last leaf. -/
theorem createNode_takes_page_in_use :
    ∃ (f : IxFile (Key [.char 512]) _) (h : _) (s : _), createIndex [.char 512] = some f ∧ Run.run fileCall (.closed f) reopenCalls = some (h, .opened s) ∧
      ∃ c ∈ s.created, Reach c.pages c.rootPage c.page := by
  have hrun : (createIndex [.char 512]).any (fun f => (Run.run fileCall (.closed f) reopenCalls).any
      fun r => takesChild r.2) = true := by decide +kernel
  simp only [Option.any_eq_true] at hrun
  obtain ⟨f, hf, ⟨h, st⟩, hst, htakes⟩ := hrun
  obtain ⟨s, rfl, hc⟩ := takesChild_reach htakes
  exact ⟨f, h, s, hf, hst, hc⟩

end Rmdb.Index
