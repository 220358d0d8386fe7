/-
What the operations on one or two neighbouring nodes do to the pages: one
lemma for each, so that the tree is never looked at through their code again.
-/
import Rmdb.Index.Levels

namespace Rmdb.Index

open List

variable {κ : Type} {order : Nat}

namespace IxIndexHandle

variable {s : IxIndexHandle κ order}

/-! ## Single pages -/

@[simp] theorem putNode_pages (p : Int) (n : IxNode κ) (q : Int) :
    (s.putNode p n).pages q = if q = p then some n else s.pages q := by
  simp [putNode, Function.update_apply]

@[simp] theorem putNode_rootPage (p : Int) (n : IxNode κ) : (s.putNode p n).rootPage = s.rootPage := rfl
@[simp] theorem putNode_firstLeaf (p : Int) (n : IxNode κ) : (s.putNode p n).firstLeaf = s.firstLeaf := rfl
@[simp] theorem putNode_lastLeaf (p : Int) (n : IxNode κ) : (s.putNode p n).lastLeaf = s.lastLeaf := rfl
@[simp] theorem putNode_fd2pageno (p : Int) (n : IxNode κ) : (s.putNode p n).fd2pageno = s.fd2pageno := rfl
@[simp] theorem putNode_numPages (p : Int) (n : IxNode κ) : (s.putNode p n).numPages = s.numPages := rfl

variable {p node : Int} {n : IxNode κ}

variable {m c : IxNode κ}

theorem onNode_eq {f : IxNode κ → Option (IxNode κ)}
    (h : s.pages p = some n) (hf : f n = some m) : s.onNode p f = some (s.putNode p m) := by
  simp [onNode, fetchNode, h, hf]

theorem modifyNode_eq (f : IxNode κ → IxNode κ) (h : s.pages p = some n) :
    s.modifyNode p f = some (s.putNode p (f n)) := onNode_eq h rfl

theorem createNode_pages (q : Int) : s.createNode.2.pages q =
    if q = s.fd2pageno then some ⟨0, false, 0, 0, []⟩ else s.pages q := by
  simp [createNode, Function.update_apply]

/-! ## Parents of children -/

def setParents (s : IxIndexHandle κ order) (cs : List Int) (p : Int) : IxIndexHandle κ order :=
  { s with pages := fun q => if q ∈ cs then (s.pages q).map fun c => { c with parent := p } else s.pages q }

theorem setParents_pages (cs : List Int) (p q : Int) :
    (s.setParents cs p).pages q =
      if q ∈ cs then (s.pages q).map fun c => { c with parent := p } else s.pages q := rfl

variable {q : Int} {cs : List Int}

theorem setParents_of_mem (p : Int) (hq : q ∈ cs)
    (hc : s.pages q = some c) : (s.setParents cs p).pages q = some { c with parent := p } := by
  simp [setParents_pages, hq, hc]

theorem setParents_of_notMem (p : Int) (hq : q ∉ cs) :
    (s.setParents cs p).pages q = s.pages q := by
  simp [setParents_pages, hq]

@[simp] theorem setParents_rootPage (cs : List Int) (p : Int) : (s.setParents cs p).rootPage = s.rootPage := rfl
@[simp] theorem setParents_firstLeaf (cs : List Int) (p : Int) : (s.setParents cs p).firstLeaf = s.firstLeaf := rfl
@[simp] theorem setParents_lastLeaf (cs : List Int) (p : Int) : (s.setParents cs p).lastLeaf = s.lastLeaf := rfl
@[simp] theorem setParents_fd2pageno (cs : List Int) (p : Int) :
    (s.setParents cs p).fd2pageno = s.fd2pageno := rfl

@[simp] theorem setParents_nil (p : Int) : s.setParents [] p = s := by simp [setParents]

theorem setParents_cons (c : Int) (cs : List Int) (p : Int) :
    s.setParents (c :: cs) p = (s.setParents [c] p).setParents cs p := by
  simp only [setParents, IxIndexHandle.mk.injEq, mem_cons, not_mem_nil, or_false, true_and, and_true]
  funext q
  by_cases hc : q = c <;> by_cases hcs : q ∈ cs <;> simp [hc, hcs] <;> cases s.pages c <;> simp

theorem setParents_singleton {c : Int} (h : s.pages c = some n) :
    s.setParents [c] p = s.putNode c { n with parent := p } := by
  simp only [setParents, putNode, IxIndexHandle.mk.injEq, mem_singleton, true_and, and_true]
  funext q
  by_cases hq : q = c
  · subst hq; simp [h]
  · simp [hq]

theorem maintainChild_eq {A B : List (κ × Rid)} {e : κ × Rid}
    (hn : s.pages node = some n) (hleaf : n.isLeaf = false) (hes : n.entries = A ++ e :: B)
    (hc : s.pages e.2.pageNo = some c) :
    s.maintainChild node A.length = some (s.setParents [e.2.pageNo] node) := by
  have hv : n.valueAt A.length = some e.2.pageNo := by simp [IxNode.valueAt, IxNode.getRid, hes]
  rw [setParents_singleton hc]
  simp [maintainChild, fetchNode, hn, hleaf, hv, modifyNode_eq _ hc]

theorem maintainChildren_eq : ∀ {B A : List (κ × Rid)} {s : IxIndexHandle κ order} {n : IxNode κ},
    s.pages node = some n → n.isLeaf = false → n.entries = A ++ B →
    (∀ e ∈ B, e.2.pageNo ≠ node ∧ ∃ c, s.pages e.2.pageNo = some c) →
    s.maintainChildren node A.length (A.length + B.length)
      = some (s.setParents (B.map fun e => e.2.pageNo) node)
  | [], A, s, n, _, _, _, _ => by simp [maintainChildren]
  | e :: B, A, s, n, hn, hleaf, hes, hB => by
    obtain ⟨hne, c, hc⟩ := hB e (by simp)
    have ih := maintainChildren_eq (B := B) (A := A ++ [e]) (s := s.setParents [e.2.pageNo] node) (n := n)
      (by rwa [setParents_of_notMem]; simpa using Ne.symm hne) hleaf (by simp [hes]) (fun e' he' => by
        obtain ⟨hne', c', hc'⟩ := hB e' (by simp [he'])
        refine ⟨hne', ?_⟩
        by_cases h : e'.2.pageNo ∈ [e.2.pageNo]
        · exact ⟨_, setParents_of_mem _ h hc'⟩
        · exact ⟨c', by rwa [setParents_of_notMem _ h]⟩)
    rw [map_cons, setParents_cons, ← ih]
    simp only [maintainChildren, length_cons, length_append, length_nil, zero_add,
      Nat.add_sub_cancel_left, List.range'_succ, foldlM_cons,
      maintainChild_eq hn hleaf hes hc, Option.bind_eq_bind, Option.bind_some]

theorem onNode_append {left : Int} {l : IxNode κ} (hl : s.pages left = some l) (es : List (κ × Rid)) :
    s.onNode left (fun n => n.insertPairs l.getSize es)
      = some (s.putNode left { l with entries := l.entries ++ es }) :=
  onNode_eq hl (by simp [IxNode.insertPairs, IxNode.getSize])

/-! ## Splitting -/

theorem split_internal (hn : s.pages node = some n) (hleaf : n.isLeaf = false) (hlt : node < s.fd2pageno)
    (hch : ∀ e ∈ n.entries.drop (minSize order), e.2.pageNo ≠ node ∧ e.2.pageNo < s.fd2pageno ∧
      ∃ c, s.pages e.2.pageNo = some c) :
    ∃ s', s.split node = some (s.fd2pageno, s') ∧ s'.fd2pageno = s.fd2pageno + 1 ∧
      s'.rootPage = s.rootPage ∧ s'.firstLeaf = s.firstLeaf ∧ s'.lastLeaf = s.lastLeaf ∧
      s'.pages node = some { n with entries := n.entries.take (minSize order) } ∧
      s'.pages s.fd2pageno = some ⟨n.parent, false, 0, 0, n.entries.drop (minSize order)⟩ ∧
      (∀ e ∈ n.entries.drop (minSize order), ∀ c, s.pages e.2.pageNo = some c →
        s'.pages e.2.pageNo = some { c with parent := s.fd2pageno }) ∧
      ∀ q, q ≠ node → q ≠ s.fd2pageno → (∀ e ∈ n.entries.drop (minSize order), e.2.pageNo ≠ q) →
        s'.pages q = s.pages q := by
  set new := s.fd2pageno with hnew
  set es := n.entries.drop (minSize order) with hes
  let m : IxNode κ := ⟨n.parent, false, 0, 0, es⟩
  let s₁ := (((s.createNode.2.putNode new ⟨n.parent, false, 0, 0, []⟩).putNode new m).putNode node
    { n with entries := n.entries.take (minSize order) })
  have hne : node ≠ new := by omega
  have hs₁ : ∀ q, s₁.pages q = if q = node then some { n with entries := n.entries.take (minSize order) }
      else if q = new then some m else s.pages q := by
    intro q
    simp only [s₁, putNode_pages, createNode_pages, ← hnew]
    split_ifs <;> rfl
  have hnewnode : s₁.pages new = some m := by simp [hs₁, hne.symm]
  have hkids : s₁.maintainChildren new 0 es.length = some (s₁.setParents (es.map fun e => e.2.pageNo) new) := by
    have := maintainChildren_eq (B := es) (A := []) hnewnode rfl rfl (fun e he => by
      obtain ⟨h1, h2, c, hc⟩ := hch e he
      exact ⟨by omega, c, by simp [hs₁, h1, show e.2.pageNo ≠ new by omega, hc]⟩)
    simpa using this
  refine ⟨s₁.setParents (es.map fun e => e.2.pageNo) new, ?_, rfl, rfl, rfl, rfl, ?_, ?_, ?_, ?_⟩
  · have h0 : s.createNode.2.pages node = some n := by simp [createNode_pages, hne, ← hnew, hn]
    have h1 : s.createNode.2.pages new = some ⟨0, false, 0, 0, []⟩ := by
      simp [createNode_pages, ← hnew]
    have h2 : (s.createNode.2.putNode new ⟨n.parent, false, 0, 0, []⟩).onNode new
        (fun x => x.insertPairs 0 es) = some ((s.createNode.2.putNode new ⟨n.parent, false, 0, 0, []⟩).putNode new m) :=
      onNode_eq (n := ⟨n.parent, false, 0, 0, []⟩) (by simp) (by simp [IxNode.insertPairs, m])
    have h3 : ((s.createNode.2.putNode new ⟨n.parent, false, 0, 0, []⟩).putNode new m).modifyNode node
        (fun x => { x with entries := x.entries.take (minSize order) }) = some s₁ :=
      modifyNode_eq _ (by simp [hne, h0])
    rw [split, show s.createNode = (new, s.createNode.2) from rfl]
    simp only [fetchNode, h0, hleaf, Option.bind_eq_bind, Option.bind_some, modifyNode_eq _ h1, Bool.false_eq_true,
      if_false, ← hes, h2, h3]
    rw [hnewnode]
    simp only [Option.bind_some, m, Bool.false_eq_true, if_false, IxNode.getSize, hkids]
  · rw [setParents_of_notMem, hs₁, if_pos rfl]
    simpa using fun k r he => (hch (k, r) he).1
  · rw [setParents_of_notMem, hs₁, if_neg hne.symm, if_pos rfl]
    simp only [mem_map, not_exists, not_and]
    intro e he
    have := (hch e he).2.1
    omega
  · intro e he c hc
    obtain ⟨h1, h2, -⟩ := hch e he
    rw [setParents_of_mem (c := c) _ (mem_map_of_mem (f := fun e : κ × Rid => e.2.pageNo) he)]
    simp [hs₁, h1, show e.2.pageNo ≠ new by omega, hc]
  · intro q h1 h2 h3
    rw [setParents_of_notMem, hs₁, if_neg h1, if_neg h2]
    simpa using fun k r he => h3 (k, r) he

/-- `split` of a leaf: the new leaf comes between it and the one after it. -/
theorem split_leaf (hn : s.pages node = some n) (hleaf : n.isLeaf = true)
    (hlt : node < s.fd2pageno) (hm : s.pages n.nextLeaf = some m) (hnext : n.nextLeaf ≠ node)
    (hmlt : n.nextLeaf < s.fd2pageno) :
    ∃ s', s.split node = some (s.fd2pageno, s') ∧ s'.fd2pageno = s.fd2pageno + 1 ∧
      s'.rootPage = s.rootPage ∧ s'.firstLeaf = s.firstLeaf ∧ s'.lastLeaf = s.lastLeaf ∧
      ∀ q, s'.pages q =
        if q = node then some { n with entries := n.entries.take (minSize order), nextLeaf := s.fd2pageno }
        else if q = s.fd2pageno then
          some ⟨n.parent, true, node, n.nextLeaf, n.entries.drop (minSize order)⟩
        else if q = n.nextLeaf then some { m with prevLeaf := s.fd2pageno }
        else s.pages q := by
  set new := s.fd2pageno with hnew
  have hne : node ≠ new := by omega
  have hnx : n.nextLeaf ≠ new := by omega
  let s₁ := ((s.createNode.2.putNode new ⟨0, false, node, n.nextLeaf, []⟩).putNode node
    { n with nextLeaf := new }).putNode n.nextLeaf { m with prevLeaf := new }
  have hs₁ : ∀ q, s₁.pages q = if q = n.nextLeaf then some { m with prevLeaf := new }
      else if q = node then some { n with nextLeaf := new }
      else if q = new then some ⟨0, false, node, n.nextLeaf, []⟩ else s.pages q := by
    intro q
    simp only [s₁, putNode_pages, createNode_pages, ← hnew]
    split_ifs <;> rfl
  have h0 : s.createNode.2.pages node = some n := by simp [createNode_pages, hne, ← hnew, hn]
  have hlink : s.createNode.2.linkLeaf node new = some s₁ := by
    have h1 : s.createNode.2.pages new = some ⟨0, false, 0, 0, []⟩ := by
      simp [createNode_pages, ← hnew]
    have h2 : s.createNode.2.pages n.nextLeaf = some m := by
      simp [createNode_pages, ← hnew, hnx, hm]
    simp only [linkLeaf, fetchNode, h0, Option.bind_eq_bind, Option.bind_some, modifyNode_eq _ h1]
    rw [modifyNode_eq (n := n) _ (by simp [hne, h0]), Option.bind_some,
      modifyNode_eq (n := m) _ (by simp [hnext, hnx, h2])]
  have h1 : s₁.pages new = some ⟨0, false, node, n.nextLeaf, []⟩ := by simp [hs₁, hnx.symm, hne.symm]
  let r : IxNode κ := ⟨n.parent, true, node, n.nextLeaf, n.entries.drop (minSize order)⟩
  let s₂ := (s₁.putNode new ⟨n.parent, true, node, n.nextLeaf, []⟩).putNode new r
  have h2 : (s₁.putNode new ⟨n.parent, true, node, n.nextLeaf, []⟩).onNode new
      (fun x => x.insertPairs 0 (n.entries.drop (minSize order))) = some s₂ :=
    onNode_eq (n := ⟨n.parent, true, node, n.nextLeaf, []⟩) (by simp) (by simp [IxNode.insertPairs, r])
  have h3 : s₂.pages node = some { n with nextLeaf := new } := by
    simp [s₂, hs₁, hne, hnext.symm]
  refine ⟨s₂.putNode node { n with entries := n.entries.take (minSize order), nextLeaf := new }, ?_, rfl, rfl, rfl,
    rfl, fun q => ?_⟩
  · rw [split, show s.createNode = (new, s.createNode.2) from rfl]
    simp only [fetchNode, h0, hleaf, Option.bind_eq_bind, Option.bind_some, if_true, hlink,
      modifyNode_eq _ h1, h2, modifyNode_eq _ h3]
    simp [hne.symm, s₂, r]
  · simp only [s₂, putNode_pages, hs₁]
    split_ifs <;> simp_all [r]

/-! ## Moving one entry between neighbours -/

section Neighbours

variable {left right parent : Int} {l r p : IxNode κ}

variable {el er : κ × Rid} {E A : List (κ × Rid)}

theorem redistribute_fromRight {e e' : κ × Rid} {rs : List (κ × Rid)}
    (hl : s.pages left = some l) (hr : s.pages right = some r) (hp : s.pages parent = some p)
    (hlr : left ≠ right) (hlp : left ≠ parent) (hrp : right ≠ parent)
    (hre : r.entries = e :: e' :: rs) (hpe : p.entries = el :: er :: E)
    (hch : l.isLeaf = false → e.2.pageNo ≠ left ∧ e.2.pageNo ≠ right ∧ e.2.pageNo ≠ parent ∧
      ∃ c, s.pages e.2.pageNo = some c) :
    ∃ s₁, (∀ q, s₁.pages q = if q = parent then some { p with entries := el :: (e'.1, er.2) :: E }
        else if q = right then some { r with entries := e' :: rs }
        else if q = left then some { l with entries := l.entries ++ [e] } else s.pages q) ∧
      s₁.rootPage = s.rootPage ∧ s₁.firstLeaf = s.firstLeaf ∧ s₁.lastLeaf = s.lastLeaf ∧
      s₁.fd2pageno = s.fd2pageno ∧
      s.redistribute right left parent 0 =
        some (if l.isLeaf then s₁ else s₁.setParents [e.2.pageNo] left) := by
  let l' : IxNode κ := { l with entries := l.entries ++ [e] }
  let s₁ := ((s.putNode left l').putNode right { r with entries := e' :: rs }).putNode parent
    { p with entries := el :: (e'.1, er.2) :: E }
  have hs₁ : ∀ q, s₁.pages q = if q = parent then some { p with entries := el :: (e'.1, er.2) :: E }
      else if q = right then some { r with entries := e' :: rs }
      else if q = left then some l' else s.pages q := fun q => by simp [s₁]
  refine ⟨s₁, hs₁, rfl, rfl, rfl, rfl, ?_⟩
  have h1 : s.onNode left (fun n => n.insertPair n.getSize e) = some (s.putNode left l') :=
    onNode_eq hl (by simp [IxNode.insertPair, IxNode.insertPairs, IxNode.getSize, l'])
  have h2 : (s.putNode left l').onNode right (fun n => n.erasePair 0) =
      some ((s.putNode left l').putNode right { r with entries := e' :: rs }) :=
    onNode_eq (n := r) (by simp [hlr.symm, hr]) (by simp [IxNode.erasePair, IxNode.getSize, hre])
  have h3 : ((s.putNode left l').putNode right { r with entries := e' :: rs }).onNode parent
      (fun n => n.setKey (0 + 1) e'.1) = some s₁ :=
    onNode_eq (n := p) (by simp [hlp.symm, hrp.symm, hp]) (by simp [IxNode.setKey, IxNode.getSize, hpe])
  have hleft : s₁.pages left = some l' := by simp [hs₁, hlr, hlp]
  have h4 : s₁.maintainChild left (l'.getSize - 1) =
      some (if l.isLeaf then s₁ else s₁.setParents [e.2.pageNo] left) := by
    by_cases hleaf : l.isLeaf
    · simp [maintainChild, fetchNode, hleft, l', hleaf]
    · obtain ⟨hc1, hc2, hc3, c, hc⟩ := hch (by simpa using hleaf)
      have := maintainChild_eq (s := s₁) (A := l.entries) (B := []) (e := e) (c := c) hleft
        (by simpa [l'] using hleaf) rfl (by simp [hs₁, hc1, hc2, hc3, hc])
      simpa [hleaf, l', IxNode.getSize] using this
  simp only [redistribute, fetchNode, hr, hre, Option.bind_eq_bind, Option.bind_some, if_true,
    List.getElem?_cons_zero, h1, h2, putNode_pages, IxNode.getKey, Option.map_some, h3, hleft, h4]

theorem redistribute_fromLeft {e : κ × Rid} {ls : List (κ × Rid)}
    (hl : s.pages left = some l) (hr : s.pages right = some r) (hp : s.pages parent = some p)
    (hlr : left ≠ right) (hlp : left ≠ parent) (hrp : right ≠ parent)
    (hle : l.entries = ls ++ [e]) (hpe : p.entries = A ++ el :: er :: E)
    (hch : r.isLeaf = false → e.2.pageNo ≠ left ∧ e.2.pageNo ≠ right ∧ e.2.pageNo ≠ parent ∧
      ∃ c, s.pages e.2.pageNo = some c) :
    ∃ s₁, (∀ q, s₁.pages q = if q = parent then some { p with entries := A ++ el :: (e.1, er.2) :: E }
        else if q = right then some { r with entries := e :: r.entries }
        else if q = left then some { l with entries := ls } else s.pages q) ∧
      s₁.rootPage = s.rootPage ∧ s₁.firstLeaf = s.firstLeaf ∧ s₁.lastLeaf = s.lastLeaf ∧
      s₁.fd2pageno = s.fd2pageno ∧
      s.redistribute left right parent (A.length + 1) =
        some (if r.isLeaf then s₁ else s₁.setParents [e.2.pageNo] right) := by
  let r' : IxNode κ := { r with entries := e :: r.entries }
  let p' : IxNode κ := { p with entries := A ++ el :: (e.1, er.2) :: E }
  let s₁ := ((s.putNode right r').putNode left { l with entries := ls }).putNode parent p'
  have hs₁ : ∀ q, s₁.pages q = if q = parent then some p' else if q = right then some r'
      else if q = left then some { l with entries := ls } else s.pages q := fun q => by
    simp only [s₁, putNode_pages]
    split_ifs <;> simp_all
  refine ⟨s₁, hs₁, rfl, rfl, rfl, rfl, ?_⟩
  have h1 : s.onNode right (fun n => n.insertPair 0 e) = some (s.putNode right r') :=
    onNode_eq hr (by simp [IxNode.insertPair, IxNode.insertPairs, r'])
  have h2 : (s.putNode right r').onNode left (fun n => n.erasePair (n.getSize - 1)) =
      some ((s.putNode right r').putNode left { l with entries := ls }) :=
    onNode_eq (n := l) (by simp [hlr, hl])
      (by simp [IxNode.erasePair, IxNode.getSize, hle, eraseIdx_append_of_length_le])
  have h3 : ((s.putNode right r').putNode left { l with entries := ls }).onNode parent
      (fun n => n.setKey (A.length + 1) e.1) = some s₁ := by
    refine onNode_eq (n := p) (by simp [hlp.symm, hrp.symm, hp]) ?_
    simpa [p'] using IxNode.setKey_eq (A := A ++ [el]) (e := er) (B := E) (by simp [hpe]) e.1
  have hright : s₁.pages right = some r' := by simp [hs₁, hrp]
  have hright' : ((s.putNode right r').putNode left { l with entries := ls }).pages right = some r' := by
    simp [hlr.symm]
  have h4 : s₁.maintainChild right 0 =
      some (if r.isLeaf then s₁ else s₁.setParents [e.2.pageNo] right) := by
    by_cases hleaf : r.isLeaf
    · simp [maintainChild, fetchNode, hright, r', hleaf]
    · obtain ⟨hc1, hc2, hc3, c, hc⟩ := hch (by simpa using hleaf)
      have := maintainChild_eq (s := s₁) (A := []) (B := r.entries) (e := e) (c := c) hright
        (by simpa [r'] using hleaf) rfl (by simp [hs₁, hc1, hc2, hc3, hc])
      simpa [hleaf] using this
  have hlast : l.entries[l.getSize - 1]? = some e := by simp [IxNode.getSize, hle]
  have hkey : r'.getKey 0 = some e.1 := by simp [IxNode.getKey, r']
  simp only [redistribute, fetchNode, hl, hlast, Option.bind_eq_bind, Option.bind_some, Nat.add_one_ne_zero,
    if_false, h1, h2, hright', hkey, h3, h4]

/-! ## Merging two neighbours -/

theorem coalesce_internal (again : IxIndexHandle κ order → Int → Option (Bool × IxIndexHandle κ order))
    {neighbor node : Int} {index : Nat}
    (hl : s.pages left = some l) (hr : s.pages right = some r) (hp : s.pages parent = some p) (hlp : left ≠ parent)
    (hpos : index = 0 ∧ A = [] ∧ node = left ∧ neighbor = right ∨
      index = A.length + 1 ∧ node = right ∧ neighbor = left)
    (hpe : p.entries = A ++ el :: er :: E) (hll : l.isLeaf = false) (hrl : r.isLeaf = false)
    (hch : ∀ e ∈ r.entries, e.2.pageNo ≠ left ∧ e.2.pageNo ≠ parent ∧ ∃ c, s.pages e.2.pageNo = some c) :
    ∃ s₁, (∀ q, s₁.pages q = if q = parent then some { p with entries := A ++ el :: E }
        else if q = left then some { l with entries := l.entries ++ r.entries }
        else if q ∈ r.entries.map (fun e => e.2.pageNo) then
          (s.pages q).map fun c => { c with parent := left }
        else s.pages q) ∧
      s₁.rootPage = s.rootPage ∧ s₁.firstLeaf = s.firstLeaf ∧ s₁.lastLeaf = s.lastLeaf ∧
      s₁.fd2pageno = s.fd2pageno ∧ s.coalesce again neighbor node parent index = again s₁ parent := by
  let l' : IxNode κ := { l with entries := l.entries ++ r.entries }
  let kids := r.entries.map fun e => e.2.pageNo
  let s₀ := s.putNode left l'
  let s₁ := (s₀.setParents kids left).releaseNodeHandle.putNode parent { p with entries := A ++ el :: E }
  have hleft : left ∉ kids := by
    simpa [kids] using fun k rid he => (hch (k, rid) he).1
  have hparent : parent ∉ kids := by
    simpa [kids] using fun k rid he => (hch (k, rid) he).2.1
  refine ⟨s₁, fun q => ?_, rfl, rfl, rfl, rfl, ?_⟩
  · simp only [s₁, putNode_pages, releaseNodeHandle]
    by_cases hq : q = left
    · subst hq
      rw [setParents_of_notMem _ hleft]
      simp [s₀, l']
    · simp [setParents_pages, s₀, hq, kids]
  have h1 : s.onNode left (fun n => n.insertPairs l.getSize r.entries) = some s₀ := onNode_append hl _
  have h2 : s₀.maintainChildren left l.getSize (l.getSize + r.getSize) = some (s₀.setParents kids left) := by
    refine maintainChildren_eq (n := l') (by simp [s₀]) hll rfl fun e he => ?_
    obtain ⟨h1, -, c, hc⟩ := hch e he
    exact ⟨h1, c, by simp [s₀, h1, hc]⟩
  have h3 : (s₀.setParents kids left).releaseNodeHandle.onNode parent
      (fun n => n.erasePair (A.length + 1)) = some s₁ := by
    refine onNode_eq (n := p) ?_ ?_
    · simp [releaseNodeHandle, setParents_of_notMem _ hparent, s₀, hlp.symm, hp]
    · simp [IxNode.erasePair, IxNode.getSize, hpe, eraseIdx_append_of_length_le]
  rcases hpos with ⟨rfl, rfl, rfl, rfl⟩ | ⟨rfl, rfl, rfl⟩
  · simp only [length_nil] at h3
    simp only [coalesce, if_true, fetchNode, hl, hr, Option.bind_eq_bind, Option.bind_some, h1, hrl, Bool.not_false,
      h2, h3]
  · simp only [coalesce, Nat.add_one_ne_zero, if_false, fetchNode, hl, hr, Option.bind_eq_bind, Option.bind_some, h1,
      hrl, Bool.not_false, if_true, h2, h3]

/-- `coalesce` of leaves: the right one also leaves the list of leaves. -/
theorem coalesce_leaf (again : IxIndexHandle κ order → Int → Option (Bool × IxIndexHandle κ order))
    {neighbor node : Int} {index : Nat} {m : IxNode κ}
    (hl : s.pages left = some l) (hr : s.pages right = some r) (hp : s.pages parent = some p)
    (hm : s.pages r.nextLeaf = some m) (hprev : r.prevLeaf = left)
    (hlr : left ≠ right) (hlp : left ≠ parent) (hml : r.nextLeaf ≠ left) (hmp : r.nextLeaf ≠ parent)
    (hpos : index = 0 ∧ A = [] ∧ node = left ∧ neighbor = right ∨
      index = A.length + 1 ∧ node = right ∧ neighbor = left)
    (hpe : p.entries = A ++ el :: er :: E) (hrl : r.isLeaf = true) :
    ∃ s₁, (∀ q, s₁.pages q = if q = parent then some { p with entries := A ++ el :: E }
        else if q = r.nextLeaf then some { m with prevLeaf := left }
        else if q = left then some { l with entries := l.entries ++ r.entries, nextLeaf := r.nextLeaf }
        else s.pages q) ∧
      s₁.rootPage = s.rootPage ∧ s₁.firstLeaf = s.firstLeaf ∧
      s₁.lastLeaf = (if right = s.lastLeaf then left else s.lastLeaf) ∧
      s₁.fd2pageno = s.fd2pageno ∧ s.coalesce again neighbor node parent index = again s₁ parent := by
  let s₀ := s.putNode left { l with entries := l.entries ++ r.entries }
  let s₂ := (s₀.putNode left { l with entries := l.entries ++ r.entries, nextLeaf := r.nextLeaf }).putNode r.nextLeaf
    { m with prevLeaf := left }
  let s₃ := if right = s₂.lastLeaf then { s₂ with lastLeaf := left } else s₂
  have h3p : ∀ q, s₃.pages q = s₂.pages q := fun q => by simp only [s₃]; split_ifs <;> rfl
  let s₁ := s₃.releaseNodeHandle.putNode parent { p with entries := A ++ el :: E }
  have h0 : s.onNode left (fun n => n.insertPairs l.getSize r.entries) = some s₀ := onNode_append hl _
  have hright : s₀.pages right = some r := by simp [s₀, hlr.symm, hr]
  have h1 : s₀.eraseLeaf right = some s₂ := by
    simp only [eraseLeaf, fetchNode, hright, Option.bind_eq_bind, Option.bind_some, hrl, Bool.not_true,
      Bool.false_eq_true, if_false, hprev]
    rw [modifyNode_eq (n := { l with entries := l.entries ++ r.entries }) _ (by simp [s₀]), Option.bind_some,
      modifyNode_eq (n := m) _ (by simp [s₀, hml, hm])]
  have h3 : s₃.releaseNodeHandle.onNode parent (fun n => n.erasePair (A.length + 1)) = some s₁ := by
    refine onNode_eq (n := p) ?_ ?_
    · simp only [releaseNodeHandle, h3p]
      simp [s₂, s₀, hmp.symm, hlp.symm, hp]
    · simp [IxNode.erasePair, IxNode.getSize, hpe, eraseIdx_append_of_length_le]
  refine ⟨s₁, fun q => ?_, ?_, ?_, ?_, ?_, ?_⟩
  · simp only [s₁, putNode_pages, releaseNodeHandle, h3p]
    simp only [s₂, s₀, putNode_pages]
    split_ifs <;> simp_all
  · simp only [s₁, s₃, putNode_rootPage, releaseNodeHandle]; split_ifs <;> rfl
  · simp only [s₁, s₃, putNode_firstLeaf, releaseNodeHandle]; split_ifs <;> rfl
  · have hlast : s₂.lastLeaf = s.lastLeaf := rfl
    simp only [s₁, s₃, putNode_lastLeaf, releaseNodeHandle, hlast]
    by_cases hq : right = s.lastLeaf
    · rw [if_pos hq, if_pos hq]
    · rw [if_neg hq, if_neg hq, hlast]
  · simp only [s₁, s₃, putNode_fd2pageno, releaseNodeHandle]; split_ifs <;> rfl
  rcases hpos with ⟨rfl, rfl, rfl, rfl⟩ | ⟨rfl, rfl, rfl⟩
  · simp only [length_nil] at h3
    simp only [coalesce, if_true, fetchNode, hl, hr, Option.bind_eq_bind, Option.bind_some, h0, hrl, Bool.not_true,
      Bool.false_eq_true, if_false, h1]
    rw [show (if neighbor = s₂.lastLeaf then { s₂ with lastLeaf := node } else s₂) = s₃ from rfl, h3, Option.bind_some]
  · simp only [coalesce, Nat.add_one_ne_zero, if_false, fetchNode, hl, hr, Option.bind_eq_bind, Option.bind_some, h0,
      hrl, Bool.not_true, Bool.false_eq_true, h1]
    rw [show (if node = s₂.lastLeaf then { s₂ with lastLeaf := neighbor } else s₂) = s₃ from rfl, h3, Option.bind_some]

end Neighbours

end IxIndexHandle

end Rmdb.Index
