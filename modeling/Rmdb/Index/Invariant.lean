/-
The invariant of the tree, said of the pages as they are reached from the
root.

`Tree` cuts the pages into levels, which is what the proofs about the
operations need. `RepInvariant` says the same without levels, and holds after
any calls on a new index.
-/
import Rmdb.Index.Map

namespace Rmdb.Index

open List IxIndexHandle

variable {κ : Type} {order : Nat}

/-! ## Nodes below the root -/

def Child (s : IxIndexHandle κ order) (p c : Int) : Prop :=
  ∃ n, s.pages p = some n ∧ n.isLeaf = false ∧ ∃ e ∈ n.entries, e.2.pageNo = c

inductive AtDepth (s : IxIndexHandle κ order) : Nat → Int → Prop
  | root : AtDepth s 0 s.rootPage
  | child {d : Nat} {p c : Int} : AtDepth s d p → Child s p c → AtDepth s (d + 1) c

inductive Under (s : IxIndexHandle κ order) : Int → κ → Prop
  | leaf {p : Int} {n : IxNode κ} {e : κ × Rid} : s.pages p = some n → n.isLeaf = true → e ∈ n.entries → Under s p e.1
  | node {p c : Int} {k : κ} : Child s p c → Under s c k → Under s p k

def IsLeafPage (s : IxIndexHandle κ order) (p : Int) : Prop :=
  ∃ d n, AtDepth s d p ∧ s.pages p = some n ∧ n.isLeaf = true

def entriesOf (s : IxIndexHandle κ order) (p : Int) : List (κ × Rid) := ((s.pages p).map IxNode.entries).getD []

/-- What holds of an index between two calls. -/
structure RepInvariant [IxCmp κ] (s : IxIndexHandle κ order) : Prop where
  /-- Every page that is reached exists. -/
  exists_node : ∀ d p, AtDepth s d p → ∃ n, s.pages p = some n
  /-- The leaves are the nodes at one depth. -/
  depth : ∃ height, ∀ d p n, AtDepth s d p → s.pages p = some n → (n.isLeaf = true ↔ d = height)
  increasing : ∀ d p n, AtDepth s d p → s.pages p = some n → n.entries.Pairwise fun e e' => ixCmp e.1 e'.1 < 0
  /-- The key of a child is the smallest key below it. -/
  separators : ∀ d p n, AtDepth s d p → s.pages p = some n → n.isLeaf = false → ∀ e ∈ n.entries,
    Under s e.2.pageNo e.1 ∧ ∀ k, Under s e.2.pageNo k → ixCmp e.1 k ≤ 0
  size : ∀ d p n, AtDepth s d p → s.pages p = some n → p ≠ s.rootPage →
    minSize order ≤ n.getSize ∧ n.getSize ≤ maxSize order - 1
  rootSize : ∀ n, s.pages s.rootPage = some n → n.isLeaf = false → 2 ≤ n.getSize
  parent : ∀ d p c, AtDepth s d p → Child s p c → ∃ n, s.pages c = some n ∧ n.parent = p
  rootParent : ∃ n, s.pages s.rootPage = some n ∧ n.parent = noPage
  /-- `next_leaf` leads from the leaf header page through the leaves, in the
  order of their keys, and back to it, and `prev_leaf` the other way. -/
  leaves : ∃ ps, ps.head? = some s.firstLeaf ∧ ps.getLast? = some s.lastLeaf ∧ ps.Nodup ∧
    (∀ p, p ∈ ps ↔ IsLeafPage s p) ∧ (ps.flatMap (entriesOf s)).Pairwise (fun e e' => ixCmp e.1 e'.1 < 0) ∧
    (leafHeaderPage :: ps).map (nextOf s) = (ps ++ [leafHeaderPage]).map some ∧
    (ps ++ [leafHeaderPage]).map (prevOf s) = (leafHeaderPage :: ps).map some

/-! ## Levels and depths -/

variable {L : List (Block κ)} {Us : List (List (Block κ))}

variable {A B : List (List (Block κ))} {V : List (Block κ)}

theorem Up.drop {s : IxIndexHandle κ order} (hup : Up s L Us) (hV : L :: Us = A ++ V :: B) : Up s V B := by
  induction A generalizing L Us with
  | nil =>
    obtain ⟨rfl, rfl⟩ := List.cons.inj hV
    exact hup
  | cons W A ih =>
    obtain ⟨rfl, rfl⟩ := List.cons.inj hV
    cases A with
    | nil => exact ih hup.2.2.2.2 rfl
    | cons W' A => exact ih hup.2.2.2.2 rfl

theorem Sizes.drop (h : Sizes order (A ++ V :: B)) :
    ∀ b ∈ V, SizeOK order B b := by
  induction A with
  | nil => exact h.1
  | cons W A ih => exact ih h.2

theorem Up.root_level {s : IxIndexHandle κ order} (hup : Up s L Us) :
    ∃ A b, L :: Us = A ++ [[b]] ∧ s.rootPage = b.1 ∧ ParentIs s b.1 noPage := by
  induction Us generalizing L with
  | nil =>
    obtain ⟨b, rfl, hroot, hpar⟩ := hup
    exact ⟨[], b, rfl, hroot, hpar⟩
  | cons U Us ih =>
    obtain ⟨A, b, hA, hroot⟩ := ih hup.2.2.2.2
    exact ⟨L :: A, b, by simp [hA], hroot⟩

variable {b : Block κ}

theorem Linked.child {U : List (Block κ)} (h : Linked L U) (hb : b ∈ U) {e : κ × Rid} (he : e ∈ b.2) :
    ∃ c ∈ L, c.1 = e.2.pageNo ∧ c.2.head?.map Prod.fst = some e.1 := by
  have hmem : (some e.1, e.2) ∈ lift (flat U) :=
    mem_map_of_mem (f := fun e : κ × Rid => (some e.1, e.2)) (mem_flatMap.2 ⟨b, hb, he⟩)
  rw [h] at hmem
  obtain ⟨c, hc, hsep⟩ := mem_map.1 hmem
  simp only [sep, Prod.mk.injEq] at hsep
  exact ⟨c, hc, by rw [← hsep.2], hsep.1⟩

theorem Child.entry {s : IxIndexHandle κ order} {c : Int} (hb : Holds s false b) (h : Child s b.1 c) :
    ∃ e ∈ b.2, e.2.pageNo = c := by
  obtain ⟨n, hn, -, hes⟩ := hb
  obtain ⟨n', hn', -, e, he, hc⟩ := h
  obtain rfl : n = n' := by simpa [hn] using hn'
  exact ⟨e, hes ▸ he, hc⟩

theorem Up.reached {s : IxIndexHandle κ order} (hup : Up s L Us)
    {p : Int} (hp : p ∈ pagesOf L) : AtDepth s Us.length p := by
  induction Us generalizing L p with
  | nil =>
    obtain ⟨b, rfl, hroot, -⟩ := hup
    obtain rfl : p = b.1 := by simpa using hp
    rw [← hroot]
    exact .root
  | cons U Us ih =>
    rw [← hup.2.1.pages] at hp
    obtain ⟨e, he, rfl⟩ := mem_map.1 hp
    obtain ⟨b, hb, he⟩ := mem_flatMap.1 he
    obtain ⟨n, hn, hnl, hes⟩ := hup.1 b hb
    exact .child (ih hup.2.2.2.2 (mem_pagesOf hb)) ⟨n, hn, hnl, e, hes ▸ he, rfl⟩

section Tree

variable [IxOrder κ] {s : IxIndexHandle κ order} {L : List (Block κ)} {Us : List (List (Block κ))}

variable {p : Int}

theorem Tree.atDepth (t : Tree s L Us) {d : Nat} (h : AtDepth s d p) :
    ∃ A V B b, L :: Us = A ++ V :: B ∧ B.length = d ∧ b ∈ V ∧ b.1 = p ∧ Holds s A.isEmpty b := by
  have hholds : ∀ A V B b, L :: Us = A ++ V :: B → b ∈ V → Holds s A.isEmpty b := by
    intro A V B b hV hb
    cases A with
    | nil =>
      obtain ⟨rfl, rfl⟩ := List.cons.inj hV
      exact t.holds b hb
    | cons W A =>
      rcases eq_nil_or_concat A with rfl | ⟨A', W', rfl⟩
      · exact (t.up.drop (A := []) hV).1 b hb
      · exact (t.up.drop (A := W :: A') (V := W') (B := V :: B) (by simpa using hV)).1 b hb
  induction h with
  | root =>
    obtain ⟨A, b, hA, hroot, -⟩ := t.up.root_level
    exact ⟨A, [b], [], b, hA, rfl, by simp, hroot.symm, hholds _ _ _ _ hA (by simp)⟩
  | child hp hc ih =>
    obtain ⟨A, V, B, b, hV, rfl, hb, rfl, hb'⟩ := ih
    rcases eq_nil_or_concat A with rfl | ⟨A', W, rfl⟩
    · -- a leaf has no children
      obtain ⟨n, hn, hnl, -⟩ := hb'
      obtain ⟨n', hn', hnl', -⟩ := hc
      obtain rfl : n = n' := by simpa [hn] using hn'
      simp [hnl] at hnl'
    · have hW : L :: Us = A' ++ W :: V :: B := by simpa using hV
      obtain ⟨e, he, rfl⟩ := hc.entry (by rwa [show (A'.concat W).isEmpty = false by simp] at hb')
      obtain ⟨c, hcW, hce, -⟩ := (t.up.drop hW).2.1.child hb he
      exact ⟨A', W, V :: B, c, hW, rfl, hcW, hce, hholds _ _ _ _ hW hcW⟩

variable {A B : List (List (Block κ))} {V : List (Block κ)}

theorem Up.sorted (hup : Up s L Us) (hs : IxNode.Sorted (flat L))
    (hV : L :: Us = A ++ V :: B) : IxNode.Sorted (flat V) := by
  induction A generalizing L Us with
  | nil =>
    obtain ⟨rfl, rfl⟩ := List.cons.inj hV
    exact hs
  | cons W A ih =>
    obtain ⟨rfl, rfl⟩ := List.cons.inj hV
    cases A with
    | nil => exact ih hup.2.2.2.2 (sorted_of_lift hup.2.1 hs) rfl
    | cons W' A => exact ih hup.2.2.2.2 (sorted_of_lift hup.2.1 hs) rfl

def Least (s : IxIndexHandle κ order) (V : List (Block κ)) : Prop :=
  ∀ b ∈ V, ∀ k, b.2.head?.map Prod.fst = some k → IsLeast {x | Under s b.1 x} k

theorem Least.leaves (hL : ∀ b ∈ L, Holds s true b) (hs : IxNode.Sorted (flat L)) : Least s L := by
  intro b hb k hk
  obtain ⟨n, hn, hnl, hes⟩ := hL b hb
  obtain ⟨e, he, rfl⟩ := Option.map_eq_some_iff.1 hk
  refine ⟨.leaf hn hnl (hes ▸ mem_of_head? he), fun x hx => ?_⟩
  cases hx with
  | leaf hn' _ he' =>
    obtain rfl : n = _ := by simpa [hn] using hn'
    exact head_le_of_sorted (sorted_of_mem hs hb) hk (hes ▸ he')
  | node hc _ =>
    obtain ⟨n', hn', hnl', -⟩ := hc
    obtain rfl : n = n' := by simpa [hn] using hn'
    simp [hnl] at hnl'

theorem Least.up {U : List (Block κ)} (h : Least s L) (hU : ∀ b ∈ U, Holds s false b) (hlink : Linked L U)
    (hs : IxNode.Sorted (flat U)) : Least s U := by
  intro b hb k hk
  obtain ⟨n, hn, hnl, hes⟩ := hU b hb
  constructor
  · obtain ⟨e, he, rfl⟩ := Option.map_eq_some_iff.1 hk
    have hmem := mem_of_head? he
    obtain ⟨c, hc, hce, hck⟩ := hlink.child hb hmem
    exact .node ⟨n, hn, hnl, e, hes ▸ hmem, hce.symm⟩ (h c hc _ hck).1
  · intro x hx
    cases hx with
    | leaf hn' hnl' _ =>
      obtain rfl : n = _ := by simpa [hn] using hn'
      simp [hnl] at hnl'
    | node hch hx =>
      obtain ⟨e, he, rfl⟩ := hch.entry (hU b hb)
      obtain ⟨c, hc, hce, hck⟩ := hlink.child hb he
      exact (head_le_of_sorted (sorted_of_mem hs hb) hk he).trans ((h c hc _ hck).2 (hce ▸ hx))

theorem Up.least (hup : Up s L Us) (hs : IxNode.Sorted (flat L))
    (hL : Least s L) (hV : L :: Us = A ++ V :: B) : Least s V := by
  induction A generalizing L Us with
  | nil =>
    obtain ⟨rfl, rfl⟩ := List.cons.inj hV
    exact hL
  | cons W A ih =>
    obtain ⟨rfl, rfl⟩ := List.cons.inj hV
    have step : ∀ {U Us}, Up s L (U :: Us) → IxNode.Sorted (flat U) ∧ Least s U := fun hup =>
      have hsU := sorted_of_lift hup.2.1 hs
      ⟨hsU, hL.up hup.1 hup.2.1 hsU⟩
    cases A with
    | nil => exact ih hup.2.2.2.2 (step hup).1 (step hup).2 rfl
    | cons W' A => exact ih hup.2.2.2.2 (step hup).1 (step hup).2 rfl

/-! ## The invariant -/

theorem Tree.isLeafPage_iff (t : Tree s L Us) : p ∈ pagesOf L ↔ IsLeafPage s p := by
  constructor
  · intro hp
    obtain ⟨b, hb, rfl⟩ := mem_map.1 hp
    obtain ⟨n, hn, hnl, -⟩ := t.holds b hb
    exact ⟨Us.length, n, t.up.reached hp, hn, hnl⟩
  · rintro ⟨d, n, hd, hn, hnl⟩
    obtain ⟨A, V, B, b, hV, -, hb, rfl, n', hn', hnl', -⟩ := t.atDepth hd
    obtain rfl : n = n' := by simpa [hn] using hn'
    obtain rfl : A = [] := by simpa [hnl] using hnl'
    obtain ⟨rfl, rfl⟩ := List.cons.inj hV
    exact mem_pagesOf hb

theorem Tree.node (t : Tree s L Us) {d : Nat} {n : IxNode κ} (h : AtDepth s d p) (hn : s.pages p = some n) :
    ∃ A V B, L :: Us = A ++ V :: B ∧ B.length = d ∧ (p, n.entries) ∈ V ∧ n.isLeaf = A.isEmpty := by
  obtain ⟨A, V, B, b, hV, hd, hb, rfl, n', hn', hnl, hes⟩ := t.atDepth h
  obtain rfl : n = n' := by simpa [hn] using hn'
  exact ⟨A, V, B, hV, hd, by rwa [hes], hnl⟩

theorem Tree.flat_eq (t : Tree s L Us) : (pagesOf L).flatMap (entriesOf s) = flat L := by
  rw [pagesOf, flatMap_map, flat]
  refine flatMap_congr fun b hb => ?_
  obtain ⟨n, hn, -, hes⟩ := t.holds b hb
  simp [entriesOf, hn, hes]

theorem Tree.repInvariant (t : Tree s L Us) : RepInvariant s where
  exists_node d p hp := by
    obtain ⟨A, V, B, b, -, -, -, rfl, n, hn, -⟩ := t.atDepth hp
    exact ⟨n, hn⟩
  depth := by
    refine ⟨Us.length, fun d p n hp hn => ?_⟩
    obtain ⟨A, V, B, hV, rfl, -, hnl⟩ := t.node hp hn
    have hlen := congrArg List.length hV
    simp only [length_cons, length_append] at hlen
    rw [hnl, List.isEmpty_iff, ← length_eq_zero_iff]
    omega
  increasing d p n hp hn := by
    obtain ⟨A, V, B, hV, -, hb, -⟩ := t.node hp hn
    simpa [IxNode.Sorted] using sorted_of_mem (t.up.sorted t.sorted hV) hb
  separators d p n hp hn hnl e he := by
    obtain ⟨A, V, B, hV, -, hb, hA⟩ := t.node hp hn
    rcases eq_nil_or_concat A with rfl | ⟨A, W, rfl⟩
    · simp [hnl] at hA
    · have hW : L :: Us = A ++ W :: V :: B := by simpa using hV
      obtain ⟨c, hc, hce, hck⟩ := (t.up.drop hW).2.1.child hb he
      have hleast := t.up.least t.sorted (.leaves t.holds t.sorted) hW c hc e.1 hck
      rw [hce] at hleast
      exact ⟨hleast.1, fun k hk => by simpa using hleast.2 hk⟩
  size d p n hp hn hroot := by
    obtain ⟨A, V, B, hV, rfl, hb, hA⟩ := t.node hp hn
    have hB : B ≠ [] := by
      rintro rfl
      cases hp
      exact hroot rfl
    simp only [maxSize, Nat.add_sub_cancel]
    cases A with
    | nil =>
      obtain ⟨rfl, rfl⟩ := List.cons.inj hV
      exact ⟨t.leafMin hB _ hb, t.leafMax _ hb⟩
    | cons W A =>
      obtain ⟨rfl, rfl⟩ := List.cons.inj hV
      have hsz := t.sizes.drop _ hb
      simp only [SizeOK, List.isEmpty_iff, hB, if_false] at hsz
      exact hsz
  rootSize n hn hnl := by
    obtain ⟨A, V, B, hV, hB, hb, hA⟩ := t.node .root hn
    cases A with
    | nil => simp [hnl] at hA
    | cons W A =>
      obtain ⟨rfl, rfl⟩ := List.cons.inj hV
      have hsz := t.sizes.drop _ hb
      simp only [SizeOK, List.isEmpty_iff, length_eq_zero_iff.1 hB, if_true] at hsz
      exact hsz.1
  parent d p c hp hc := by
    obtain ⟨n, hn, hnl, e, he, rfl⟩ := hc
    obtain ⟨A, V, B, hV, -, hb, hA⟩ := t.node hp hn
    rcases eq_nil_or_concat A with rfl | ⟨A, W, rfl⟩
    · simp [hnl] at hA
    · exact (t.up.drop (A := A) (V := W) (B := V :: B) (by simpa using hV)).2.2.1 _ hb e he
  rootParent := by
    obtain ⟨A, b, -, hroot, hpar⟩ := t.up.root_level
    rw [hroot]
    exact hpar
  leaves := by
    refine ⟨pagesOf L, ?_, t.last, (nodup_append.1 t.nodup).1, fun p => t.isLeafPage_iff, ?_, t.chained⟩
    · rw [t.first.1, t.first.2]
    · rw [t.flat_eq]
      simpa [IxNode.Sorted] using t.sorted

end Tree

/-- The invariant holds in every state that calls on a new index lead to. -/
theorem run_repInvariant (cols : List KeyCol) (f : IxFile (Key cols) (btreeOrder cols)) (hf : createIndex cols = some f)
    (calls : List (Call (Key cols))) (h : List (Call (Key cols) × Reply)) (s : IxIndexHandle (Key cols) (btreeOrder cols))
    (hrun : Run.run call (openIndex f) calls = some (h, s)) : RepInvariant s := by
  obtain ⟨h', s', hrun', ⟨L, Us, t, -⟩, -⟩ := run_represents cols f hf calls
  rw [hrun', Option.some.injEq, Prod.mk.injEq] at hrun
  obtain ⟨rfl, rfl⟩ := hrun
  exact t.repInvariant

theorem run_repInvariant_int :
    ∃ (f : IxFile (Key [.int]) _) (h : _) (s : _), createIndex [.int] = some f ∧
      Run.run call (openIndex f) [.insertEntry ⟨[7, 0, 0, 0], rfl, rfl⟩ ⟨1, 0⟩, .insertEntry ⟨[9, 0, 0, 0], rfl, rfl⟩ ⟨1, 1⟩,
        .deleteEntry ⟨[7, 0, 0, 0], rfl, rfl⟩] = some (h, s) ∧ RepInvariant s := by
  obtain ⟨h, s, hrun, -⟩ := run_represents [.int] _ rfl [.insertEntry ⟨[7, 0, 0, 0], rfl, rfl⟩ ⟨1, 0⟩,
    .insertEntry ⟨[9, 0, 0, 0], rfl, rfl⟩ ⟨1, 1⟩, .deleteEntry ⟨[7, 0, 0, 0], rfl, rfl⟩]
  exact ⟨_, h, s, rfl, hrun, run_repInvariant [.int] _ rfl _ h s hrun⟩

/-- A `(FLOAT, INT)` key: the upper two bytes of the one, the lowest of the other. -/
def floatIntKey (b c n : UInt8) : RawKey [.float, .int] := ⟨[0, 0, b, c, n, 0, 0, 0], rfl⟩

/-- The keys `(1.0, 5)`, `(2.0, 3)` and `(NaN, 4)`: the third is above the second, but not above the first. -/
def nanInserts : List (Call (RawKey [.float, .int])) :=
  [.insertEntry (floatIntKey 0x80 0x3f 5) ⟨1, 0⟩, .insertEntry (floatIntKey 0 0x40 3) ⟨1, 1⟩,
    .insertEntry (floatIntKey 0xc0 0x7f 4) ⟨1, 2⟩]

/-- `(1.5, 9)` comes between the first two, and then the second goes. -/
def nanCalls : List (Call (RawKey [.float, .int])) :=
  nanInserts ++ [.insertEntry (floatIntKey 0xc0 0x3f 9) ⟨1, 3⟩, .deleteEntry (floatIntKey 0 0x40 3)]

theorem not_repInvariant_of_root {κ : Type} [IxCmp κ] {s : IxIndexHandle κ order} {n : IxNode κ}
    (hn : s.pages s.rootPage = some n) (hkeys : ¬ n.entries.Pairwise fun e e' => ixCmp e.1 e'.1 < 0) :
    ¬ RepInvariant s :=
  fun h => hkeys (h.increasing 0 s.rootPage n .root hn)

set_option maxRecDepth 10000 in
/-- After these calls `(1.5, 9)` stands before `(NaN, 4)`, which `ix_compare` takes for the smaller one. -/
theorem nan_unordered :
    ∃ (f : IxFile (RawKey [.float, .int]) _) (h : _) (s : _), createIndex [.float, .int] = some f ∧
      Run.run call (openIndex f) nanCalls = some (h, s) ∧ ¬ RepInvariant s := by
  have hrun : (createIndex [.float, .int] : Option (IxFile (RawKey [.float, .int]) _)).any (fun f =>
      (Run.run call (openIndex f) nanCalls).any fun r => (r.2.pages r.2.rootPage).any fun n =>
        !decide (n.entries.Pairwise fun e e' => ixCmp e.1 e'.1 < 0)) = true := by decide +kernel
  simp only [Option.any_eq_true, Bool.not_eq_true', decide_eq_false_iff_not] at hrun
  obtain ⟨f, hf, ⟨h, s⟩, hs, n, hn, hkeys⟩ := hrun
  exact ⟨f, h, s, hf, hs, not_repInvariant_of_root hn hkeys⟩

/-! ## The height of the tree -/

theorem mul_length_le_flat {m : Nat} {L : List (Block κ)} (h : ∀ b ∈ L, m ≤ b.2.length) : m * L.length ≤ (flat L).length := by
  induction L with
  | nil => simp
  | cons b L ih =>
    obtain ⟨hb, hL⟩ := forall_mem_cons.1 h
    have := ih hL
    rw [flat_cons, length_append, length_cons, Nat.mul_succ]
    omega

theorem Up.two_mul_pow_le {s : IxIndexHandle κ order} {L U : List (Block κ)} {Us : List (List (Block κ))}
    (hup : Up s L (U :: Us)) (hsizes : Sizes order (U :: Us)) : 2 * minSize order ^ Us.length ≤ L.length := by
  induction Us generalizing L U with
  | nil =>
    obtain ⟨b, rfl, -⟩ := hup.2.2.2.2
    have hlen := congrArg length hup.2.1.pages
    have hb := (hsizes.1 b (mem_singleton_self b)).1
    simp [pagesOf, flat] at hlen hb
    simp
    omega
  | cons V Us ih =>
    have hlen := congrArg length hup.2.1.pages
    have hflat := mul_length_le_flat fun b hb => (hsizes.1 b hb).1
    have hrec := Nat.mul_le_mul_left (minSize order) (ih hup.2.2.2.2 hsizes.2)
    simp only [length_map, pagesOf] at hlen
    simp at hflat
    rw [length_cons, pow_succ]
    linarith

/-- No way from the root is longer than the logarithm of the number of keys. -/
theorem run_depth_le (cols : List KeyCol) (f : IxFile (Key cols) (btreeOrder cols)) (hf : createIndex cols = some f)
    (calls : List (Call (Key cols))) :
    ∃ h s, Run.run call (openIndex f) calls = some (h, s) ∧ ∃ keys : List (Key cols), keys.Nodup ∧
      (∀ key, key ∈ keys ↔ lastInsert h key ≠ none) ∧
      ∀ d p, AtDepth s d p → d = 0 ∨ 2 * minSize (btreeOrder cols) ^ d ≤ keys.length := by
  obtain ⟨h, s, hrun, ⟨L, Us, t, hmem⟩, -⟩ := run_represents cols f hf calls
  have hord := (createIndex_eq hf).1
  refine ⟨h, s, hrun, (flat L).map Prod.fst, ?_, fun key => ?_, fun d p hp => ?_⟩
  · exact pairwise_map.2 (t.sorted.imp fun hlt => hlt.ne)
  · simp [hmem, Option.ne_none_iff_exists']
  · obtain ⟨A, V, B, b, hV, rfl, -⟩ := t.atDepth hp
    have hlen := congrArg length hV
    simp only [length_cons, length_append] at hlen
    cases Us with
    | nil =>
      rw [length_nil] at hlen
      omega
    | cons U Us =>
      right
      have hle : B.length ≤ Us.length + 1 := by
        rw [length_cons] at hlen
        omega
      have hpos : 0 < minSize (btreeOrder cols) := by
        simp only [minSize, maxSize]
        omega
      have hleaves := t.up.two_mul_pow_le t.sizes
      have hkeys := mul_length_le_flat (t.leafMin (by simp))
      generalize minSize (btreeOrder cols) = m at *
      calc 2 * m ^ B.length
        _ ≤ 2 * m ^ (Us.length + 1) := Nat.mul_le_mul_left 2 (Nat.pow_le_pow_right hpos hle)
        _ = m * (2 * m ^ Us.length) := by ring
        _ ≤ m * L.length := Nat.mul_le_mul_left m hleaves
        _ ≤ ((flat L).map Prod.fst).length := by rwa [length_map]

theorem run_depth_le_int : ∃ (f : IxFile (Key [.int]) _) (h : _) (s : _), createIndex [.int] = some f ∧
    Run.run call (openIndex f) [.insertEntry ⟨[7, 0, 0, 0], rfl, rfl⟩ ⟨1, 0⟩] = some (h, s) ∧
    ∃ keys : List (Key [.int]), ∀ d p, AtDepth s d p → d = 0 ∨ 2 * minSize (btreeOrder [.int]) ^ d ≤ keys.length := by
  obtain ⟨h, s, hrun, keys, -, -, hdepth⟩ := run_depth_le [.int] _ rfl [.insertEntry ⟨[7, 0, 0, 0], rfl, rfl⟩ ⟨1, 0⟩]
  exact ⟨_, h, s, rfl, hrun, keys, hdepth⟩

end Rmdb.Index
