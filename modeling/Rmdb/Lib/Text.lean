/-
Text that is read word by word.

A reader takes the next word of the text, whatever white space comes before it,
and leaves the rest. What it gives depends on the words of the text alone, so a
reader is described by the words it takes: `Reads`. Readers one after the other
take their words one after the other.
-/
import Mathlib.Tactic

namespace Rmdb.Text

open List

abbrev IStream := StateT (List Char) Option

def isSpace (c : Char) : Bool := c = ' ' || (9 ≤ c.toNat && c.toNat ≤ 13)

def word : IStream String := fun cs =>
  let cs := cs.dropWhile isSpace
  match cs.takeWhile fun c => !isSpace c with
  | [] => none
  | w => some (String.ofList w, cs.dropWhile fun c => !isSpace c)

/-- The number at the beginning of the text. One that was written from a variable fits into it. -/
def digits (cs : List Char) : Option (Nat × List Char) :=
  match cs.takeWhile Char.isDigit with
  | [] => none
  | ds => some (Nat.ofDigitChars 10 ds 0, cs.dropWhile Char.isDigit)

def size : IStream Nat := fun cs => digits (cs.dropWhile isSpace)

def int : IStream Int := fun cs =>
  let cs := cs.dropWhile isSpace
  if cs.head? = some '-' then (digits cs.tail).map fun (n, rest) => (-(n : Int), rest)
  else (digits cs).map fun (n, rest) => ((n : Int), rest)

def natText (n : Nat) : List Char := Nat.toDigits 10 n

def intText : Int → List Char
  | .ofNat n => natText n
  | .negSucc n => '-' :: natText (n + 1)

/-! ## Words -/

def split : List Char → List Char × List (List Char)
  | [] => ([], [])
  | c :: cs =>
    let (w, ws) := split cs
    if isSpace c then ([], if w = [] then ws else w :: ws) else (c :: w, ws)

def words (cs : List Char) : List (List Char) :=
  let (w, ws) := split cs
  if w = [] then ws else w :: ws

def Ends (cs : List Char) : Prop := ∀ c ∈ cs.head?, isSpace c

@[simp] theorem words_nil : words [] = [] := rfl

variable {c : Char}

theorem split_space (hc : isSpace c) (cs : List Char) : split (c :: cs) = ([], words cs) := by
  rw [split, words]
  simp [hc]

theorem split_other (hc : isSpace c = false) (cs : List Char) :
    split (c :: cs) = (c :: (split cs).1, (split cs).2) := by
  rw [split]
  simp [hc]

theorem words_space (hc : isSpace c) (cs : List Char) : words (c :: cs) = words cs := by
  rw [words, split_space hc]
  rfl

theorem split_append (hc : isSpace c) (as bs : List Char) :
    split (as ++ c :: bs) = ((split as).1, (split as).2 ++ words bs) := by
  induction as with
  | nil => exact split_space hc bs
  | cons a as ih =>
    rw [cons_append]
    by_cases ha : isSpace a
    · rw [split_space ha, split_space ha, words, words, ih]
      simp only
      split_ifs <;> rfl
    · rw [split_other (by simpa using ha), split_other (by simpa using ha), ih]

theorem words_append (hc : isSpace c) (as bs : List Char) : words (as ++ c :: bs) = words as ++ words bs := by
  rw [words, words, split_append hc]
  simp only
  split_ifs <;> rfl

theorem exists_of_split (cs : List Char) :
    ∃ rest, cs = (split cs).1 ++ rest ∧ Ends rest ∧ words rest = (split cs).2 := by
  induction cs with
  | nil => exact ⟨[], rfl, nofun, rfl⟩
  | cons c cs ih =>
    by_cases hc : isSpace c
    · rw [split_space hc]
      refine ⟨c :: cs, rfl, ?_, words_space hc cs⟩
      intro d hd
      cases hd
      exact hc
    · rw [split_other (by simpa using hc)]
      obtain ⟨rest, hcs, hends, hrest⟩ := ih
      exact ⟨rest, by simpa using hcs, hends, hrest⟩

variable {w cs rest : List Char}

theorem words_of_word (hne : w ≠ []) (hw : ∀ c ∈ w, isSpace c = false) : words w = [w] := by
  have hsplit : split w = (w, []) := by
    clear hne
    induction w with
    | nil => rfl
    | cons c w ih => rw [split_other (hw c (by simp)), ih fun d hd => hw d (by simp [hd])]
  rw [words, hsplit]
  simp [hne]

variable {ws : List (List Char)}

theorem exists_of_words (h : words cs = w :: ws) :
    ∃ rest, cs.dropWhile isSpace = w ++ rest ∧ Ends rest ∧ words rest = ws := by
  induction cs with
  | nil => cases h
  | cons c cs ih =>
    by_cases hc : isSpace c
    · rw [words_space hc] at h
      rw [dropWhile_cons_of_pos hc]
      exact ih h
    · obtain ⟨rest, hcs, hends, hrest⟩ := exists_of_split (c :: cs)
      rw [words] at h
      rw [dropWhile_cons_of_neg hc]
      rw [split_other (by simpa using hc)] at h hcs hrest
      simp only [reduceCtorEq, if_false, List.cons.injEq] at h
      obtain ⟨rfl, rfl⟩ := h
      exact ⟨rest, hcs, hends, hrest⟩

/-! ## What a reader takes -/

def Reads {α : Type} (r : IStream α) (ws : List (List Char)) (a : α) : Prop :=
  ∀ cs ws', words cs = ws ++ ws' → ∃ rest, r.run cs = some (a, rest) ∧ words rest = ws'

variable {α : Type}

theorem Reads.pure (a : α) : Reads (pure a) [] a := fun cs _ h => ⟨cs, rfl, h⟩

variable {r : IStream α} {a : α}

theorem Reads.bind {β : Type} {f : α → IStream β} {b : β} {ws' : List (List Char)}
    (hr : Reads r ws a) (hf : Reads (f a) ws' b) : Reads (r >>= f) (ws ++ ws') b := by
  intro cs us h
  rw [append_assoc] at h
  obtain ⟨rest, hrun, hrest⟩ := hr cs _ h
  obtain ⟨rest', hrun', hrest'⟩ := hf rest us hrest
  refine ⟨rest', ?_, hrest'⟩
  rw [StateT.run_bind, hrun]
  exact hrun'

theorem Reads.exists_run (h : Reads r ws a) (hcs : words cs = ws) : ∃ rest, r.run cs = some (a, rest) := by
  obtain ⟨rest, hrun, _⟩ := h cs [] (by simp [hcs])
  exact ⟨rest, hrun⟩

def IsName (s : String) : Prop := s.toList ≠ [] ∧ ∀ c ∈ s.toList, isSpace c = false

-- The instance over the members of the list; the one over all characters does not compute.
instance (s : String) : Decidable (IsName s) :=
  have : Decidable (∀ c ∈ s.toList, isSpace c = false) := List.decidableBAll _ _
  inferInstanceAs (Decidable (_ ∧ _))

variable {s : String}

theorem words_name (h : IsName s) : words s.toList = [s.toList] := words_of_word h.1 h.2

theorem takeWhile_ends {p : Char → Bool} (hw : ∀ c ∈ w, p c) (hends : Ends rest)
    (hp : ∀ c, isSpace c → p c = false) : (w ++ rest).takeWhile p = w ∧ (w ++ rest).dropWhile p = rest := by
  have hrest : rest.takeWhile p = [] ∧ rest.dropWhile p = rest := by
    cases rest with
    | nil => exact ⟨rfl, rfl⟩
    | cons c rest =>
      have hc : p c = false := hp c (hends c rfl)
      simp [hc]
  constructor
  · rw [takeWhile_append_of_pos hw, hrest.1, append_nil]
  · rw [dropWhile_append_of_pos hw, hrest.2]

theorem reads_word (h : IsName s) : Reads word [s.toList] s := by
  intro cs ws hcs
  obtain ⟨rest, hdrop, hends, hrest⟩ := exists_of_words hcs
  have hw : ∀ c ∈ s.toList, (!isSpace c) = true := fun c hc => by simp [h.2 c hc]
  obtain ⟨htake, hdrop'⟩ := takeWhile_ends hw hends fun c hc => by simp [hc]
  refine ⟨rest, ?_, hrest⟩
  change word cs = _
  rw [word]
  simp only [hdrop, htake, hdrop']
  split
  · rename_i hnil
    exact absurd hnil h.1
  · rw [String.ofList_toList]

/-! ### Numbers -/

theorem isSpace_of_isDigit (h : c.isDigit) : isSpace c = false := by
  have hrange : 48 ≤ c.toNat ∧ c.toNat ≤ 57 := by simpa [Char.isDigit, UInt32.le_iff_toNat_le] using h
  have hne : c ≠ ' ' := by
    intro hc
    rw [hc] at hrange
    exact absurd hrange (by decide)
  simp only [isSpace, hne, decide_false, Bool.false_or, Bool.and_eq_false_iff, decide_eq_false_iff_not]
  omega

theorem natText_digits (n : Nat) : natText n ≠ [] ∧ ∀ c ∈ natText n, c.isDigit :=
  ⟨Nat.toDigits_ne_nil, fun _ hc => Nat.isDigit_of_mem_toDigits (by decide) (by decide) hc⟩

theorem words_natText (n : Nat) : words (natText n) = [natText n] :=
  words_of_word (natText_digits n).1 fun c hc => isSpace_of_isDigit ((natText_digits n).2 c hc)

theorem words_intText (n : Int) : words (intText n) = [intText n] := by
  cases n with
  | ofNat n => exact words_natText n
  | negSucc n =>
    refine words_of_word (by simp [intText]) fun c hc => ?_
    rcases mem_cons.1 hc with rfl | hc
    · rfl
    · exact isSpace_of_isDigit ((natText_digits (n + 1)).2 c hc)

theorem digits_natText (n : Nat) (hends : Ends rest) : digits (natText n ++ rest) = some (n, rest) := by
  have hspace (c : Char) (hc : isSpace c) : c.isDigit = false := by
    by_contra hd
    simp [isSpace_of_isDigit (by simpa using hd)] at hc
  obtain ⟨htake, hdrop⟩ := takeWhile_ends (natText_digits n).2 hends hspace
  rw [digits]
  simp only [htake, hdrop]
  split
  · rename_i hnil
    exact absurd hnil (natText_digits n).1
  · rw [natText, Nat.ofDigitChars_toDigits (by decide) (by decide)]

theorem reads_size (n : Nat) : Reads size [natText n] n := by
  intro cs ws hcs
  obtain ⟨rest, hdrop, hends, hrest⟩ := exists_of_words hcs
  refine ⟨rest, ?_, hrest⟩
  change digits (cs.dropWhile isSpace) = _
  rw [hdrop, digits_natText n hends]

theorem reads_int (n : Int) : Reads int [intText n] n := by
  intro cs ws hcs
  obtain ⟨rest, hdrop, hends, hrest⟩ := exists_of_words hcs
  refine ⟨rest, ?_, hrest⟩
  change int cs = _
  rw [int]
  simp only [hdrop]
  cases n with
  | ofNat n =>
    have hhead : (natText n ++ rest).head? ≠ some '-' := by
      intro hminus
      obtain ⟨hne, hdigits⟩ := natText_digits n
      obtain ⟨c, ds, hcons⟩ := exists_cons_of_ne_nil hne
      rw [hcons, cons_append, List.head?_cons, Option.some.injEq] at hminus
      exact absurd (hdigits c (by simp [hcons])) (by simp [hminus])
    change (if (natText n ++ rest).head? = some '-' then _ else (digits (natText n ++ rest)).map _) = _
    rw [if_neg hhead, digits_natText n hends]
    rfl
  | negSucc n =>
    change (digits (natText (n + 1) ++ rest)).map _ = _
    rw [digits_natText (n + 1) hends]
    rfl

end Rmdb.Text
