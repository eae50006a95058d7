import Pds1.Image.Dump
import Pds1.Proofs.ImageRoundTrip

/-!
# Images in the loader format

A loader block holds 62 words and forgets where they belong. The blocks of an image are therefore
the maximal runs of consecutive locations, each cut into rows of 62 words, with zero words after a
last row that is shorter. A full row is written at once, so the word after it starts a new block
whether it continues the run or not.
-/

namespace Pds1.Image

/-- Cuts a run into the rows that loader blocks hold. -/
def cut {α : Type} (run : List α) : List (List α) := rows (loaderWords - 1) run

section Rows

variable {α : Type}

theorem cut_nil : cut ([] : List α) = [] := by
  simp [cut, rows]

/-- A row in front of a list is cut off first. -/
theorem cut_append_of_length {row : List α} (full : row.length = loaderWords) (rest : List α) :
    cut (row ++ rest) = row :: cut rest := by
  cases row with
  | nil => cases full
  | cons x r =>
    have tail : r.length = loaderWords - 1 := by
      simp only [List.length_cons] at full
      omega
    rw [cut, List.cons_append, rows, List.take_left' tail, List.drop_left' tail, cut]

theorem cut_of_length_le {row : List α} (nonempty : row ≠ []) (short : row.length ≤ loaderWords) :
    cut row = [row] := by
  cases row with
  | nil => exact absurd rfl nonempty
  | cons x r =>
    have tail : r.length ≤ loaderWords - 1 := by
      simp only [List.length_cons] at short
      omega
    rw [cut, rows, List.take_of_length_le tail, List.drop_eq_nil_of_le tail, rows]

/-- Whole rows are cut off before what follows them. -/
theorem cut_append_of_dvd {whole : List α} (dvd : loaderWords ∣ whole.length) (rest : List α) :
    cut (whole ++ rest) = cut whole ++ cut rest := by
  obtain ⟨n, count⟩ := dvd
  induction n generalizing whole with
  | zero =>
    obtain rfl : whole = [] := List.eq_nil_of_length_eq_zero count
    rw [List.nil_append, cut_nil, List.nil_append]
  | succ n ih =>
    have enough : loaderWords ≤ whole.length := by
      rw [count]
      exact Nat.le_mul_of_pos_right _ (Nat.succ_pos n)
    have first : (whole.take loaderWords).length = loaderWords := by
      rw [List.length_take]
      omega
    have later : (whole.drop loaderWords).length = loaderWords * n := by
      rw [List.length_drop, count, Nat.mul_succ, Nat.add_sub_cancel]
    have split : whole = whole.take loaderWords ++ whole.drop loaderWords :=
      (List.take_append_drop loaderWords whole).symm
    rw [split, List.append_assoc, cut_append_of_length first, cut_append_of_length first, ih later,
      List.cons_append]

end Rows

namespace Piece

/-- A piece as the block format has it, cut into whole rows and what the loader format still holds
back. -/
structure CutInto (p : Piece) (whole : List UInt16) (current : Option Piece) : Prop where
  joined : p.words = whole ++ current.elim [] Piece.words
  dvd : loaderWords ∣ whole.length
  growing : ∀ q ∈ current, q.words ≠ [] ∧ q.words.length < loaderWords ∧ q.next = p.next

theorem cutInto_single (place : Nat) (word : UInt16) :
    CutInto ⟨place, [word]⟩ [] (some ⟨place, [word]⟩) := by
  refine ⟨rfl, Nat.dvd_zero _, ?_⟩
  rintro q ⟨⟩
  exact ⟨by simp, by simp [loaderWords], rfl⟩

variable {p : Piece} {whole : List UInt16} {current : Option Piece}

theorem CutInto.cut_words (h : p.CutInto whole current) :
    cut p.words = cut whole ++ current.toList.map Piece.words := by
  rw [h.joined, cut_append_of_dvd h.dvd]
  cases current with
  | none => simp [cut_nil]
  | some q =>
    obtain ⟨nonempty, short, -⟩ := h.growing q rfl
    simp [cut_of_length_le nonempty (Nat.le_of_lt short)]

/-- A word that continues the piece joins what is held back, and may complete a row. -/
theorem CutInto.add (h : p.CutInto whole current) (word : UInt16) :
    ∃ whole', CutInto (p.add word) whole' (advance .loader current p.next word).2 ∧
      cut whole' = cut whole ++ (advance .loader current p.next word).1.map Piece.words := by
  have words := h.joined
  cases current with
  | none =>
    refine ⟨whole, ⟨?_, h.dvd, ?_⟩, by simp [advance]⟩
    · simpa [Piece.add, advance] using words
    · rintro q ⟨⟩
      refine ⟨by simp, by simp [loaderWords], ?_⟩
      simp [next, Piece.add]
      omega
  | some q =>
    obtain ⟨nonempty, short, same⟩ := h.growing q rfl
    have length : (q.add word).words.length = q.words.length + 1 := by simp [Piece.add]
    have joined : (p.add word).words = whole ++ (q.add word).words := by simp [Piece.add, words]
    have next : (q.add word).next = (p.add word).next := by
      simp only [Piece.next, Piece.add, List.length_append, List.length_singleton] at same ⊢
      omega
    by_cases full : (q.add word).isFull .loader = true
    · -- the row is complete and leaves
      have filled : (q.add word).words.length = loaderWords := by simpa [isFull] using full
      refine ⟨whole ++ (q.add word).words, ⟨?_, ?_, ?_⟩, ?_⟩
      · simpa [advance, same, full] using joined
      · rw [List.length_append, filled]
        exact (Nat.dvd_add_self_right).mpr h.dvd
      · simp [advance, same, full]
      · rw [cut_append_of_dvd h.dvd, cut_of_length_le (by simp [Piece.add]) (Nat.le_of_eq filled)]
        simp [advance, same, full]
    · have room : (q.add word).words.length ≠ loaderWords := by simpa [isFull] using full
      refine ⟨whole, ⟨?_, h.dvd, ?_⟩, by simp [advance, same, full]⟩
      · simpa [advance, same, full] using joined
      · simp only [advance, same, full, if_true]
        rintro r ⟨⟩
        exact ⟨by simp [Piece.add], by omega, next⟩

/-- The pieces of the loader format are those of the block format, cut into rows. The induction
carries the piece that the block format still has open. -/
theorem CutInto.split (h : p.CutInto whole current) (rest : List (Nat × UInt16)) :
    cut whole ++ (Piece.split .loader current rest).map Piece.words =
      (Piece.split .block (some p) rest).flatMap fun q => cut q.words := by
  induction rest generalizing p whole current with
  | nil => simp [Piece.split, h.cut_words]
  | cons entry rest ih =>
    obtain ⟨place, word⟩ := entry
    simp only [Piece.split, List.map_append]
    by_cases continues : place = p.next
    · subst continues
      obtain ⟨whole', added, leaves⟩ := h.add word
      have later := ih added
      rw [← List.append_assoc, ← leaves, later]
      simp [advance, isFull]
    · -- a gap: what was held back leaves, and both formats start again
      have later := ih (cutInto_single place word)
      rw [cut_nil, List.nil_append] at later
      have loader : advance .loader current place word =
          (current.toList, some ⟨place, [word]⟩) := by
        cases current with
        | none => rfl
        | some q =>
          obtain ⟨-, -, same⟩ := h.growing q rfl
          simp [advance, same, continues]
      have block : advance .block (some p) place word = ([p], some ⟨place, [word]⟩) := by
        simp [advance, continues]
      rw [loader, block]
      simp only [later, List.cons_append, List.nil_append, List.flatMap_cons, h.cut_words,
        List.append_assoc]

end Piece

end Pds1.Image
