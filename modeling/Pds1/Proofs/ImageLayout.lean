import Mathlib.Data.Nat.Bitwise
import Pds1.Image.Reader
import Pds1.Image.Writer

/-!
# The words of an image

An image is laid out as sixteen-bit words: the words of each block in turn and then a trailer. The
reader finds the blocks again from the top bit of the first word alone, so a load address must leave
that bit free. Nothing is said here about how a writer comes to such a layout.
-/

namespace Pds1.Image

theorem wordOfBytes_split (w : UInt16) : wordOfBytes (w >>> 8).toUInt8 w.toUInt8 = w := by
  have hw := w.toNat_lt
  have shift : (8 : UInt16).toNat % 16 = 8 := rfl
  apply UInt16.toNat_inj.mp
  simp only [wordOfBytes, UInt16.toNat_or, UInt16.toNat_shiftLeft, UInt8.toNat_toUInt16,
    UInt16.toNat_toUInt8, UInt16.toNat_shiftRight, shift]
  have high : (w.toNat >>> 8 % 2 ^ 8) <<< 8 % 2 ^ 16 = (w.toNat / 2 ^ 8) <<< 8 := by
    rw [Nat.shiftRight_eq_div_pow, Nat.shiftLeft_eq, Nat.shiftLeft_eq]
    omega
  rw [high, ← Nat.shiftLeft_add_eq_or_of_lt (by omega), Nat.shiftLeft_eq]
  omega

theorem toWords_flatMap_wordBytes (words : List UInt16) :
    toWords (words.flatMap wordBytes) = (words, false) := by
  induction words with
  | nil => rfl
  | cons w rest ih =>
    rw [List.flatMap_cons]
    simp only [wordBytes, List.cons_append, List.nil_append, toWords, ih, wordOfBytes_split]

theorem length_flatMap_wordBytes (words : List UInt16) :
    (words.flatMap wordBytes).length = 2 * words.length := by
  induction words with
  | nil => rfl
  | cons w rest ih =>
    rw [List.flatMap_cons, List.length_append, ih, List.length_cons]
    simp only [wordBytes, List.length_cons, List.length_nil]
    omega

theorem toNat_and_startFlag (w : UInt16) :
    (w &&& startFlag).toNat = w.toNat / 2 ^ 15 * 2 ^ 15 := by
  have hw := w.toNat_lt
  rw [UInt16.toNat_and, show startFlag.toNat = 2 ^ 15 from rfl, Nat.and_two_pow]
  by_cases h : w.toNat < 2 ^ 15
  · rw [Nat.testBit_lt_two_pow h, Nat.div_eq_of_lt h]
    rfl
  · have top : w.toNat.testBit 15 = true :=
      Nat.testBit_of_two_pow_le_and_two_pow_add_one_gt (by omega) hw
    have one : w.toNat / 2 ^ 15 = 1 := by omega
    rw [top, one]
    rfl

theorem toNat_and_not_startFlag (w : UInt16) :
    (w &&& ~~~startFlag).toNat = w.toNat % 2 ^ 15 := by
  rw [UInt16.toNat_and, show (~~~startFlag).toNat = 2 ^ 15 - 1 from rfl,
    Nat.and_two_pow_sub_one_eq_mod]

theorem toNat_or_startFlag (w : UInt16) :
    (w ||| startFlag).toNat = w.toNat % 2 ^ 15 + 2 ^ 15 := by
  have hw := w.toNat_lt
  rw [UInt16.toNat_or, show startFlag.toNat = 2 ^ 15 from rfl]
  by_cases h : w.toNat < 2 ^ 15
  · rw [Nat.or_two_pow_eq_add_of_lt h, Nat.mod_eq_of_lt h]
  · have low := Nat.mod_lt w.toNat (show 0 < 2 ^ 15 by decide)
    have parts : w.toNat = w.toNat % 2 ^ 15 ||| 2 ^ 15 := by
      rw [Nat.or_two_pow_eq_add_of_lt low]
      omega
    calc w.toNat ||| 2 ^ 15 = (w.toNat % 2 ^ 15 ||| 2 ^ 15) ||| 2 ^ 15 := by rw [← parts]
      _ = w.toNat % 2 ^ 15 ||| 2 ^ 15 := by rw [Nat.or_assoc, Nat.or_self]
      _ = w.toNat % 2 ^ 15 + 2 ^ 15 := Nat.or_two_pow_eq_add_of_lt low

namespace Block

/-- The words of a block as they stand in an image. -/
def layout (format : Format) (b : Block) : List UInt16 :=
  match format with
  | .loader => 0 :: b.words
  | .block =>
    let count := UInt16.ofNat b.words.length
    b.address :: -count :: -(sum b.words + b.address - count) :: b.words

/-- The blocks that an image of the format can hold. -/
def Fits (format : Format) (b : Block) : Prop :=
  match format with
  | .loader => b.address = loaderBase ∧ b.words.length = loaderWords
  | .block => b.address.toNat < 2 ^ 15 ∧ b.words.length < 2 ^ 16

end Block

/-- The trailer as words. -/
def trailerWords : Option Int32 → List UInt16
  | some address => [address.toUInt32.toUInt16 ||| startFlag, 0]
  | none => [terminator]

/-- The address that a start trailer gives back: its low fifteen bits, unless these are all ones.
A trailer with all ones cannot be told from the end of an image without a start address. -/
def readStart : Option Int32 → Option UInt16
  | none => none
  | some address =>
    let low := address.toUInt32.toUInt16 &&& ~~~startFlag
    if low = ~~~startFlag then none else some low

/-- The words of a whole image. -/
def layoutWords (format : Format) (blocks : List Block) (start : Option Int32) : List UInt16 :=
  blocks.flatMap (Block.layout format) ++ trailerWords start

theorem trailer_eq (start : Option Int32) :
    Writer.trailer start = (trailerWords start).flatMap wordBytes := by
  cases start with
  | none => rfl
  | some address => rfl

/-- A word below the flag is neither a terminator nor a start trailer. -/
theorem untagged {w : UInt16} (h : w.toNat < 2 ^ 15) : w ≠ terminator ∧ w &&& startFlag = 0 := by
  constructor
  · rintro rfl
    exact absurd h (by decide)
  · apply UInt16.toNat_inj.mp
    rw [toNat_and_startFlag, Nat.div_eq_of_lt h]
    rfl

/-- Load address, negated count, check word and data of a block add up to zero. -/
theorem block_sum_zero (address count total : UInt16) :
    address + -count + -(total + address - count) + total = 0 := by
  grind

theorem readWords_layout_loader (odd : Bool) (offset : Nat) {b : Block} (fits : b.Fits .loader)
    (rest : List UInt16) :
    readWords .loader odd offset (b.layout .loader ++ rest) =
      .after b (readWords .loader odd (offset + 2 * (b.layout .loader).length) rest) := by
  obtain ⟨address, words⟩ := b
  obtain ⟨rfl, hlen⟩ := fits
  have head := untagged (w := 0) (by decide)
  have enough : ¬ (words ++ rest).length < loaderWords := by
    rw [List.length_append, hlen]
    omega
  have next : offset + 2 * (words.length + 1) = offset + 2 + 2 * loaderWords := by
    rw [hlen]
    omega
  simp only [Block.layout, List.length_cons, next]
  rw [List.cons_append, readWords.eq_def]
  simp only [head.1, head.2, enough, if_false, ne_eq, not_true_eq_false]
  rw [List.take_left' hlen, List.drop_left' hlen]

theorem readWords_layout_block (odd : Bool) (offset : Nat) {b : Block} (fits : b.Fits .block)
    (rest : List UInt16) :
    readWords .block odd offset (b.layout .block ++ rest) =
      .after b (readWords .block odd (offset + 2 * (b.layout .block).length) rest) := by
  obtain ⟨address, words⟩ := b
  obtain ⟨small, hlen⟩ := fits
  have head := untagged small
  have count : (- -UInt16.ofNat words.length).toNat = words.length := by
    rw [UInt16.neg_neg, UInt16.toNat_ofNat', Nat.mod_eq_of_lt hlen]
  have enough : ¬ (words ++ rest).length < words.length := by
    rw [List.length_append]
    omega
  have next : offset + 2 * (words.length + 1 + 1 + 1) = offset + 6 + 2 * words.length := by omega
  simp only [Block.layout, List.length_cons, next]
  rw [List.cons_append, List.cons_append, List.cons_append, readWords.eq_def]
  simp only [head.1, head.2, count, enough, if_false, ne_eq, not_true_eq_false,
    List.take_left, List.drop_left, block_sum_zero]

theorem readWords_layout (format : Format) (odd : Bool) (offset : Nat) {b : Block}
    (fits : b.Fits format) (rest : List UInt16) :
    readWords format odd offset (b.layout format ++ rest) =
      .after b (readWords format odd (offset + 2 * (b.layout format).length) rest) := by
  cases format with
  | loader => exact readWords_layout_loader odd offset fits rest
  | block => exact readWords_layout_block odd offset fits rest

theorem or_startFlag_eq_terminator_iff (w : UInt16) :
    w ||| startFlag = terminator ↔ w &&& ~~~startFlag = ~~~startFlag := by
  have hor := toNat_or_startFlag w
  have hand := toNat_and_not_startFlag w
  rw [← UInt16.toNat_inj, ← UInt16.toNat_inj, hor, hand, show terminator.toNat = 65535 from rfl,
    show (~~~startFlag).toNat = 32767 from rfl]
  omega

theorem or_startFlag_and_not_startFlag (w : UInt16) :
    (w ||| startFlag) &&& ~~~startFlag = w &&& ~~~startFlag := by
  apply UInt16.toNat_inj.mp
  rw [toNat_and_not_startFlag, toNat_and_not_startFlag, toNat_or_startFlag]
  omega

theorem or_startFlag_and_startFlag (w : UInt16) : (w ||| startFlag) &&& startFlag ≠ 0 := by
  intro h
  have zero := congrArg UInt16.toNat h
  rw [toNat_and_startFlag, toNat_or_startFlag, show (0 : UInt16).toNat = 0 from rfl] at zero
  omega

theorem readWords_trailer (format : Format) (odd : Bool) (offset : Nat) (start : Option Int32) :
    ∃ trailing, readWords format odd offset (trailerWords start) =
      ⟨[], .trailer (readStart start) trailing⟩ := by
  cases start with
  | none => exact ⟨_, by rw [trailerWords, readWords.eq_def]; rfl⟩
  | some address =>
    simp only [trailerWords, readStart]
    generalize address.toUInt32.toUInt16 = w
    have flagged := or_startFlag_and_startFlag w
    rw [readWords.eq_def]
    by_cases same : w ||| startFlag = terminator
    · have ones := (or_startFlag_eq_terminator_iff w).mp same
      simp [same, ones]
    · have ones : ¬ w &&& ~~~startFlag = ~~~startFlag :=
        fun h => same ((or_startFlag_eq_terminator_iff w).mpr h)
      simp [same, flagged, ones, or_startFlag_and_not_startFlag]

/-- The reader finds exactly the blocks of a layout. -/
theorem readWords_layoutWords (format : Format) (odd : Bool) (offset : Nat) (blocks : List Block)
    (fits : ∀ b ∈ blocks, b.Fits format) (start : Option Int32) :
    ∃ trailing, readWords format odd offset (layoutWords format blocks start) =
      ⟨blocks, .trailer (readStart start) trailing⟩ := by
  induction blocks generalizing offset with
  | nil => exact readWords_trailer format odd offset start
  | cons b rest ih =>
    have hb := fits b List.mem_cons_self
    obtain ⟨trailing, hrest⟩ := ih (offset + 2 * (b.layout format).length)
      (fun c hc => fits c (List.mem_cons_of_mem b hc))
    refine ⟨trailing, ?_⟩
    rw [layoutWords, List.flatMap_cons, List.append_assoc, readWords_layout format odd offset hb,
      ← layoutWords, hrest]
    rfl

theorem decode_layoutWords (format : Format) (blocks : List Block)
    (fits : ∀ b ∈ blocks, b.Fits format) (start : Option Int32) :
    decode format ((layoutWords format blocks start).flatMap wordBytes) =
      .ok ⟨blocks, readStart start⟩ := by
  obtain ⟨trailing, h⟩ := readWords_layoutWords format false 0 blocks fits start
  simp only [decode, readBytes, toWords_flatMap_wordBytes, h]

end Pds1.Image
