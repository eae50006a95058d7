import Pds1.Proofs.ImageDamage
import Pds1.Proofs.ImageRoundTrip

/-!
# A cut image is refused

An image tells where it ends by its trailer alone, so a part of it that stops earlier must not be
read as a smaller image. Wherever the cut falls, the reader runs out of words: inside a word, a
block or a trailer it misses the rest of it, and exactly behind a block it misses the trailer. The
highest start address is left out, since the first word of its trailer is already a whole trailer.
-/

namespace Pds1.Image

/-- The bytes of blocks as they stand in an image. -/
def blockBytes (format : Format) (blocks : List Block) : List UInt8 :=
  (blocks.flatMap (Block.layout format)).flatMap wordBytes

theorem spelled_layout {format : Format} {b : Block} (fits : b.Fits format) :
    b.Spelled format (b.layout format) := by
  obtain ⟨address, words⟩ := b
  cases format with
  | loader =>
    obtain ⟨rfl, full⟩ := fits
    exact .loader full
  | block =>
    obtain ⟨low, short⟩ := fits
    have count : (- -UInt16.ofNat words.length).toNat = words.length := by
      rw [UInt16.neg_neg, UInt16.toNat_ofNat', Nat.mod_eq_of_lt short]
    exact .block low count (sum_layout ⟨address, words⟩)

/-- Low bits that are all ones are told from the sixteen bits of the trailer. -/
theorem and_addressMask_eq_iff (address : Int32) :
    address &&& addressMask = addressMask ↔
      address.toUInt32.toUInt16 &&& ~~~startFlag = ~~~startFlag := by
  have low : (address &&& addressMask).toUInt32.toNat = address.toUInt32.toNat % 2 ^ 15 := by
    rw [Int32.toUInt32_and, UInt32.toNat_and, show addressMask.toUInt32.toNat = 2 ^ 15 - 1 from rfl,
      Nat.and_two_pow_sub_one_eq_mod]
  have low' : (address.toUInt32.toUInt16 &&& ~~~startFlag).toNat =
      address.toUInt32.toNat % 2 ^ 15 := by
    rw [toNat_and_not_startFlag, UInt32.toNat_toUInt16]
    omega
  rw [← Int32.toBitVec_inj, ← BitVec.toNat_inj, ← UInt16.toNat_inj, low']
  change (address &&& addressMask).toUInt32.toNat = 2 ^ 15 - 1 ↔ _ = 2 ^ 15 - 1
  rw [low]

theorem spelled_trailerWords {start : Option Int32}
    (readable : ∀ address ∈ start, address &&& addressMask ≠ addressMask) :
    TrailerSpelled (readStart start) (trailerWords start) := by
  cases start with
  | none => exact .stop
  | some address =>
    have readable := mt (and_addressMask_eq_iff address).mpr (readable address rfl)
    simp only [readStart, trailerWords, if_neg readable]
    generalize address.toUInt32.toUInt16 = w at readable ⊢
    have flagged : 2 ^ 15 ≤ (w ||| startFlag).toNat := by
      rw [toNat_or_startFlag]
      omega
    rw [← or_startFlag_and_not_startFlag w]
    exact .start flagged (mt (or_startFlag_eq_terminator_iff w).mp readable)

/-- A layout with a start address that can be read back spells its image. -/
theorem spelled_layoutWords {format : Format} {blocks : List Block}
    (fits : ∀ b ∈ blocks, b.Fits format) {start : Option Int32}
    (readable : ∀ address ∈ start, address &&& addressMask ≠ addressMask) :
    Spelled format ⟨blocks, readStart start⟩ (layoutWords format blocks start) := by
  induction blocks with
  | nil => exact .trailer (spelled_trailerWords readable)
  | cons b rest ih =>
    have later := ih fun c member => fits c (List.mem_cons_of_mem b member)
    rw [layoutWords, List.flatMap_cons, List.append_assoc]
    exact .block (spelled_layout (fits b List.mem_cons_self)) later

/-- The words at the front of a byte string that is cut anywhere. -/
theorem toWords_of_prefix {words : List UInt16} {front : List UInt8}
    (cut : front <+: words.flatMap wordBytes) :
    toWords front = (words.take (front.length / 2), decide (front.length % 2 = 1)) := by
  induction words generalizing front with
  | nil =>
    obtain rfl := List.prefix_nil.mp cut
    rfl
  | cons w rest ih =>
    rw [List.flatMap_cons, wordBytes, List.cons_append, List.singleton_append] at cut
    rcases front with _ | ⟨high, _ | ⟨low, front⟩⟩
    · rfl
    · simp [toWords]
    · obtain ⟨rfl, second⟩ := List.cons_prefix_cons.mp cut
      obtain ⟨rfl, later⟩ := List.cons_prefix_cons.mp second
      have half : (front.length + 1 + 1) / 2 = front.length / 2 + 1 := by omega
      have parity : (front.length + 1 + 1) % 2 = front.length % 2 := by omega
      simp only [toWords, ih later, wordOfBytes_split, List.length_cons, half, parity,
        List.take_succ_cons]

section Cuts

variable {format : Format} (odd : Bool) (offset : Nat)

/-- The reader misses the rest of a block that it has begun to read. -/
theorem readWords_cut_block {b : Block} {words : List UInt16} (h : b.Spelled format words) {n : Nat}
    (short : n + 1 < words.length) :
    readWords format odd offset (words.take (n + 1)) =
      .fault (.truncated (offset + 2 * (n + 1))) := by
  cases h with
  | @loader words full =>
    have head := untagged (w := 0) (by decide)
    have length : (words.take n).length = n := by
      simp only [List.length_cons] at short
      rw [List.length_take]
      omega
    have missing : n < loaderWords := by
      simp only [List.length_cons] at short
      omega
    have stop : offset + 2 * (n + 1) = offset + 2 + 2 * n := by omega
    rw [List.take_succ_cons, readWords.eq_def]
    simp only [head.1, head.2, length, missing, stop, if_false, if_true, ne_eq, not_true_eq_false]
  | @block address negated check words low count balanced =>
    have head := untagged low
    simp only [List.length_cons] at short
    rw [List.take_succ_cons, readWords.eq_def]
    simp only [head.1, head.2, if_false, ne_eq, not_true_eq_false]
    rcases n with _ | _ | n
    · rfl
    · rfl
    · have length : (words.take n).length = n := by
        rw [List.length_take]
        omega
      have missing : n < (-negated).toNat := by omega
      have stop : offset + 2 * (n + 1 + 1 + 1) = offset + 6 + 2 * n := by omega
      simp only [List.take_succ_cons, length, missing, stop, if_true]

theorem readWords_nil :
    readWords format odd offset [] =
      .fault (if odd then .truncated offset else .unterminated) := by
  rw [readWords.eq_def]

/-- The reader misses the second word of a start trailer. -/
theorem readWords_cut_trailer {start : Option UInt16} {words : List UInt16}
    (h : TrailerSpelled start words) {n : Nat} (short : n + 1 < words.length) :
    readWords format odd offset (words.take (n + 1)) =
      .fault (.truncated (offset + 2 * (n + 1))) := by
  cases h with
  | stop => simp at short
  | @start word flagged other =>
    obtain rfl : n = 0 := by
      simp only [List.length_cons, List.length_nil] at short
      omega
    have top := (and_startFlag_ne_zero_iff word).mpr flagged
    rw [List.take_succ_cons, List.take_zero, readWords.eq_def]
    simp [other, top]

end Cuts

/-- The reader of an image that is cut after `n` words either stops there, missing a word, or the
cut falls behind a block. -/
theorem Spelled.readWords_cut {format : Format} {image : Image} {words : List UInt16}
    (h : Spelled format image words) (odd : Bool) (offset : Nat) {n : Nat}
    (short : n < words.length) :
    (readWords format odd offset (words.take n)).ending = .fault (.truncated (offset + 2 * n)) ∨
      odd = false ∧ ∃ k, n = ((image.blocks.take k).flatMap (Block.layout format)).length := by
  induction h generalizing offset n with
  | @trailer start words closed =>
    rcases n with _ | n
    · cases odd with
      | false => exact .inr ⟨rfl, 0, rfl⟩
      | true =>
        rw [List.take_zero, readWords_nil]
        exact .inl rfl
    · rw [readWords_cut_trailer odd offset closed short]
      exact .inl rfl
  | @block b blocks start words rest first later ih =>
    rcases n with _ | n
    · cases odd with
      | false => exact .inr ⟨rfl, 0, rfl⟩
      | true =>
        rw [List.take_zero, readWords_nil]
        exact .inl rfl
    · by_cases inside : n + 1 < words.length
      · rw [List.take_append_of_le_length (Nat.le_of_lt inside),
          readWords_cut_block odd offset first inside]
        exact .inl rfl
      · -- the block is whole, and the cut falls into what follows it
        obtain ⟨fits, rfl⟩ := first.fits
        obtain ⟨m, hm⟩ := Nat.exists_eq_add_of_le (Nat.le_of_not_lt inside)
        have shorter : m < rest.length := by
          rw [List.length_append] at short
          omega
        have stop : offset + 2 * (n + 1) = offset + 2 * (b.layout format).length + 2 * m := by
          omega
        rw [hm, List.take_length_add_append, readWords_layout format odd offset fits]
        rcases ih (offset + 2 * (b.layout format).length) shorter with missed | ⟨even, k, boundary⟩
        · left
          rw [← hm, stop]
          exact missed
        · refine .inr ⟨even, k + 1, ?_⟩
          rw [boundary]
          simp

/-- Whole blocks without a trailer. -/
theorem decode_blockBytes {format : Format} {blocks : List Block}
    (fits : ∀ b ∈ blocks, b.Fits format) :
    decode format (blockBytes format blocks) = .error .unterminated := by
  obtain ⟨offset, ending⟩ := readWords_blocks format false fits 0 []
  rw [List.append_nil, readWords_nil] at ending
  simp only [decode, readBytes, blockBytes, toWords_flatMap_wordBytes, ending]
  rfl

/-- Unless the low bits of the start address are all ones, no strict prefix of an image is taken for
an image: the trailer is missing behind whole blocks, and elsewhere a word. -/
theorem cut_image_refused (format : Format) (calls : List Writer.Call)
    (readable : ∀ address ∈ lastStart calls, address &&& addressMask ≠ addressMask) :
    ∃ bytes image, encode format calls = .ok bytes ∧ decode format bytes = .ok image ∧
      ∀ front, front <+: bytes → front ≠ bytes →
        (decode format front = .error .unterminated ∨
          decode format front = .error (.truncated (2 * (front.length / 2)))) ∧
        (decode format front = .error .unterminated ↔
          ∃ n, front = blockBytes format (image.blocks.take n)) := by
  obtain ⟨bytes, encoded, decoded⟩ := decode_encode format calls
  have fits := fits_pieces format (puts calls)
  have laidOut := encode_eq format calls
  generalize (Piece.split format none ((puts calls).map placed)).map (Piece.toBlock format) =
    blocks at decoded fits laidOut
  obtain rfl := Except.ok.inj (encoded.symm.trans laidOut)
  refine ⟨_, _, encoded, decoded, ?_⟩
  have spelled := spelled_layoutWords fits readable
  have unclosed (n : Nat) : decode format (blockBytes format (blocks.take n)) =
      .error .unterminated :=
    decode_blockBytes fun b member => fits b (List.mem_of_mem_take member)
  have whole (n : Nat) : blockBytes format (blocks.take n) <+:
      (layoutWords format blocks (lastStart calls)).flatMap wordBytes := by
    refine ⟨(layoutWords format (blocks.drop n) (lastStart calls)).flatMap wordBytes, ?_⟩
    rw [blockBytes, ← List.flatMap_append, layoutWords, ← List.append_assoc, ← List.flatMap_append,
      List.take_append_drop, layoutWords]
  generalize layoutWords format blocks (lastStart calls) = words at spelled whole ⊢
  intro front cut strict
  have shorter : front.length / 2 < words.length := by
    have le := cut.length_le
    have ne : front.length ≠ (words.flatMap wordBytes).length :=
      fun same => strict (cut.eq_of_length same)
    rw [length_flatMap_wordBytes] at le ne
    omega
  rcases spelled.readWords_cut (decide (front.length % 2 = 1)) 0 shorter with
    missed | ⟨even, n, boundary⟩
  · have refused : decode format front = .error (.truncated (2 * (front.length / 2))) := by
      simp only [decode, readBytes, toWords_of_prefix cut, missed, Nat.zero_add]
    refine ⟨.inr refused, ?_⟩
    constructor
    · intro unterminated
      cases refused.symm.trans unterminated
    · rintro ⟨n, rfl⟩
      exact unclosed n
  · have length : front.length = (blockBytes format (blocks.take n)).length := by
      rw [blockBytes, length_flatMap_wordBytes, ← boundary]
      have := of_decide_eq_false even
      omega
    obtain rfl : front = blockBytes format (blocks.take n) :=
      (List.prefix_of_prefix_length_le cut (whole n) (Nat.le_of_eq length)).eq_of_length length
    exact ⟨.inl (unclosed n), fun _ => ⟨n, rfl⟩, fun _ => unclosed n⟩

/-- One word and a start address, cut behind the block and inside the trailer. -/
theorem cut_image_with_start_refused :
    (7 : Int32) &&& addressMask ≠ addressMask ∧
      ∃ bytes, encode .block [.put 5 6, .start 7] = .ok bytes ∧ bytes.length = 12 ∧
        decode .block (bytes.take 8) = .error .unterminated ∧
        decode .block (bytes.take 11) = .error (.truncated 10) := by
  have readable : (7 : Int32) &&& addressMask ≠ addressMask := by decide
  obtain ⟨bytes, image, encoded, decoded, refused⟩ :=
    cut_image_refused .block [.put 5 6, .start 7] (by rintro address ⟨⟩; exact readable)
  obtain ⟨bytes', encoded', decoded'⟩ := decode_encode .block [.put 5 6, .start 7]
  obtain rfl := Except.ok.inj (encoded.symm.trans encoded')
  obtain rfl := Except.ok.inj (decoded.symm.trans decoded')
  obtain rfl := Except.ok.inj (encoded.symm.trans (encode_eq .block [.put 5 6, .start 7]))
  refine ⟨readable, _, encoded, rfl, ?_, ?_⟩
  · exact (refused _ (List.take_prefix _ _) (by decide)).2.mpr ⟨1, by decide⟩
  · obtain ⟨unterminated | truncated, whole⟩ :=
      refused _ (List.take_prefix 11 _) (by decide)
    · obtain ⟨n, same⟩ := whole.mp unterminated
      have even : 11 = 2 * _ := (congrArg List.length same).trans (length_flatMap_wordBytes _)
      omega
    · exact truncated

end Pds1.Image
