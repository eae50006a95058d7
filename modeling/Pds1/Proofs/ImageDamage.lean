import Pds1.Proofs.ImageGrammar
import Pds1.Proofs.ImageWriting

/-!
# Damage to an image is noticed

In the block format the words of a block add up to zero. Changing one of them changes the sum by the
same amount, and as long as the count is left alone the reader still sees where the block ends. So
it reads the blocks in front as before and stops at the damaged one.
-/

namespace Pds1.Image

/-- The word at a position counted in words. -/
def wordAt? (bytes : List UInt8) (position : Nat) : Option UInt16 :=
  match bytes.drop (2 * position) with
  | high :: low :: _ => some (wordOfBytes high low)
  | _ => none

/-- Writes another word over the one at a position. -/
def replaceWord (bytes : List UInt8) (position : Nat) (word : UInt16) : List UInt8 :=
  bytes.take (2 * position) ++ wordBytes word ++ bytes.drop (2 * position + 2)

/-- The number of words that blocks take in the block format, headers included. -/
def extent (blocks : List Block) : Nat := blocks.foldr (fun b n => 3 + b.words.length + n) 0

theorem length_flatMap_layout (blocks : List Block) :
    (blocks.flatMap (Block.layout .block)).length = extent blocks := by
  induction blocks with
  | nil => rfl
  | cons b rest ih =>
    simp only [List.flatMap_cons, List.length_append, ih, Block.layout, List.length_cons, extent,
      List.foldr_cons]
    omega

theorem wordAt?_flatMap (words : List UInt16) (position : Nat) :
    wordAt? (words.flatMap wordBytes) position = words[position]? := by
  induction words generalizing position with
  | nil => simp [wordAt?]
  | cons w rest ih =>
    cases position with
    | zero => simp [wordAt?, wordBytes, wordOfBytes_split]
    | succ position => simpa [wordAt?, wordBytes, Nat.mul_succ] using ih position

theorem replaceWord_flatMap {words : List UInt16} {position : Nat}
    (inside : position < words.length) (word : UInt16) :
    replaceWord (words.flatMap wordBytes) position word =
      (words.set position word).flatMap wordBytes := by
  induction words generalizing position with
  | nil => simp at inside
  | cons w rest ih =>
    cases position with
    | zero => simp [replaceWord, wordBytes]
    | succ position =>
      have tail := ih (Nat.lt_of_succ_lt_succ inside)
      simpa [replaceWord, wordBytes, Nat.mul_succ] using tail

/-- Exchanging one word changes the sum by the difference. -/
theorem sum_set {words : List UInt16} {i : Nat} {old : UInt16} (found : words[i]? = some old)
    (new : UInt16) : sum (words.set i new) = sum words + (new - old) := by
  induction words generalizing i with
  | nil => simp at found
  | cons w rest ih =>
    cases i with
    | zero =>
      obtain rfl : w = old := by simpa using found
      rw [List.set_cons_zero, sum_cons, sum_cons]
      grind
    | succ i =>
      rw [List.set_cons_succ, sum_cons, sum_cons, ih (by simpa using found), UInt16.add_assoc]

theorem sum_layout (b : Block) : sum (b.layout .block) = 0 := by
  rw [Block.layout, sum_block]
  exact block_sum_zero _ _ _

/-- The reader goes through the blocks of a layout to what follows them. -/
theorem readWords_blocks (format : Format) (odd : Bool) {blocks : List Block}
    (fits : ∀ b ∈ blocks, b.Fits format) (offset : Nat) (rest : List UInt16) :
    ∃ offset', (readWords format odd offset (blocks.flatMap (Block.layout format) ++ rest)).ending =
      (readWords format odd offset' rest).ending := by
  induction blocks generalizing offset with
  | nil => exact ⟨offset, rfl⟩
  | cons b later ih =>
    obtain ⟨offset', ending⟩ := ih (fun c member => fits c (List.mem_cons_of_mem b member))
      (offset + 2 * (b.layout format).length)
    refine ⟨offset', ?_⟩
    rw [List.flatMap_cons, List.append_assoc, readWords_layout format odd offset
      (fits b List.mem_cons_self), ← ending]
    rfl

/-- A block of the right shape that does not add up to zero. -/
theorem readWords_unbalanced (odd : Bool) (offset : Nat) {address negated check : UInt16}
    {words : List UInt16} (low : address.toNat < 2 ^ 15) (count : (-negated).toNat = words.length)
    (unbalanced : sum (address :: negated :: check :: words) ≠ 0) (rest : List UInt16) :
    readWords .block odd offset ((address :: negated :: check :: words) ++ rest) =
      .fault (.checksum address (sum (address :: negated :: check :: words))) := by
  have head := untagged low
  have enough : ¬ (words ++ rest).length < words.length := by
    rw [List.length_append]
    omega
  rw [sum_block] at unbalanced ⊢
  simp only [List.cons_append]
  rw [readWords.eq_def]
  simp only [head.1, head.2, count, enough, if_false, ne_eq, not_true_eq_false, List.take_left,
    unbalanced, not_false_eq_true, if_true]

/-- One word of a block other than its count is exchanged. -/
theorem readWords_damaged (odd : Bool) (offset : Nat) {b : Block} (fits : b.Fits .block) {i : Nat}
    {old new : UInt16} (found : (b.layout .block)[i]? = some old) (checked : i ≠ 1)
    (different : new ≠ old) (low : i = 0 → new.toNat < 2 ^ 15) (rest : List UInt16) :
    readWords .block odd offset ((b.layout .block).set i new ++ rest) =
      .fault (.checksum (if i = 0 then new else b.address) (new - old)) := by
  have total : sum ((b.layout .block).set i new) = new - old := by
    rw [sum_set found, sum_layout, UInt16.zero_add]
  have unbalanced : sum ((b.layout .block).set i new) ≠ 0 := by
    rw [total]
    intro zero
    exact different (by grind)
  obtain ⟨address, words⟩ := b
  obtain ⟨small, short⟩ := fits
  have count : (- -UInt16.ofNat words.length).toNat = words.length := by
    rw [UInt16.neg_neg, UInt16.toNat_ofNat', Nat.mod_eq_of_lt short]
  rw [← total]
  simp only [Block.layout] at unbalanced ⊢
  -- the extent of the block depends on its count alone, which is left as it was
  rcases i with _ | _ | _ | k
  · exact readWords_unbalanced odd offset (low rfl) count unbalanced rest
  · exact absurd rfl checked
  · exact readWords_unbalanced odd offset small count unbalanced rest
  · refine readWords_unbalanced odd offset small ?_ unbalanced rest
    rw [List.length_set]
    exact count

/-- In the image of any calls, exchange one word of a block that is not its count, the load address
for another one of fifteen bits. Then the reader fails with a bad checksum in that block, and the
sum it reports is the difference of the two words. -/
theorem damaged_word_detected (calls : List Writer.Call) :
    ∃ bytes image, encode .block calls = .ok bytes ∧ decode .block bytes = .ok image ∧
      ∀ before b after, image.blocks = before ++ b :: after →
        ∀ i, i < 3 + b.words.length → i ≠ 1 →
          ∃ old, wordAt? bytes (extent before + i) = some old ∧
            (i = 0 → old = b.address) ∧ (∀ k, i = 3 + k → b.words[k]? = some old) ∧
            ∀ new, new ≠ old → (i = 0 → new.toNat < 2 ^ 15) →
              decode .block (replaceWord bytes (extent before + i) new) =
                .error (.checksum (if i = 0 then new else b.address) (new - old)) := by
  obtain ⟨bytes, encoded, decoded⟩ := decode_encode .block calls
  have fits := fits_pieces .block (puts calls)
  have laidOut := encode_eq .block calls
  generalize (Piece.split .block none ((puts calls).map placed)).map (Piece.toBlock .block) =
    blocks at decoded fits laidOut
  obtain rfl := Except.ok.inj (encoded.symm.trans laidOut)
  refine ⟨_, _, encoded, decoded, ?_⟩
  rintro before b after rfl i inside checked
  have length : (b.layout .block).length = 3 + b.words.length := by
    simp only [Block.layout, List.length_cons]
    omega
  obtain ⟨old, found⟩ : ∃ old, (b.layout .block)[i]? = some old :=
    ⟨_, List.getElem?_eq_getElem (by omega)⟩
  -- the words of the image, divided at the block
  have words : layoutWords .block (before ++ b :: after) (lastStart calls) =
      before.flatMap (Block.layout .block) ++
        (b.layout .block ++ layoutWords .block after (lastStart calls)) := by
    simp [layoutWords]
  rw [words, ← length_flatMap_layout]
  refine ⟨old, ?_, ?_, ?_, ?_⟩
  · rw [wordAt?_flatMap, List.getElem?_append_right (Nat.le_add_right _ _), Nat.add_sub_cancel_left,
      List.getElem?_append_left (by omega), found]
  · rintro rfl
    simpa [Block.layout, eq_comm] using found
  · rintro k rfl
    simpa [Block.layout, Nat.add_comm 3 k] using found
  · intro new different low
    have standing : ∀ c ∈ before, c.Fits .block := fun c member => fits c (by simp [member])
    rw [replaceWord_flatMap (by simp; omega), List.set_append_right _ _ (Nat.le_add_right _ _),
      Nat.add_sub_cancel_left, List.set_append_left _ _ (by omega)]
    obtain ⟨offset, ending⟩ := readWords_blocks .block false standing 0
      ((b.layout .block).set i new ++ layoutWords .block after (lastStart calls))
    rw [readWords_damaged false offset (fits b (by simp)) found checked different low] at ending
    simp only [decode, readBytes, toWords_flatMap_wordBytes, ending, Reading.fault]

/-- The second of two data words is one too high. -/
theorem damaged_second_word_detected :
    ∃ bytes, encode .block [.put 0 5, .put 1 6] = .ok bytes ∧ wordAt? bytes 4 = some 6 ∧
      decode .block (replaceWord bytes 4 7) = .error (.checksum 0 1) := by
  obtain ⟨bytes, image, encoded, decoded, damaged⟩ :=
    damaged_word_detected [.put 0 5, .put 1 6]
  obtain ⟨bytes', encoded', decoded'⟩ := decode_encode .block [.put 0 5, .put 1 6]
  obtain rfl := Except.ok.inj (encoded.symm.trans encoded')
  obtain rfl := Except.ok.inj (decoded.symm.trans decoded')
  obtain ⟨old, found, -, data, noticed⟩ := damaged [] ⟨0, [5, 6]⟩ [] rfl 4 (by decide) (by decide)
  obtain rfl : 6 = old := Option.some.inj (data 1 rfl)
  exact ⟨bytes, encoded, found, noticed 7 (by decide) (by decide)⟩

end Pds1.Image
