import Pds1.Proofs.ImageGrammar
import Pds1.Proofs.ImageRoundTrip

/-!
# Writing an image again

The reader accepts images that no writer makes: blocks without words, blocks that continue each
other, overlap, or run past the top of memory. Putting the words of such an image in order gives an
image with the same words and start address, laid out as maximal runs; only addresses beyond
fifteen bits come back to the bottom of memory.
-/

namespace Pds1

namespace Image

/-- A word of an image as a writer takes it. -/
def widen (w : UInt16) : Int32 := w.toUInt32.toInt32

/-- A located word with its address reduced to fifteen bits. -/
def reduced (p : UInt16 × UInt16) : UInt16 × UInt16 := (p.1 % 0o100000, p.2)

/-- The calls that write an image again: its words in order, then its start address. -/
def rewriteCalls (image : Image) : List Writer.Call :=
  callsOf (image.words.map fun p => (widen p.1, widen p.2)) (image.start.map widen)

theorem toUInt16_widen (w : UInt16) : (widen w).toUInt32.toUInt16 = w := by
  rw [widen, UInt32.toUInt32_toInt32, UInt16.toUInt16_toUInt32]

theorem and_not_startFlag_eq_mod (w : UInt16) : w &&& ~~~startFlag = w % 0o100000 := by
  apply UInt16.toNat_inj.mp
  rw [toNat_and_not_startFlag, UInt16.toNat_mod]
  rfl

theorem masked_widen (p : UInt16 × UInt16) : masked (widen p.1, widen p.2) = reduced p := by
  rw [masked, toUInt16_and_addressMask, toUInt16_widen, toUInt16_widen, and_not_startFlag_eq_mod]
  rfl

/-- A start address that is read has fifteen bits, not all of them ones. -/
theorem Spelled.start_lt {format : Format} {image : Image} {words : List UInt16}
    (h : Spelled format image words) {address : UInt16} (given : address ∈ image.start) :
    address.toNat < 2 ^ 15 - 1 := by
  induction h with
  | trailer closed =>
    cases closed with
    | stop => cases given
    | @start word flagged other =>
      cases given
      have different : word.toNat ≠ 2 ^ 16 - 1 := fun ones => other (UInt16.toNat_inj.mp ones)
      have bound := word.toNat_lt
      rw [toNat_and_not_startFlag]
      omega
  | block _ _ ih => exact ih given

theorem readStart_widen {address : UInt16} (low : address.toNat < 2 ^ 15 - 1) :
    readStart (some (widen address)) = some address := by
  have whole : address &&& ~~~startFlag = address := by
    apply UInt16.toNat_inj.mp
    rw [toNat_and_not_startFlag, Nat.mod_eq_of_lt (by omega)]
  have other : address ≠ ~~~startFlag := by
    rintro rfl
    exact absurd low (by decide)
  simp only [readStart, toUInt16_widen, whole, if_neg other]

/-- Whatever image is read from bytes of the block format, writing it again succeeds, and the image
read then has the same start address and the same words in the same order, their addresses reduced
to fifteen bits. Its blocks are the maximal runs of these words. -/
theorem rewritten_image_same_words {bytes : List UInt8} {image : Image}
    (read : decode .block bytes = .ok image) :
    ∃ bytes' image', encode .block image.rewriteCalls = .ok bytes' ∧
      decode .block bytes' = .ok image' ∧ image'.start = image.start ∧
      image'.words = image.words.map reduced ∧
      image'.blocks = (runs (image.words.map reduced)).map Block.ofRun := by
  obtain ⟨words, rest, spelled, -⟩ := spelled_of_decode read
  obtain ⟨bytes', encoded, decoded⟩ := decode_encode .block image.rewriteCalls
  have located : (puts image.rewriteCalls).map masked = image.words.map reduced := by
    rw [rewriteCalls, puts_callsOf, List.map_map]
    exact List.map_congr_left fun p _ => masked_widen p
  have start : readStart (lastStart image.rewriteCalls) = image.start := by
    rw [rewriteCalls, lastStart_callsOf]
    cases given : image.start with
    | none => rfl
    | some address => exact readStart_widen (spelled.start_lt given)
  rw [blocks_eq_runs, located, start] at decoded
  exact ⟨bytes', _, encoded, decoded, rfl, words_runs _ _, rfl⟩

/-- A block without words, and one that runs past the top of memory. -/
theorem rewritten_image_wraps :
    let blocks : List Block := [⟨5, []⟩, ⟨0o77777, [1, 2]⟩]
    decode .block ((layoutWords .block blocks (some 7)).flatMap wordBytes) =
        .ok ⟨blocks, some 7⟩ ∧
      ∃ bytes image, encode .block (rewriteCalls ⟨blocks, some 7⟩) = .ok bytes ∧
        decode .block bytes = .ok image ∧ image.start = some 7 ∧
        image.words = [(0o77777, 1), (0, 2)] ∧ image.blocks = [⟨0o77777, [1]⟩, ⟨0, [2]⟩] := by
  intro blocks
  have fits : ∀ b ∈ blocks, b.Fits .block := by
    simp [blocks, Block.Fits]
  have read := decode_layoutWords .block blocks fits (some 7)
  obtain ⟨bytes, image, encoded, decoded, start, words, layout⟩ := rewritten_image_same_words read
  exact ⟨read, bytes, image, encoded, decoded, start, words.trans (by decide),
    layout.trans (by decide)⟩

end Image

end Pds1
