import Pds1.Proofs.ImageLayout

/-!
# The grammar of an image

A byte string is an image if it begins with blocks and a trailer; what follows the trailer is free.
The grammar is stated on words, without the reader: a block of the block format only has to add up
to zero, however that comes about. The reader accepts exactly this language and gives back the one
way to divide the bytes.
-/

namespace Pds1.Image

/-- The words that spell a block. -/
inductive Block.Spelled : Format → Block → List UInt16 → Prop where
  | loader {words : List UInt16} (full : words.length = loaderWords) :
      Spelled .loader ⟨loaderBase, words⟩ (0 :: words)
  | block {address negated check : UInt16} {words : List UInt16} (low : address.toNat < 2 ^ 15)
      (count : (-negated).toNat = words.length)
      (balanced : sum (address :: negated :: check :: words) = 0) :
      Spelled .block ⟨address, words⟩ (address :: negated :: check :: words)

/-- The words that spell a trailer with or without a start address. -/
inductive TrailerSpelled : Option UInt16 → List UInt16 → Prop where
  | stop : TrailerSpelled none [terminator]
  | start {word : UInt16} (flagged : 2 ^ 15 ≤ word.toNat) (other : word ≠ terminator) :
      TrailerSpelled (some (word &&& ~~~startFlag)) [word, 0]

/-- The words that spell an image: its blocks in order and then its trailer. -/
inductive Spelled (format : Format) : Image → List UInt16 → Prop where
  | trailer {start : Option UInt16} {words : List UInt16} (closed : TrailerSpelled start words) :
      Spelled format ⟨[], start⟩ words
  | block {b : Block} {blocks : List Block} {start : Option UInt16} {words rest : List UInt16}
      (first : b.Spelled format words) (later : Spelled format ⟨blocks, start⟩ rest) :
      Spelled format ⟨b :: blocks, start⟩ (words ++ rest)

theorem toNat_wordOfBytes (high low : UInt8) :
    (wordOfBytes high low).toNat = high.toNat * 2 ^ 8 + low.toNat := by
  have shift : (8 : UInt16).toNat % 16 = 8 := rfl
  have fits : high.toNat <<< 8 % 2 ^ 16 = high.toNat <<< 8 := by
    have bound := high.toNat_lt
    rw [Nat.shiftLeft_eq]
    omega
  simp only [wordOfBytes, UInt16.toNat_or, UInt16.toNat_shiftLeft, UInt8.toNat_toUInt16, shift]
  rw [fits, ← Nat.shiftLeft_add_eq_or_of_lt low.toNat_lt, Nat.shiftLeft_eq]

theorem wordBytes_wordOfBytes (high low : UInt8) :
    wordBytes (wordOfBytes high low) = [high, low] := by
  have hhigh := high.toNat_lt
  have hlow := low.toNat_lt
  have shift : (8 : UInt16).toNat % 16 = 8 := rfl
  have value := toNat_wordOfBytes high low
  have first : (wordOfBytes high low >>> 8).toUInt8 = high := by
    apply UInt8.toNat_inj.mp
    rw [UInt16.toNat_toUInt8, UInt16.toNat_shiftRight, shift, value, Nat.shiftRight_eq_div_pow]
    omega
  have second : (wordOfBytes high low).toUInt8 = low := by
    apply UInt8.toNat_inj.mp
    rw [UInt16.toNat_toUInt8, value]
    omega
  rw [wordBytes, first, second]

theorem toWords_append (words : List UInt16) (rest : List UInt8) :
    toWords (words.flatMap wordBytes ++ rest) = (words ++ (toWords rest).1, (toWords rest).2) := by
  induction words with
  | nil => rfl
  | cons w words ih =>
    rw [List.flatMap_cons, List.append_assoc]
    simp only [wordBytes, List.cons_append, List.nil_append, toWords, ih, wordOfBytes_split]

/-- The whole words of a byte string stand at its front. -/
theorem exists_eq_flatMap_wordBytes (bytes : List UInt8) :
    ∃ tail, bytes = (toWords bytes).1.flatMap wordBytes ++ tail := by
  fun_induction toWords bytes with
  | case1 high low rest words odd whole ih =>
    obtain ⟨tail, bytes⟩ := ih
    refine ⟨tail, ?_⟩
    rw [whole] at bytes
    rw [List.flatMap_cons, wordBytes_wordOfBytes, List.append_assoc, ← bytes]
    rfl
  | case2 last => exact ⟨[last], rfl⟩
  | case3 => exact ⟨[], rfl⟩

theorem sum_cons (word : UInt16) (words : List UInt16) :
    sum (word :: words) = word + sum words := by
  rw [sum, List.foldl_cons, UInt16.zero_add]
  calc words.foldl (· + ·) word = words.foldl (· + ·) (word + 0) := by rw [UInt16.add_zero]
    _ = word + sum words := List.foldl_assoc

/-- What the reader adds up is the sum of all words of a block. -/
theorem sum_block (address negated check : UInt16) (words : List UInt16) :
    sum (address :: negated :: check :: words) = address + negated + check + sum words := by
  rw [sum_cons, sum_cons, sum_cons, UInt16.add_assoc, UInt16.add_assoc]

/-- What spells a block is its layout: the count and the sum leave no choice. -/
theorem Block.Spelled.fits {format : Format} {b : Block} {words : List UInt16}
    (h : b.Spelled format words) : b.Fits format ∧ words = b.layout format := by
  cases h with
  | loader full => exact ⟨⟨rfl, full⟩, rfl⟩
  | @block address negated check words low count balanced =>
    have short : words.length < 2 ^ 16 := by
      rw [← count]
      exact UInt16.toNat_lt _
    have negated_eq : negated = -UInt16.ofNat words.length := by
      rw [← count, UInt16.ofNat_toNat, UInt16.neg_neg]
    refine ⟨⟨low, short⟩, ?_⟩
    rw [sum_block] at balanced
    have check_eq : check = -(sum words + address - UInt16.ofNat words.length) := by
      rw [negated_eq] at balanced
      grind
    simp only [Block.layout, ← negated_eq, ← check_eq]

/-- The flag is the top bit of a word. -/
theorem and_startFlag_ne_zero_iff (w : UInt16) : w &&& startFlag ≠ 0 ↔ 2 ^ 15 ≤ w.toNat := by
  have hw := w.toNat_lt
  rw [ne_eq, ← UInt16.toNat_inj, toNat_and_startFlag, show (0 : UInt16).toNat = 0 from rfl]
  omega

theorem readWords_trailerSpelled (format : Format) (odd : Bool) (offset : Nat)
    {start : Option UInt16} {words : List UInt16} (h : TrailerSpelled start words)
    (rest : List UInt16) :
    readWords format odd offset (words ++ rest) =
      ⟨[], .trailer start (2 * rest.length + odd.toNat)⟩ := by
  cases h with
  | stop =>
    rw [List.singleton_append, readWords.eq_def]
    rfl
  | @start word flagged other =>
    have top := (and_startFlag_ne_zero_iff word).mpr flagged
    rw [List.cons_append, List.singleton_append, readWords.eq_def]
    simp [other, top]

/-- The reader finds the image that is spelled, whatever follows it. -/
theorem readWords_spelled {format : Format} (odd : Bool) {image : Image} {words : List UInt16}
    (h : Spelled format image words) (offset : Nat) (rest : List UInt16) :
    readWords format odd offset (words ++ rest) =
      ⟨image.blocks, .trailer image.start (2 * rest.length + odd.toNat)⟩ := by
  induction h generalizing offset with
  | trailer closed => exact readWords_trailerSpelled format odd offset closed rest
  | block first later ih =>
    obtain ⟨fits, rfl⟩ := first.fits
    rw [List.append_assoc, readWords_layout format odd offset fits, ih]
    rfl

theorem Reading.after_eq {b : Block} {r : Reading} {blocks : List Block} {ending : Ending}
    (h : r.after b = ⟨blocks, ending⟩) : ∃ later, blocks = b :: later ∧ r = ⟨later, ending⟩ := by
  cases h
  exact ⟨r.blocks, rfl, rfl⟩

/-- A reading that comes to a trailer has read a spelled image. -/
theorem spelled_of_readWords {format : Format} {odd : Bool} {offset : Nat} {words : List UInt16}
    {blocks : List Block} {start : Option UInt16} {trailing : Nat}
    (h : readWords format odd offset words = ⟨blocks, .trailer start trailing⟩) :
    ∃ front rest, words = front ++ rest ∧ Spelled format ⟨blocks, start⟩ front := by
  fun_induction readWords format odd offset words generalizing blocks with
  | case2 offset rest =>
    cases h
    exact ⟨[terminator], rest, rfl, .trailer .stop⟩
  | case5 offset head other flagged padding rest zero =>
    cases h
    have flagged := (and_startFlag_ne_zero_iff head).mp flagged
    have zero : padding = 0 := Decidable.not_not.mp zero
    exact ⟨[head, padding], rest, rfl, .trailer (zero ▸ .start flagged other)⟩
  | case8 offset head rest _ _ loader zero enough ih =>
    subst loader
    have zero : head = 0 := Decidable.not_not.mp zero
    obtain ⟨later, rfl, read⟩ := Reading.after_eq h
    obtain ⟨front, tail, split, spelled⟩ := ih read
    have full : (rest.take loaderWords).length = loaderWords := by
      rw [List.length_take]
      omega
    refine ⟨(0 :: rest.take loaderWords) ++ front, tail, ?_, .block (.loader full) spelled⟩
    rw [zero, List.append_assoc, ← split, List.cons_append, List.take_append_drop]
  | case13 offset head other untagged isBlock negated check data count enough total balanced =>
    rename_i ih
    subst isBlock
    obtain ⟨later, rfl, read⟩ := Reading.after_eq h
    obtain ⟨front, tail, split, spelled⟩ := ih read
    have low : head.toNat < 2 ^ 15 := by
      have := mt (and_startFlag_ne_zero_iff head).mpr untagged
      omega
    have counted : (-negated).toNat = (data.take count).length := by
      rw [List.length_take]
      omega
    have balanced : sum (head :: negated :: check :: data.take count) = 0 := by
      rw [sum_block]
      exact Decidable.not_not.mp balanced
    refine ⟨(head :: negated :: check :: data.take count) ++ front, tail, ?_,
      .block (.block low counted balanced) spelled⟩
    rw [List.append_assoc, ← split]
    simp only [List.cons_append, List.take_append_drop]
  -- every other way to end is a fault
  | case1 | case3 | case4 | case6 | case7 | case9 | case10 | case11 | case12 => cases h

/-- The low bits of a flagged word determine it. -/
theorem eq_of_and_not_startFlag_eq {w w' : UInt16} (flagged : 2 ^ 15 ≤ w.toNat)
    (flagged' : 2 ^ 15 ≤ w'.toNat) (same : w &&& ~~~startFlag = w' &&& ~~~startFlag) : w = w' := by
  have hw := w.toNat_lt
  have hw' := w'.toNat_lt
  have low : w.toNat % 2 ^ 15 = w'.toNat % 2 ^ 15 := by
    rw [← toNat_and_not_startFlag, ← toNat_and_not_startFlag, same]
  apply UInt16.toNat_inj.mp
  omega

theorem TrailerSpelled.words_unique {start : Option UInt16} {words words' : List UInt16}
    (h : TrailerSpelled start words) (h' : TrailerSpelled start words') : words = words' := by
  cases h with
  | stop =>
    cases h'
    rfl
  | @start word flagged =>
    generalize address : some (word &&& ~~~startFlag) = start at h'
    cases h' with
    | stop => cases address
    | @start word' flagged' =>
      rw [eq_of_and_not_startFlag_eq flagged flagged' (Option.some.inj address)]

/-- An image is spelled in one way only. -/
theorem Spelled.words_unique {format : Format} {image : Image} {words words' : List UInt16}
    (h : Spelled format image words) (h' : Spelled format image words') : words = words' := by
  induction h generalizing words' with
  | trailer closed =>
    cases h' with
    | trailer closed' => exact closed.words_unique closed'
  | block first later ih =>
    cases h' with
    | block first' later' => rw [first.fits.2, first'.fits.2, ih later']

theorem decode_spelled {format : Format} {image : Image} {words : List UInt16}
    (h : Spelled format image words) (rest : List UInt8) :
    decode format (words.flatMap wordBytes ++ rest) = .ok image := by
  simp only [decode, readBytes, toWords_append, readWords_spelled _ h]

theorem spelled_of_decode {format : Format} {image : Image} {bytes : List UInt8}
    (h : decode format bytes = .ok image) :
    ∃ words rest, Spelled format image words ∧ bytes = words.flatMap wordBytes ++ rest := by
  obtain ⟨tail, whole⟩ := exists_eq_flatMap_wordBytes bytes
  simp only [decode, readBytes] at h
  generalize read : readWords format (toWords bytes).2 0 (toWords bytes).1 = r at h
  obtain ⟨blocks, ending⟩ := r
  cases ending with
  | fault error => cases h
  | trailer start trailing =>
    cases h
    obtain ⟨words, rest, split, spelled⟩ := spelled_of_readWords read
    refine ⟨words, rest.flatMap wordBytes ++ tail, spelled, ?_⟩
    rw [split, List.flatMap_append, List.append_assoc] at whole
    exact whole

/-- For both formats: reading succeeds exactly on the bytes that spell an image and then go on in
any way, and gives that image. The division of the bytes is unique, and the bytes after the trailer
make no difference. -/
theorem decode_accepts_grammar (format : Format) :
    (∀ bytes image, decode format bytes = .ok image ↔
      ∃ words rest, Spelled format image words ∧ bytes = words.flatMap wordBytes ++ rest) ∧
    (∀ image image' words words' rest rest', Spelled format image words →
      Spelled format image' words' →
      words.flatMap wordBytes ++ rest = words'.flatMap wordBytes ++ rest' →
      image = image' ∧ words = words' ∧ rest = rest') ∧
    ∀ image words, Spelled format image words →
      ∀ rest, decode format (words.flatMap wordBytes ++ rest) = .ok image := by
  refine ⟨fun bytes image => ⟨spelled_of_decode, ?_⟩, ?_, fun image words => decode_spelled⟩
  · rintro ⟨words, rest, spelled, rfl⟩
    exact decode_spelled spelled rest
  · intro image image' words words' rest rest' spelled spelled' same
    have read := decode_spelled spelled rest
    rw [same, decode_spelled spelled' rest'] at read
    cases read
    obtain rfl := spelled.words_unique spelled'
    exact ⟨rfl, rfl, List.append_cancel_left same⟩

/-- A block without words, a start address, and one odd byte after the trailer. -/
theorem spelled_empty_block :
    Spelled .block ⟨[⟨5, []⟩], some 7⟩ [5, 0, 0o177773, 0o100007, 0] := by
  have first : Block.Spelled .block ⟨5, []⟩ [5, 0, 0o177773] := .block (by decide) rfl rfl
  have closed : TrailerSpelled (some 7) [0o100007, 0] :=
    @TrailerSpelled.start 0o100007 (by decide) (by decide)
  exact .block first (.trailer closed)

theorem decode_accepts_empty_block :
    Spelled .block ⟨[⟨5, []⟩], some 7⟩ [5, 0, 0o177773, 0o100007, 0] ∧
      decode .block ([5, 0, 0o177773, 0o100007, 0].flatMap wordBytes ++ [1]) =
        .ok ⟨[⟨5, []⟩], some 7⟩ :=
  ⟨spelled_empty_block, (decode_accepts_grammar .block).2.2 _ _ spelled_empty_block [1]⟩

end Pds1.Image
