import Mathlib.Data.List.Induction
import Pds1.Proofs.ImageLayout

/-!
# What a writer leaves behind

On a sink without a limit every call succeeds, and the bytes written are the layout of the pieces
into which the words put so far fall. A piece ends where the next location does not continue it,
and in the loader format also when it is full. Both formats are treated at once; which maximal runs
the pieces come from is a matter of the format and is not discussed here.
-/

namespace Pds1.Image

/-- Words at consecutive locations, with the location of the first. -/
structure Piece where
  address : Nat
  words : List UInt16

namespace Piece

/-- The location that continues a piece. -/
def next (p : Piece) : Nat := p.address + p.words.length

def add (p : Piece) (word : UInt16) : Piece := ⟨p.address, p.words ++ [word]⟩

/-- The block that a piece becomes: a loader block forgets its address and is filled up. -/
def toBlock (format : Format) (p : Piece) : Block :=
  match format with
  | .loader => ⟨loaderBase, p.words ++ List.replicate (loaderWords - p.words.length) 0⟩
  | .block => ⟨UInt16.ofNat p.address, p.words⟩

def isFull (format : Format) (p : Piece) : Bool :=
  format = .loader && p.words.length = loaderWords

/-- Adds a word to what is open: the pieces that this ends, and what is open after it. -/
def advance (format : Format) (current : Option Piece) (place : Nat) (word : UInt16) :
    List Piece × Option Piece :=
  match current with
  | none => ([], some ⟨place, [word]⟩)
  | some p =>
    if place = p.next then
      if (p.add word).isFull format then ([p.add word], none) else ([], some (p.add word))
    else ([p], some ⟨place, [word]⟩)

/-- The pieces of a sequence of located words, after what is open already. -/
def split (format : Format) : Option Piece → List (Nat × UInt16) → List Piece
  | current, [] => current.toList
  | current, (place, word) :: rest =>
    (advance format current place word).1 ++
      split format (advance format current place word).2 rest

end Piece

namespace OpenBlock

theorem sum_append (words : List UInt16) (word : UInt16) :
    sum (words ++ [word]) = sum words + word := by
  simp [sum, List.foldl_append]

/-- Only the low sixteen bits of the check sum reach the header. -/
theorem header_eq (b : OpenBlock) :
    let address := UInt16.ofNat b.address
    let count := UInt16.ofNat b.count
    b.header = [address, -count, -(b.checksum.toUInt32.toUInt16 + address - count)].flatMap
      wordBytes := by
  simp [header]

/-- The buffer has room for a header and then the bytes of `words`, which are counted and summed
up. -/
structure Represents (format : Format) (words : List UInt16) (b : OpenBlock) : Prop where
  size : b.bytes.size = headerSize format + 2 * b.count
  count : b.count = words.length
  bytes : b.bytes.toList.drop (headerSize format) = words.flatMap wordBytes
  checksum : b.checksum.toUInt32.toUInt16 = sum words

variable {format : Format} {words : List UInt16} {p : Piece} {b : OpenBlock}

theorem represents_empty (format : Format) (address : Nat) :
    (empty format address).Represents format [] :=
  ⟨by simp [empty], rfl, by simp [empty], rfl⟩

theorem Represents.room (h : b.Represents format words) :
    headerSize format ≤ b.bytes.toList.length := by
  rw [Array.length_toList, h.size]
  exact Nat.le_add_right _ _

theorem Represents.push (h : b.Represents format words) (word : Int32) :
    (b.push word).Represents format (words ++ [word.toUInt32.toUInt16]) where
  size := by
    have size := h.size
    simp only [OpenBlock.push, Array.size_append, List.size_toArray, wordBytes, List.length_cons,
      List.length_nil]
    omega
  count := by simp [OpenBlock.push, h.count]
  bytes := by simp [OpenBlock.push, List.drop_append_of_le_length h.room, h.bytes]
  checksum := by simp [OpenBlock.push, h.checksum, sum_append]

theorem Represents.pad (h : b.Represents format words) (n : Nat) :
    (b.pad n).Represents format (words ++ List.replicate n 0) := by
  induction n generalizing b words with
  | zero => simpa [OpenBlock.pad] using h
  | succ n ih =>
    have zero : (0 : Int32).toUInt32.toUInt16 = 0 := rfl
    have later := ih (h.push 0)
    rwa [zero, List.append_assoc, List.singleton_append, ← List.replicate_succ] at later

/-- The open block represents a piece, and its header is still empty. -/
structure Holds (format : Format) (p : Piece) (b : OpenBlock) : Prop
    extends Represents format p.words b where
  address : b.address = p.address
  header : b.bytes.toList.take (headerSize format) = List.replicate (headerSize format) 0

theorem holds_empty (format : Format) (address : Nat) :
    (empty format address).Holds format ⟨address, []⟩ :=
  ⟨represents_empty format address, rfl, by simp [empty]⟩

theorem Holds.push (h : b.Holds format p) (word : Int32) :
    (b.push word).Holds format (p.add word.toUInt32.toUInt16) where
  toRepresents := h.toRepresents.push word
  address := h.address
  header := by simp [OpenBlock.push, List.take_append_of_le_length h.room, h.header]

theorem Holds.pad (h : b.Holds format p) (n : Nat) :
    (b.pad n).Holds format ⟨p.address, p.words ++ List.replicate n 0⟩ := by
  have front : (b.pad n).address = p.address ∧
      (b.pad n).bytes.toList.take (headerSize format) = List.replicate (headerSize format) 0 := by
    induction n generalizing b p with
    | zero => exact ⟨h.address, h.header⟩
    | succ n ih => exact ih (p := p.add _) (h.push 0)
  exact ⟨h.toRepresents.pad n, front.1, front.2⟩

theorem Holds.bytes_eq (h : b.Holds format p) :
    b.bytes = (List.replicate (headerSize format) 0 ++ p.words.flatMap wordBytes).toArray := by
  rw [← h.header, ← h.bytes, List.take_append_drop, Array.toArray_toList]

/-- What follows the room left for a header. -/
theorem extract_header (data : List UInt8) :
    (List.replicate (headerSize .block) 0 ++ data).toArray.extract 6
      (List.replicate (headerSize .block) 0 ++ data).toArray.size = data.toArray := by
  have rest : (List.replicate (headerSize .block) 0 ++ data).drop 6 = data := List.drop_left' rfl
  rw [List.extract_toArray, List.extract_eq_take_drop, rest, List.take_of_length_le]
  simp [headerSize]

/-- A completed block is written as its layout. -/
theorem Holds.bytes_complete (h : b.Holds format p) :
    (b.complete format).bytes =
      (((p.toBlock format).layout format).flatMap wordBytes).toArray := by
  cases format with
  | loader =>
    rw [complete, h.count, (h.pad _).bytes_eq]
    rfl
  | block =>
    simp only [complete, header_eq, h.address, h.count, h.checksum, h.bytes_eq, extract_header]
    simp [Piece.toBlock, Block.layout]

end OpenBlock

/-- The bytes of a piece that has been written. -/
def pieceBytes (format : Format) (p : Piece) : List UInt8 :=
  ((p.toBlock format).layout format).flatMap wordBytes

namespace Writer

/-- A writer that has `written` on a sink without a limit and holds `current` back. -/
structure Standing (w : Writer) (format : Format) (written : List UInt8) (current : Option Piece)
    (start : Option Int32) : Prop where
  limit : w.sink.limit = none
  bytes : w.sink.bytes = written.toArray
  block : Option.Rel (fun p b => b.Holds format p) current w.block
  format : w.format = format
  start : w.start = start

theorem write_of_unlimited {s : Sink} (h : s.limit = none) (data : Array UInt8) :
    s.write data = (.ok (), { s with bytes := s.bytes ++ data }) := by
  simp [Sink.write, Sink.fits, h]

variable {w : Writer} {format : Format} {written : List UInt8} {current : Option Piece}
  {start : Option Int32}

theorem Standing.closed (h : w.Standing format written none start) : w.block = none := by
  have block := h.block
  generalize w.block = open? at block ⊢
  cases block
  rfl

theorem Standing.opened {p : Piece} (h : w.Standing format written (some p) start) :
    ∃ b, w.block = some b ∧ b.Holds format p := by
  have block := h.block
  generalize w.block = open? at block ⊢
  cases block with
  | some holds => exact ⟨_, rfl, holds⟩

theorem init_standing (format : Format) : (init {} format).Standing format [] none none :=
  ⟨rfl, rfl, .none, rfl, rfl⟩

theorem setStart_standing (h : w.Standing format written current start) (address : Int32) :
    (w.setStart address).Standing format written current (some address) :=
  ⟨h.limit, h.bytes, h.block, h.format, rfl⟩

theorem flush_standing (h : w.Standing format written current start) :
    ∃ w', w.flush = (.ok (), w') ∧
      w'.Standing format (written ++ current.toList.flatMap (pieceBytes format)) none start := by
  cases current with
  | none =>
    refine ⟨w, by simp [flush, h.closed], ?_⟩
    simpa using h
  | some p =>
    obtain ⟨b, opened, holds⟩ := h.opened
    simp only [flush, opened, h.format, write_of_unlimited h.limit]
    refine ⟨_, rfl, h.limit, ?_, .none, rfl, h.start⟩
    simp [holds.bytes_complete, h.bytes, pieceBytes]

theorem checkPlace_standing (h : w.Standing format written current start) (place : Nat) :
    (w.checkPlace place).Standing format written current start := by
  by_cases misplaced : w.isMisplaced place
  · rw [checkPlace, if_pos misplaced]
    exact ⟨h.limit, h.bytes, h.block, h.format, h.start⟩
  · rw [checkPlace, if_neg misplaced]
    exact h

theorem append_standing (h : w.Standing format written current start) (place : Nat)
    (word : Int32) :
    (w.append place word).Standing format written
      (some ((current.getD ⟨place, []⟩).add word.toUInt32.toUInt16)) start := by
  refine ⟨h.limit, h.bytes, .some ?_, h.format, h.start⟩
  cases current with
  | none =>
    rw [h.closed, h.format]
    exact (OpenBlock.holds_empty format place).push word
  | some p =>
    obtain ⟨b, opened, holds⟩ := h.opened
    rw [opened]
    exact holds.push word

theorem breaksAt_standing (h : w.Standing format written current start) (place : Nat) :
    w.breaksAt place = current.any fun p => place != p.next := by
  rw [breaksAt]
  cases current with
  | none => simp [h.closed]
  | some p =>
    obtain ⟨b, opened, holds⟩ := h.opened
    simp [opened, OpenBlock.next, Piece.next, holds.address, holds.count]

theorem isFull_standing (h : w.Standing format written current start) :
    w.isFull = current.any (Piece.isFull format) := by
  rw [isFull, h.format]
  cases current with
  | none => simp [h.closed]
  | some p =>
    obtain ⟨b, opened, holds⟩ := h.opened
    simp [opened, Piece.isFull, holds.count]

/-- Adding one word writes the pieces it ends and holds the rest back. -/
theorem put_standing (h : w.Standing format written current start) (location word : Int32) :
    ∃ after w', w.put location word = (.ok after, w') ∧
      w'.Standing format
        (written ++ (Piece.advance format current (location.toUInt32.toNat % 0o100000)
          word.toUInt32.toUInt16).1.flatMap (pieceBytes format))
        (Piece.advance format current (location.toUInt32.toNat % 0o100000)
          word.toUInt32.toUInt16).2 start := by
  simp only [put]
  generalize location.toUInt32.toNat % 0o100000 = place
  -- a new piece has one word, so it is never full
  have fresh : Piece.isFull format (Piece.add ⟨place, []⟩ word.toUInt32.toUInt16) = false := by
    simp [Piece.isFull, Piece.add, loaderWords]
  rw [breaksAt_standing h]
  cases current with
  | none =>
    have appended := append_standing (checkPlace_standing h place) place word
    have full := isFull_standing appended
    simp only [Option.getD_none, Option.any_some, fresh] at full appended
    refine ⟨place + 1, (w.checkPlace place).append place word, by simp [full], ?_⟩
    simpa [Piece.advance, Piece.add] using appended
  | some p =>
    by_cases continues : place = p.next
    · subst continues
      have appended := append_standing (checkPlace_standing h p.next) p.next word
      have full := isFull_standing appended
      simp only [Option.getD_some, Option.any_some] at full appended
      by_cases filled : (p.add word.toUInt32.toUInt16).isFull format = true
      · obtain ⟨w', flushed, standing⟩ := flush_standing appended
        refine ⟨p.next + 1, w', by simp [full, filled, flushed], ?_⟩
        simpa [Piece.advance, filled] using standing
      · refine ⟨p.next + 1, (w.checkPlace p.next).append p.next word, by simp [full, filled], ?_⟩
        simpa [Piece.advance, filled] using appended
    · obtain ⟨v, flushed, standing⟩ := flush_standing h
      have appended := append_standing (checkPlace_standing standing place) place word
      have full := isFull_standing appended
      simp only [Option.getD_none, Option.any_some, fresh] at full appended
      refine ⟨place + 1, (v.checkPlace place).append place word,
        by simp [continues, flushed, full], ?_⟩
      simpa [Piece.advance, Piece.add, continues] using appended

theorem close_standing (h : w.Standing format written current start) :
    ∃ w', w.close = (.ok (), w') ∧ w'.sink.bytes =
      (written ++ current.toList.flatMap (pieceBytes format) ++ trailer start).toArray := by
  obtain ⟨v, flushed, standing⟩ := flush_standing h
  simp only [close, flushed, write_of_unlimited standing.limit, standing.start]
  refine ⟨_, rfl, ?_⟩
  simp [standing.bytes]

/-- What may be asked of a writer before it is closed. -/
inductive Call where
  | put (location word : Int32)
  | start (address : Int32)

namespace Call

def put? : Call → Option (Int32 × Int32)
  | .put location word => some (location, word)
  | .start _ => none

def start? : Call → Option Int32
  | .put _ _ => none
  | .start address => some address

end Call

/-- Carries out calls until one of them fails. -/
def perform : List Call → Writer → Except WriteError Unit × Writer
  | [], w => (.ok (), w)
  | .put location word :: rest, w =>
    match w.put location word with
    | (.error e, w) => (.error e, w)
    | (.ok _, w) => perform rest w
  | .start address :: rest, w => perform rest (w.setStart address)

end Writer

/-- The words that calls put, in order. -/
def puts (calls : List Writer.Call) : List (Int32 × Int32) := calls.filterMap Writer.Call.put?

/-- The start address that calls leave: the last one given. -/
def lastStart (calls : List Writer.Call) : Option Int32 :=
  (calls.filterMap Writer.Call.start?).getLast?

@[simp] theorem puts_put (location word : Int32) (rest : List Writer.Call) :
    puts (.put location word :: rest) = (location, word) :: puts rest := rfl

@[simp] theorem puts_start (address : Int32) (rest : List Writer.Call) :
    puts (.start address :: rest) = puts rest := rfl

@[simp] theorem lastStart_put (location word : Int32) (rest : List Writer.Call) :
    lastStart (.put location word :: rest) = lastStart rest := rfl

@[simp] theorem lastStart_start (address : Int32) (rest : List Writer.Call) :
    lastStart (.start address :: rest) = (lastStart rest).or (some address) := by
  simp [lastStart, Writer.Call.start?, List.getLast?_cons]

/-- The calls that put words in order and then give a start address, if there is one. -/
def callsOf (words : List (Int32 × Int32)) (start : Option Int32) : List Writer.Call :=
  words.map (fun p => .put p.1 p.2) ++ start.toList.map .start

@[simp] theorem puts_callsOf (words : List (Int32 × Int32)) (start : Option Int32) :
    puts (callsOf words start) = words := by
  induction words with
  | nil =>
    cases start with
    | none => rfl
    | some address => rfl
  | cons p rest ih => exact congrArg (p :: ·) ih

@[simp] theorem lastStart_callsOf (words : List (Int32 × Int32)) (start : Option Int32) :
    lastStart (callsOf words start) = start := by
  induction words with
  | nil =>
    cases start with
    | none => rfl
    | some address => rfl
  | cons p rest ih => exact ih

/-- The bytes of an image that is written by calls to a new writer and then closed. -/
def encode (format : Format) (calls : List Writer.Call) : Except WriteError (List UInt8) :=
  match (Writer.init {} format).perform calls with
  | (.error e, _) => .error e
  | (.ok _, w) =>
    match w.close with
    | (.error e, _) => .error e
    | (.ok _, w) => .ok w.sink.bytes.toList

/-- A put as the image sees it: fifteen bits of the location and sixteen of the word. -/
def placed (p : Int32 × Int32) : Nat × UInt16 :=
  (p.1.toUInt32.toNat % 0o100000, p.2.toUInt32.toUInt16)

namespace Writer

/-- Every call succeeds, and the pieces of the words put are written in order. -/
theorem perform_standing {w : Writer} {format : Format} {written : List UInt8}
    {current : Option Piece} {start : Option Int32} (h : w.Standing format written current start)
    (calls : List Call) :
    ∃ w' written' current' start', w.perform calls = (.ok (), w') ∧
      w'.Standing format written' current' start' ∧
      written' ++ current'.toList.flatMap (pieceBytes format) =
        written ++ (Piece.split format current ((puts calls).map placed)).flatMap
          (pieceBytes format) ∧
      start' = (lastStart calls).or start := by
  induction calls generalizing w written current start with
  | nil =>
    exact ⟨w, written, current, start, rfl, h, by simp [puts, Piece.split], by simp [lastStart]⟩
  | cons call rest ih =>
    cases call with
    | put location word =>
      obtain ⟨after, v, put, standing⟩ := put_standing h location word
      obtain ⟨w', written', current', start', performed, hw', bytes, hstart⟩ := ih standing
      refine ⟨w', written', current', start', ?_, hw', ?_, ?_⟩
      · rw [perform, put]
        exact performed
      · rw [bytes]
        simp [placed, Piece.split]
      · rw [hstart, lastStart_put]
    | start address =>
      obtain ⟨w', written', current', start', performed, hw', bytes, hstart⟩ :=
        ih (setStart_standing h address)
      refine ⟨w', written', current', start', performed, hw', bytes, ?_⟩
      rw [hstart, lastStart_start]
      cases lastStart rest with
      | none => rfl
      | some last => rfl

end Writer

theorem flatMap_layout_toBlock (format : Format) (pieces : List Piece) :
    ((pieces.map (Piece.toBlock format)).flatMap (Block.layout format)).flatMap wordBytes =
      pieces.flatMap (pieceBytes format) := by
  rw [List.flatMap_map, List.flatMap_assoc]
  rfl

/-- A closed image is the layout of its pieces, ended by the trailer of the last start address. -/
theorem encode_eq (format : Format) (calls : List Writer.Call) :
    encode format calls = .ok ((layoutWords format
      ((Piece.split format none ((puts calls).map placed)).map (Piece.toBlock format))
      (lastStart calls)).flatMap wordBytes) := by
  obtain ⟨v, written, current, start, performed, standing, bytes, hstart⟩ :=
    Writer.perform_standing (Writer.init_standing format) calls
  obtain ⟨w, closed, final⟩ := Writer.close_standing standing
  simp only [encode, performed, closed, final, bytes, hstart, Option.or_none, List.nil_append]
  rw [layoutWords, List.flatMap_append, flatMap_layout_toBlock, trailer_eq]

namespace Piece

/-- What holds of a piece that is still open: it has words, it ends below the top of memory, and a
loader piece is not full. -/
structure Growing (format : Format) (p : Piece) : Prop where
  nonempty : p.words ≠ []
  below : p.next ≤ 2 ^ 15
  room : format = .loader → p.words.length < loaderWords

theorem growing_single (format : Format) {place : Nat} (h : place < 2 ^ 15) (word : UInt16) :
    Growing format ⟨place, [word]⟩ := by
  refine ⟨by simp, ?_, fun _ => by simp [loaderWords]⟩
  simp only [next, List.length_singleton]
  omega

theorem fits_toBlock {format : Format} {p : Piece} (nonempty : p.words ≠ [])
    (below : p.next ≤ 2 ^ 15) (room : format = .loader → p.words.length ≤ loaderWords) :
    (p.toBlock format).Fits format := by
  cases format with
  | loader =>
    have small := room rfl
    refine ⟨rfl, ?_⟩
    simp only [toBlock, List.length_append, List.length_replicate]
    omega
  | block =>
    have positive := List.length_pos_iff.mpr nonempty
    simp only [next] at below
    constructor
    · simp only [toBlock, UInt16.toNat_ofNat']
      omega
    · simp only [toBlock]
      omega

theorem Growing.fits {format : Format} {p : Piece} (h : p.Growing format) :
    (p.toBlock format).Fits format :=
  fits_toBlock h.nonempty h.below fun loader => Nat.le_of_lt (h.room loader)

/-- One word more: what it ends fits, and what stays open still grows. -/
theorem advance_growing {format : Format} {current : Option Piece}
    (h : ∀ p ∈ current, p.Growing format) {place : Nat} (low : place < 2 ^ 15) (word : UInt16) :
    (∀ p ∈ (advance format current place word).1, (p.toBlock format).Fits format) ∧
      ∀ p ∈ (advance format current place word).2, p.Growing format := by
  have single := growing_single format low word
  cases current with
  | none => simpa [advance] using single
  | some p =>
    have growing := h p rfl
    by_cases continues : place = p.next
    · have nonempty : (p.add word).words ≠ [] := by simp [add]
      have below : (p.add word).next ≤ 2 ^ 15 := by
        simp only [add, next, List.length_append, List.length_singleton] at continues ⊢
        omega
      have length : (p.add word).words.length = p.words.length + 1 := by simp [add]
      by_cases full : (p.add word).isFull format = true
      · have fits : ((p.add word).toBlock format).Fits format :=
          fits_toBlock nonempty below fun loader => by
            have := growing.room loader
            omega
        simpa [advance, continues, full] using fits
      · have room : format = .loader → (p.add word).words.length < loaderWords := by
          intro loader
          have before := growing.room loader
          simp only [isFull, loader, decide_true, Bool.true_and, decide_eq_true_eq] at full
          omega
        simpa [advance, continues, full] using Growing.mk nonempty below room
    · simpa [advance, continues] using And.intro growing.fits single

theorem split_fits {format : Format} {current : Option Piece}
    (h : ∀ p ∈ current, p.Growing format) (words : List (Nat × UInt16))
    (low : ∀ entry ∈ words, entry.1 < 2 ^ 15) :
    ∀ p ∈ split format current words, (p.toBlock format).Fits format := by
  induction words generalizing current with
  | nil =>
    intro p hp
    exact (h p (by simpa [split] using hp)).fits
  | cons entry rest ih =>
    obtain ⟨place, word⟩ := entry
    obtain ⟨ended, growing⟩ := advance_growing h (low _ List.mem_cons_self) word
    intro p hp
    rcases List.mem_append.mp hp with hp | hp
    · exact ended p hp
    · exact ih growing (fun entry he => low entry (List.mem_cons_of_mem _ he)) p hp

end Piece

/-- Every piece of a sequence of puts becomes a block that the format can hold. -/
theorem fits_pieces (format : Format) (words : List (Int32 × Int32)) :
    ∀ b ∈ (Piece.split format none (words.map placed)).map (Piece.toBlock format),
      b.Fits format := by
  intro b hb
  obtain ⟨p, hp, rfl⟩ := List.mem_map.mp hb
  refine Piece.split_fits (fun q hq => absurd hq (by simp)) _ ?_ p hp
  intro entry he
  obtain ⟨q, -, rfl⟩ := List.mem_map.mp he
  exact Nat.mod_lt _ (by decide)

/-- Reading a closed image gives back its pieces. -/
theorem decode_encode (format : Format) (calls : List Writer.Call) :
    ∃ bytes, encode format calls = .ok bytes ∧ decode format bytes =
      .ok ⟨(Piece.split format none ((puts calls).map placed)).map (Piece.toBlock format),
        readStart (lastStart calls)⟩ :=
  ⟨_, encode_eq format calls, decode_layoutWords format _ (fits_pieces format (puts calls)) _⟩

end Pds1.Image
