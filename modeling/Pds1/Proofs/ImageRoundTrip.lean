import Mathlib.Data.List.SplitBy
import Pds1.Proofs.ImageWriting

/-!
# Reading back what was written

In the block format an image gives back every word at the low fifteen bits of its location, and its
blocks are the maximal runs of consecutive locations. The start address comes back in both formats,
except the one whose fifteen bits are all ones: its trailer starts like the end of an image without
a start address.
-/

namespace Pds1.Image

/-- The bits of a location that an image keeps. -/
def addressMask : Int32 := 0o77777

/-- A put with fifteen bits of its location and sixteen of its word. -/
def masked (p : Int32 × Int32) : UInt16 × UInt16 :=
  ((p.1 &&& addressMask).toUInt32.toUInt16, p.2.toUInt32.toUInt16)

/-- Whether the second of two words continues the first. -/
def follows (p q : UInt16 × UInt16) : Bool := q.1 == p.1 + 1

/-- The maximal runs in which each location is the one before plus one. -/
def runs (words : List (UInt16 × UInt16)) : List (List (UInt16 × UInt16)) := words.splitBy follows

/-- The block of a run, loaded where the run starts. -/
def Block.ofRun (run : List (UInt16 × UInt16)) : Block :=
  ⟨(run.headD (0, 0)).1, run.map Prod.snd⟩

theorem toUInt16_and_addressMask (location : Int32) :
    (location &&& addressMask).toUInt32.toUInt16 = location.toUInt32.toUInt16 &&& ~~~startFlag := by
  rw [Int32.toUInt32_and, UInt32.toUInt16_and]
  rfl

theorem toNat_masked (p : Int32 × Int32) : (masked p).1.toNat = (placed p).1 := by
  simp only [masked, placed, toUInt16_and_addressMask, toNat_and_not_startFlag,
    UInt32.toNat_toUInt16]
  omega

theorem follows_masked (p q : Int32 × Int32) :
    follows (masked p) (masked q) = ((placed q).1 == (placed p).1 + 1) := by
  have hp : (placed p).1 < 2 ^ 15 := Nat.mod_lt _ (by decide)
  have sum : ((masked p).1 + 1).toNat = (placed p).1 + 1 := by
    rw [UInt16.toNat_add, toNat_masked, show (1 : UInt16).toNat = 1 from rfl]
    omega
  rw [follows, Bool.eq_iff_iff, beq_iff_eq, beq_iff_eq, ← UInt16.toNat_inj, sum, toNat_masked]

/-- A piece that is still open and the run it has taken so far. -/
structure Holds (p : Piece) (run : List (UInt16 × UInt16)) (last : Int32 × Int32) : Prop where
  block : p.toBlock .block = .ofRun run
  chain : run.IsChain fun a b => follows a b = true
  ends : run.getLast? = some (masked last)
  next : p.next = (placed last).1 + 1

theorem holds_single (q : Int32 × Int32) :
    Holds ⟨(placed q).1, [(placed q).2]⟩ [masked q] q := by
  refine ⟨?_, by simp, rfl, rfl⟩
  have address : UInt16.ofNat (placed q).1 = (masked q).1 := by
    rw [← toNat_masked, UInt16.ofNat_toNat]
  simp only [Piece.toBlock, Block.ofRun, List.headD_cons, address]
  rfl

theorem Holds.add {p : Piece} {run : List (UInt16 × UInt16)} {last q : Int32 × Int32}
    (h : Holds p run last) (continues : (placed q).1 = p.next) :
    Holds (p.add (placed q).2) (run ++ [masked q]) q := by
  have link : follows (masked last) (masked q) = true := by
    rw [follows_masked, continues, h.next, beq_self_eq_true]
  have nonempty : run ≠ [] := by
    rintro rfl
    exact absurd h.ends (by simp)
  refine ⟨?_, ?_, by simp, ?_⟩
  · have block := h.block
    simp only [Piece.toBlock, Block.ofRun, Block.mk.injEq] at block
    cases run with
    | nil => exact absurd rfl nonempty
    | cons first rest =>
      simp only [Piece.toBlock, Piece.add, Block.ofRun, List.cons_append, List.headD_cons]
      simp [block.1, block.2, masked, placed]
  · rw [List.isChain_append]
    refine ⟨h.chain, by simp, ?_⟩
    intro a ha b hb
    simp only [h.ends, Option.mem_def, Option.some.injEq, List.head?_cons] at ha hb
    rw [← ha, ← hb]
    exact link
  · simp only [Piece.next, Piece.add, List.length_append, List.length_singleton] at continues ⊢
    omega

theorem Holds.runs_eq {p : Piece} {run : List (UInt16 × UInt16)} {last : Int32 × Int32}
    (h : Holds p run last) : runs run = [run] := by
  refine List.splitBy_of_isChain ?_ h.chain
  rintro rfl
  exact absurd h.ends (by simp)

/-- The pieces of the block format are the maximal runs. The induction carries the run of the piece
that is open, because a run is known to be maximal only when the next word does not continue it. -/
theorem split_eq_runs {p : Piece} {run : List (UInt16 × UInt16)} {last : Int32 × Int32}
    (h : Holds p run last) (rest : List (Int32 × Int32)) :
    (Piece.split .block (some p) (rest.map placed)).map (Piece.toBlock .block) =
      (runs (run ++ rest.map masked)).map Block.ofRun := by
  induction rest generalizing p run last with
  | nil => simp [Piece.split, h.runs_eq, h.block]
  | cons q rest ih =>
    rw [List.map_cons, List.map_cons, Piece.split]
    by_cases continues : (placed q).1 = p.next
    · have tail := ih (h.add continues)
      rw [List.append_assoc, List.singleton_append] at tail
      simpa [Piece.advance, continues, Piece.isFull] using tail
    · have tail := ih (holds_single q)
      have gap : ∀ x ∈ run.getLast?, follows x (masked q) = false := by
        intro x hx
        have ends : x = masked last := Option.some.inj (hx.symm.trans h.ends)
        rw [ends, follows_masked, ← h.next]
        simpa using continues
      have cut : runs (run ++ masked q :: rest.map masked) =
          run :: runs (masked q :: rest.map masked) := by
        rw [runs, List.splitBy_append_cons _ gap, ← runs, h.runs_eq]
        rfl
      rw [cut, List.map_cons, ← h.block]
      simpa [Piece.advance, continues] using tail

theorem blocks_eq_runs (words : List (Int32 × Int32)) :
    (Piece.split .block none (words.map placed)).map (Piece.toBlock .block) =
      (runs (words.map masked)).map Block.ofRun := by
  cases words with
  | nil => rfl
  | cons q rest =>
    have tail := split_eq_runs (holds_single q) rest
    simpa [Piece.split, Piece.advance] using tail

/-- The addresses of a block step by one, as those of a run do. -/
theorem located_run (address : UInt16) (k : Nat) (run : List (UInt16 × UInt16))
    (chain : run.IsChain fun a b => follows a b = true)
    (first : ∀ a ∈ run.head?, a.1 = address + UInt16.ofNat k) :
    ((run.map Prod.snd).zipIdx k).map (fun entry => (address + UInt16.ofNat entry.2, entry.1)) =
      run := by
  induction run generalizing k with
  | nil => rfl
  | cons a rest ih =>
    have ha := first a rfl
    have tail := ih (k + 1) chain.tail (by
      intro b hb
      have link := List.isChain_cons.mp chain
      have step := link.1 b hb
      simp only [follows, beq_iff_eq] at step
      rw [step, ha, UInt16.ofNat_add, UInt16.add_assoc]
      rfl)
    simp only [List.map_cons, List.zipIdx_cons, tail, ← ha]

theorem located_ofRun (run : List (UInt16 × UInt16))
    (chain : run.IsChain fun a b => follows a b = true) : (Block.ofRun run).located = run := by
  refine located_run _ 0 run chain ?_
  intro a ha
  cases run with
  | nil => cases ha
  | cons b rest =>
    cases ha
    simp [Block.ofRun]

/-- The words of the blocks of all runs are the words again. -/
theorem words_runs (words : List (UInt16 × UInt16)) (start : Option UInt16) :
    (Image.mk ((runs words).map Block.ofRun) start).words = words := by
  rw [Image.words, List.flatMap_map]
  calc (runs words).flatMap (fun run => (Block.ofRun run).located)
      = (runs words).flatMap id := by
        refine List.flatMap_congr ?_
        intro run hrun
        exact located_ofRun run (List.isChain_of_mem_splitBy hrun)
    _ = words := by rw [List.flatMap_id, runs, List.flatten_splitBy]

/-- An image in the block format gives back every word that was put, in order and at the low fifteen
bits of its location, and its blocks are the maximal runs of consecutive locations. -/
theorem block_image_round_trip (calls : List Writer.Call) :
    ∃ bytes image, encode .block calls = .ok bytes ∧ decode .block bytes = .ok image ∧
      image.blocks = (runs ((puts calls).map masked)).map Block.ofRun ∧
      image.words = (puts calls).map masked := by
  obtain ⟨bytes, encoded, decoded⟩ := decode_encode .block calls
  rw [blocks_eq_runs] at decoded
  exact ⟨bytes, _, encoded, decoded, rfl, words_runs _ _⟩

/-- In both formats the start address given last comes back with its low fifteen bits, unless these
are all ones; then, as without a start address, none comes back. -/
theorem start_address_round_trip (format : Format) (calls : List Writer.Call) :
    ∃ bytes image, encode format calls = .ok bytes ∧ decode format bytes = .ok image ∧
      image.start = (lastStart calls).bind fun address =>
        let low := (address &&& addressMask).toUInt32.toUInt16
        if low = 0o77777 then none else some low := by
  obtain ⟨bytes, encoded, decoded⟩ := decode_encode format calls
  refine ⟨bytes, _, encoded, decoded, ?_⟩
  cases lastStart calls with
  | none => rfl
  | some address =>
    simp only [readStart, Option.bind_some, toUInt16_and_addressMask]
    rfl

/-- The highest address is lost. -/
theorem highest_start_address_lost :
    ∃ bytes image, encode .block [.start 0o77777] = .ok bytes ∧ decode .block bytes = .ok image ∧
      image.start ≠ some ((0o77777 : Int32) &&& addressMask).toUInt32.toUInt16 := by
  obtain ⟨bytes, encoded, decoded⟩ := decode_encode .block [.start 0o77777]
  exact ⟨bytes, _, encoded, decoded, by decide⟩

end Pds1.Image
