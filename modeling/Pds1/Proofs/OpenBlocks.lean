import Pds1.Proofs.Truncation

/-!
# The block a writer holds back

Whatever is asked of a writer, and whatever fails on the way, the open block holds room for its
header and two bytes for each word it counts, and its check sum is the sum of these words. A sink
that has refused a write stays full, so a block whose writing failed stays open for good. In the
loader format such a block has its 62 words, and a word that continues it is added all the same:
the block holds more than 62 words exactly when a put has succeeded after one that failed.
-/

namespace Pds1

namespace Sink

/-- Nothing more can be stored. -/
def Full (s : Sink) : Prop := s.limit = some s.bytes.size

def Within (s : Sink) : Prop := ∀ n ∈ s.limit, s.bytes.size ≤ n

theorem within_write {s : Sink} (h : s.Within) (data : Array UInt8) : (s.write data).2.Within := by
  intro n limit
  rw [limit_write] at limit
  have below := h n limit
  simp only [write]
  split
  · next room =>
    simp only [fits, Option.mem_def.mp limit, Option.all_some, decide_eq_true_eq] at room
    simpa using room
  · simp only [Option.mem_def.mp limit, Option.getD_some, Array.size_append, Array.size_extract]
    omega

/-- A sink that refuses a write takes what it can. -/
theorem full_of_error {s : Sink} (h : s.Within) {data : Array UInt8} {e : WriteError}
    (failed : (s.write data).1 = .error e) : (s.write data).2.Full := by
  simp only [write] at failed ⊢
  split at failed
  · cases failed
  · next short =>
    cases limit : s.limit with
    | none => simp [fits, limit] at short
    | some n =>
      have below := h n limit
      simp only [fits, limit, Option.all_some, decide_eq_true_eq] at short
      simp only [short, limit, Full, fits, Option.all_some, decide_false, Option.getD_some]
      simp
      omega

theorem Full.write {s : Sink} (h : s.Full) {data : Array UInt8} (nonempty : 0 < data.size) :
    s.write data = (.error .full, s) := by
  have limit : s.limit = some s.bytes.size := h
  have short : s.fits data.size = false := by
    simp only [fits, limit, Option.all_some, decide_eq_false_iff_not]
    omega
  have nothing : data.extract 0 (s.limit.getD 0 - s.bytes.size) = #[] := by simp [limit]
  simp [Sink.write, short, nothing]

/-- A full sink stays full. -/
theorem Full.sink_write {s : Sink} (h : s.Full) (data : Array UInt8) : (s.write data).2.Full := by
  rcases Nat.eq_zero_or_pos data.size with empty | nonempty
  · obtain rfl : data = #[] := Array.eq_empty_of_size_eq_zero empty
    have limit : s.limit = some s.bytes.size := h
    simp [Sink.write, fits, limit, Full]
  · rw [h.write nonempty]
    exact h

end Sink

namespace Image

namespace OpenBlock

variable {format : Format} {words : List UInt16} {b : OpenBlock}

theorem length_header (b : OpenBlock) : b.header.length = headerSize .block := rfl

/-- A block that has been completed for writing, with the words it has been filled up with. -/
theorem Represents.complete (h : b.Represents format words) :
    ∃ words', (b.complete format).Represents format words' := by
  cases format with
  | loader => exact ⟨_, h.pad _⟩
  | block =>
    have header := length_header b
    have size := h.size
    simp only [headerSize] at header size
    refine ⟨words, ?_, h.count, ?_, h.checksum⟩
    · simp only [OpenBlock.complete, headerSize, Array.size_append, List.size_toArray, header,
        Array.size_extract]
      omega
    · have bytes := h.bytes
      have rest : (b.bytes.extract 6 b.bytes.size).toList = b.bytes.toList.drop 6 := by
        simp [List.take_of_length_le]
      simp only [OpenBlock.complete, headerSize, Array.toList_append, rest] at bytes ⊢
      rw [List.drop_left' header]
      exact bytes

theorem count_pad (b : OpenBlock) (n : Nat) : (b.pad n).count = b.count + n := by
  induction n generalizing b with
  | zero => rfl
  | succ n ih =>
    rw [OpenBlock.pad, ih]
    simp only [OpenBlock.push]
    omega

theorem count_complete_loader (b : OpenBlock) :
    (b.complete .loader).count = max loaderWords b.count := by
  rw [OpenBlock.complete, count_pad]
  omega

theorem Represents.size_complete_loader (h : b.Represents .loader words) :
    (b.complete .loader).bytes.size = 2 + 2 * max loaderWords b.count := by
  obtain ⟨_, complete⟩ := h.complete
  rw [complete.size, count_complete_loader, headerSize]

end OpenBlock

namespace Writer

variable {format : Format} {w : Writer}

/-- What a flush can do. -/
theorem flush_cases (w : Writer) :
    (w.block = none ∧ w.flush = (.ok (), w)) ∨
    ∃ b, w.block = some b ∧
      w.flush.2.sink = (w.sink.write (b.complete w.format).bytes).2 ∧
      w.flush.2.format = w.format ∧
      (((w.sink.write (b.complete w.format).bytes).1 = .ok () ∧ w.flush.1 = .ok () ∧
          w.flush.2.block = none) ∨
        ∃ e, (w.sink.write (b.complete w.format).bytes).1 = .error e ∧ w.flush.1 = .error e ∧
          w.flush.2.block = some (b.complete w.format)) := by
  cases block : w.block with
  | none => exact .inl ⟨rfl, by simp [flush, block]⟩
  | some b =>
    refine .inr ⟨b, rfl, ?_⟩
    simp only [flush, block]
    generalize w.sink.write (b.complete w.format).bytes = r
    obtain ⟨result, sink⟩ := r
    cases result with
    | ok => exact ⟨rfl, rfl, .inl ⟨rfl, rfl, rfl⟩⟩
    | error e => exact ⟨rfl, rfl, .inr ⟨e, rfl, rfl, rfl⟩⟩

/-- The writer with a word added, before a full block is written. -/
def extend (w : Writer) (location word : Int32) : Writer :=
  let place := location.toUInt32.toNat % 0o100000
  (w.checkPlace place).append place word

/-- Writes the open block if a word at `location` does not continue it. -/
def flushGap (w : Writer) (location : Int32) : Except WriteError Unit × Writer :=
  w.flushIf fun w => w.breaksAt (location.toUInt32.toNat % 0o100000)

theorem block_extend (w : Writer) (location word : Int32) :
    (w.extend location word).block =
      some ((w.block.getD (.empty w.format (location.toUInt32.toNat % 0o100000))).push word) := by
  simp only [extend, checkPlace]
  split <;> rfl

theorem sink_extend (w : Writer) (location word : Int32) :
    (w.extend location word).sink = w.sink := by
  simp only [extend, checkPlace]
  split <;> rfl

theorem format_extend (w : Writer) (location word : Int32) :
    (w.extend location word).format = w.format := by
  simp only [extend, checkPlace]
  split <;> rfl

/-- A put fails in front of the word, fails behind it, or succeeds. -/
theorem put_cases (w : Writer) (location word : Int32) :
    (∃ e v, w.flushGap location = (.error e, v) ∧ w.put location word = (.error e, v)) ∨
    ∃ v, w.flushGap location = (.ok (), v) ∧
      ((∃ e u, (v.extend location word).flushIf isFull = (.error e, u) ∧
          w.put location word = (.error e, u)) ∨
        ∃ u, (v.extend location word).flushIf isFull = (.ok (), u) ∧
          w.put location word = (.ok (location.toUInt32.toNat % 0o100000 + 1), u)) := by
  rw [congrFun (put_eq location word) w]
  simp only [chain, flushGap, extend]
  rcases w.flushIf _ with ⟨e | _, v⟩
  · exact .inl ⟨e, v, rfl, rfl⟩
  · refine .inr ⟨v, rfl, ?_⟩
    simp only
    rcases ((v.checkPlace _).append _ _).flushIf isFull with ⟨e | _, u⟩
    · exact .inl ⟨e, u, rfl, rfl⟩
    · exact .inr ⟨u, rfl, rfl⟩

/-- A writer whose sink is within its limit and whose open block, if there is one, is in order. -/
structure Orderly (format : Format) (w : Writer) : Prop where
  writes : w.format = format
  within : w.sink.Within
  block : ∀ b ∈ w.block, ∃ words, b.Represents format words

theorem Orderly.flush (h : w.Orderly format) : w.flush.2.Orderly format := by
  obtain ⟨_, flush⟩ | ⟨b, opened, sink, same, ⟨_, _, closed⟩ | ⟨e, _, _, kept⟩⟩ := w.flush_cases
  · rwa [flush]
  · refine ⟨same.trans h.writes, sink ▸ Sink.within_write h.within _, ?_⟩
    simp [closed]
  · refine ⟨same.trans h.writes, sink ▸ Sink.within_write h.within _, ?_⟩
    obtain ⟨words, represents⟩ := h.block b opened
    rw [kept, h.writes]
    rintro _ ⟨⟩
    exact represents.complete

theorem Orderly.flushIf (h : w.Orderly format) (condition : Writer → Bool) :
    (w.flushIf condition).2.Orderly format := by
  rw [Writer.flushIf]
  split
  · exact h.flush
  · exact h

theorem Orderly.extend (h : w.Orderly format) (location word : Int32) :
    (w.extend location word).Orderly format := by
  refine ⟨(format_extend ..).trans h.writes, (sink_extend ..).symm ▸ h.within, ?_⟩
  rw [block_extend, h.writes]
  rintro _ ⟨⟩
  cases opened : w.block with
  | none => exact ⟨_, (OpenBlock.represents_empty format _).push _⟩
  | some b =>
    obtain ⟨words, represents⟩ := h.block b opened
    exact ⟨_, represents.push _⟩

theorem Orderly.put (h : w.Orderly format) (location word : Int32) :
    (w.put location word).2.Orderly format := by
  have gap : (w.flushGap location).2.Orderly format := h.flushIf _
  obtain ⟨e, v, flushed, put⟩ | ⟨v, flushed, ⟨e, u, full, put⟩ | ⟨u, full, put⟩⟩ :=
    w.put_cases location word
  all_goals rw [flushed] at gap; rw [put]
  · exact gap
  all_goals
    have later := (gap.extend location word).flushIf isFull
    rwa [full] at later

/-- The bytes that a flush hands to the sink. -/
def pending (w : Writer) : Option (Array UInt8) := w.block.map fun b => (b.complete w.format).bytes

def pendingIf (condition : Writer → Bool) (w : Writer) : List (Array UInt8) :=
  if condition w then w.pending.toList else []

/-- The buffers that a put hands to the sink. -/
def handed (w : Writer) (location word : Int32) : List (Array UInt8) :=
  w.pendingIf (fun w => w.breaksAt (location.toUInt32.toNat % 0o100000)) ++
    match w.flushGap location with
    | (.error _, _) => []
    | (.ok _, w) => (w.extend location word).pendingIf isFull

theorem sink_flushIf (condition : Writer → Bool) (w : Writer) :
    (w.flushIf condition).2.sink =
      (w.pendingIf condition).foldl (fun sink data => (sink.write data).2) w.sink := by
  simp only [flushIf, pendingIf]
  split
  · obtain ⟨closed, flush⟩ | ⟨b, opened, sink, -⟩ := w.flush_cases
    · simp [flush, pending, closed]
    · simpa [pending, opened] using sink
  · rfl

/-- A put changes the sink by writing these buffers, one after the other. -/
theorem sink_put (w : Writer) (location word : Int32) :
    (w.put location word).2.sink =
      (w.handed location word).foldl (fun sink data => (sink.write data).2) w.sink := by
  have gap := w.sink_flushIf fun w => w.breaksAt (location.toUInt32.toNat % 0o100000)
  rw [handed, List.foldl_append, ← gap, ← flushGap]
  obtain ⟨e, v, flushed, put⟩ | ⟨v, flushed, ⟨e, u, full, put⟩ | ⟨u, full, put⟩⟩ :=
    w.put_cases location word
  all_goals rw [put, flushed]
  · rfl
  all_goals
    have later := (v.extend location word).sink_flushIf isFull
    rwa [full, sink_extend] at later

theorem mem_pendingIf {condition : Writer → Bool} {data : Array UInt8}
    (h : data ∈ w.pendingIf condition) :
    ∃ b, w.block = some b ∧ data = (b.complete w.format).bytes := by
  rw [pendingIf] at h
  split at h
  · obtain ⟨b, opened, rfl⟩ := Option.map_eq_some_iff.mp (Option.mem_toList.mp h)
    exact ⟨b, opened, rfl⟩
  · cases h

theorem Orderly.size_pending (h : w.Orderly .loader) {b : OpenBlock} (opened : w.block = some b) :
    (b.complete w.format).bytes.size = 2 + 2 * max loaderWords b.count := by
  obtain ⟨words, represents⟩ := h.block b opened
  rw [h.writes, represents.size_complete_loader]

/-- The open block has room for another word. -/
def Clear (w : Writer) : Prop := ∀ b ∈ w.block, b.count < loaderWords

/-- The sink is full, and a block of `count` words waits for ever. -/
def Stuck (count : Nat) (w : Writer) : Prop :=
  w.sink.Full ∧ ∃ b, w.block = some b ∧ b.count = count

/-- How the first failure shows: a block of 62 words stays open. -/
inductive Ends {α : Type} : Except WriteError α × Writer → Prop where
  | clear {a : α} {v : Writer} (room : v.Clear) : Ends (.ok a, v)
  | stuck {e : WriteError} {v : Writer} (stuck : v.Stuck loaderWords) : Ends (.error e, v)

theorem Orderly.ends_flush (h : w.Orderly .loader) (room : ∀ b ∈ w.block, b.count ≤ loaderWords) :
    Ends w.flush := by
  obtain ⟨closed, flush⟩ | ⟨b, opened, sink, _, ⟨_, ok, closed⟩ | ⟨e, failed, error, kept⟩⟩ :=
    w.flush_cases
  · rw [flush]
    exact .clear (by simp [Clear, closed])
  · rw [← Prod.eta w.flush, ok]
    exact .clear (by simp [Clear, closed])
  · rw [← Prod.eta w.flush, error]
    refine .stuck ⟨sink ▸ Sink.full_of_error h.within failed, _, kept, ?_⟩
    have few := room b opened
    rw [h.writes, OpenBlock.count_complete_loader]
    omega

theorem Orderly.ends_flushGap (h : w.Orderly .loader) (clear : w.Clear) (location : Int32) :
    Ends (w.flushGap location) := by
  rw [flushGap, Writer.flushIf]
  split
  · exact h.ends_flush fun b opened => Nat.le_of_lt (clear b opened)
  · exact .clear clear

theorem Clear.extend (clear : w.Clear) (location word : Int32) :
    ∀ b ∈ (w.extend location word).block, b.count ≤ loaderWords := by
  rw [block_extend]
  rintro _ ⟨⟩
  cases opened : w.block with
  | none => simp [OpenBlock.push, OpenBlock.empty, loaderWords]
  | some b => exact clear b opened

theorem isFull_iff (h : w.Orderly .loader) {b : OpenBlock} (opened : w.block = some b) :
    w.isFull = true ↔ b.count = loaderWords := by
  simp [isFull, h.writes, opened]

theorem Orderly.ends_flushFull (h : w.Orderly .loader)
    (room : ∀ b ∈ w.block, b.count ≤ loaderWords) : Ends (w.flushIf isFull) := by
  rw [Writer.flushIf]
  split
  · exact h.ends_flush room
  · next unfilled =>
    refine .clear fun b opened => ?_
    have few := room b opened
    rw [isFull_iff h opened] at unfilled
    omega

/-- As long as no put fails, the open block has room for another word. -/
theorem Orderly.ends_put (h : w.Orderly .loader) (clear : w.Clear) (location word : Int32) :
    Ends (w.put location word) := by
  have gap := h.ends_flushGap clear location
  have orderly : (w.flushGap location).2.Orderly .loader := h.flushIf _
  obtain ⟨e, v, flushed, put⟩ | ⟨v, flushed, behind⟩ := w.put_cases location word
  all_goals rw [flushed] at gap orderly
  · cases gap with
    | stuck stuck => rw [put]; exact .stuck stuck
  · cases gap with
    | clear clear =>
      have full := (orderly.extend location word).ends_flushFull (clear.extend location word)
      obtain ⟨e, u, failed, put⟩ | ⟨u, done, put⟩ := behind
      · rw [failed] at full
        cases full with
        | stuck stuck => rw [put]; exact .stuck stuck
      · rw [done] at full
        cases full with
        | clear clear => rw [put]; exact .clear clear

theorem Orderly.size_handed_of_clear (h : w.Orderly .loader) (clear : w.Clear)
    (location word : Int32) : ∀ data ∈ w.handed location word, data.size = 126 := by
  intro data mem
  have gap := h.ends_flushGap clear location
  have orderly : (w.flushGap location).2.Orderly .loader := h.flushIf _
  rw [handed, List.mem_append] at mem
  obtain mem | mem := mem
  · obtain ⟨b, opened, rfl⟩ := mem_pendingIf mem
    have few := clear b opened
    rw [h.size_pending opened]
    simp only [loaderWords] at few ⊢
    omega
  · split at mem
    · cases mem
    · next v flushed =>
      rw [flushed] at gap orderly
      cases gap with
      | clear clear =>
        obtain ⟨b, opened, rfl⟩ := mem_pendingIf mem
        have few := clear.extend location word b opened
        rw [(orderly.extend location word).size_pending opened]
        simp only [loaderWords] at few ⊢
        omega

/-- A full sink refuses the open block. -/
theorem Orderly.flush_of_stuck (h : w.Orderly .loader) {count : Nat} (many : loaderWords ≤ count)
    (stuck : w.Stuck count) : ∃ v, w.flush = (.error .full, v) ∧ v.Stuck count := by
  obtain ⟨full, b, opened, rfl⟩ := stuck
  have nonempty : 0 < (b.complete w.format).bytes.size := by
    rw [h.size_pending opened]
    omega
  simp only [Writer.flush, opened, full.write nonempty]
  refine ⟨_, rfl, full, _, rfl, ?_⟩
  rw [h.writes, OpenBlock.count_complete_loader]
  omega

theorem Orderly.flushGap_of_stuck (h : w.Orderly .loader) {count : Nat}
    (many : loaderWords ≤ count) (stuck : w.Stuck count) (location : Int32) :
    (∃ v, w.flushGap location = (.error .full, v) ∧ v.Stuck count) ∨
      w.flushGap location = (.ok (), w) := by
  rw [flushGap, Writer.flushIf]
  split
  · exact .inl (h.flush_of_stuck many stuck)
  · exact .inr rfl

theorem Stuck.extend {count : Nat} (stuck : w.Stuck count) (location word : Int32) :
    (w.extend location word).Stuck (count + 1) := by
  obtain ⟨full, b, opened, rfl⟩ := stuck
  refine ⟨(sink_extend ..).symm ▸ full, _, block_extend .., ?_⟩
  rw [opened]
  rfl

/-- The test for a full block does not fire beyond 62 words. -/
theorem Orderly.isFull_of_stuck (h : w.Orderly .loader) {count : Nat} (many : loaderWords < count)
    (stuck : w.Stuck count) : w.isFull = false := by
  obtain ⟨_, b, opened, rfl⟩ := stuck
  have full := isFull_iff h opened
  rw [Bool.eq_false_iff, Ne, full]
  omega

/-- A word that continues the waiting block is added to it, and any other is refused. -/
theorem Orderly.put_of_stuck (h : w.Orderly .loader) {count : Nat} (many : loaderWords ≤ count)
    (stuck : w.Stuck count) (location word : Int32) :
    (∃ e, (w.put location word).1 = .error e ∧ (w.put location word).2.Stuck count) ∨
      (∃ next, (w.put location word).1 = .ok next) ∧
        (w.put location word).2.Stuck (count + 1) := by
  have longer := stuck.extend location word
  have unfilled := (h.extend location word).isFull_of_stuck (Nat.lt_succ_of_le many) longer
  obtain ⟨v, refused, stuck'⟩ | passed := h.flushGap_of_stuck many stuck location
  · obtain ⟨e, v, flushed, put⟩ | ⟨v, flushed, _⟩ := w.put_cases location word
    all_goals rw [refused] at flushed; cases flushed
    rw [put]
    exact .inl ⟨_, rfl, stuck'⟩
  · obtain ⟨e, v, flushed, put⟩ | ⟨v, flushed, ⟨e, u, full, put⟩ | ⟨u, full, put⟩⟩ :=
      w.put_cases location word
    all_goals rw [passed] at flushed; cases flushed
    all_goals rw [Writer.flushIf, unfilled] at full; cases full
    rw [put]
    exact .inr ⟨⟨_, rfl⟩, longer⟩

theorem Orderly.size_handed_of_stuck (h : w.Orderly .loader) {count : Nat}
    (many : loaderWords ≤ count) (stuck : w.Stuck count) (location word : Int32) :
    ∀ data ∈ w.handed location word, data.size = 2 + 2 * count := by
  intro data mem
  rw [handed, List.mem_append] at mem
  obtain mem | mem := mem
  · obtain ⟨b, opened, rfl⟩ := mem_pendingIf mem
    obtain ⟨_, b', opened', rfl⟩ := stuck
    cases opened.symm.trans opened'
    rw [h.size_pending opened]
    omega
  · obtain ⟨v, refused, _⟩ | passed := h.flushGap_of_stuck many stuck location
    · rw [refused] at mem
      cases mem
    · have unfilled := (h.extend location word).isFull_of_stuck (Nat.lt_succ_of_le many)
        (stuck.extend location word)
      simp [passed, pendingIf, unfilled] at mem

end Writer

/-! ### Any sequence of requests -/

/-- What may be asked of a writer until it is closed. -/
inductive Request where
  | leader (bytes : Array UInt8)
  | put (location word : Int32)
  | start (address : Int32)

namespace Request

/-- The writer after a request, whether it has been carried out or has failed. -/
def after (w : Writer) : Request → Writer
  | leader bytes => (w.writeLeader bytes).2
  | put location word => (w.put location word).2
  | start address => w.setStart address

/-- Whether a put succeeds; nothing for the other requests. -/
def outcome? (w : Writer) : Request → Option Bool
  | put location word => some (w.put location word).1.toBool
  | _ => none

end Request

namespace Writer

variable {format : Format} {w : Writer}

/-- The writer after a sequence of requests, which goes on whatever fails. -/
def serve (w : Writer) (requests : List Request) : Writer := requests.foldl Request.after w

/-- Which of the puts succeed, in order. -/
def putOutcomes (w : Writer) : List Request → List Bool
  | [] => []
  | request :: rest => (request.outcome? w).toList ++ (request.after w).putOutcomes rest

/-- A put succeeds after one that fails. -/
def Resumes (outcomes : List Bool) : Prop := [false, true].Sublist outcomes

theorem resumes_concat (outcomes : List Bool) (outcome : Bool) :
    Resumes (outcomes ++ [outcome]) ↔ Resumes outcomes ∨ false ∈ outcomes ∧ outcome = true := by
  have reversed (l : List Bool) : Resumes l ↔ [true, false].Sublist l.reverse :=
    List.reverse_sublist.symm
  rw [reversed, reversed, List.reverse_concat, List.sublist_cons_iff]
  cases outcome with
  | false => simp
  | true => simp

theorem Orderly.after (h : w.Orderly format) (request : Request) :
    (request.after w).Orderly format := by
  cases request with
  | leader bytes => exact ⟨h.writes, Sink.within_write h.within _, h.block⟩
  | put location word => exact h.put location word
  | start address => exact ⟨h.writes, h.within, h.block⟩

theorem Orderly.serve (h : w.Orderly format) (requests : List Request) :
    (w.serve requests).Orderly format := by
  induction requests generalizing w with
  | nil => exact h
  | cons request rest ih => exact ih (h.after request)

/-- A loader writer after puts that ended as listed. -/
structure Loading (outcomes : List Bool) (w : Writer) : Prop where
  orderly : w.Orderly .loader
  clear : false ∉ outcomes → w.Clear
  stuck : false ∈ outcomes →
    ∃ count, w.Stuck count ∧ loaderWords ≤ count ∧ (loaderWords < count ↔ Resumes outcomes)

variable {outcomes : List Bool}

theorem Loading.put (h : w.Loading outcomes) (location word : Int32) :
    (w.put location word).2.Loading (outcomes ++ [(w.put location word).1.toBool]) := by
  by_cases failed : false ∈ outcomes
  · obtain ⟨count, stuck, many, resumed⟩ := h.stuck failed
    refine ⟨h.orderly.put location word, by simp [failed], fun _ => ?_⟩
    obtain ⟨e, error, stuck⟩ | ⟨⟨next, ok⟩, stuck⟩ :=
      h.orderly.put_of_stuck many stuck location word
    · refine ⟨count, stuck, many, ?_⟩
      simp [resumes_concat, error, resumed, Except.toBool]
    · refine ⟨count + 1, stuck, by omega, ?_⟩
      simp only [resumes_concat, failed, ok, Except.toBool, and_self, or_true, iff_true]
      omega
  · refine ⟨h.orderly.put location word, ?_, ?_⟩
    all_goals
      have ends := h.orderly.ends_put (h.clear failed) location word
      generalize w.put location word = r at ends ⊢
      intro failed'
    · cases ends with
      | clear clear => exact clear
      | stuck => simp [Except.toBool] at failed'
    · cases ends with
      | clear => simp [failed, Except.toBool] at failed'
      | stuck stuck =>
        -- the first failure, so nothing has succeeded after one yet
        have fresh : ¬ Resumes outcomes := fun resumed => failed (resumed.subset (by simp))
        exact ⟨loaderWords, stuck, Nat.le_refl _,
          by simp [resumes_concat, fresh, failed, Except.toBool]⟩

theorem Loading.of_block (h : w.Loading outcomes) {v : Writer} (orderly : v.Orderly .loader)
    (block : v.block = w.block) (full : w.sink.Full → v.sink.Full) : v.Loading outcomes where
  orderly := orderly
  clear quiet := by simpa only [Clear, block] using h.clear quiet
  stuck failed := by
    obtain ⟨count, stuck, counted⟩ := h.stuck failed
    exact ⟨count, ⟨full stuck.1, by simpa only [block] using stuck.2⟩, counted⟩

theorem Loading.after (h : w.Loading outcomes) (request : Request) :
    (request.after w).Loading (outcomes ++ (request.outcome? w).toList) := by
  have orderly := h.orderly.after request
  cases request with
  | put location word => exact h.put location word
  | leader bytes =>
    rw [Request.outcome?, Option.toList_none, List.append_nil]
    · exact h.of_block orderly rfl fun full => full.sink_write bytes
    · rintro _ _ ⟨⟩
  | start address =>
    rw [Request.outcome?, Option.toList_none, List.append_nil]
    · exact h.of_block orderly rfl id
    · rintro _ _ ⟨⟩

theorem Loading.serve (h : w.Loading outcomes) (requests : List Request) :
    (w.serve requests).Loading (outcomes ++ w.putOutcomes requests) := by
  induction requests generalizing outcomes w with
  | nil => simpa [putOutcomes, Writer.serve] using h
  | cons request rest ih =>
    rw [putOutcomes, ← List.append_assoc]
    exact ih (h.after request)

theorem orderly_init (limit : Option Nat) (format : Format) :
    (init { limit := limit } format).Orderly format :=
  ⟨rfl, fun _ _ => Nat.zero_le _, by simp [init]⟩

theorem loading_init (limit : Option Nat) : (init { limit := limit } .loader).Loading [] :=
  ⟨orderly_init limit .loader, fun _ => by simp [Clear, init], by simp⟩

theorem Loading.exists_gt_iff (h : w.Loading outcomes) :
    (∃ b ∈ w.block, loaderWords < b.count) ↔ Resumes outcomes := by
  by_cases failed : false ∈ outcomes
  · obtain ⟨count, ⟨_, b, opened, rfl⟩, _, resumed⟩ := h.stuck failed
    simp [opened, resumed]
  · have fresh : ¬ Resumes outcomes := fun resumed => failed (resumed.subset (by simp))
    have clear := h.clear failed
    simp only [fresh, iff_false, not_exists, not_and, not_lt]
    exact fun b opened => Nat.le_of_lt (clear b opened)

theorem Loading.size_handed (h : w.Loading outcomes) (location word : Int32) :
    ∀ data ∈ w.handed location word, (data.size = 126 ↔ ¬ Resumes outcomes) := by
  intro data mem
  by_cases failed : false ∈ outcomes
  · obtain ⟨count, stuck, many, resumed⟩ := h.stuck failed
    rw [h.orderly.size_handed_of_stuck many stuck location word data mem, ← resumed]
    simp only [loaderWords] at many ⊢
    omega
  · have fresh : ¬ Resumes outcomes := fun resumed => failed (resumed.subset (by simp))
    simp [h.orderly.size_handed_of_clear (h.clear failed) location word data mem, fresh]

theorem Loading.size_pending (h : w.Loading outcomes) :
    ∀ data ∈ w.pending, (data.size = 126 ↔ ¬ Resumes outcomes) := by
  rintro data mem
  obtain ⟨b, opened, rfl⟩ := Option.map_eq_some_iff.mp (Option.mem_def.mp mem)
  have longer : loaderWords < b.count ↔ Resumes outcomes := by
    simpa [opened] using h.exists_gt_iff
  rw [h.orderly.size_pending opened, ← longer]
  simp only [loaderWords]
  omega

end Writer

open Writer in
/-- Whatever a writer is asked and whatever fails, an open block has two bytes for each word that it
counts and sums them up. In the loader format it has more than 62 words, and is then handed over
with another size than a block, exactly if a put succeeded after one that failed. -/
theorem open_block_represents_words (limit : Option Nat) (requests : List Request) :
    (∀ format, ∀ b ∈ ((init { limit := limit } format).serve requests).block,
      ∃ words, b.Represents format words) ∧
    let w := (init { limit := limit } .loader).serve requests
    let outcomes := (init { limit := limit } .loader).putOutcomes requests
    ((∃ b ∈ w.block, loaderWords < b.count) ↔ Resumes outcomes) ∧
      (∀ data ∈ w.pending, (data.size = 126 ↔ ¬ Resumes outcomes)) ∧
      ∀ location word,
        (w.put location word).2.sink =
            (w.handed location word).foldl (fun sink data => (sink.write data).2) w.sink ∧
          ∀ data ∈ w.handed location word, (data.size = 126 ↔ ¬ Resumes outcomes) := by
  have loading := (loading_init limit).serve requests
  refine ⟨fun format => ((orderly_init limit format).serve requests).block, ?_⟩
  refine ⟨loading.exists_gt_iff, loading.size_pending, fun location word => ?_⟩
  exact ⟨sink_put _ location word, loading.size_handed location word⟩

open Writer in
/-- On a sink that takes nothing, a word right behind a block of 62 makes it one of 63. -/
theorem loader_block_outgrown :
    let words := (List.range 63).map fun n => Request.put (.ofNat n) 1
    let w := (init { limit := some 0 } .loader).serve words
    w.block.map OpenBlock.count = some 63 ∧ (w.handed 0 1).map Array.size = [128] := by
  decide +kernel

end Image

end Pds1
