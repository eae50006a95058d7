import Pds1.Event
import Pds1.Image.Basic
import Pds1.Sink

/-!
# Writing an image

Words at consecutive locations share a block. A gap closes the open block, and so does a full block
in the loader format. A block whose writing fails stays open, with any padding it was given; a later
flush writes it again.
-/

namespace Pds1.Image

/-- A block that is still growing, with its header in front. Words are summed up at 32 bits. -/
structure OpenBlock where
  address : Nat
  bytes : Array UInt8
  count : Nat
  checksum : Int32
  deriving DecidableEq

namespace OpenBlock

def headerSize : Format → Nat
  | .loader => 2
  | .block => 6

def empty (format : Format) (address : Nat) : OpenBlock :=
  ⟨address, Array.replicate (headerSize format) 0, 0, 0⟩

def push (b : OpenBlock) (word : Int32) : OpenBlock :=
  { b with
    bytes := b.bytes ++ (wordBytes word.toUInt32.toUInt16).toArray
    count := b.count + 1
    checksum := b.checksum + word }

/-- Adds zero words. -/
def pad (b : OpenBlock) : Nat → OpenBlock
  | 0 => b
  | n + 1 => (b.push 0).pad n

/-- Load address, negated count and check word, each cut to sixteen bits. -/
def header (b : OpenBlock) : List UInt8 :=
  let address := Int32.ofNat b.address
  let count := Int32.ofNat b.count
  [address, -count, -(b.checksum + address - count)].flatMap fun value =>
    wordBytes value.toUInt32.toUInt16

/-- The block as it is written: filled up in the loader format, with its header otherwise. -/
def complete (format : Format) (b : OpenBlock) : OpenBlock :=
  match format with
  | .loader => b.pad (loaderWords - b.count)
  | .block => { b with bytes := b.header.toArray ++ b.bytes.extract 6 b.bytes.size }

/-- The location that continues the block. -/
def next (b : OpenBlock) : Nat := b.address + b.count

end OpenBlock

structure Writer where
  sink : Sink
  format : Format
  block : Option OpenBlock := none
  /-- Number of blocks written. -/
  blocks : Nat := 0
  start : Option Int32 := none
  log : Array Event := #[]
  deriving DecidableEq

namespace Writer

def init (sink : Sink) (format : Format) : Writer := { sink := sink, format := format }

/-- Copies bytes ahead of the first block. -/
def writeLeader (w : Writer) (bytes : Array UInt8) : Except WriteError Unit × Writer :=
  let (result, sink) := w.sink.write bytes
  (result, { w with sink := sink })

def setStart (w : Writer) (address : Int32) : Writer := { w with start := some address }

/-- Writes the open block, if there is one. -/
def flush (w : Writer) : Except WriteError Unit × Writer :=
  match w.block with
  | none => (.ok (), w)
  | some b =>
    let b := b.complete w.format
    match w.sink.write b.bytes with
    | (.error e, sink) => (.error e, { w with sink := sink, block := some b })
    | (.ok _, sink) =>
      (.ok (), { w with
        sink := sink
        block := none
        blocks := w.blocks + 1
        log := w.log.push (.wroteBlock b.address b.count) })

/-- Whether `location` does not continue the open block. -/
def breaksAt (w : Writer) (location : Nat) : Bool := w.block.any fun b => location != b.next

/-- Whether a new block at `location` is the first one and not where the bootstrap reader looks. -/
def isMisplaced (w : Writer) (location : Nat) : Bool :=
  w.block.isNone && w.format = .loader && w.blocks = 0 &&
    UInt16.ofNat (location % 0o10000) != loaderBase

/-- Records a first block that stands in the wrong place. -/
def checkPlace (w : Writer) (location : Nat) : Writer :=
  if w.isMisplaced location then { w with log := w.log.push (.misplacedLoaderBlock location) }
  else w

/-- Adds a word to the open block, or to a new one at `location`. -/
def append : Writer → Nat → Int32 → Writer
  | ⟨sink, format, block, blocks, start, log⟩, location, word =>
    ⟨sink, format, some ((block.getD (.empty format location)).push word), blocks, start, log⟩

/-- Whether the open block is a full loader block. -/
def isFull (w : Writer) : Bool :=
  w.format = .loader && w.block.any fun b => b.count = loaderWords

/-- Adds a word at the low fifteen bits of `location` and hands back the location after it. -/
def put (w : Writer) (location word : Int32) : Except WriteError Nat × Writer :=
  let place := location.toUInt32.toNat % 0o100000
  match (if w.breaksAt place then w.flush else (.ok (), w)) with
  | (.error e, w) => (.error e, w)
  | (.ok _, w) =>
    let w := (w.checkPlace place).append place word
    match (if w.isFull then w.flush else (.ok (), w)) with
    | (.error e, w) => (.error e, w)
    | (.ok _, w) => (.ok (place + 1), w)

/-- The bytes that close an image. -/
def trailer (start : Option Int32) : List UInt8 :=
  match start with
  | some address => wordBytes (address.toUInt32.toUInt16 ||| startFlag) ++ [0, 0]
  | none => wordBytes terminator

/-- Writes what is open and the trailer. -/
def close (w : Writer) : Except WriteError Unit × Writer :=
  match w.flush with
  | (.error e, w) => (.error e, w)
  | (.ok _, w) =>
    match w.sink.write (trailer w.start).toArray with
    | (.error e, sink) => (.error e, { w with sink := sink })
    | (.ok _, sink) =>
      (.ok (), { w with sink := sink, log := w.log.push (.closedImage w.blocks w.start) })

end Writer

end Pds1.Image
