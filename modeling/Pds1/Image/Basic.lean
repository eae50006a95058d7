/-!
# Object images

An image is a sequence of blocks of sixteen-bit words, closed by a trailer that may carry a start
address. In the block format a block has a load address, a negated word count and a check word; in
the loader format every block has a zero header and 62 words.
-/

namespace Pds1

namespace Image

inductive Format where
  | loader
  | block
  deriving DecidableEq

namespace Format

instance : Inhabited Format := ⟨block⟩

def name : Format → String
  | loader => "loader"
  | block => "block"

/-- A name that no format has. -/
structure Unrecognized where
  name : String
  deriving DecidableEq

def Unrecognized.message (e : Unrecognized) : String :=
  "unknown object format '" ++ e.name ++ "', expected 'loader' or 'block'"

/-- Format names are read without regard to ASCII case. -/
def ofName (text : String) : Except Unrecognized Format :=
  if text.toLower = "loader" then .ok loader
  else if text.toLower = "block" then .ok block
  else .error ⟨text⟩

end Format

/-- Words in a block of the loader format. -/
def loaderWords : Nat := 62

/-- Where the bootstrap reader puts a loader block. -/
def loaderBase : UInt16 := 0o7700

/-- Trailer of an image without a start address. -/
def terminator : UInt16 := 0o177777

/-- Set in the first word of a trailer with a start address. -/
def startFlag : UInt16 := 0o100000

/-- The two bytes of a word, the high one first. -/
def wordBytes (w : UInt16) : List UInt8 := [(w >>> 8).toUInt8, w.toUInt8]

def wordOfBytes (high low : UInt8) : UInt16 := (high.toUInt16 <<< 8) ||| low.toUInt16

/-- The whole words of a byte string, and whether a single byte is left over. -/
def toWords : List UInt8 → List UInt16 × Bool
  | high :: low :: rest =>
    let (words, odd) := toWords rest
    (wordOfBytes high low :: words, odd)
  | [_] => ([], true)
  | [] => ([], false)

structure Block where
  address : UInt16
  words : List UInt16
  deriving DecidableEq

namespace Block

/-- The words of a block with their addresses, which wrap at sixteen bits. -/
def located (b : Block) : List (UInt16 × UInt16) :=
  b.words.zipIdx.map fun entry => (b.address + UInt16.ofNat entry.2, entry.1)

end Block

end Image

structure Image where
  blocks : List Image.Block
  start : Option UInt16
  deriving DecidableEq

/-- Every word of an image with its address. -/
def Image.words (i : Image) : List (UInt16 × UInt16) := i.blocks.flatMap Image.Block.located

end Pds1
