import Pds1.Image.Basic
import Pds1.Octal

/-!
# Reading an image

Blocks are read until a trailer; what follows the trailer is not looked at. Offsets in faults are
byte offsets, and every word starts at an even one.
-/

namespace Pds1.Image

inductive ReadError where
  /-- No whole word is left where one has to be. -/
  | truncated (offset : Nat)
  | unterminated
  | checksum (address sum : UInt16)
  | header (offset : Nat) (word : UInt16)
  | startPadding (offset : Nat)
  deriving DecidableEq

def ReadError.message : ReadError → String
  | truncated offset => "image ends inside a block at byte " ++ offset.repr
  | unterminated => "image has no terminator"
  | checksum address sum =>
    "bad checksum in block at " ++ Octal.ofWord address ++ ", words sum to " ++ Octal.ofWord sum
  | header offset word =>
    "loader block at byte " ++ offset.repr ++ " has header " ++ Octal.ofWord word
  | startPadding offset => "start block at byte " ++ offset.repr ++ " is not padded with zeros"

/-- How the reading of an image ended. -/
inductive Ending where
  | fault (error : ReadError)
  /-- At a trailer, with the number of bytes after it. -/
  | trailer (start : Option UInt16) (trailing : Nat)
  deriving DecidableEq

/-- The blocks read and how the reading ended. -/
structure Reading where
  blocks : List Block
  ending : Ending
  deriving DecidableEq

namespace Reading

def fault (error : ReadError) : Reading := ⟨[], .fault error⟩

def after (block : Block) (r : Reading) : Reading := ⟨block :: r.blocks, r.ending⟩

end Reading

def sum (words : List UInt16) : UInt16 := words.foldl (· + ·) 0

/-- Reads blocks from the words at `offset`; `odd` tells whether a single byte follows them. -/
def readWords (format : Format) (odd : Bool) (offset : Nat) (words : List UInt16) : Reading :=
  match words with
  | [] => .fault (if odd then .truncated offset else .unterminated)
  | head :: rest =>
    if head = terminator then ⟨[], .trailer none (2 * rest.length + odd.toNat)⟩
    else if head &&& startFlag ≠ 0 then
      match rest with
      | [] => .fault (.truncated (offset + 2))
      | padding :: rest =>
        if padding ≠ 0 then .fault (.startPadding offset)
        else ⟨[], .trailer (some (head &&& ~~~startFlag)) (2 * rest.length + odd.toNat)⟩
    else
      match format with
      | .loader =>
        if head ≠ 0 then .fault (.header offset head)
        else if rest.length < loaderWords then .fault (.truncated (offset + 2 + 2 * rest.length))
        else
          .after ⟨loaderBase, rest.take loaderWords⟩
            (readWords format odd (offset + 2 + 2 * loaderWords) (rest.drop loaderWords))
      | .block =>
        match rest with
        | [] => .fault (.truncated (offset + 2))
        | [_] => .fault (.truncated (offset + 4))
        | negated :: check :: data =>
          let count := (-negated).toNat
          if data.length < count then .fault (.truncated (offset + 6 + 2 * data.length))
          else
            let total := head + negated + check + sum (data.take count)
            if total ≠ 0 then .fault (.checksum head total)
            else
              .after ⟨head, data.take count⟩
                (readWords format odd (offset + 6 + 2 * count) (data.drop count))
termination_by words.length
decreasing_by
  all_goals simp only [List.length_drop, List.length_cons]; omega

def readBytes (format : Format) (bytes : List UInt8) : Reading :=
  let (words, odd) := toWords bytes
  readWords format odd 0 words

/-- Reads an image. -/
def decode (format : Format) (bytes : List UInt8) : Except ReadError Image :=
  let r := readBytes format bytes
  match r.ending with
  | .fault error => .error error
  | .trailer start _ => .ok ⟨r.blocks, start⟩

end Pds1.Image
