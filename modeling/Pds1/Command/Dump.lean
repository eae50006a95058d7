import Pds1.Command.Outcome
import Pds1.Image.Dump
import Pds1.Image.Reader

/-!
# The dumping command

Prints a file in octal, or the blocks of the image in it. Bytes ahead of the image can be skipped.
-/

namespace Pds1.Dumping

def program : String := "imdump"

def specs : List Options.Spec :=
  [⟨"blocks", some 'b', none⟩, ⟨"format", some 'f', some Options.isFormat⟩,
    ⟨"skip", some 's', some Options.isNumber⟩, Options.levelSpec]

def help : String :=
  "Print the contents of an Imlac object file\n\nUsage: imdump [OPTIONS] <FILE>\n"

inductive Failure where
  | unreadable (error : FileError)
  | skipTooFar (skip size : Nat)
  | malformed (error : Image.ReadError)
  deriving DecidableEq

def Failure.message : Failure → String
  | unreadable e => e.message
  | skipTooFar skip size =>
    "cannot skip " ++ skip.repr ++ " bytes of a " ++ size.repr ++ " byte file"
  | malformed e => e.message

/-- What reading an image puts in the log. -/
def readingLog (r : Image.Reading) : List Event :=
  r.blocks.map (fun b => .readBlock b.address.toNat b.words.length) ++
    match r.ending with
    | .trailer _ trailing => if trailing = 0 then [] else [.trailingBytes trailing]
    | .fault _ => []

/-- The blocks of an image as text, and the log of reading it. -/
def describe (format : Image.Format) (bytes : List UInt8) : Except Failure String × List Event :=
  let r := Image.readBytes format bytes
  (match r.ending with
    | .fault e => .error (.malformed e)
    | .trailer start _ =>
      .ok (String.join ((Image.describe ⟨r.blocks, start⟩).map (· ++ "\n"))),
    readingLog r)

def perform (g : Options.Given) (path : String) (d : Directory) :
    Except Failure String × List Event :=
  match d.read path with
  | .error e => (.error (.unreadable e), [])
  | .ok bytes =>
    let skip := ((g.value? "skip").bind Options.number?).getD 0
    if bytes.size < skip then (.error (.skipTooFar skip bytes.size), [])
    else
      let rest := (bytes.extract skip bytes.size).toList
      if g.has "blocks" then describe g.format rest else (.ok (Image.dump rest ++ "\n"), [])

/-- The command with its arguments, in a directory. -/
def command (args : List String) (d : Directory) : Outcome :=
  match Options.read specs none {} args with
  | .error refusal => .refused program help d refusal
  | .ok given =>
    let path := given.operands.headD ""
    match perform given path d with
    | (.ok text, log) => ⟨0, text, Outcome.shown given.level log, d⟩
    | (.error e, log) =>
      let failure := Event.failed program (path ++ ": " ++ e.message)
      ⟨1, "", Outcome.shown given.level (log ++ [failure]), d⟩

end Pds1.Dumping
