import Pds1.Dialect
import Pds1.Octal

/-!
# Events worth logging

Each event knows its level, the part of the program it comes from and its text. Nothing is decided
by an event: the log only tells what happened.
-/

namespace Pds1

inductive Level where
  | error
  | warn
  | info
  | debug
  | trace
  deriving DecidableEq

namespace Level

def name : Level → String
  | error => "ERROR"
  | warn => "WARN"
  | info => "INFO"
  | debug => "DEBUG"
  | trace => "TRACE"

def rank : Level → Nat
  | error => 1
  | warn => 2
  | info => 3
  | debug => 4
  | trace => 5

end Level

inductive Event where
  | failed (program message : String)
  | readLeader (bytes : Nat) (path : String)
  | readSource (lines : Nat) (name : String)
  | builtMnemonics (count : Nat)
  | notImplemented (name : String)
  | placedPool (count : Nat) (location : Int32)
  | finishedPass (lines words labels : Nat)
  | countedComments (comments : Nat) (dialect : Dialect)
  | misplacedLoaderBlock (address : Nat)
  | wroteBlock (address words : Nat)
  | closedImage (blocks : Nat) (start : Option Int32)
  | readBlock (address words : Nat)
  | trailingBytes (count : Nat)
  | assembled (name : String) (lines words comments : Nat) (start : Option Int32)
  | diagnosed (count : Nat) (listing : String)
  deriving DecidableEq

namespace Event

def level : Event → Level
  | failed _ _ => .error
  | readLeader _ _ | readSource _ _ | finishedPass _ _ _ | assembled _ _ _ _ _ | diagnosed _ _ =>
    .info
  | notImplemented _ | misplacedLoaderBlock _ => .warn
  | builtMnemonics _ | placedPool _ _ | countedComments _ _ | closedImage _ _ | trailingBytes _ =>
    .debug
  | wroteBlock _ _ | readBlock _ _ => .trace

/-- The part of the program that an event comes from. -/
def origin : Event → String
  | failed program _ => program
  | readLeader _ _ | assembled _ _ _ _ _ | diagnosed _ _ => "assemble"
  | readSource _ _ => "imasm::source"
  | builtMnemonics _ | notImplemented _ => "imasm::mnemonic"
  | placedPool _ _ | finishedPass _ _ _ | countedComments _ _ => "imasm::parse"
  | misplacedLoaderBlock _ | wroteBlock _ _ | closedImage _ _ => "imasm_obj::encode"
  | readBlock _ _ | trailingBytes _ => "imasm_obj::decode"

def address : Option Int32 → String
  | some a => "Some(" ++ a.toInt.repr ++ ")"
  | none => "None"

def text : Event → String
  | failed _ message => message
  | readLeader bytes path => "read " ++ bytes.repr ++ " prefix bytes from " ++ path
  | readSource lines name => "read " ++ lines.repr ++ " lines from " ++ name
  | builtMnemonics count => "built mnemonic table with " ++ count.repr ++ " entries"
  | notImplemented name => name ++ " is not implemented"
  | placedPool count location =>
    "flushed literal pool count=" ++ count.repr ++ " location=" ++ location.toInt.repr
  | finishedPass lines words labels =>
    "pass 1 complete lines=" ++ lines.repr ++ " words=" ++ words.repr ++ " labels=" ++ labels.repr
  | countedComments comments dialect =>
    "comment lines comments=" ++ comments.repr ++ " style=" ++ dialect.name
  | misplacedLoaderBlock address =>
    "loader block starts at " ++ String.ofList (Octal.digits address) ++
      ", the bootstrap expects 7700"
  | wroteBlock address words =>
    "wrote block address=" ++ address.repr ++ " words=" ++ words.repr
  | closedImage blocks start =>
    "closed object image blocks=" ++ blocks.repr ++ " start=" ++ address start
  | readBlock address words => "read block address=" ++ address.repr ++ " words=" ++ words.repr
  | trailingBytes count => count.repr ++ " bytes after the terminator"
  | assembled name lines words comments start =>
    "assembled " ++ name ++ " lines=" ++ lines.repr ++ " words=" ++ words.repr ++ " comments=" ++
      comments.repr ++ " start=" ++ address start
  | diagnosed count listing => count.repr ++ " diagnostics, see " ++ listing

/-- The log line of an event. -/
def render (e : Event) : String := e.level.name ++ " " ++ e.origin ++ ": " ++ e.text

end Event

end Pds1
