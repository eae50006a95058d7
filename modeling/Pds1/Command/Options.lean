import Pds1.Dialect
import Pds1.Event
import Pds1.Image.Basic

/-!
# Command line options

Options may be written `--name value`, `--name=value`, `-n value`, `-nvalue` or `-n=value`; short
flags may stand together. Nothing may be given twice. After two hyphens everything is an operand.
-/

namespace Pds1.Options

/-- An option that a command knows. Flags take no value. -/
structure Spec where
  name : String
  letter : Option Char
  /-- Which values are acceptable; none for a flag. -/
  accepts : Option (String → Bool)

/-- Why the arguments do not ask for a run. -/
inductive Refusal where
  | usage
  | help
  | version
  deriving DecidableEq

/-- What has been given: operands in order and options by name. -/
structure Given where
  operands : List String := []
  values : List (String × String) := []

namespace Given

def value? (g : Given) (name : String) : Option String := g.values.lookup name

def has (g : Given) (name : String) : Bool := (g.value? name).isSome

/-- Adds an option, which must be new. -/
def add (g : Given) (name value : String) : Except Refusal Given :=
  if g.has name then .error .usage else .ok { g with values := (name, value) :: g.values }

/-- Adds an operand; there is room for one, and it must not be empty. -/
def addOperand (g : Given) (text : String) : Except Refusal Given :=
  if g.operands.isEmpty && text != "" then .ok { g with operands := [text] } else .error .usage

end Given

/-- Adds an option with a value that has been found. -/
def give (g : Given) (spec : Spec) (accepts : String → Bool) (value : String) :
    Except Refusal Given :=
  if accepts value then g.add spec.name value else .error .usage

/-- Whether an argument can be the value of the option before it. -/
def isValue (text : String) : Bool := text == "-" || text.toList.head? != some '-'

/-- Reads a group of short options. The last one may want a value from the arguments that follow,
in which case it is handed back. -/
def readLetters (specs : List Spec) : List Char → Given → Except Refusal (Given × Option Spec)
  | [], g => .ok (g, none)
  | c :: rest, g =>
    match specs.find? fun s => s.letter == some c with
    | none =>
      if c = 'h' then .error .help else if c = 'V' then .error .version else .error .usage
    | some spec =>
      match spec.accepts with
      | none =>
        match g.add spec.name "" with
        | .error e => .error e
        | .ok g => readLetters specs rest g
      | some accepts =>
        match rest with
        | [] => .ok (g, some spec)
        | '=' :: value => (give g spec accepts (String.ofList value)).map fun g => (g, none)
        | value => (give g spec accepts (String.ofList value)).map fun g => (g, none)

/-- Reads a long option without its hyphens. -/
def readLong (specs : List Spec) (text : List Char) (g : Given) :
    Except Refusal (Given × Option Spec) :=
  let name := String.ofList (text.takeWhile (· != '='))
  let value := (text.dropWhile (· != '=')).tail?.map String.ofList
  match specs.find? fun s => s.name == name with
  | none =>
    match value with
    | some _ => .error .usage
    | none =>
      if name = "help" then .error .help
      else if name = "version" then .error .version
      else .error .usage
  | some spec =>
    match spec.accepts, value with
    | none, none => (g.add spec.name "").map fun g => (g, none)
    | none, some _ => .error .usage
    | some accepts, some value => (give g spec accepts value).map fun g => (g, none)
    | some _, none => .ok (g, some spec)

/-- Reads arguments; `waiting` is an option that still wants its value. -/
def read (specs : List Spec) (waiting : Option Spec) (g : Given) :
    List String → Except Refusal Given
  | [] => if waiting.isSome || g.operands.isEmpty then .error .usage else .ok g
  | arg :: rest =>
    match waiting with
    | some spec =>
      if isValue arg then
        match give g spec (spec.accepts.getD fun _ => false) arg with
        | .error e => .error e
        | .ok g => read specs none g rest
      else .error .usage
    | none =>
      match arg.toList with
      | ['-', '-'] =>
        match rest.foldlM Given.addOperand g with
        | .error e => .error e
        | .ok g => if g.operands.isEmpty then .error .usage else .ok g
      | '-' :: '-' :: text =>
        match readLong specs text g with
        | .error e => .error e
        | .ok (g, waiting) => read specs waiting g rest
      | '-' :: c :: text =>
        match readLetters specs (c :: text) g with
        | .error e => .error e
        | .ok (g, waiting) => read specs waiting g rest
      | _ =>
        match g.addOperand arg with
        | .error e => .error e
        | .ok g => read specs none g rest

/-- An unsigned number, which may have a plus sign in front. -/
def number? (text : String) : Option Nat :=
  let digits := match text.toList with
    | '+' :: r => r
    | r => r
  if !digits.isEmpty && digits.all Char.isDigit then
    let n := digits.foldl (fun acc d => acc * 10 + (d.toNat - 48)) 0
    if n < UInt64.size then some n else none
  else none

/-- A level by its number or by its name in any case. -/
def level? (text : String) : Option Level :=
  let all := [Level.error, .warn, .info, .debug, .trace]
  match (number? text).bind fun n => all.find? fun l => l.rank == n with
  | some l => some l
  | none => all.find? fun l => l.name == text.toUpper

def isPath (text : String) : Bool := text != ""

def isFormat (text : String) : Bool := (Image.Format.ofName text).isOk

def isDialect (text : String) : Bool := (Dialect.ofName text).isOk

def isLevel (text : String) : Bool := (level? text).isSome

def isNumber (text : String) : Bool := (number? text).isSome

def levelSpec : Spec := ⟨"log-level", some 'l', some isLevel⟩

def Given.level (g : Given) : Level := ((g.value? "log-level").bind level?).getD .warn

def Given.format (g : Given) : Image.Format :=
  ((g.value? "format").bind fun t => (Image.Format.ofName t).toOption).getD .block

def Given.dialect (g : Given) : Dialect :=
  ((g.value? "style").bind fun t => (Dialect.ofName t).toOption).getD .midas

end Pds1.Options
