import Pds1.Command.Outcome
import Pds1.Command.SharedFile

/-!
# The assembling command

Names are settled and checked first, then the leader and the source are read, and only then are the
outputs created: the listing before the object file.
-/

namespace Pds1.Assembling

def program : String := "assemble"

def specs : List Options.Spec :=
  [⟨"list", none, some Options.isPath⟩, ⟨"bin", none, some Options.isPath⟩,
    ⟨"format", none, some Options.isFormat⟩, ⟨"prefix", none, some Options.isPath⟩,
    ⟨"style", none, some Options.isDialect⟩, Options.levelSpec]

def help : String :=
  "Cross-assembler for the Imlac PDS-1\n\nUsage: assemble [OPTIONS] <SOURCE>\n"

/-- What a run is asked to do. -/
structure Job where
  source : String
  listing : String
  object : String
  leader : Option String
  format : Image.Format
  dialect : Dialect

def Job.ofOptions (g : Options.Given) : Job :=
  let source := g.operands.headD ""
  { source := source
    listing := (g.value? "list").getD (Path.withExtension source "lst")
    object := (g.value? "bin").getD (Path.withExtension source "bin")
    leader := g.value? "prefix"
    format := g.format
    dialect := g.dialect }

inductive Failure where
  | listingClash (source : String)
  | objectClash (source : String)
  | leaderUnreadable (path : String) (error : FileError)
  | leaderEmpty (path : String)
  | sourceUnreadable (path : String) (error : FileError)
  | listingNotCreated (path : String) (error : FileError)
  | objectNotCreated (path : String) (error : FileError)
  | writing (error : WriteError)
  deriving DecidableEq

def Failure.message : Failure → String
  | listingClash source => "listing file would overwrite " ++ source
  | objectClash source => "object file would overwrite " ++ source
  | leaderUnreadable path e => "unable to read prefix file " ++ path ++ ": " ++ e.message
  | leaderEmpty path => "prefix file " ++ path ++ " is empty"
  | sourceUnreadable path e => "could not read source file " ++ path ++ ": " ++ e.message
  | listingNotCreated path e => "unable to open listing file " ++ path ++ ": " ++ e.message
  | objectNotCreated path e => "unable to open object file " ++ path ++ ": " ++ e.message
  | writing e => e.message

/-- A run up to some point: its log and the files as they are then. -/
structure Progress where
  log : List Event
  directory : Directory

/-- Reads the bytes that go ahead of the image. -/
def readLeader (job : Job) (d : Directory) : Except Failure (Array UInt8 × List Event) :=
  match job.leader with
  | none => .ok (#[], [])
  | some path =>
    match d.read path with
    | .error e => .error (.leaderUnreadable path e)
    | .ok bytes =>
      if bytes.isEmpty then .error (.leaderEmpty path)
      else .ok (bytes, [.readLeader bytes.size path])

/-- What a file holds that both outputs went to. -/
def sharedContents (job : Job) (leader : Array UInt8) (source : Source) (image : Array UInt8) :
    Array UInt8 :=
  let (source, a) := (Assembly.init job.dialect).passOne source
  SharedFile.contentsOf (a.plan source) job.format leader image

/-- Assembles a source that has been read into files that have been created. -/
def produce (job : Job) (leader : Array UInt8) (source : Source) (listing object : Place)
    (p : Progress) : Except Failure Unit × Progress :=
  let writer := (Image.Writer.init {} job.format).writeLeader leader
  let (result, final, a, o) := assemble job.dialect source ⟨{}, writer.2⟩
  let image := o.object.sink.bytes
  let d :=
    if listing = object then
      p.directory.store listing (sharedContents job leader source image)
    else (p.directory.store listing o.listing.bytes).store object image
  let log := p.log ++ [.builtMnemonics Mnemonic.all.length] ++ a.log.toList ++ o.object.log.toList
  match result with
  | .error e => (.error (.writing e), ⟨log, d⟩)
  | .ok report =>
    let total := Event.assembled final.name report.lines report.words report.comments report.start
    let more := if report.diagnostics > 0 then [.diagnosed report.diagnostics job.listing] else []
    (.ok (), ⟨log ++ [total] ++ more, d⟩)

def perform (job : Job) (d : Directory) : Except Failure Unit × Progress :=
  if Path.same job.listing job.source then (.error (.listingClash job.source), ⟨[], d⟩)
  else if Path.same job.object job.source then (.error (.objectClash job.source), ⟨[], d⟩)
  else
    match readLeader job d with
    | .error e => (.error e, ⟨[], d⟩)
    | .ok (leader, log) =>
      match d.readText job.source with
      | .error e => (.error (.sourceUnreadable job.source e), ⟨log, d⟩)
      | .ok text =>
        let source := Source.ofText job.source text
        let log := log ++ [.readSource source.lines.length source.name]
        match d.create job.listing with
        | .error e => (.error (.listingNotCreated job.listing e), ⟨log, d⟩)
        | .ok (listing, d) =>
          match d.create job.object with
          | .error e => (.error (.objectNotCreated job.object e), ⟨log, d⟩)
          | .ok (object, d) => produce job leader source listing object ⟨log, d⟩

/-- The command with its arguments, in a directory. -/
def command (args : List String) (d : Directory) : Outcome :=
  match Options.read specs none {} args with
  | .error refusal => .refused program help d refusal
  | .ok given =>
    match perform (.ofOptions given) d with
    | (.ok _, p) => ⟨0, "", Outcome.shown given.level p.log, p.directory⟩
    | (.error e, p) =>
      ⟨1, "", Outcome.shown given.level (p.log ++ [.failed program e.message]), p.directory⟩

end Pds1.Assembling
