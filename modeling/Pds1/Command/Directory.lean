import Pds1.Command.Path

/-!
# A directory of files

The files that a command may see, by the names that lead to them. A path is followed one part at a
time, and every part but the last has to be a directory, also where a later part leads back. A
directory is there if it holds a file or is listed; the working directory and those above it always
are.
-/

namespace Pds1

inductive FileError where
  | notFound
  | notDirectory
  | isDirectory
  | nameTooLong
  | notText
  deriving DecidableEq

def FileError.message : FileError → String
  | notFound => "No such file or directory (os error 2)"
  | notDirectory => "Not a directory (os error 20)"
  | isDirectory => "Is a directory (os error 21)"
  | nameTooLong => "File name too long (os error 36)"
  | notText => "stream did not contain valid UTF-8"

/-- Where a file or directory is: the names that lead to it from the working directory. -/
abbrev Place := List String

namespace Place

/-- The directory above. -/
def parent (p : Place) : Place :=
  match p.getLast? with
  | none => [".."]
  | some ".." => p ++ [".."]
  | some "/" => p
  | some _ => p.dropLast

/-- Where a part of a path leads to. -/
def child (p : Place) (part : String) : Place :=
  if part = "." then p else if part = ".." then p.parent else p ++ [part]

/-- Where a path starts. -/
def origin (path : String) : Place := if Path.isAbsolute path then ["/"] else []

/-- The parts that a path is followed by. -/
def parts (path : String) : List String :=
  ((Path.pieces path.toList).map String.ofList).filter (· != "")

/-- Where a path leads to if it can be followed. -/
def ofPath (path : String) : Place := (parts path).foldl child (origin path)

/-- Whether the place is the working directory, one above it or the topmost one. -/
def isOuter (p : Place) : Bool := p.all fun part => part == ".." || part == "/"

end Place

structure Directory where
  files : List (Place × Array UInt8)
  /-- Directories that are there even if they hold no file. -/
  folders : List Place := []

namespace Directory

def ofFiles (files : List (String × Array UInt8)) : Directory :=
  ⟨files.map fun f => (Place.ofPath f.1, f.2), []⟩

def find? (d : Directory) (p : Place) : Option (Array UInt8) := d.files.lookup p

def isDirectory (d : Directory) (p : Place) : Bool :=
  p.isOuter || d.folders.any p.isPrefixOf || d.files.any fun f => p.isPrefixOf f.1 && p != f.1

/-- The longest name, in bytes. -/
def nameLimit : Nat := 255

/-- The longest path, in bytes. -/
def pathLimit : Nat := 4095

/-- Goes from a directory to one that a part of a path names. -/
def enter (d : Directory) (p : Place) (part : String) : Except FileError Place :=
  let next := p.child part
  if nameLimit < part.utf8ByteSize then .error .nameTooLong
  else if d.isDirectory next then .ok next
  else if (d.find? next).isSome then .error .notDirectory
  else .error .notFound

/-- Goes through all parts of a path but the last one, and hands that one back with the directory it
is to be looked for in. A path without parts has none. -/
def follow (d : Directory) (p : Place) : List String → Except FileError (Place × Option String)
  | [] => .ok (p, none)
  | [last] => .ok (p, some last)
  | part :: rest =>
    match d.enter p part with
    | .error e => .error e
    | .ok next => follow d next rest

/-- What a path leads to: a place for a file, or a directory that is surely there. -/
inductive Target where
  | file (place : Place)
  | directory
  deriving DecidableEq

/-- What the last part of a path leads to. -/
def lastTarget (p : Place) : Option String → Target
  | none => .directory
  | some part => if part = "." || part = ".." then .directory else .file (p.child part)

/-- Follows a path up to its last part. -/
def locate (d : Directory) (path : String) : Except FileError Target :=
  if pathLimit < path.utf8ByteSize then .error .nameTooLong
  else (d.follow (Place.origin path) (Place.parts path)).map fun r => lastTarget r.1 r.2

/-- Whether the last name of a place is too long. -/
def isOverlong (p : Place) : Bool := p.getLast?.any fun name => nameLimit < name.utf8ByteSize

/-- Whether a path ends in a slash and so can only name a directory. -/
def endsOpen (path : String) : Bool := path.toList.getLast? == some '/'

def read (d : Directory) (path : String) : Except FileError (Array UInt8) :=
  match d.locate path with
  | .error e => .error e
  | .ok .directory => .error .isDirectory
  | .ok (.file p) =>
    if isOverlong p then .error .nameTooLong
    else if d.isDirectory p then .error .isDirectory
    else
      match d.find? p with
      | none => .error .notFound
      | some bytes => if endsOpen path then .error .notDirectory else .ok bytes

def readText (d : Directory) (path : String) : Except FileError String :=
  match d.read path with
  | .error e => .error e
  | .ok bytes =>
    match String.fromUTF8? ⟨bytes⟩ with
    | some text => .ok text
    | none => .error .notText

/-- Replaces the contents of a file, or adds it. -/
def store (d : Directory) (p : Place) (bytes : Array UInt8) : Directory :=
  { d with files := (p, bytes) :: d.files.filter fun f => f.1 != p }

/-- Creates an empty file, or empties an existing one, and tells where it is. A path that ends in a
slash is refused whatever it names. -/
def create (d : Directory) (path : String) : Except FileError (Place × Directory) :=
  match d.locate path with
  | .error e => .error e
  | .ok .directory => .error .isDirectory
  | .ok (.file p) =>
    if endsOpen path then .error .isDirectory
    else if isOverlong p then .error .nameTooLong
    else if d.isDirectory p then .error .isDirectory
    else .ok (p, d.store p #[])

end Directory

end Pds1
