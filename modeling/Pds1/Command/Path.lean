/-!
# File names

A path is kept as it was written and compared by its parts: empty parts and single points count for
nothing, except that a leading point marks a path of its own.
-/

namespace Pds1.Path

/-- The pieces between slashes. -/
def pieces (path : List Char) : List (List Char) := path.splitOn '/'

def isAbsolute (path : String) : Bool := path.toList.head? == some '/'

/-- The parts of a path that matter. -/
def parts (path : String) : List String :=
  let all := (pieces path.toList).map String.ofList
  let named := all.filter fun p => p != "" && p != "."
  if all.head? == some "." then "." :: named else named

/-- Whether two paths are the same as written. -/
def same (a b : String) : Bool := isAbsolute a == isAbsolute b && parts a == parts b

/-- Drops slashes, and points after a slash, from the end of a path written backwards. -/
def dropEnd : List Char → List Char
  | '/' :: r => dropEnd r
  | '.' :: '/' :: r => dropEnd r
  | r => r

/-- Splits a path before the name of the file it leads to, if it leads to one. What follows the
name is dropped. -/
def splitName? (path : List Char) : Option (List Char × List Char) :=
  let trimmed := dropEnd path.reverse
  let name := (trimmed.takeWhile (· != '/')).reverse
  if name = [] || name = ['.'] || name = ['.', '.'] then none
  else some ((trimmed.dropWhile (· != '/')).reverse, name)

/-- A file name cut at its last point, unless nothing stands before it. -/
def splitExtension (name : List Char) : List Char × List Char :=
  match name.reverse.dropWhile (· != '.') with
  | '.' :: c :: r => ((c :: r).reverse, (name.reverse.takeWhile (· != '.')).reverse)
  | _ => (name, [])

/-- Puts an extension in place of the one that the file name has. -/
def replaceExtension (path extension : List Char) : List Char :=
  match splitName? path with
  | none => path
  | some (directory, name) => directory ++ (splitExtension name).1 ++ '.' :: extension

/-- The path with another extension. A path that names no file stays as it is, and so does one that
names none once its extension is gone. -/
def withExtension (path extension : String) : String :=
  let written := path.toList
  let old := (splitName? written).elim [] fun s => (splitExtension s.2).2
  String.ofList (replaceExtension (written.take (written.length - old.length)) extension.toList)

end Pds1.Path
