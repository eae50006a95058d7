import Pds1.Assembly.PassTwo

/-!
# One file for both outputs

Each output is collected in a buffer, which is emptied into the file when the next piece does not
fit. When the listing and the object go to one file, each is written from its own position on, so
the order in which the two buffers are emptied decides what the file holds in the end. At the end
the object comes first.
-/

namespace Pds1

/-- What an output has yet to hand to its file. -/
structure Buffer where
  /-- Where in the file the waiting bytes belong. -/
  position : Nat := 0
  waiting : Array UInt8 := #[]
  deriving DecidableEq

namespace Buffer

/-- Number of bytes that may wait. -/
def capacity : Nat := 8192

/-- The contents of a file after bytes have been written at a position. -/
def overwrite (contents : Array UInt8) (position : Nat) (bytes : Array UInt8) : Array UInt8 :=
  contents.extract 0 position ++ bytes ++
    contents.extract (position + bytes.size) contents.size

/-- Writes what waits. -/
def drain (b : Buffer) (contents : Array UInt8) : Buffer × Array UInt8 :=
  (⟨b.position + b.waiting.size, #[]⟩, overwrite contents b.position b.waiting)

/-- Makes room for a piece if there is not enough. -/
def makeRoom (b : Buffer) (size : Nat) (contents : Array UInt8) : Buffer × Array UInt8 :=
  if capacity < b.waiting.size + size then b.drain contents else (b, contents)

/-- Takes a piece. One that would fill the whole buffer is written at once. -/
def take (b : Buffer) (piece : Array UInt8) (contents : Array UInt8) : Buffer × Array UInt8 :=
  let (⟨position, waiting⟩, contents) := b.makeRoom piece.size contents
  if capacity ≤ piece.size then
    (⟨position + piece.size, waiting⟩, overwrite contents position piece)
  else (⟨position, waiting ++ piece⟩, contents)

end Buffer

/-- A file that both outputs go to. -/
structure SharedFile where
  contents : Array UInt8 := #[]
  listing : Buffer := {}
  object : Buffer := {}
  deriving DecidableEq

namespace SharedFile

/-- Adds a piece of the listing. -/
def listPiece : SharedFile → String → SharedFile
  | ⟨contents, listing, object⟩, piece =>
    let (listing, contents) := listing.take piece.toUTF8.data contents
    ⟨contents, listing, object⟩

/-- Adds an entry to the listing. -/
def list (f : SharedFile) (entry : Listing.Entry) : SharedFile := entry.pieces.foldl listPiece f

/-- Adds a piece of the object. -/
def send : SharedFile → Array UInt8 → SharedFile
  | ⟨contents, listing, object⟩, piece =>
    let (object, contents) := object.take piece contents
    ⟨contents, listing, object⟩

/-- Follows the second pass with the image that it writes. -/
def follow : List Step → Image.Writer → SharedFile → Image.Writer × SharedFile
  | [], w, f => (w, f)
  | .note _ :: steps, w, f => follow steps w f
  | .list entry :: steps, w, f => follow steps w (f.list entry)
  | .put location word :: steps, w, f =>
    let before := w.sink.bytes.size
    let w := (w.put location word).2
    let new := w.sink.bytes.extract before w.sink.bytes.size
    follow steps w (f.send new)

/-- The contents once both outputs have ended. -/
def close (f : SharedFile) : Array UInt8 :=
  (f.listing.drain (f.object.drain f.contents).2).2

/-- What the file holds after an assembly whose steps and whole image are known. The image begins
with the bytes in `leader`. -/
def contentsOf (steps : List Step) (format : Image.Format) (leader image : Array UInt8) :
    Array UInt8 :=
  let writer := ((Image.Writer.init {} format).writeLeader leader).2
  let (writer, f) := follow steps writer (send {} leader)
  (f.send (image.extract writer.sink.bytes.size image.size)).close

end SharedFile

end Pds1
