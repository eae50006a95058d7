/-!
# Labels and literals

A label is entered when it is first named, whether by a definition or by a reference, and keeps
its number for good. A literal is a statement written in brackets; it waits in a queue until a
pool gives it an address. A reference shares a placed literal of the same text only if the two
addresses agree outside the page bits, compared as a signed word.
-/

namespace Pds1

/-- Bits in which two addresses of one 2K page may differ. -/
def page2K : Int32 := 0o3777

structure Label where
  defined : Bool
  relocatable : Bool
  constant : Bool
  value : Int32
  deriving DecidableEq

namespace Label

/-- A label named before its definition. -/
def forward : Label := ⟨false, false, false, 0⟩

def bound (value : Int32) (relocatable constant : Bool) : Label :=
  ⟨true, relocatable, constant, value⟩

end Label

/-- The text of a bracketed statement and, once placed, its address. -/
structure Literal where
  text : String
  address : Option Int32
  relocatable : Bool
  deriving DecidableEq

/-- A literal never stands for a constant. -/
inductive LiteralError where
  | constant (text : String)
  deriving DecidableEq

def LiteralError.message : LiteralError → String
  | constant text => "Literal [" ++ text ++ "] cannot be a constant"

namespace Literal

def ofText (text : String) : Literal := ⟨text, none, false⟩

def isDefined (l : Literal) : Bool := l.address.isSome

def value (l : Literal) : Int32 := l.address.getD 0

/-- A literal seen as a label. -/
def toLabel (l : Literal) : Label := ⟨l.isDefined, l.relocatable, false, l.value⟩

def place (l : Literal) (address : Int32) (relocatable : Bool) : Literal :=
  { l with address := some address, relocatable := relocatable }

/-- Gives a literal the attributes of a label, refusing a constant. -/
def define (l : Literal) (value : Int32) (relocatable constant : Bool) :
    Except LiteralError Literal :=
  if constant then .error (.constant l.text) else .ok (l.place value relocatable)

end Literal

abbrev LabelId := Nat

abbrev LiteralId := Nat

structure SymbolTable where
  /-- Names in the order in which they were first met. -/
  labels : Array (String × Label) := #[]
  /-- Literals in the order in which they were created. -/
  literals : Array Literal := #[]
  /-- Literals that wait for a pool, by text. -/
  waiting : List (String × LiteralId) := []
  /-- Placed literals by text, latest first. -/
  placed : List (String × LiteralId) := []
  /-- Waiting literals in the order in which a pool takes them. -/
  queue : List LiteralId := []
  deriving DecidableEq

namespace SymbolTable

def labelCount (t : SymbolTable) : Nat := t.labels.size

def labelId? (t : SymbolTable) (name : String) : Option LabelId :=
  t.labels.findIdx? fun entry => entry.1 == name

def label? (t : SymbolTable) (id : LabelId) : Option Label := t.labels[id]?.map Prod.snd

def labelName (t : SymbolTable) (id : LabelId) : String := (t.labels[id]?.map Prod.fst).getD "?"

def lookup? (t : SymbolTable) (name : String) : Option Label := (t.labelId? name).bind t.label?

/-- The number of `name`, entering it as a forward reference if it is new. -/
def reference (t : SymbolTable) (name : String) : LabelId × SymbolTable :=
  match t.labelId? name with
  | some id => (id, t)
  | none => (t.labels.size, { t with labels := t.labels.push (name, .forward) })

def isConstant (t : SymbolTable) (id : LabelId) : Bool := (t.label? id).any Label.constant

/-- Binds `name`, replacing what it was bound to. -/
def bind (t : SymbolTable) (name : String) (label : Label) : SymbolTable :=
  match t.labelId? name with
  | some id => { t with labels := t.labels.setIfInBounds id (name, label) }
  | none => { t with labels := t.labels.push (name, label) }

/-- What `name` is bound to, a mere forward reference left out. -/
def binding? (t : SymbolTable) (name : String) : Option Label :=
  (t.lookup? name).filter Label.defined

def literal? (t : SymbolTable) (id : LiteralId) : Option Literal := t.literals[id]?

def literalText (t : SymbolTable) (id : LiteralId) : String :=
  ((t.literal? id).map Literal.text).getD ""

def literalAddress (t : SymbolTable) (id : LiteralId) : Int32 :=
  ((t.literal? id).map Literal.value).getD 0

/-- Whether a reference at `location` may share a literal placed at `address`. -/
def isNear (address location : Int32) : Bool := (address ^^^ location) ≤ page2K

/-- The latest placed literal with `text` that is near `location`. -/
def placedNear? (t : SymbolTable) (text : String) (location : Int32) : Option LiteralId :=
  (t.placed.find? fun entry =>
    entry.1 == text && isNear (t.literalAddress entry.2) location).map Prod.snd

/-- The literal for `text` as seen from `location`: one placed nearby, else the waiting one, else a
new one at the end of the queue. -/
def intern (t : SymbolTable) (text : String) (location : Int32) : LiteralId × SymbolTable :=
  match t.placedNear? text location with
  | some id => (id, t)
  | none =>
    match t.waiting.lookup text with
    | some id => (id, t)
    | none =>
      let id := t.literals.size
      (id, { t with
        literals := t.literals.push (.ofText text)
        waiting := (text, id) :: t.waiting
        queue := t.queue ++ [id] })

def hasWaiting (t : SymbolTable) : Bool := !t.queue.isEmpty

/-- The literal that the next pool takes first. -/
def nextWaiting? (t : SymbolTable) : Option LiteralId := t.queue.head?

/-- Gives a literal its address and takes it off the queue. -/
def place (t : SymbolTable) (id : LiteralId) (address : Int32) (relocatable : Bool) :
    SymbolTable :=
  let text := t.literalText id
  { t with
    literals := t.literals.modify id (·.place address relocatable)
    waiting := t.waiting.filter fun entry => entry.1 != text
    placed := (text, id) :: t.placed
    queue := t.queue.filter (· != id) }

end SymbolTable

end Pds1
