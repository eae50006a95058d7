import Pds1.Cursor
import Pds1.Directive

/-!
# Mnemonics

The table of orders by group, with the code of each. A group fixes how operands are read and what
is emitted. Names are case sensitive and unique.
-/

namespace Pds1

inductive Group where
  /-- Memory reference with an 11-bit address. -/
  | processor
  /-- Display order with an address or a coordinate. -/
  | display
  | displayOperate
  | iot
  /-- Accumulator and link orders, which may be combined. -/
  | operate
  | shift
  | skip
  | directive (d : Directive)
  deriving DecidableEq

structure Mnemonic where
  name : String
  code : Int32
  group : Group
  deriving DecidableEq

namespace Mnemonic

def processorCodes : List (String × Int32) :=
  [("LAW", 0o004000), ("JMP", 0o010000), ("DAC", 0o020000), ("XAM", 0o024000), ("ISZ", 0o030000),
    ("JMS", 0o034000), ("AND", 0o044000), ("IOR", 0o050000), ("XOR", 0o054000), ("LAC", 0o060000),
    ("ADD", 0o064000), ("SUB", 0o070000), ("SAM", 0o074000), ("LWC", 0o104000)]

/-- The display order that is known and not carried out; orders below it take a coordinate. -/
def deimCode : Int32 := 0o030000

def displayCodes : List (String × Int32) :=
  [("DLXA", 0o010000), ("DLYA", 0o020000), ("DEIM", deimCode), ("DJMS", 0o050000),
    ("DJMP", 0o060000)]

def displayOperateCodes : List (String × Int32) :=
  [("DHLT", 0o000000), ("DHVH", 0o002000), ("DNOP", 0o004000), ("DOPR", 0o004000),
    ("DSTS", 0o004004), ("DSTB", 0o004010), ("DDSP", 0o004020), ("DRJM", 0o004040),
    ("DDYM", 0o004100), ("DDXM", 0o004200), ("DIYM", 0o004400), ("DIXM", 0o005000),
    ("DHVC", 0o006000), ("DHVS", 0o006004)]

def iotCodes : List (String × Int32) :=
  [("DLZ", 0o001001), ("DLA", 0o001003), ("CTB", 0o001011), ("DOF", 0o001012), ("KRB", 0o001021),
    ("KCF", 0o001022), ("KRC", 0o001023), ("RRB", 0o001031), ("RCF", 0o001032), ("RRC", 0o001033),
    ("TPR", 0o001041), ("TCF", 0o001042), ("TPC", 0o001043), ("HRB", 0o001051), ("HOF", 0o001052),
    ("HON", 0o001061), ("STB", 0o001062), ("SCF", 0o001071), ("IOS", 0o001072), ("IOF", 0o001161),
    ("ION", 0o001162), ("PPC", 0o001271), ("PSF", 0o001274), ("BEL", 0o001321), ("MSW", 0o001331),
    ("DON", 0o003100)]

def operateCodes : List (String × Int32) :=
  [("HLT", 0o000000), ("NOP", 0o100000), ("CLA", 0o100001), ("CMA", 0o100002), ("STA", 0o100003),
    ("IAC", 0o100004), ("COA", 0o100005), ("CIA", 0o100006), ("CLL", 0o100010), ("CAL", 0o100011),
    ("CML", 0o100020), ("STL", 0o100030), ("ODA", 0o100040), ("LDA", 0o100041)]

def shiftCodes : List (String × Int32) :=
  [("RAL", 0o003000), ("RAR", 0o003020), ("SAL", 0o003040), ("SAR", 0o003060)]

def skipCodes : List (String × Int32) :=
  [("ASZ", 0o002001), ("ASP", 0o002002), ("LSZ", 0o002004), ("DSF", 0o002010), ("KSF", 0o002020),
    ("RSF", 0o002040), ("TSF", 0o002100), ("SSF", 0o002200), ("HSF", 0o002400), ("ASN", 0o102001),
    ("ASM", 0o102002), ("LSN", 0o102004), ("DSN", 0o102010), ("KSN", 0o102020), ("RSN", 0o102040),
    ("TSN", 0o102100), ("SSN", 0o102200), ("HSN", 0o102400)]

def ofCodes (group : Group) (codes : List (String × Int32)) : List Mnemonic :=
  codes.map fun entry => ⟨entry.1, entry.2, group⟩

def all : List Mnemonic :=
  ofCodes .processor processorCodes ++ ofCodes .display displayCodes ++
    ofCodes .displayOperate displayOperateCodes ++ ofCodes .iot iotCodes ++
    ofCodes .operate operateCodes ++ ofCodes .shift shiftCodes ++ ofCodes .skip skipCodes ++
    Directive.all.map fun d => ⟨d.name, 0, .directive d⟩

def find? (name : String) : Option Mnemonic := all.find? fun m => m.name == name

/-- Orders that load their operand as a constant. -/
def takesConstant (m : Mnemonic) : Bool := m.name == "LAW" || m.name == "LWC"

/-- The operand field of a display operate order, if it has one. -/
def field? (m : Mnemonic) : Option Int32 :=
  if m.name == "DOPR" then some 0o17
  else if m.name == "DSTS" || m.name == "DSTB" || m.name == "DHVS" then some 0o3
  else none

/-- What may follow a mnemonic. -/
def endsName : Option Char → Bool
  | none => true
  | some c => c = ' ' || c = '\t' || c = '*' || c = '|' || c = '\\'

/-- Reads the alphabetic word at the cursor as a mnemonic. With `display` set the word has lost its
leading `D` to a tag. -/
def read? (display : Bool) (c : Cursor) : Option (Mnemonic × Cursor) :=
  let word := c.run Char.isAlpha
  let d := c.drop word.length
  if !word.isEmpty && endsName d.next? then
    (find? (String.ofList (if display then 'D' :: word else word))).map fun m => (m, d)
  else none

theorem read?_suffix {display : Bool} {c d : Cursor} {m : Mnemonic}
    (h : read? display c = some (m, d)) : d.rest <:+ c.rest := by
  unfold read? at h
  simp only at h
  split at h
  · obtain ⟨n, -, hp⟩ := Option.map_eq_some_iff.1 h
    cases hp
    exact c.drop_suffix _
  · cases h

end Mnemonic

end Pds1
