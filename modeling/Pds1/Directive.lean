/-!
# Assembly directives

The names of the orders that speak to the assembler itself. Many of them are recognised and not
carried out.
-/

namespace Pds1

inductive Directive where
  | block
  | bss
  | constants
  | dadr
  | data
  | dlv
  | dup
  | stop
  | equ
  | if1
  | ife
  | ifn
  | inc
  | ins
  | ltorg
  | loc
  | lvi
  | mcc
  | mcd
  | mce
  | oct
  | org
  | rel
  | rep
  | repeated
  | svorg
  | title
  | zro
  | zzz
  deriving DecidableEq

namespace Directive

def all : List Directive :=
  [block, bss, constants, dadr, data, dlv, dup, stop, equ, if1, ife, ifn, inc, ins, ltorg, loc, lvi,
    mcc, mcd, mce, oct, org, rel, rep, repeated, svorg, title, zro, zzz]

def name : Directive → String
  | block => "BLOCK"
  | bss => "BSS"
  | constants => "CONSTANTS"
  | dadr => "DADR"
  | data => "DATA"
  | dlv => "DLV"
  | dup => "DUP"
  | stop => "END"
  | equ => "EQU"
  | if1 => "IF1"
  | ife => "IFE"
  | ifn => "IFN"
  | inc => "INC"
  | ins => "INS"
  | ltorg => "LTORG"
  | loc => "LOC"
  | lvi => "LVI"
  | mcc => "MCC"
  | mcd => "MCD"
  | mce => "MCE"
  | oct => "OCT"
  | org => "ORG"
  | rel => "REL"
  | rep => "REP"
  | repeated => "REPEAT"
  | svorg => "SVORG"
  | title => "TITLE"
  | zro => "ZRO"
  | zzz => "ZZZ"

/-- Directives whose lines count as data. -/
def isData (d : Directive) : Bool := d = data || d = zro || d = zzz

end Directive

end Pds1
