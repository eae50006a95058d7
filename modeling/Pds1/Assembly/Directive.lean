import Pds1.Assembly.Vector

/-!
# Carrying out directives

Origin directives move the location counter only if their operand has a value in the first pass.
How a literal pool is placed is a parameter, because a pool may not be asked for from inside a
literal.
-/

namespace Pds1

namespace Assembly

/-- Sets the location counter, or moves it on for the directives that reserve space. -/
def moveOrigin (d : Directive) (value : Int32) (a : Assembly) : Assembly :=
  match d with
  | .block | .bss => { a with location := a.location + value }
  | d => { a with location := value, relocatable := d = .rel }

def origin (d : Directive) (c : Cursor) (a : Assembly) : Cursor × Assembly :=
  let (operand, c, a) := a.operand c.dropBlanks
  if a.exprs.isInvalid operand then (c, a.note (.ignored d.name))
  else
    match a.valueNow operand with
    | (.ok value, a) => (c, a.moveOrigin d value)
    | (.error e, a) => (c, (a.note (.evaluation e)).note (.ignored d.name))

def data (d : Directive) (c : Cursor) (a : Assembly) : Cursor × Assembly :=
  if c.operandFollows then
    let (operand, c, a) := a.operand c.dropBlanks
    if a.exprs.isInvalid operand then (c, (a.note (.operandMalformed d.name)).emitWord 0)
    else (c, a.emitExpr operand)
  else (c.dropBlanks, (a.note (.operandNotFound d.name)).emitWord 0)

/-- Ends the program, with a starting address if one can be read. -/
def stop (c : Cursor) (a : Assembly) : Cursor × Assembly :=
  if c.operandFollows && c.dropBlanks.current != ';' then
    let (operand, c, a) := a.operand c.dropBlanks
    (c, { a with
      ended := true
      start := if a.exprs.isInvalid operand then none else some operand })
  else (c.dropBlanks, { a with ended := true, start := none })

/-- A zero word, written with up to two stars. -/
def zero (c : Cursor) (a : Assembly) : Cursor × Assembly :=
  match c.dropBlanks.accept? '*' with
  | some d => (d.skip '*', a.emitWord 0)
  | none => (c.dropBlanks, a.emitWord 0)

def directive (pool : Assembly → Assembly) (d : Directive) (c : Cursor) (a : Assembly) :
    Cursor × Assembly :=
  match d with
  | .block | .bss | .loc | .org | .rel => origin d c a
  | .constants | .ltorg => (c, pool a)
  | .data | .zro => data d c a
  | .dlv => longVector c a
  | .stop => stop c a
  | .inc => increments c a
  | .zzz => zero c a
  | .dadr | .dup | .equ | .if1 | .ife | .ifn | .ins | .lvi | .mcc | .mcd | .mce | .oct | .rep
  | .repeated | .svorg | .title => (c, a.note (.unimplemented d.name))

theorem origin_suffix (d : Directive) (c : Cursor) (a : Assembly) :
    (origin d c a).1.rest <:+ c.rest := by
  have hs := (a.operand_suffix c.dropBlanks).trans c.dropBlanks_suffix
  rw [origin]
  simp only
  split
  · exact hs
  · split <;> exact hs

theorem data_suffix (d : Directive) (c : Cursor) (a : Assembly) :
    (data d c a).1.rest <:+ c.rest := by
  have hs := (a.operand_suffix c.dropBlanks).trans c.dropBlanks_suffix
  rw [data]
  split
  · simp only
    split <;> exact hs
  · exact c.dropBlanks_suffix

theorem stop_suffix (c : Cursor) (a : Assembly) : (stop c a).1.rest <:+ c.rest := by
  rw [stop]
  split
  · exact (a.operand_suffix c.dropBlanks).trans c.dropBlanks_suffix
  · exact c.dropBlanks_suffix

theorem zero_suffix (c : Cursor) (a : Assembly) : (zero c a).1.rest <:+ c.rest := by
  rw [zero]
  split
  · next d h =>
    exact ((d.skip_suffix '*').trans (Cursor.accept?_suffix h)).trans c.dropBlanks_suffix
  · exact c.dropBlanks_suffix

theorem directive_suffix (pool : Assembly → Assembly) (d : Directive) (c : Cursor)
    (a : Assembly) : (directive pool d c a).1.rest <:+ c.rest := by
  cases d <;> unfold directive <;> simp only
  case block | bss | loc | org | rel => exact origin_suffix _ _ _
  case data | zro => exact data_suffix _ _ _
  case dlv => exact longVector_suffix _ _
  case stop => exact stop_suffix _ _
  case inc => exact increments_suffix _ _
  case zzz => exact zero_suffix _ _
  all_goals exact List.suffix_refl _

end Assembly

end Pds1
