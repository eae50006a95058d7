import Mathlib.Data.List.TakeWhile
import Pds1.Proofs.Deposits
import Pds1.Proofs.PlainOrders

/-!
# Combined operate orders

Operate orders may be joined by backslashes and bars, and then make one word. The machine can do
several of them at once, so the word has the bits of them all; only a halt cannot be joined. The
loop that joins the orders looks at codes alone: it takes a code of zero for a halt. This is right
since `HLT` is the only operate order with that code, and since bits that are joined do not get
lost.
-/

namespace Pds1

/-- An order that the machine can carry out together with others. -/
structure OperateOrder extends PlainOrder where
  operate : group = .operate

/-- Every entry of the table of operate orders. -/
def OperateOrder.ofEntry (entry : String × Int32) (h : entry ∈ Mnemonic.operateCodes) :
    OperateOrder where
  name := entry.1
  code := entry.2
  group := .operate
  listed := by
    have own : (⟨entry.1, entry.2, .operate⟩ : Mnemonic) ∈
        Mnemonic.ofCodes .operate Mnemonic.operateCodes := List.mem_map_of_mem h
    simp [Mnemonic.all, own]
  plain := rfl
  operate := rfl

/-- What joins two of them. -/
inductive Joint where
  | backslash
  | bar
  deriving DecidableEq

def Joint.char : Joint → Char
  | backslash => '\\'
  | bar => '|'

namespace OperateOrder

def isHalt (m : OperateOrder) : Bool := m.name == "HLT"

/-- The bits of some orders together. -/
def join (ms : List OperateOrder) : Int32 := ms.foldr (fun m word => m.code ||| word) 0

/-- Orders up to the first halt. -/
def beforeHalt (ms : List OperateOrder) : List OperateOrder := ms.takeWhile (!·.isHalt)

theorem code_eq_zero_iff (m : OperateOrder) : m.code = 0 ↔ m.isHalt = true := by
  have all : ∀ m ∈ Mnemonic.all, m.group = .operate → (m.code = 0 ↔ m.name = "HLT") := by
    decide +kernel
  rw [isHalt, beq_iff_eq]
  exact all m.toMnemonic m.listed m.operate

/-- Joining does not depend on the order. -/
theorem join_perm {ms ms' : List OperateOrder} (h : ms.Perm ms') : join ms = join ms' := by
  induction h with
  | nil => rfl
  | cons m _ ih => exact congrArg (m.code ||| ·) ih
  | swap m m' ms =>
    change m'.code ||| (m.code ||| join ms) = m.code ||| (m'.code ||| join ms)
    rw [← Int32.or_assoc, Int32.or_comm m'.code, Int32.or_assoc]
  | trans _ _ first second => exact first.trans second

theorem beforeHalt_eq_self {ms : List OperateOrder} (running : ms.any isHalt = false) :
    beforeHalt ms = ms := by
  rw [beforeHalt, List.takeWhile_eq_self_iff]
  intro m member
  simpa using List.any_eq_false.mp running m member

/-- Orders with the joints before them. -/
def text (rest : List (Joint × OperateOrder)) : List Char :=
  rest.flatMap fun p => p.1.char :: p.2.letters

/-- What follows an order is a joint, a blank or nothing. -/
theorem ends_text {trail : List Char} (blank : trail.all Cursor.isBlank = true)
    (rest : List (Joint × OperateOrder)) :
    Stops (text rest ++ trail) ∧ Mnemonic.endsName (text rest ++ trail).head? = true := by
  rcases rest with _ | ⟨⟨joint, m⟩, rest⟩
  · rcases trail with _ | ⟨x, r⟩
    · exact ⟨by simp [Stops, text], rfl⟩
    · have first := List.all_eq_true.mp blank x List.mem_cons_self
      rcases Cursor.eq_of_isBlank first with rfl | rfl
      · exact ⟨by simp [Stops, text, nameStops], rfl⟩
      · exact ⟨by simp [Stops, text, nameStops], rfl⟩
  · cases joint with
    | backslash => exact ⟨by simp [Stops, text, nameStops, Joint.char], rfl⟩
    | bar => exact ⟨by simp [Stops, text, nameStops, Joint.char], rfl⟩

section Loop

variable {trail : List Char} (blank : trail.all Cursor.isBlank = true)
include blank

theorem head?_text {x : Char} (other : x ≠ '\\' ∧ x ≠ '|') (rest : List (Joint × OperateOrder)) :
    ((text rest ++ trail).dropWhile Cursor.isBlank).head? ≠ some x := by
  rcases rest with _ | ⟨⟨joint, m⟩, rest⟩
  · have gone : trail.dropWhile Cursor.isBlank = [] :=
      List.dropWhile_eq_nil_iff.mpr (List.all_eq_true.mp blank)
    simp [text, gone]
  · cases joint with
    | backslash => simpa [text, Joint.char, Cursor.isBlank] using other.1.symm
    | bar => simpa [text, Joint.char, Cursor.isBlank] using other.2.symm

/-- Where the loop stops no other statement follows. -/
theorem accept?_text {rest : List (Joint × OperateOrder)} {c : Cursor}
    (h : c.rest = text rest ++ trail) : c.dropBlanks.accept? '?' = none := by
  have mark := head?_text blank (x := '?') (by decide) rest
  rw [← h] at mark
  exact if_neg mark

/-- One turn of the loop: a joint and an order. -/
theorem combine_cons {joint : Joint} {m : OperateOrder} {rest : List (Joint × OperateOrder)}
    {c : Cursor} (h : c.rest = text ((joint, m) :: rest) ++ trail) (name : String) (code : Int32)
    (a : Assembly) :
    Assembly.combine name code c a =
      if code = 0 || m.code = 0 then
        (code, c.moveTo (text rest ++ trail), a.note .combinedHalt)
      else Assembly.combine name (code ||| m.code) (c.moveTo (text rest ++ trail)) a := by
  obtain ⟨stops, ends⟩ := ends_text blank rest
  have rest_eq : c.rest = joint.char :: (m.letters ++ (text rest ++ trail)) := by
    rw [h, text, List.flatMap_cons]
    simp [text]
  have joined : (joint.char = '\\' || joint.char = '|') = true := by
    cases joint with
    | backslash => rfl
    | bar => rfl
  have read : Mnemonic.read? false (c.moveTo (m.letters ++ (text rest ++ trail))) =
      some (m.toMnemonic, c.moveTo (text rest ++ trail)) := by
    rw [m.capitals.read?_of_rest m.find?_letters stops (Cursor.rest_moveTo c _), if_pos ends]
    rfl
  rw [Assembly.combine_eq]
  simp only [rest_eq, joined, if_true, read, m.operate, ne_eq, not_true, if_false]

theorem combine_trail {c : Cursor} (h : c.rest = trail) (name : String) (code : Int32)
    (a : Assembly) : Assembly.combine name code c a = (code, c, a) := by
  apply PlainOrder.combine_alone
  intro x first
  have own : Cursor.isBlank x = true :=
    List.all_eq_true.mp blank x (List.mem_of_mem_head? (h ▸ first))
  rcases Cursor.eq_of_isBlank own with rfl | rfl
  · decide
  · decide

/-- What the loop comes to once a bit is set. -/
theorem combine_of_ne_zero {rest : List (Joint × OperateOrder)} {c : Cursor}
    (h : c.rest = text rest ++ trail) (name : String) {code : Int32} (running : code ≠ 0)
    (a : Assembly) :
    ∃ d, d.dropBlanks.accept? '?' = none ∧ Assembly.combine name code c a =
      (code ||| join (beforeHalt (rest.map Prod.snd)), d,
        a.noteIf ((rest.map Prod.snd).any isHalt) .combinedHalt) := by
  induction rest generalizing c code with
  | nil =>
    refine ⟨c, accept?_text blank h, ?_⟩
    have stay := combine_trail blank h name code a
    simp [stay, beforeHalt, join, Assembly.noteIf]
  | cons p rest ih =>
    obtain ⟨joint, m⟩ := p
    rw [combine_cons blank h]
    cases halt : m.isHalt with
    | true =>
      refine ⟨c.moveTo (text rest ++ trail), accept?_text blank rfl, ?_⟩
      simp [m.code_eq_zero_iff.mpr halt, beforeHalt, halt, join, Assembly.noteIf]
    | false =>
      have set : m.code ≠ 0 := by
        rw [Ne, m.code_eq_zero_iff, halt]
        decide
      -- bits are not lost, so the test on the code goes on telling halts alone
      have still : code ||| m.code ≠ 0 := fun zero => running (Int32.or_eq_zero_iff.mp zero).1
      obtain ⟨d, last, joined⟩ := ih (Cursor.rest_moveTo c _) still
      refine ⟨d, last, ?_⟩
      rw [if_neg (by simp [running, set]), joined]
      simp [beforeHalt, halt, join, Int32.or_assoc]

end Loop

end OperateOrder

/-- Operate orders that are joined to one statement. -/
structure Combination where
  first : OperateOrder
  rest : List (Joint × OperateOrder)

namespace Combination

open OperateOrder

/-- The orders in the order in which they are written. -/
def orders (c : Combination) : List OperateOrder := c.first :: c.rest.map Prod.snd

def text (c : Combination) : List Char := c.first.letters ++ OperateOrder.text c.rest

/-- Whether a halt is joined with something. -/
def joinsHalt (c : Combination) : Bool := decide (2 ≤ c.orders.length) && c.orders.any isHalt

/-- The word that the combination makes. -/
def word (c : Combination) : Int32 := join (beforeHalt c.orders)

/-- With no halt in it, or a halt alone, all bits are joined. -/
theorem word_eq_join {c : Combination} (h : c.joinsHalt = false) : c.word = join c.orders := by
  cases halts : c.orders.any isHalt with
  | false => rw [word, beforeHalt_eq_self halts]
  | true =>
    obtain ⟨first, rest⟩ := c
    cases rest with
    | nil =>
      have halt : first.isHalt = true := by simpa [orders] using halts
      simp [word, orders, beforeHalt, halt, join, first.code_eq_zero_iff.mpr halt]
    | cons p rest =>
      rw [joinsHalt, halts] at h
      simp [orders] at h

theorem joinsHalt_perm {c c' : Combination} (h : c.orders.Perm c'.orders) :
    c'.joinsHalt = c.joinsHalt := by
  rw [joinsHalt, joinsHalt, h.length_eq, h.any_eq]

variable (c : Combination) (trail : Blanks)

/-- Carrying out a combination. -/
theorem operate_eq {d : Cursor} (h : d.rest = OperateOrder.text c.rest ++ trail.chars)
    (a : Assembly) : ∃ e, e.dropBlanks.accept? '?' = none ∧
      Assembly.operate c.first.toMnemonic d a =
        (e, (a.noteIf c.joinsHalt .combinedHalt).emitWord c.word) := by
  obtain ⟨first, rest⟩ := c
  cases halt : first.isHalt with
  | false =>
    have set : first.code ≠ 0 := by
      rw [Ne, first.code_eq_zero_iff, halt]
      decide
    obtain ⟨e, last, joined⟩ := combine_of_ne_zero trail.blank h first.name set a
    have complains : joinsHalt ⟨first, rest⟩ = (rest.map Prod.snd).any isHalt := by
      cases rest with
      | nil => rfl
      | cons p rest => simp [joinsHalt, orders, halt]
    refine ⟨e, last, ?_⟩
    simp only [Assembly.operate, joined, complains]
    simp [word, orders, beforeHalt, halt, join]
  | true =>
    have zero := first.code_eq_zero_iff.mpr halt
    have empty : word ⟨first, rest⟩ = 0 := by
      simp [word, orders, beforeHalt, halt, join]
    cases rest with
    | nil =>
      refine ⟨d, accept?_text trail.blank h, ?_⟩
      have alone : joinsHalt ⟨first, []⟩ = false := rfl
      have stay := combine_trail trail.blank h first.name first.code a
      rw [zero] at stay
      simp only [Assembly.operate, zero, stay, alone, empty]
      rfl
    | cons p rest =>
      obtain ⟨joint, m⟩ := p
      refine ⟨d.moveTo (OperateOrder.text rest ++ trail.chars), accept?_text trail.blank rfl, ?_⟩
      have complains : joinsHalt ⟨first, (joint, m) :: rest⟩ = true := by
        simp [joinsHalt, orders, halt]
      simp [Assembly.operate, combine_cons trail.blank h, zero, complains, empty, Assembly.noteIf]

/-- A combination on an indented line. -/
def line (c : Combination) (indent : Indent) (trail : Blanks) : List Char :=
  indent.chars ++ (c.text ++ trail.chars)

/-- In every state the line is one word, with a complaint if a halt is joined. -/
theorem readText_line (indent : Indent) (a : Assembly) :
    Assembly.readText (String.ofList (c.line indent trail)) a =
      (.code, (a.noteIf c.joinsHalt .combinedHalt).emitWord c.word) := by
  obtain ⟨stops, ends⟩ := ends_text trail.blank c.rest
  have other := head?_text trail.blank (x := '=') (by decide) c.rest
  rw [line, text, List.append_assoc, c.first.capitals.readText_of_indent indent.blank stops other]
  generalize whole : Cursor.ofList (indent.chars ++
    (c.first.letters ++ (OperateOrder.text c.rest ++ trail.chars))) = d
  have rest : d.rest = indent.chars ++
      (c.first.letters ++ (OperateOrder.text c.rest ++ trail.chars)) := by
    rw [← whole]
    rfl
  obtain ⟨e, last, operated⟩ := c.operate_eq trail
    (d := d.moveTo (OperateOrder.text c.rest ++ trail.chars)) rfl a
  have ordered : Assembly.order Assembly.placePool
      (d.moveTo (c.first.letters ++ (OperateOrder.text c.rest ++ trail.chars))) a =
        (.code, e, (a.noteIf c.joinsHalt .combinedHalt).emitWord c.word) := by
    rw [PlainOrder.order_of_rest stops ends (Cursor.rest_moveTo d _)]
    simp only [Assembly.carryOut, c.first.operate]
    exact congrArg (Prod.mk _) operated
  exact (c.first.capitals.statement_of_rest indent.blank rest stops (fun _ => indent.nonempty)
    (.inr indent.nonempty) ordered .unclassified).1 last

/-- The line with what it comes to. -/
def wordLine (dialect : Dialect) (indent : Indent) : Assembly.WordLine dialect where
  chars := c.line indent trail
  deposits := [.word c.word]
  said := if c.joinsHalt then [.combinedHalt] else []
  reads := by
    intro a _
    refine ⟨.code, by decide, ?_⟩
    rw [readText_line]
    cases c.joinsHalt with
    | false => simp [Assembly.noteIf, Assembly.leave]
    | true => rfl

/-- Operate orders joined by backslashes and bars, in any mix and sequence, are one word with the
bits of them all. If a halt is joined, it has those of the orders before the first halt, and the one
complaint is that `HLT` cannot be combined. -/
theorem joined_orders_are_one_word (c : Combination) (indent : Indent) (trail : Blanks) :
    (∀ a : Assembly,
      (c.joinsHalt = false → Assembly.readText (String.ofList (c.line indent trail)) a =
        (.code, a.emitWord (join c.orders))) ∧
      (c.joinsHalt = true → Assembly.readText (String.ofList (c.line indent trail)) a =
        (.code, (a.note .combinedHalt).emitWord (join (beforeHalt c.orders))))) ∧
    Diagnostic.combinedHalt.message = "Combining HLT is not supported" ∧
    (c.joinsHalt = false → ∀ c' : Combination, c.orders.Perm c'.orders → ∀ a : Assembly,
      Assembly.readText (String.ofList (c'.line indent trail)) a =
        Assembly.readText (String.ofList (c.line indent trail)) a) ∧
    ∀ (dialect : Dialect) (name text : String) (o : Outputs), o.Unlimited →
      Source.splitLines [] text.toList = [c.line indent trail] →
      ∃ report source a o', assemble dialect (.ofText name text) o =
          (.ok report, source, a, o') ∧
        a.words = [(0, if c.joinsHalt then join (beforeHalt c.orders) else join c.orders)] ∧
        report.words = 1 ∧ report.diagnostics = if c.joinsHalt then 1 else 0 := by
  have joined (c : Combination) (plain : c.joinsHalt = false) (a : Assembly) :
      Assembly.readText (String.ofList (c.line indent trail)) a =
        (.code, a.emitWord (join c.orders)) := by
    rw [readText_line, plain, word_eq_join plain]
    rfl
  refine ⟨fun a => ⟨fun plain => joined c plain a, fun halt => ?_⟩, rfl, ?_, ?_⟩
  · rw [readText_line, halt]
    rfl
  · intro plain c' same a
    rw [joined c plain, joined c' (by rw [joinsHalt_perm same, plain]), join_perm same]
  · intro dialect name text o unlimited lines
    obtain ⟨read, a, source, o', run, words, -, diagnostics⟩ := Assembly.finishes_program
      [c.wordLine trail dialect indent] name lines unlimited
    refine ⟨_, source, _, o', run.ran, ?_, ?_, ?_⟩
    · rw [Assembly.words_poolLines, words]
      cases halt : c.joinsHalt with
      | false => exact congrArg (fun w => [((0 : Int32), w)]) (word_eq_join halt)
      | true => rfl
    · rw [run.words_totals, words]
      rfl
    · rw [diagnostics]
      cases halt : c.joinsHalt with
      | false => simp [wordLine, halt, Deposit.complaints]
      | true => simp [wordLine, halt, Deposit.complaints]

/-- Three orders are joined to one word; with a halt behind the second, only the first two are. -/
theorem joined_orders_with_and_without_halt :
    let cla := OperateOrder.ofEntry ("CLA", 0o100001) (by decide)
    let cma := OperateOrder.ofEntry ("CMA", 0o100002) (by decide)
    let iac := OperateOrder.ofEntry ("IAC", 0o100004) (by decide)
    let hlt := OperateOrder.ofEntry ("HLT", 0) (by decide)
    let indent : Indent := ⟨⟨['\t'], rfl⟩, by decide⟩
    let trail : Blanks := ⟨[' '], rfl⟩
    let plain : Combination := ⟨cla, [(.backslash, cma), (.bar, iac)]⟩
    let halting : Combination := ⟨cla, [(.bar, cma), (.backslash, hlt), (.bar, iac)]⟩
    String.ofList (plain.line indent trail) = "\tCLA\\CMA|IAC " ∧
      String.ofList (halting.line indent trail) = "\tCLA|CMA\\HLT|IAC " ∧
      (∃ report source a o', assemble .imlac (.ofText "join" "\tCLA\\CMA|IAC \n")
          ⟨{}, .init {} .block⟩ = (.ok report, source, a, o') ∧
        a.words = [(0, 0o100007)] ∧ report.words = 1 ∧ report.diagnostics = 0) ∧
      ∃ report source a o', assemble .midas (.ofText "halt" "\tCLA|CMA\\HLT|IAC \r\n")
          ⟨{}, .init {} .block⟩ = (.ok report, source, a, o') ∧
        a.words = [(0, 0o100003)] ∧ report.words = 1 ∧ report.diagnostics = 1 := by
  intro cla cma iac hlt indent trail plain halting
  have joins : plain.joinsHalt = false ∧ halting.joinsHalt = true := by decide +kernel
  have words : join plain.orders = 0o100007 ∧ join (beforeHalt halting.orders) = 0o100003 := by
    decide +kernel
  have first := (plain.joined_orders_are_one_word indent trail).2.2.2 .imlac "join"
    "\tCLA\\CMA|IAC \n" ⟨{}, .init {} .block⟩ ⟨rfl, rfl⟩ (by decide +kernel)
  have second := (halting.joined_orders_are_one_word indent trail).2.2.2 .midas "halt"
    "\tCLA|CMA\\HLT|IAC \r\n" ⟨{}, .init {} .block⟩ ⟨rfl, rfl⟩ (by decide +kernel)
  rw [joins.1, words.1] at first
  rw [joins.2, words.2] at second
  exact ⟨by decide +kernel, by decide +kernel, first, second⟩

end Combination

end Pds1
