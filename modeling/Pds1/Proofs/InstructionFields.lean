import Mathlib.Data.Nat.Bitwise
import Pds1.Proofs.OperandGrowth
import Pds1.Proofs.StatementWidth

/-!
# Operand fields of orders

An order with an operand is one word: the code of the mnemonic, the low bits of the operand in the
field of the order, and in a memory reference one more bit for indirect addressing. The parts never
overlap. The bits outside the field tell the order and the bits inside are those of the operand,
whatever the operand is; a memory reference can be taken apart again.
-/

namespace Pds1

namespace Mnemonic

/-- The bits that hold the operand of an order. -/
def operandMask? (m : Mnemonic) : Option Int32 :=
  match m.group with
  | .processor => some 0o3777
  | .display =>
    if m.name = "DEIM" then none
    else if m.name = "DLXA" ∨ m.name = "DLYA" then some 0o1777
    else some 0o7777
  | .displayOperate => m.field?
  | .shift => some 0o3
  | .iot | .operate | .skip | .directive _ => none

/-- Orders whose operand is an address, which is checked for its page and not for its width. -/
def holdsAddress (m : Mnemonic) : Bool :=
  match m.group with
  | .processor => !m.takesConstant
  | .display => m.name = "DJMS" ∨ m.name = "DJMP"
  | _ => false

/-- Memory references may go through a pointer. -/
def allowsIndirect (m : Mnemonic) : Bool := m.group = .processor && !m.takesConstant

def processors : List Mnemonic := ofCodes .processor processorCodes

/-- The order and the addressing mode that a code stands for. A code with the bit for indirect
addressing is an order of its own, or else an order that goes through a pointer. -/
def reference? (code : Int32) : Option (Mnemonic × Bool) :=
  match processors.find? (·.code = code) with
  | some m => some (m, false)
  | none => (processors.find? (·.code ||| Assembly.indirectBit = code)).map (·, true)

/-- The order, the addressing mode and the field of a memory reference. -/
def takeApart (w : Int32) : Option (Mnemonic × Bool × Int32) :=
  (reference? (w &&& ~~~0o3777)).map fun r => (r.1, r.2, w &&& 0o3777)

end Mnemonic

namespace FieldBits

theorem getLsbD_apart {code mask : Int32} (apart : code &&& mask = 0) {i : Nat}
    (masked : mask.toBitVec.getLsbD i = true) : code.toBitVec.getLsbD i = false := by
  have none : code.toBitVec &&& mask.toBitVec = 0 := Int32.toBitVec_inj.mpr apart
  simpa [masked] using congrArg (BitVec.getLsbD · i) none

/-- Outside the field stands the code. -/
theorem or_and_not {code mask : Int32} (apart : code &&& mask = 0) (x : Int32) :
    (code ||| (x &&& mask)) &&& ~~~mask = code := by
  apply Int32.toBitVec_inj.mp
  change (code.toBitVec ||| (x.toBitVec &&& mask.toBitVec)) &&& ~~~mask.toBitVec = code.toBitVec
  apply BitVec.eq_of_getLsbD_eq
  intro i inside
  simp only [BitVec.getLsbD_and, BitVec.getLsbD_or, BitVec.getLsbD_not, inside]
  cases masked : mask.toBitVec.getLsbD i with
  | true => simp [getLsbD_apart apart masked]
  | false => simp

/-- Inside the field stands the operand. -/
theorem or_and {code mask : Int32} (apart : code &&& mask = 0) (x : Int32) :
    (code ||| (x &&& mask)) &&& mask = x &&& mask := by
  apply Int32.toBitVec_inj.mp
  change (code.toBitVec ||| (x.toBitVec &&& mask.toBitVec)) &&& mask.toBitVec =
    x.toBitVec &&& mask.toBitVec
  apply BitVec.eq_of_getLsbD_eq
  intro i inside
  simp only [BitVec.getLsbD_and, BitVec.getLsbD_or]
  cases masked : mask.toBitVec.getLsbD i with
  | true => simp [getLsbD_apart apart masked]
  | false => simp

/-- A mask of the low `n` bits keeps the residue modulo `2 ^ n`. -/
theorem toInt_and {n : Nat} (small : n ≤ 16) {mask : Int32}
    (low : mask.toBitVec = BitVec.ofNat 32 (2 ^ n - 1)) (x : Int32) :
    (x &&& mask).toInt = (x.toBitVec.toNat % 2 ^ n : Nat) := by
  have power : 2 ^ n ≤ 2 ^ 16 := Nat.pow_le_pow_right (by decide) small
  have fits : 2 ^ n - 1 < 2 ^ 32 := by omega
  have residue : (x &&& mask).toBitVec.toNat = x.toBitVec.toNat % 2 ^ n := by
    change (x.toBitVec &&& mask.toBitVec).toNat = _
    rw [low, BitVec.toNat_and, BitVec.toNat_ofNat, Nat.mod_eq_of_lt fits,
      Nat.and_two_pow_sub_one_eq_mod]
  have bound := Nat.mod_lt x.toBitVec.toNat (Nat.two_pow_pos n)
  change (x &&& mask).toBitVec.toInt = _
  rw [BitVec.toInt_eq_toNat_of_lt (by omega), residue]

theorem toInt_emod (x : Int32) : x.toInt % 65536 = (x.toBitVec.toNat % 65536 : Nat) := by
  have signed : x.toInt = if 2 * x.toBitVec.toNat < 2 ^ 32 then (x.toBitVec.toNat : Int)
      else x.toBitVec.toNat - (2 ^ 32 : Nat) := BitVec.toInt_eq_toNat_cond x.toBitVec
  split at signed
  · omega
  · omega

/-- An operand is wider than a field of `n` bits exactly if its low sixteen bits are not the
field. -/
theorem overflows_iff {n : Nat} (small : n ≤ 16) {mask : Int32}
    (low : mask.toBitVec = BitVec.ofNat 32 (2 ^ n - 1)) (x : Int32) :
    mask < x &&& 0xFFFF ↔ x.toInt % 65536 ≠ (x &&& mask).toInt := by
  have power : 2 ^ n ≤ 2 ^ 16 := Nat.pow_le_pow_right (by decide) small
  have whole : mask.toInt = (2 ^ n - 1 : Nat) := by
    change mask.toBitVec.toInt = _
    rw [low, BitVec.toInt_eq_toNat_of_lt, BitVec.toNat_ofNat, Nat.mod_eq_of_lt]
    · omega
    · rw [BitVec.toNat_ofNat, Nat.mod_eq_of_lt (by omega)]
      omega
  have sixteen : (x &&& 0xFFFF).toInt = (x.toBitVec.toNat % 65536 : Nat) :=
    toInt_and (n := 16) (by decide) rfl x
  have nested : x.toBitVec.toNat % 65536 % 2 ^ n = x.toBitVec.toNat % 2 ^ n :=
    Nat.mod_mod_of_dvd _ (Nat.pow_dvd_pow 2 small)
  have positive := Nat.two_pow_pos n
  rw [Int32.lt_iff_toInt_lt, whole, sixteen, toInt_and small low, toInt_emod, ← nested]
  generalize x.toBitVec.toNat % 65536 = k
  by_cases fits : k < 2 ^ n
  · rw [Nat.mod_eq_of_lt fits]
    omega
  · have less := Nat.mod_lt k positive
    omega

end FieldBits

/-- An operand that could not be read never has a value. -/
theorem ExprStore.evaluate_of_isInvalid {s : ExprStore} {id : ExprId}
    (invalid : s.isInvalid id = true) (t : SymbolTable) : s.evaluate t id = .fail .malformed := by
  rw [isInvalid] at invalid
  rw [evaluate.eq_def]
  cases found : s.nodes[id]? with
  | none => simp [found] at invalid
  | some e =>
    have node : e.node = .invalid := by simpa [found] using invalid
    simp only [Option.map_some, node]

namespace Assembly

/-- A field in the code list evaluates to the code joined with what the operator makes of the
operand, in every later state where the operand has a value. -/
theorem cellValue_field {s : ExprStore} {b : Assembly} {op : Operator} {right code : Int32}
    {operand : ExprId} (inside : operand < s.size) (quiet : s.Quiet operand)
    (later : (s.field op right code operand).2.Extends b.exprs) {x y : Int32} {ws : List Warning}
    (value : (b.exprs.evaluate b.symbols operand).value = .ok x)
    (applied : op.apply (s.symbolic operand) x right = ⟨.ok y, ws⟩) :
    b.cellValue (s.field op right code operand).1 = (code ||| y, ws.map .warning) := by
  have added := s.adds_field b.symbols op right code inside
  rw [(added.grown.trans later).evaluate b.symbols inside] at value
  have packed : b.exprs.evaluate b.symbols (s.field op right code operand).1 =
      ⟨.ok (code ||| y), ws⟩ := by
    rw [later.evaluate b.symbols added.inside, added.value, Evaluation.andThen_of_ok value, applied,
      quiet b.symbols]
    simp [Evaluation.andThen, Evaluation.pure]
  simp only [cellValue, packed, Evaluation.warningDiagnostics]

/-- From `a` to `b` complaints may be made, the operand at `e` is read, and an order with the code
and a field made by the operator is emitted. -/
def Packs (a : Assembly) (e : Cursor) (op : Operator) (right code : Int32) (b : Assembly) : Prop :=
  ∃ noted, Notes a noted ∧ b = (noted.operand e).2.2.emitField op right code (noted.operand e).1

/-- The word that an order with a readable operand comes to. -/
theorem Packs.cellValue {a b : Assembly} {e : Cursor} {op : Operator} {right code : Int32}
    (packs : Packs a e op right code b) {later : Assembly} (grown : b.exprs.Extends later.exprs)
    {x : Int32}
    (value : (later.exprs.evaluate later.symbols
      (Operand.read a.dialect a.location e a.toTables).expr).value = .ok x) :
    ∃ id symbolic, b.code = a.code.push ⟨a.lineNumber, a.location, .expr id⟩ ∧
      ∀ y ws, op.apply symbolic x right = ⟨.ok y, ws⟩ →
        later.cellValue id = (code ||| y, ws.map .warning) := by
  obtain ⟨noted, ⟨said, rfl⟩, rfl⟩ := packs
  obtain ⟨added, speaks⟩ := Operand.speaks_read a.dialect a.location e a.toTables
  have same : (Operand.read a.dialect a.location e
      { a.toTables with diagnostics := a.diagnostics ++ said }).expr =
      (Operand.read a.dialect a.location e a.toTables).expr := by
    rw [speaks.adds, speaks.adds a.diagnostics]
    rfl
  have read := Operand.grown_read a.dialect a.location e
    { a.toTables with diagnostics := a.diagnostics ++ said }
  rw [← same] at value
  simp only [operand] at grown ⊢
  generalize Operand.read a.dialect a.location e
    { a.toTables with diagnostics := a.diagnostics ++ said } = r at read value grown ⊢
  rw [emitField] at grown ⊢
  split at grown
  · next invalid =>
    have grown : r.tables.exprs.Extends later.exprs := grown
    have invalid : r.tables.exprs.isInvalid r.expr = true := invalid
    rw [grown.evaluate later.symbols read.inside, ExprStore.evaluate_of_isInvalid invalid] at value
    cases value
  · next valid =>
    rw [if_neg valid]
    exact ⟨_, _, rfl, fun y ws applied =>
      cellValue_field read.inside read.quiet grown value applied⟩

section Orders

variable (m : Mnemonic) (tag : Option Tag) (c : Cursor) (a : Assembly)

theorem packs_constant (constant : m.takesConstant = true) :
    Packs a (c.operandAfterMarker a.dialect) .mask 0o3777 m.code (processor m tag c a).2 := by
  have noted := (notes_noteIf a (tag = some .display) (.displayTag m.name)).trans
    (notes_noteIf _ (asksIndirect a.dialect tag c) (.indirectMode m.name))
  simp only [processor, indirect_eq, constant, if_true]
  exact ⟨_, noted, rfl⟩

theorem packs_reference (address : m.takesConstant = false) :
    Packs a (c.operandAfterMarker a.dialect) .page11 a.location
      (if asksIndirect a.dialect tag c then m.code ||| indirectBit else m.code)
      (processor m tag c a).2 := by
  obtain ⟨said, noted⟩ := notes_noteIf a (tag = some .display) (.displayTag m.name)
  simp only [processor, indirect_eq, address, noted, Bool.false_eq_true, if_false]
  exact ⟨_, ⟨said, rfl⟩, rfl⟩

theorem packs_shift :
    Packs a (c.operandAfterMarker a.dialect) .mask 0o3 m.code (shift m tag c a).2 := by
  have noted := (notes_noteIf a (tag = some .display) (.displayTag m.name)).trans
    (notes_noteIf _ (asksIndirect a.dialect tag c) (.indirectMode m.name))
  simp only [shift, indirect_eq]
  exact ⟨_, noted, rfl⟩

variable {a} in
theorem packs_requiredOperand {e : Cursor} (follows : c.operandAfterBlanks? = some e)
    {noted : Assembly} (h : Notes a noted) {next : ExprId → Assembly → Assembly} {op : Operator}
    {right code : Int32}
    (emits : ∀ id,
      next id (noted.operand e).2.2 = (noted.operand e).2.2.emitField op right code id) :
    Packs a e op right code (requiredOperand m c noted next).2 := by
  rw [Cursor.operandAfterBlanks?] at follows
  split at follows
  · next blank =>
    cases follows
    simp only [requiredOperand, blank, if_true, emits]
    exact ⟨noted, h, rfl⟩
  · cases follows

theorem packs_display {e : Cursor} (follows : c.operandAfterBlanks? = some e)
    (other : m.code ≠ Mnemonic.deimCode) :
    if m.code < Mnemonic.deimCode then Packs a e .mask 0o1777 m.code (display m tag c a).2
    else Packs a e .page12 a.location m.code (display m tag c a).2 := by
  have noted := notes_noteIf a tag.isSome (.indirectTag m.name)
  simp only [display, other, if_false]
  split
  · exact packs_requiredOperand m c follows noted fun _ => rfl
  · obtain ⟨said, same⟩ := noted
    rw [same]
    exact packs_requiredOperand m c follows ⟨said, rfl⟩ fun _ => rfl

theorem packs_displayOperate {e : Cursor} (follows : c.operandAfterBlanks? = some e) {mask : Int32}
    (field : m.field? = some mask) : Packs a e .mask mask m.code (displayOperate m c a).2 := by
  simp only [displayOperate, field]
  exact packs_requiredOperand m c follows (notes_refl a) fun _ => rfl

end Orders

end Assembly

/-- With `right` the operator keeps the bits of the mask. If `checked` is set it warns exactly of
operands that are wider. -/
def Operator.Fills (op : Operator) (right mask : Int32) (checked : Bool) : Prop :=
  ∀ symbolic x, ∃ ws, op.apply symbolic x right = ⟨.ok (x &&& mask), ws⟩ ∧
    (checked = true → (.fieldOverflow ∈ ws ↔ x.toInt % 65536 ≠ (x &&& mask).toInt))

theorem Operator.fills_mask {n : Nat} (small : n ≤ 16) {mask : Int32}
    (low : mask.toBitVec = BitVec.ofNat 32 (2 ^ n - 1)) :
    Operator.mask.Fills mask mask true := by
  intro symbolic x
  refine ⟨_, rfl, fun _ => ?_⟩
  rw [← FieldBits.overflows_iff small low]
  by_cases wide : mask < x &&& 0xFFFF
  · simp [wide]
  · simp [wide]

namespace Assembly

/-- The code of an order in its addressing mode. -/
def orderCode (m : Mnemonic) (indirect : Bool) : Int32 :=
  if indirect then m.code ||| indirectBit else m.code

theorem orderCode_apart {m : Mnemonic} (listed : m ∈ Mnemonic.all) {mask : Int32}
    (field : m.operandMask? = some mask) (indirect : Bool) : orderCode m indirect &&& mask = 0 := by
  have table : ∀ m ∈ Mnemonic.all, ∀ indirect,
      orderCode m indirect &&& m.operandMask?.getD 0 = 0 := by decide +kernel
  simpa [field] using table m listed indirect

theorem reference?_orderCode {m : Mnemonic} (listed : m ∈ Mnemonic.all)
    (group : m.group = .processor) {indirect : Bool}
    (allowed : indirect = true → m.takesConstant = false) :
    Mnemonic.reference? (orderCode m indirect) = some (m, indirect) := by
  have table : ∀ m ∈ Mnemonic.all, m.group = .processor → ∀ indirect,
      (indirect = true → m.takesConstant = false) →
        Mnemonic.reference? (orderCode m indirect) = some (m, indirect) := by decide +kernel
  exact table m listed group indirect allowed

/-- The addressing mode of an order: tags and markers count only for orders that allow them. -/
def goesIndirect (m : Mnemonic) (dialect : Dialect) (tag : Option Tag) (c : Cursor) : Bool :=
  m.allowsIndirect && asksIndirect dialect tag c

/-- Of the display orders the first two take a coordinate. -/
theorem display_table {m : Mnemonic} (listed : m ∈ Mnemonic.all) (group : m.group = .display)
    {mask : Int32} (field : m.operandMask? = some mask) :
    m.code ≠ Mnemonic.deimCode ∧
      if m.code < Mnemonic.deimCode then mask = 0o1777 ∧ m.holdsAddress = false
      else mask = 0o7777 ∧ m.holdsAddress = true := by
  have table : ∀ m ∈ Mnemonic.all, m.group = .display → m.operandMask?.isSome = true →
      m.code ≠ Mnemonic.deimCode ∧
        if m.code < Mnemonic.deimCode then
          m.operandMask? = some 0o1777 ∧ m.holdsAddress = false
        else m.operandMask? = some 0o7777 ∧ m.holdsAddress = true := by decide +kernel
  have own := table m listed group (by rw [field]; rfl)
  rw [field] at own
  simpa only [Option.some.injEq] using own

/-- Every order with a field is emitted with an operator that fills it. -/
theorem packs_carryOut {m : Mnemonic} (listed : m ∈ Mnemonic.all) {mask : Int32}
    (field : m.operandMask? = some mask) (pool : Assembly → Assembly) (tag : Option Tag)
    {c e : Cursor} {a : Assembly} (place : m.operandAt? a.dialect c = some e) :
    ∃ op right, op.Fills right mask (!m.holdsAddress) ∧
      Packs a e op right (orderCode m (goesIndirect m a.dialect tag c))
        (carryOut pool m tag c a).2 := by
  cases group : m.group with
  | processor =>
    obtain rfl : mask = 0o3777 := by simpa [Mnemonic.operandMask?, group] using field.symm
    obtain rfl : c.operandAfterMarker a.dialect = e := by
      simpa [Mnemonic.operandAt?, group] using place
    simp only [carryOut, group, Mnemonic.holdsAddress, goesIndirect, Mnemonic.allowsIndirect]
    cases constant : m.takesConstant with
    | true =>
      exact ⟨_, _, Operator.fills_mask (n := 11) (by decide) rfl, packs_constant m tag c a constant⟩
    | false =>
      refine ⟨_, _, ?_, packs_reference m tag c a constant⟩
      exact fun _ _ => ⟨_, rfl, by simp⟩
  | display =>
    have follows : c.operandAfterBlanks? = some e := by
      simpa [Mnemonic.operandAt?, group] using place
    obtain ⟨other, kind⟩ := display_table listed group field
    have packs := packs_display m tag c a follows other
    simp only [carryOut, group, goesIndirect, Mnemonic.allowsIndirect]
    split at kind
    · next coordinate =>
      obtain ⟨rfl, address⟩ := kind
      rw [if_pos coordinate] at packs
      rw [address]
      exact ⟨_, _, Operator.fills_mask (n := 10) (by decide) rfl, packs⟩
    · next above =>
      obtain ⟨rfl, address⟩ := kind
      rw [if_neg above] at packs
      rw [address]
      exact ⟨_, _, fun _ _ => ⟨_, rfl, by simp⟩, packs⟩
  | displayOperate =>
    have own : m.field? = some mask := by simpa [Mnemonic.operandMask?, group] using field
    have follows : c.operandAfterBlanks? = some e := by
      simpa [Mnemonic.operandAt?, group, own] using place
    have fills : Operator.mask.Fills mask mask true := by
      rw [Mnemonic.field?] at own
      split at own
      · cases own
        exact Operator.fills_mask (n := 4) (by decide) rfl
      · split at own
        · cases own
          exact Operator.fills_mask (n := 2) (by decide) rfl
        · cases own
    simp only [carryOut, group, Mnemonic.holdsAddress, goesIndirect, Mnemonic.allowsIndirect]
    exact ⟨_, _, fills, packs_displayOperate m c a follows own⟩
  | shift =>
    obtain rfl : mask = 0o3 := by simpa [Mnemonic.operandMask?, group] using field.symm
    obtain rfl : c.operandAfterMarker a.dialect = e := by
      simpa [Mnemonic.operandAt?, group] using place
    simp only [carryOut, group, Mnemonic.holdsAddress, goesIndirect, Mnemonic.allowsIndirect]
    exact ⟨_, _, Operator.fills_mask (n := 2) (by decide) rfl, packs_shift m tag c a⟩
  | iot | operate | skip | directive => simp [Mnemonic.operandMask?, group] at field

/-- What the word `w` of an order and the diagnostics of its evaluation tell, where the operand has
the value `x`. -/
structure Packed (m : Mnemonic) (mask : Int32) (indirect : Bool) (x w : Int32)
    (said : List Diagnostic) : Prop where
  opcode : w &&& ~~~mask = orderCode m indirect
  field : w &&& mask = x &&& mask
  overflow : m.holdsAddress = false →
    (.warning .fieldOverflow ∈ said ↔ x.toInt % 65536 ≠ (w &&& mask).toInt)
  recovered : m.group = .processor → Mnemonic.takeApart w = some (m, indirect, x &&& mask)

theorem packed_of_fills {m : Mnemonic} (listed : m ∈ Mnemonic.all) {mask : Int32}
    (field : m.operandMask? = some mask) {indirect : Bool}
    (allowed : indirect = true → m.allowsIndirect = true) {x : Int32} {ws : List Warning}
    (warns : m.holdsAddress = false →
      (.fieldOverflow ∈ ws ↔ x.toInt % 65536 ≠ (x &&& mask).toInt)) :
    Packed m mask indirect x (orderCode m indirect ||| (x &&& mask)) (ws.map .warning) := by
  have apart := orderCode_apart listed field indirect
  have outside := FieldBits.or_and_not apart x
  have inside := FieldBits.or_and apart x
  refine ⟨outside, inside, ?_, ?_⟩
  · intro checked
    rw [inside, ← warns checked]
    simp
  · intro group
    obtain rfl : mask = 0o3777 := by simpa [Mnemonic.operandMask?, group] using field.symm
    have constant : indirect = true → m.takesConstant = false := fun asked => by
      simpa [Mnemonic.allowsIndirect, group] using allowed asked
    rw [Mnemonic.takeApart, outside, inside, reference?_orderCode listed group constant]
    rfl

end Assembly

theorem Mnemonic.mem_all_of_read? {display : Bool} {c d : Cursor} {m : Mnemonic}
    (h : read? display c = some (m, d)) : m ∈ all := by
  unfold read? at h
  simp only at h
  split at h
  · obtain ⟨n, found, pair⟩ := Option.map_eq_some_iff.mp h
    cases pair
    exact List.mem_of_find?_eq_some found
  · cases h

namespace Assembly

/-- A display tag is used up by the name it completes, and does not ask for indirect addressing. -/
theorem asksIndirect_used (dialect : Dialect) (tag : Option Tag) (c : Cursor) :
    asksIndirect dialect (if tag = some .display then none else tag) c =
      asksIndirect dialect tag c := by
  cases tag with
  | none => rfl
  | some tag =>
    cases tag with
    | indirect => rfl
    | display => rfl

/-- An order with a field is one cell. Outside the field its word has the code of the mnemonic, with
the bit for indirect addressing exactly if it is asked for and allowed; inside it has the bits of
the operand. Fields that hold no address warn exactly if they cut it. -/
theorem field_keeps_opcode (pool : Assembly → Assembly) (c : Cursor) (a : Assembly)
    {m : Mnemonic} {d e : Cursor}
    (named : Mnemonic.read? ((readTag a.dialect c).1 = some .display) (readTag a.dialect c).2 =
      some (m, d))
    {mask : Int32} (field : m.operandMask? = some mask) (place : m.operandAt? a.dialect d = some e)
    {later : Assembly} (grown : (order pool c a).2.2.exprs.Extends later.exprs) {x : Int32}
    (value : (later.exprs.evaluate later.symbols
      (Operand.read a.dialect a.location e a.toTables).expr).value = .ok x) :
    ∃ id, (order pool c a).2.2.code = a.code.push ⟨a.lineNumber, a.location, .expr id⟩ ∧
      Packed m mask (goesIndirect m a.dialect (readTag a.dialect c).1 d) x (later.cellValue id).1
        (later.cellValue id).2 := by
  have listed := Mnemonic.mem_all_of_read? named
  have carried : (order pool c a).2.2 =
      (carryOut pool m
        (if (readTag a.dialect c).1 = some .display then none else (readTag a.dialect c).1)
        d a).2 := by
    simp only [order, named]
  rw [carried] at grown ⊢
  obtain ⟨op, right, fills, packs⟩ := packs_carryOut listed field pool
    (if (readTag a.dialect c).1 = some .display then none else (readTag a.dialect c).1) place
  simp only [goesIndirect, asksIndirect_used] at packs ⊢
  obtain ⟨id, symbolic, code, evaluated⟩ := packs.cellValue grown value
  obtain ⟨ws, applied, warns⟩ := fills symbolic x
  refine ⟨id, code, ?_⟩
  rw [evaluated _ ws applied]
  refine packed_of_fills listed field (fun asked => (Bool.and_eq_true .. ▸ asked).1) ?_
  intro checked
  exact warns (by rw [checked]; rfl)

/-- A tag and a marker before a negative operand fill the field and set one more bit. -/
theorem field_keeps_opcode_negative :
    let m : Mnemonic := ⟨"LAC", 0o060000, .processor⟩
    let a : Assembly := { init .oldAmes with location := 0o5000 }
    let b := (order placePool (.ofText "* LAC *-1") a).2.2
    ∃ id, b.code = #[⟨0, 0o5000, .expr id⟩] ∧
      (b.cellValue id).1 &&& ~~~0o3777 = 0o160000 ∧ (b.cellValue id).1 &&& 0o3777 = 0o3777 ∧
      Mnemonic.takeApart (b.cellValue id).1 = some (m, true, 0o3777) := by
  intro m a b
  let d : Cursor := ⟨"* LAC *-1".toList, " *-1".toList, []⟩
  have named : Mnemonic.read? ((readTag a.dialect (.ofText "* LAC *-1")).1 = some .display)
      (readTag a.dialect (.ofText "* LAC *-1")).2 = some (m, d) := by decide +kernel
  have value : (b.exprs.evaluate b.symbols (Operand.read a.dialect a.location
      ⟨"* LAC *-1".toList, "-1".toList, []⟩ a.toTables).expr).value = .ok (-1) := by decide +kernel
  have indirect :
      goesIndirect m a.dialect (readTag a.dialect (.ofText "* LAC *-1")).1 d = true := by
    decide +kernel
  obtain ⟨id, code, packed⟩ := field_keeps_opcode placePool (.ofText "* LAC *-1") a named rfl
    (by decide +kernel) (fun _ _ kept => kept) value
  rw [indirect] at packed
  have joined : orderCode m true = 0o160000 := by decide
  have low : (-1 : Int32) &&& 0o3777 = 0o3777 := by decide
  have recovered := packed.recovered rfl
  rw [low] at recovered
  exact ⟨id, code, packed.opcode.trans joined, packed.field.trans low, recovered⟩

end Assembly

end Pds1
