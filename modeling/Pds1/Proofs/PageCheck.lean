import Mathlib.Data.Nat.Bitwise
import Pds1.Proofs.Evaluation

/-!
# Page checks of address fields

An address field keeps the low bits of an operand, and the machine completes them with the page of
the instruction. The check compares a pattern of differing bits with the page mask as signed words.
Where operand and location have the same sign it warns exactly if their pages differ. Where the
signs are different the pages differ too, but the pattern is negative and there is no warning.
-/

namespace Pds1

namespace PageCheck

/-- Two words that differ in the low `n` bits at most. -/
def AgreeAbove (n : Nat) (x y : BitVec 32) : Prop :=
  ∀ i, n ≤ i → i < 32 → x.getLsbD i = y.getLsbD i

theorem sshiftRight_eq_iff {n : Nat} (hn : n < 32) (x y : BitVec 32) :
    x.sshiftRight n = y.sshiftRight n ↔ AgreeAbove n x y := by
  constructor
  · intro h i low high
    have bit := congrArg (BitVec.getLsbD · (i - n)) h
    have place : n + (i - n) = i := by omega
    simp only [BitVec.getLsbD_sshiftRight, place, high, if_true] at bit
    simpa [show ¬ 32 ≤ i - n by omega] using bit
  · intro h
    apply BitVec.eq_of_getLsbD_eq
    intro i hi
    simp only [BitVec.getLsbD_sshiftRight]
    by_cases inside : n + i < 32
    · simp only [inside, if_true, h (n + i) (by omega) inside]
    · simp only [inside, if_false, BitVec.msb_eq_getLsbD_last, h 31 (by omega) (by omega)]

theorem xor_lt_iff (n : Nat) (x y : BitVec 32) :
    (x ^^^ y).toNat < 2 ^ n ↔ AgreeAbove n x y := by
  constructor
  · intro h i low _
    have bit : (x ^^^ y).getLsbD i = false :=
      Nat.testBit_lt_two_pow (Nat.lt_of_lt_of_le h (Nat.pow_le_pow_right (by decide) low))
    simpa [BitVec.getLsbD_xor] using bit
  · intro h
    apply Nat.lt_pow_two_of_testBit
    intro i low
    change (x ^^^ y).getLsbD i = false
    by_cases high : i < 32
    · simp [BitVec.getLsbD_xor, h i low high]
    · exact BitVec.getLsbD_of_ge _ _ (by omega)

theorem msb_eq_of_agreeAbove {n : Nat} (hn : n < 32) {x y : BitVec 32} (h : AgreeAbove n x y) :
    x.msb = y.msb := by
  rw [BitVec.msb_eq_getLsbD_last, BitVec.msb_eq_getLsbD_last]
  exact h 31 (by omega) (by omega)

/-- The signed comparison with a page mask: the signs must agree for it to see a difference. -/
theorem lt_toInt_xor_iff (n : Nat) (x y : BitVec 32) :
    (2 ^ n - 1 : Int) < (x ^^^ y).toInt ↔ ¬ AgreeAbove n x y ∧ x.msb = y.msb := by
  rw [← xor_lt_iff]
  have positive : 0 < 2 ^ n := Nat.two_pow_pos n
  have power : (2 ^ n : Int) = ((2 ^ n : Nat) : Int) := by simp
  by_cases same : x.msb = y.msb
  · have sign : (x ^^^ y).msb = false := by rw [BitVec.msb_xor, same, Bool.xor_self]
    rw [BitVec.toInt_eq_toNat_of_msb sign, power]
    constructor
    · intro h
      exact ⟨by omega, same⟩
    · rintro ⟨h, -⟩
      omega
  · have sign : (x ^^^ y).msb = true := by
      rw [BitVec.msb_xor]
      simpa using same
    have negative := BitVec.toInt_neg_of_msb_true sign
    constructor
    · intro h
      omega
    · rintro ⟨-, h⟩
      exact absurd h same

theorem getLsbD_complete (n : Nat) (x p : BitVec 32) {i : Nat} (hi : i < 32) :
    ((p &&& ~~~BitVec.ofNat 32 (2 ^ n - 1)) ||| (x &&& BitVec.ofNat 32 (2 ^ n - 1))).getLsbD i =
      if i < n then x.getLsbD i else p.getLsbD i := by
  have mask : (BitVec.ofNat 32 (2 ^ n - 1)).getLsbD i = decide (i < n) := by
    rw [BitVec.getLsbD_ofNat, Nat.testBit_two_pow_sub_one, decide_eq_true hi, Bool.true_and]
  rw [BitVec.getLsbD_or, BitVec.getLsbD_and, BitVec.getLsbD_and, BitVec.getLsbD_not, mask]
  by_cases low : i < n
  · simp [low]
  · simp [low, hi]

/-- Completing the low bits of `x` with the page of `p` gives `x` back only on that page. -/
theorem complete_eq_iff (n : Nat) (x p : BitVec 32) :
    (p &&& ~~~BitVec.ofNat 32 (2 ^ n - 1)) ||| (x &&& BitVec.ofNat 32 (2 ^ n - 1)) = x ↔
      AgreeAbove n x p := by
  constructor
  · intro h i low high
    have bit := getLsbD_complete n x p high
    rw [h, if_neg (by omega)] at bit
    exact bit
  · intro h
    apply BitVec.eq_of_getLsbD_eq
    intro i hi
    rw [getLsbD_complete n x p hi]
    by_cases low : i < n
    · rw [if_pos low]
    · rw [if_neg low, h i (by omega) hi]

/-- Whether two addresses lie in one page of `2 ^ bits` words. -/
def SamePage (bits x p : Int32) : Prop := x >>> bits = p >>> bits

/-- What the check of one page size has to do with its shift and its mask. -/
structure Sound (bits mask : Int32) : Prop where
  warns : ∀ x p : Int32, mask < x ^^^ p ↔ ¬ SamePage bits x p ∧ (x < 0 ↔ p < 0)
  completes : ∀ x p : Int32, (p &&& ~~~mask) ||| (x &&& mask) = x ↔ SamePage bits x p
  sign : ∀ x p : Int32, SamePage bits x p → (x < 0 ↔ p < 0)

theorem lt_zero_iff_msb (x : Int32) : x < 0 ↔ x.toBitVec.msb = true := by
  rw [Int32.lt_iff_toInt_lt, BitVec.msb_eq_toInt]
  simp

theorem sound_of_width {n : Nat} (hn : n < 32) {bits mask : Int32}
    (shift : ∀ x : Int32, (x >>> bits).toBitVec = x.toBitVec.sshiftRight n)
    (hmask : mask.toBitVec = BitVec.ofNat 32 (2 ^ n - 1)) (hint : mask.toInt = 2 ^ n - 1) :
    Sound bits mask := by
  have page (x p : Int32) : SamePage bits x p ↔ AgreeAbove n x.toBitVec p.toBitVec := by
    rw [SamePage, ← Int32.toBitVec_inj, shift, shift, sshiftRight_eq_iff hn]
  have signs (x p : Int32) : (x < 0 ↔ p < 0) ↔ x.toBitVec.msb = p.toBitVec.msb := by
    rw [lt_zero_iff_msb, lt_zero_iff_msb]
    exact Bool.eq_iff_iff.symm
  refine ⟨?_, ?_, ?_⟩
  · intro x p
    rw [page, signs, ← lt_toInt_xor_iff, Int32.lt_iff_toInt_lt, hint]
    rfl
  · intro x p
    rw [page, ← complete_eq_iff, ← hmask, ← Int32.toBitVec_inj]
    rfl
  · intro x p h
    rw [signs]
    exact msb_eq_of_agreeAbove hn ((page x p).mp h)

theorem sound_page2K : Sound 11 page2K :=
  sound_of_width (n := 11) (by decide) (fun _ => rfl) rfl rfl

theorem sound_page4K : Sound 12 page4K :=
  sound_of_width (n := 12) (by decide) (fun _ => rfl) rfl rfl

/-- How an instruction at `p` with an address field evaluates, given how its operand does, with
value `x`. The field itself is `x &&& mask`. -/
structure Checked (bits mask : Int32) (warning : Warning) (symbolic : Bool) (p code x : Int32)
    (operand instruction : Evaluation) : Prop where
  value : instruction.value = .ok (code ||| (x &&& mask))
  /-- Opposite signs are never warned about, though the pages differ. -/
  warnings : instruction.warnings = operand.warnings ++
    if symbolic ∧ x >>> bits ≠ p >>> bits ∧ (x < 0 ↔ p < 0) then [warning] else []
  /-- Without a warning the machine finds the operand again, unless the signs are opposite. -/
  found : symbolic = true → instruction.warnings = operand.warnings →
    ((p &&& ~~~mask) ||| (x &&& mask) = x ↔ (x < 0 ↔ p < 0))

theorem checked_field {bits mask : Int32} (sound : Sound bits mask) {op : Operator}
    {warning : Warning}
    (hop : ∀ symbolic x y, op.apply symbolic x y =
      .warnIf (symbolic && (x ^^^ y) > mask) warning (x &&& mask))
    (s : ExprStore) (t : SymbolTable) (p code : Int32) {operand : ExprId} {x : Int32}
    (h : (s.evaluate t operand).value = .ok x) :
    Checked bits mask warning (s.symbolic operand) p code x (s.evaluate t operand)
      ((s.field op p code operand).2.evaluate t (s.field op p code operand).1) := by
  have condition : (s.symbolic operand && decide ((x ^^^ p) > mask)) = true ↔
      s.symbolic operand ∧ x >>> bits ≠ p >>> bits ∧ (x < 0 ↔ p < 0) := by
    rw [Bool.and_eq_true, decide_eq_true_eq, gt_iff_lt, sound.warns, SamePage]
  have field := (s.adds_field t op p code (ExprStore.lt_size_of_evaluate h)).value
  rw [Evaluation.andThen_of_ok h, hop] at field
  simp only [Evaluation.warnIf, Evaluation.andThen, Evaluation.pure, condition,
    List.append_nil] at field
  rw [field]
  refine ⟨rfl, rfl, ?_⟩
  intro symbolic quiet
  rw [sound.completes]
  constructor
  · exact sound.sign x p
  · intro signs
    by_contra different
    rw [if_pos ⟨symbolic, different, signs⟩] at quiet
    simp at quiet

/-- The checks of 11-bit and 12-bit address fields. Their warnings are exactly the page crossings
between addresses of the same sign. -/
theorem page_checks_exact (s : ExprStore) (t : SymbolTable) (p code : Int32) (operand : ExprId)
    (x : Int32) (h : (s.evaluate t operand).value = .ok x) :
    Checked 11 page2K .outside2K (s.symbolic operand) p code x (s.evaluate t operand)
        ((s.address11 p code operand).2.evaluate t (s.address11 p code operand).1) ∧
      Checked 12 page4K .outside4K (s.symbolic operand) p code x (s.evaluate t operand)
        ((s.address12 p code operand).2.evaluate t (s.address12 p code operand).1) :=
  ⟨checked_field sound_page2K (fun _ _ _ => rfl) s t p code h,
    checked_field sound_page4K (fun _ _ _ => rfl) s t p code h⟩

/-- A store with one reference to a label. -/
def reference : ExprStore := ⟨#[⟨.label 0, true⟩]⟩

/-- A table with one label. -/
def tableOf (value : Int32) : SymbolTable := { labels := #[("A", .bound value false false)] }

theorem evaluate_reference (value : Int32) :
    reference.evaluate (tableOf value) 0 = .pure value := by
  rw [ExprStore.evaluate]
  rfl

/-- A forward reference across the page boundary of an instruction at the top of the first page. -/
theorem page_checks_exact_crossing :
    (reference.evaluate (tableOf 0o4000) 0).value = .ok 0o4000 ∧
      ((reference.address11 0o3777 0o10000 0).2.evaluate (tableOf 0o4000)
        (reference.address11 0o3777 0o10000 0).1).warnings = [.outside2K] := by
  have value : (reference.evaluate (tableOf 0o4000) 0).value = .ok 0o4000 := by
    rw [evaluate_reference]
    rfl
  have checked := (page_checks_exact reference (tableOf 0o4000) 0o3777 0o10000 0 0o4000 value).1
  refine ⟨value, ?_⟩
  rw [checked.warnings, evaluate_reference]
  decide

/-- The word before the first one is on another page, yet there is no warning. -/
theorem negative_reference_unwarned :
    (reference.evaluate (tableOf (-1)) 0).value = .ok (-1) ∧ reference.symbolic 0 = true ∧
      (-1 : Int32) >>> 11 ≠ (0 : Int32) >>> 11 ∧
      ((reference.address11 0 0o10000 0).2.evaluate (tableOf (-1))
        (reference.address11 0 0o10000 0).1).warnings = [] := by
  have value : (reference.evaluate (tableOf (-1)) 0).value = .ok (-1) := by
    rw [evaluate_reference]
    rfl
  have checked := checked_field sound_page2K
    (fun _ _ _ => rfl : ∀ symbolic x y, Operator.page11.apply symbolic x y = _) reference
    (tableOf (-1)) 0 0o10000 value
  refine ⟨value, rfl, by decide, ?_⟩
  rw [ExprStore.address11, checked.warnings, evaluate_reference]
  decide

end PageCheck

end Pds1
