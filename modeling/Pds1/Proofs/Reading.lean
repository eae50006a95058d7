import Mathlib.Logic.Relation
import Pds1.Assembly.PassOne
import Pds1.Proofs.LabelTable

/-!
# What reading a line can do

Whatever a line says, reading it changes the state only by the moves listed here, and the cursor
goes forward with them. Each move carries the conditions under which the reader makes it, so that
what holds along a whole run can be shown move by move. How a literal pool is placed stays a
parameter, as it is for the reader. Two more tell whether the location counter may be set and
whether a name may be bound. Only the binding of a label complains that a label is bound twice.
-/

namespace Pds1

/-- Directives that set or move the location counter. -/
def Directive.movesOrigin (d : Directive) : Bool :=
  d = .block || d = .bss || d = .loc || d = .org || d = .rel

namespace Assembly

/-- Where the reader stands and what it has made so far. -/
abbrev Position := Cursor × Assembly

/-- One change that reading a line makes. -/
inductive Move (pool : Assembly → Assembly) (origins binds : Prop) :
    Position → Position → Prop where
  /-- Passing over text. -/
  | skip {c c' : Cursor} (a : Assembly) (forward : c'.rest <:+ c.rest) :
      Move pool origins binds (c, a) (c', a)
  | note (c : Cursor) (a : Assembly) (d : Diagnostic) (other : d.duplicate? = none) :
      Move pool origins binds (c, a) (c, a.note d)
  | log (c : Cursor) (a : Assembly) (e : Event) :
      Move pool origins binds (c, a) (c, { a with log := a.log.push e })
  | comment (c : Cursor) (a : Assembly) :
      Move pool origins binds (c, a) (c, { a with comments := a.comments + 1 })
  /-- A label in front of a statement. -/
  | label (c : Cursor) (a : Assembly) (name : String) (allowed : binds) :
      Move pool origins binds (c, a) (c, a.bindLabel name)
  | word (c : Cursor) (a : Assembly) (value : Int32) :
      Move pool origins binds (c, a) (c, a.emitWord value)
  | pool (c : Cursor) (a : Assembly) : Move pool origins binds (c, a) (c, pool a)
  | stop (c : Cursor) (a : Assembly) :
      Move pool origins binds (c, a) (c, { a with ended := true, start := none })
  | operand {a b : Assembly} {c c' : Cursor} {id : ExprId} (read : a.operand c = (id, c', b)) :
      Move pool origins binds (c, a) (c', b)
  /-- An operand as a word of its own. -/
  | expr {a b : Assembly} {c c' : Cursor} {id : ExprId} (read : a.operand c = (id, c', b))
      (valid : b.exprs.isInvalid id = false) : Move pool origins binds (c, a) (c', b.emitExpr id)
  /-- An operand in the field of an instruction. -/
  | field {a b : Assembly} {c c' : Cursor} {id : ExprId} (read : a.operand c = (id, c', b))
      {op : Operator} (masks : op = .mask ∨ op = .page11 ∨ op = .page12) (right code : Int32) :
      Move pool origins binds (c, a) (c', b.emitField op right code id)
  /-- An operand evaluated at once. -/
  | value {a b : Assembly} {c c' : Cursor} {id : ExprId} (read : a.operand c = (id, c', b))
      (valid : b.exprs.isInvalid id = false) :
      Move pool origins binds (c, a) (c', (b.valueNow id).2)
  | origin (allowed : origins) {a b b' : Assembly} {c c' : Cursor} {id : ExprId}
      (read : a.operand c = (id, c', b)) (valid : b.exprs.isInvalid id = false) {value : Int32}
      (known : b.valueNow id = (.ok value, b')) (d : Directive) :
      Move pool origins binds (c, a) (c', b'.moveOrigin d value)
  | assign {a b b' : Assembly} {c c' : Cursor} {id : ExprId} (read : a.operand c = (id, c', b))
      (valid : b.exprs.isInvalid id = false) {value : Int32}
      (known : b.valueNow id = (.ok value, b')) (name : String) (allowed : binds) :
      Move pool origins binds (c, a) (c', { b' with
        symbols := b'.symbols.bind name (.bound value b'.relocatable (!b'.exprs.symbolic id)) })
  | stopAt {a b : Assembly} {c c' : Cursor} {id : ExprId} (read : a.operand c = (id, c', b)) :
      Move pool origins binds (c, a) (c', { b with
        ended := true
        start := if b.exprs.isInvalid id then none else some id })

/-- Any number of moves. -/
abbrev Reads (pool : Assembly → Assembly) (origins binds : Prop) : Position → Position → Prop :=
  Relation.ReflTransGen (Move pool origins binds)

variable {pool : Assembly → Assembly} {origins binds : Prop}

/-- Passing over text before anything else. -/
theorem reads_skip {c c' : Cursor} {a : Assembly} {p : Position} (forward : c'.rest <:+ c.rest)
    (h : Reads pool origins binds (c', a) p) : Reads pool origins binds (c, a) p :=
  h.head (.skip a forward)

theorem reads_noteIf {p : Position} {c : Cursor} {b : Assembly}
    (h : Reads pool origins binds p (c, b)) (condition : Bool) (d : Diagnostic)
    (other : d.duplicate? = none) :
    Reads pool origins binds p (c, b.noteIf condition d) := by
  cases condition with
  | false => exact h
  | true => exact h.tail (.note c b d other)

theorem reads_words {p : Position} {c : Cursor} {b : Assembly}
    (h : Reads pool origins binds p (c, b)) (values : List Int32) :
    Reads pool origins binds p (c, values.foldl emitWord b) := by
  induction values generalizing b with
  | nil => exact h
  | cons value rest ih => exact ih (h.tail (.word c b value))

/-- A diagnostic and a word in place of what could not be read. -/
theorem reads_noted_word {p : Position} {c : Cursor} {b : Assembly}
    (h : Reads pool origins binds p (c, b)) (d : Diagnostic) (value : Int32)
    (other : d.duplicate? = none) :
    Reads pool origins binds p (c, (b.note d).emitWord value) :=
  (h.tail (.note c b d other)).tail (.word c _ value)

theorem reads_value {a b b' : Assembly} {c c' : Cursor} {id : ExprId}
    (read : a.operand c = (id, c', b)) (valid : b.exprs.isInvalid id = false)
    {result : Except EvalError Int32} (evaluated : b.valueNow id = (result, b')) :
    Reads pool origins binds (c, a) (c', b') := by
  obtain rfl : (b.valueNow id).2 = b' := congrArg Prod.snd evaluated
  exact .single (.value read valid)

theorem reads_indirect (m : Mnemonic) (tag : Option Tag) (c : Cursor) (a : Assembly) :
    Reads pool origins binds (c, a) (indirect m tag c a).2 := by
  have noted : Reads pool origins binds (c, a)
      (c.dropBlanks, a.noteIf (tag = some .display) (.displayTag m.name)) :=
    reads_noteIf (.single (.skip a c.dropBlanks_suffix)) _ _ rfl
  simp only [indirect]
  split
  · exact noted.tail (.skip _ c.dropBlanks.step_suffix)
  · exact noted

theorem reads_processor (m : Mnemonic) (tag : Option Tag) (c : Cursor) (a : Assembly) :
    Reads pool origins binds (c, a) (processor m tag c a) := by
  have marked : Reads pool origins binds (c, a) (indirect m tag c a).2 := reads_indirect m tag c a
  simp only [processor]
  split
  · exact (reads_noteIf marked _ _ rfl).tail (.field rfl (.inl rfl) _ _)
  · exact marked.tail (.field rfl (.inr (.inl rfl)) _ _)

theorem reads_requiredOperand (m : Mnemonic) (c : Cursor) (a : Assembly)
    (next : ExprId → Assembly → Assembly)
    (h : ∀ d, Reads pool origins binds (d, a)
      ((a.operand d).2.1, next (a.operand d).1 (a.operand d).2.2)) :
    Reads pool origins binds (c, a) (requiredOperand m c a next) := by
  simp only [requiredOperand]
  split
  · exact reads_skip c.dropBlanks_suffix (h _)
  · exact reads_noted_word (.single (.skip a c.dropBlanks_suffix)) _ 0 rfl

theorem reads_display (m : Mnemonic) (tag : Option Tag) (c : Cursor) (a : Assembly) :
    Reads pool origins binds (c, a) (display m tag c a) := by
  have noted : Reads pool origins binds (c, a) (c, a.noteIf tag.isSome (.indirectTag m.name)) :=
    reads_noteIf .refl _ _ rfl
  simp only [display]
  split
  · exact (noted.tail (.log c _ _)).tail (.note c _ _ rfl)
  · refine noted.trans (reads_requiredOperand m c _ _ fun d => ?_)
    split
    · exact .single (.field rfl (.inl rfl) _ _)
    · exact .single (.field rfl (.inr (.inr rfl)) _ _)

theorem reads_displayOperate (m : Mnemonic) (c : Cursor) (a : Assembly) :
    Reads pool origins binds (c, a) (displayOperate m c a) := by
  simp only [displayOperate]
  split
  · exact .single (.word c a m.code)
  · exact reads_requiredOperand m c a _ fun d => .single (.field rfl (.inl rfl) _ _)

theorem reads_iot (m : Mnemonic) (tag : Option Tag) (c : Cursor) (a : Assembly) :
    Reads pool origins binds (c, a) (iot m tag c a) :=
  (reads_noteIf .refl _ _ rfl).tail (.word c _ _)

theorem reads_combine (first : String) (code : Int32) (c : Cursor) (a : Assembly) :
    Reads pool origins binds (c, a) (combine first code c a).2 := by
  have passed {c : Cursor} {x : Char} {r : List Char} {next : Mnemonic} {d : Cursor}
      (h : c.rest = x :: r) (hm : Mnemonic.read? false (c.moveTo r) = some (next, d)) :
      Move pool origins binds (c, a) (d, a) :=
    .skip a (h ▸ (Mnemonic.read?_suffix hm).trans (List.suffix_cons x r))
  fun_induction combine first code c a with
  | case1 | case6 => exact .refl
  | case2 code c x r h =>
    exact (Relation.ReflTransGen.single (.skip a (by simp [h]))).tail (.note _ a _ rfl)
  | case3 code c x r h _ next d hm =>
    exact (Relation.ReflTransGen.single (passed h hm)).tail (.note _ a _ rfl)
  | case4 code c x r h _ next d hm =>
    exact (Relation.ReflTransGen.single (passed h hm)).tail (.note _ a _ rfl)
  | case5 code c x r h _ next d hm _ _ ih => exact ih.head (passed h hm)

theorem reads_operate (m : Mnemonic) (c : Cursor) (a : Assembly) :
    Reads pool origins binds (c, a) (operate m c a) :=
  (reads_combine m.name m.code c a).tail (.word _ _ _)

theorem reads_shift (m : Mnemonic) (tag : Option Tag) (c : Cursor) (a : Assembly) :
    Reads pool origins binds (c, a) (shift m tag c a) :=
  (reads_noteIf (reads_indirect m tag c a) _ _ rfl).tail (.field rfl (.inl rfl) _ _)

theorem reads_movement (axis : String) (c : Cursor) (a : Assembly) :
    Reads pool origins binds (c, a) (movement axis c a).2 := by
  have blanks : Move pool origins binds (c, a) (c.dropBlanks, a) := .skip a c.dropBlanks_suffix
  simp only [movement]
  split
  · exact (Relation.ReflTransGen.single blanks).tail (.note _ a _ rfl)
  · next d hd =>
    have comma : d.dropBlanks.rest <:+ c.rest :=
      (d.dropBlanks_suffix.trans (Cursor.accept?_suffix hd)).trans c.dropBlanks_suffix
    refine reads_skip comma ?_
    generalize read : a.operand d.dropBlanks = r
    obtain ⟨id, e, b⟩ := r
    simp only
    split
    · exact (Relation.ReflTransGen.single (.operand read)).tail (.note _ _ _ rfl)
    · next usable =>
      simp only [Bool.or_eq_true, not_or, Bool.not_eq_true] at usable
      split
      · next known => exact reads_value read usable.1 known
      · next failed => exact (reads_value read usable.1 failed).tail (.note _ _ _ rfl)

theorem reads_failVector {p : Position} {c : Cursor} {b : Assembly}
    (h : Reads pool origins binds p (c, b)) : Reads pool origins binds p (c, b.failVector) :=
  (((h.tail (.word c _ 0)).tail (.word c _ 0)).tail (.word c _ 0)).tail (.note c _ _ rfl)

theorem reads_longVector (c : Cursor) (a : Assembly) :
    Reads pool origins binds (c, a) (longVector c a) := by
  have blanks : Reads pool origins binds (c, a) (c.dropBlanks, a) :=
    .single (.skip a c.dropBlanks_suffix)
  simp only [longVector]
  split
  · have noted : Reads pool origins binds (c, a) (c.dropBlanks.step,
        a.noteIf (c.dropBlanks.next?.bind Vector.beam?).isNone (.invalidBeam c.dropBlanks.next?)) :=
      reads_noteIf (blanks.tail (.skip a c.dropBlanks.step_suffix)) _ _ rfl
    have first := noted.trans (reads_movement "X" c.dropBlanks.step _)
    split
    · next known =>
      rw [known] at first
      exact reads_failVector first
    · next x d b known =>
      rw [known] at first
      have second := first.trans (reads_movement "Y" d b)
      split
      · next known' =>
        rw [known'] at second
        exact reads_failVector second
      · next known' =>
        rw [known'] at second
        exact reads_words second _
  · exact reads_failVector (blanks.tail (.note _ a _ rfl))

theorem reads_incrementByte (first : Bool) (c : Cursor) (a : Assembly) :
    Reads pool origins binds (c, a) (incrementByte first c a).2 := by
  have stepped : Reads pool origins binds (c, a) (c.step, a) := .single (.skip a c.step_suffix)
  simp only [incrementByte]
  split
  · next h => exact reads_noteIf (.single (.skip a (Number.read?_suffix h))) _ _ rfl
  · split
    · next h => exact .single (.skip a (Increment.vector?_suffix h))
    · split
      · split
        · exact stepped
        · exact stepped.tail (.note _ a _ rfl)
      · split
        · exact stepped
        · exact .single (.note c a _ rfl)

theorem reads_increments (c : Cursor) (a : Assembly) :
    Reads pool origins binds (c, a) (increments c a) := by
  have blanks : Reads pool origins binds (c, a) (c.dropBlanks, a) :=
    .single (.skip a c.dropBlanks_suffix)
  simp only [increments]
  split
  · split
    · have high : Reads pool origins binds (c, a) (incrementByte true c.dropBlanks a).2 :=
        blanks.trans (reads_incrementByte true c.dropBlanks a)
      split
      · exact reads_noted_word (high.tail (.skip _ (Cursor.dropBlanks_suffix _))) _ _ rfl
      · next d hd =>
        have comma : d.dropBlanks.rest <:+ (incrementByte true c.dropBlanks a).2.1.rest :=
          (d.dropBlanks_suffix.trans (Cursor.accept?_suffix hd)).trans (Cursor.dropBlanks_suffix _)
        exact ((high.tail (.skip _ comma)).trans (reads_incrementByte false _ _)).tail (.word _ _ _)
    · exact reads_noted_word blanks _ _ rfl
  · exact reads_noted_word blanks _ _ rfl

theorem reads_origin (allowed : origins) (d : Directive) (c : Cursor) (a : Assembly) :
    Reads pool origins binds (c, a) (origin d c a) := by
  refine reads_skip c.dropBlanks_suffix ?_
  simp only [origin]
  generalize read : a.operand c.dropBlanks = r
  obtain ⟨id, e, b⟩ := r
  simp only
  split
  · exact (Relation.ReflTransGen.single (.operand read)).tail (.note _ _ _ rfl)
  · next valid =>
    simp only [Bool.not_eq_true] at valid
    split
    · next known => exact .single (.origin allowed read valid known d)
    · next failed =>
      exact ((reads_value read valid failed).tail (.note _ _ _ rfl)).tail (.note _ _ _ rfl)

theorem reads_data (d : Directive) (c : Cursor) (a : Assembly) :
    Reads pool origins binds (c, a) (data d c a) := by
  refine reads_skip c.dropBlanks_suffix ?_
  simp only [data]
  split
  · split
    · exact reads_noted_word (.single (.operand rfl)) _ _ rfl
    · next valid => exact .single (.expr rfl (by simpa using valid))
  · exact reads_noted_word .refl _ _ rfl

theorem reads_stop (c : Cursor) (a : Assembly) : Reads pool origins binds (c, a) (stop c a) := by
  refine reads_skip c.dropBlanks_suffix ?_
  simp only [stop]
  split
  · exact .single (.stopAt rfl)
  · exact .single (.stop _ a)

theorem reads_zero (c : Cursor) (a : Assembly) : Reads pool origins binds (c, a) (zero c a) := by
  have blanks : Reads pool origins binds (c, a) (c.dropBlanks, a) :=
    .single (.skip a c.dropBlanks_suffix)
  simp only [zero]
  split
  · next d hd =>
    have stars := (d.skip_suffix '*').trans (Cursor.accept?_suffix hd)
    exact (blanks.tail (.skip a stars)).tail (.word _ a 0)
  · exact blanks.tail (.word _ a 0)

theorem reads_directive {d : Directive} (allowed : d.movesOrigin = true → origins) (c : Cursor)
    (a : Assembly) : Reads pool origins binds (c, a) (directive pool d c a) := by
  cases d with
  | block | bss | loc | org | rel => exact reads_origin (allowed rfl) _ c a
  | constants | ltorg => exact .single (.pool c a)
  | data | zro => exact reads_data _ c a
  | dlv => exact reads_longVector c a
  | stop => exact reads_stop c a
  | inc => exact reads_increments c a
  | zzz => exact reads_zero c a
  | dadr | dup | equ | if1 | ife | ifn | ins | lvi | mcc | mcd | mce | oct | rep | repeated
  | svorg | title => exact .single (.note c a _ rfl)

theorem reads_carryOut {m : Mnemonic}
    (allowed : ∀ d, m.group = .directive d → d.movesOrigin = true → origins) (tag : Option Tag)
    (c : Cursor) (a : Assembly) : Reads pool origins binds (c, a) (carryOut pool m tag c a) := by
  simp only [carryOut]
  split
  · exact reads_processor m tag c a
  · exact reads_display m tag c a
  · exact reads_displayOperate m c a
  · exact reads_iot m tag c a
  · exact reads_operate m c a
  · exact reads_shift m tag c a
  · exact .single (.word c a m.code)
  · next d group => exact reads_directive (allowed d group) c a

/-- The directive that an order names, and where its operands begin. -/
def orderDirective? (dialect : Dialect) (c : Cursor) : Option (Directive × Cursor) :=
  let (tag, c) := readTag dialect c
  match Mnemonic.read? (tag = some .display) c with
  | none => none
  | some (m, d) =>
    match m.group with
    | .directive e => some (e, d)
    | _ => none

/-- An order that names a directive carries it out. -/
theorem order_of_directive {a : Assembly} {d : Directive} {e e' : Cursor}
    (named : orderDirective? a.dialect e = some (d, e')) (pool : Assembly → Assembly) :
    (order pool e a).2 = directive pool d e' a := by
  simp only [orderDirective?] at named
  simp only [order]
  split at named
  · cases named
  · next m f read =>
    simp only [read]
    split at named
    · next d' group =>
      cases named
      simp only [carryOut, group]
    · cases named

theorem order_of_movesOrigin {a : Assembly} {d : Directive} {e e' : Cursor}
    (named : orderDirective? a.dialect e = some (d, e')) (moves : d.movesOrigin = true)
    (pool : Assembly → Assembly) : (order pool e a).2.2 = (origin d e' a).2 := by
  rw [order_of_directive named]
  cases d with
  | block | bss | loc | org | rel => rfl
  | _ => cases moves

theorem reads_order (c : Cursor) (a : Assembly)
    (allowed : ∀ d e, orderDirective? a.dialect c = some (d, e) → d.movesOrigin = true → origins) :
    Reads pool origins binds (c, a) (order pool c a).2 := by
  refine reads_skip (readTag_suffix a.dialect c) ?_
  simp only [order]
  split
  · next m d h =>
    refine reads_skip (Mnemonic.read?_suffix h) (reads_carryOut (fun e group => ?_) _ _ a)
    exact allowed e d (by simp only [orderDirective?, h, group])
  · simp only
    split
    · exact (Relation.ReflTransGen.single (.operand rfl)).tail (.word _ _ 0)
    · next valid => exact .single (.expr rfl (by simpa using valid))

theorem reads_readLabels (allowed : binds) (label : Option String) (c : Cursor) (a : Assembly) :
    Reads pool origins binds (c, a) (readLabels label c a).2 := by
  fun_induction readLabels label c a with
  | case1 => exact .refl
  | case2 label c a name d h _ ih =>
    exact reads_skip (d.dropBlanks_suffix.trans (Name.read?_suffix h))
      (ih.head (.label _ a name allowed))
  | case3 label c a name d h =>
    exact reads_skip (Name.read?_suffix h) (.single (.label d a name allowed))

/-- Reading the statements of a line is a sequence of moves. -/
theorem reads_statement (kind : Line.Kind) (continued : Bool) (c : Cursor) (a : Assembly) :
    ∃ c', Reads pool True True (c, a) (c', (statement pool kind continued c a).2) := by
  fun_induction statement pool kind continued c a with
  | case1 kind continued c a => exact ⟨_, reads_readLabels trivial none c a⟩
  | case2 kind continued c a =>
    exact ⟨_, (reads_readLabels trivial none c a).tail
      (.note _ _ _ (Diagnostic.duplicate?_unlabelled _))⟩
  | case3 kind continued c a labels d =>
    exact ⟨_, ((reads_readLabels trivial none c a).tail (.skip _ d.dropBlanks_suffix)).trans
      (reads_order _ _ fun _ _ _ _ => trivial)⟩
  | case4 kind continued c a labels d _ _ this kind' e he ih =>
    obtain ⟨c', later⟩ := ih
    have mark := (Cursor.accept?_suffix he).trans (Cursor.dropBlanks_suffix _)
    exact ⟨c', (((reads_readLabels trivial none c a).tail (.skip _ d.dropBlanks_suffix)).trans
      (reads_order _ _ fun _ _ _ _ => trivial)).trans (reads_skip mark later)⟩

theorem reads_definition (allowed : binds) {c : Cursor} {a b : Assembly}
    (h : definition? c a = some b) : ∃ c', Reads pool origins binds (c, a) (c', b) := by
  simp only [definition?] at h
  split at h
  · cases h
  · next name d hd =>
    split at h
    · cases h
    · next e he =>
      have equals : (e.skip '=').dropBlanks.rest <:+ c.rest :=
        ((((Cursor.dropBlanks_suffix _).trans (e.skip_suffix '=')).trans
          (Cursor.accept?_suffix he)).trans d.dropBlanks_suffix).trans (Name.read?_suffix hd)
      generalize read : a.operand (e.skip '=').dropBlanks = r at h
      obtain ⟨id, f, a'⟩ := r
      simp only at h
      refine ⟨f, reads_skip equals ?_⟩
      split at h
      · cases h
        exact (Relation.ReflTransGen.single (.operand read)).tail (.note _ _ _ rfl)
      · next valid =>
        simp only [Bool.not_eq_true] at valid
        split at h
        · next known =>
          cases h
          exact .single (.assign read valid known name allowed)
        · next failed =>
          cases h
          exact ((reads_value read valid failed).tail (.note _ _ _ rfl)).tail (.note _ _ _ rfl)

theorem reads_readText (text : String) (a : Assembly) :
    ∃ c, Reads placePool True True (.ofText text, a) (c, (readText text a).2) := by
  simp only [readText]
  split
  · exact ⟨_, .refl⟩
  · split
    · exact ⟨_, reads_noteIf .refl _ _ rfl⟩
    · split
      · exact ⟨_, .single (.comment _ a)⟩
      · split
        · next h =>
          obtain ⟨c, read⟩ := reads_definition trivial h
          exact ⟨c, reads_skip (Cursor.dropBlanks_suffix _) read⟩
        · exact reads_statement _ _ _ a

end Assembly

end Pds1
