import Pds1.Proofs.EvaluationFailures

/-!
# The bindings of a first pass

A name is bound by a label in front of a statement, to the location counter, and by an assignment,
to its value. Of several bindings of a name in a first pass the symbol table holds the last one.
-/

namespace Pds1

structure Binding where
  name : String
  value : Int32
  /-- The line of a label in front of a statement. An assignment has none. -/
  label : Option Site
  deriving DecidableEq

namespace Binding

/-- The value of the last binding of `name`. -/
def last? (bs : List Binding) (name : String) : Option Int32 :=
  (bs.filter fun b => b.name = name).getLast?.map Binding.value

theorem last?_concat (bs : List Binding) (b : Binding) (name : String) :
    last? (bs ++ [b]) name = if name = b.name then some b.value else last? bs name := by
  by_cases same : b.name = name
  · simp [last?, same]
  · have other : name ≠ b.name := Ne.symm same
    simp [last?, same, other]

theorem isSome_last? (bs : List Binding) (name : String) :
    (last? bs name).isSome = bs.any fun b => b.name = name := by
  rw [last?, Option.isSome_map, Bool.eq_iff_iff, List.getLast?_isSome]
  simp

/-- The labels among bindings whose name has been bound before, be it by one of `before`. -/
def repeated (before : List Binding) : List Binding → List Binding
  | [] => []
  | b :: rest =>
    (if b.label.isSome && before.any fun earlier => earlier.name = b.name then [b] else []) ++
      repeated (before ++ [b]) rest

theorem repeated_append (before bs bs' : List Binding) :
    repeated before (bs ++ bs') = repeated before bs ++ repeated (before ++ bs) bs' := by
  induction bs generalizing before with
  | nil => simp [repeated]
  | cons b rest ih => simp [repeated, ih]

theorem mem_of_mem_repeated {before bs : List Binding} {b : Binding} (h : b ∈ repeated before bs) :
    b ∈ bs := by
  induction bs generalizing before with
  | nil => cases h
  | cons first rest ih =>
    rcases List.mem_append.mp h with own | later
    · split at own
      · exact List.mem_singleton.mp own ▸ List.mem_cons_self
      · cases own
    · exact List.mem_cons_of_mem _ (ih later)

/-- The names of the labels on a line that had been bound before. -/
def repeatedAt (bs : List Binding) (site : Site) : List String :=
  ((repeated [] bs).filter fun b => b.label = some site).map Binding.name

theorem repeatedAt_append (bs bs' : List Binding) (site : Site) :
    repeatedAt (bs ++ bs') site = repeatedAt bs site ++
      ((repeated bs bs').filter fun b => b.label = some site).map Binding.name := by
  simp [repeatedAt, repeated_append]

/-- Bindings elsewhere do not count. -/
theorem repeatedAt_append_of_elsewhere (bs : List Binding) {bs' : List Binding} {site : Site}
    (elsewhere : ∀ b ∈ bs', b.label ≠ some site) :
    repeatedAt (bs ++ bs') site = repeatedAt bs site := by
  have none : (repeated bs bs').filter (fun b => b.label = some site) = [] := by
    rw [List.filter_eq_nil_iff]
    intro b member
    simpa using elsewhere b (mem_of_mem_repeated member)
  rw [repeatedAt_append, none, List.map_nil, List.append_nil]

theorem repeatedAt_eq_nil {bs : List Binding} {site : Site}
    (elsewhere : ∀ b ∈ bs, b.label ≠ some site) : repeatedAt bs site = [] :=
  repeatedAt_append_of_elsewhere [] elsewhere

end Binding

/-- Every name has one entry, bound to the value of its last binding. -/
structure SymbolTable.Records (bs : List Binding) (t : SymbolTable) : Prop where
  distinct : t.Distinct
  values : ∀ name, (t.binding? name).map Label.value = Binding.last? bs name

namespace SymbolTable

variable {t t' : SymbolTable} {bs : List Binding}

theorem records_empty : Records [] {} :=
  ⟨by simp [Distinct, name?], fun name => by simp [binding?, lookup?, labelId?, Binding.last?]⟩

theorem Records.keeps (h : t.Records bs) (keeps : t.Keeps t') : t'.Records bs where
  distinct := keeps.distinct h.distinct
  values name := by rw [keeps.binding, h.values]

theorem Records.bind (h : t.Records bs) (b : Binding) (relocatable constant : Bool) :
    (t.bind b.name (.bound b.value relocatable constant)).Records (bs ++ [b]) where
  distinct := h.distinct.bind _ _
  values name := by
    rw [binding?_bind, Binding.last?_concat]
    split
    · rfl
    · exact h.values name

/-- Whether a name is bound can be told from the bindings. -/
theorem Records.isSome_binding? (h : t.Records bs) (name : String) :
    (t.binding? name).isSome = bs.any fun b => b.name = name := by
  rw [← Binding.isSome_last?, ← h.values, Option.isSome_map]

theorem Records.binding?_eq_none_iff (h : t.Records bs) {name : String} :
    t.binding? name = none ↔ ∀ b ∈ bs, b.name ≠ name := by
  rw [← Option.not_isSome_iff_eq_none, h.isSome_binding? name]
  simp

end SymbolTable

namespace Assembly

/-- An assignment binds its name if its value is known. -/
def assignBindings (name : String) (c : Cursor) (a : Assembly) : List Binding :=
  match (evaluateNext false c a).1 with
  | some (_, .ok value) => [⟨name, value, none⟩]
  | _ => []

/-- An order binds names only through the pool that it places. -/
def bindings : Observer Binding where
  labels here := labelTrace fun name a => ⟨name, a.location, some here⟩
  assign := assignBindings

/-- The bindings of a first pass, in order. -/
def passOneBindings (source : Source) (a : Assembly) : List Binding :=
  passOneTrace bindings source a

end Assembly

end Pds1
