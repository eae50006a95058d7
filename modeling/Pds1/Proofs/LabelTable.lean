import Pds1.Diagnostic

/-!
# The labels of a symbol table

Every name has one entry, and an entry keeps its name for good. Naming a label in an operand binds
nothing. Binding a name replaces what it was bound to, whether its entry is new, a forward reference
or bound already. The value of a label leaf is what its name is bound to.
-/

namespace Pds1

/-- The label that is bound twice, if that is the complaint. -/
def Diagnostic.duplicate? : Diagnostic → Option String
  | duplicateLabel name => some name
  | _ => none

/-- The complaint about text in the place of a label is another one. -/
theorem Diagnostic.duplicate?_unlabelled (label : Option String) :
    ((label.map labelNotTerminated).getD labelExpected).duplicate? = none := by
  cases label with
  | none => rfl
  | some name => rfl

/-- The labels that diagnostics complain about as bound twice. -/
def duplicates (ds : List Diagnostic) : List String := ds.filterMap Diagnostic.duplicate?

theorem duplicates_append (ds ds' : List Diagnostic) :
    duplicates (ds ++ ds') = duplicates ds ++ duplicates ds' :=
  List.filterMap_append

theorem duplicates_of_other {ds : List Diagnostic} {d : Diagnostic} (other : d.duplicate? = none) :
    duplicates (ds ++ [d]) = duplicates ds := by
  simp [duplicates, other]

/-- Warnings are no such complaints. -/
theorem duplicates_warnings (e : Evaluation) : duplicates e.warningDiagnostics = [] := by
  rw [duplicates, List.filterMap_eq_nil_iff]
  intro d member
  obtain ⟨w, -, rfl⟩ := List.mem_map.mp member
  rfl

namespace SymbolTable

def name? (t : SymbolTable) (id : LabelId) : Option String := t.labels[id]?.map Prod.fst

/-- No name has two entries. -/
def Distinct (t : SymbolTable) : Prop :=
  ∀ i j name, t.name? i = some name → t.name? j = some name → i = j

variable {t t' t'' : SymbolTable} {name : String} {id : LabelId}

theorem name?_of_lt (inside : id < t.labels.size) : ∃ name, t.name? id = some name :=
  ⟨t.labels[id].1, by simp [name?, Array.getElem?_eq_getElem inside]⟩

theorem name?_of_labelId? (h : t.labelId? name = some id) : t.name? id = some name := by
  obtain ⟨inside, same, -⟩ := Array.findIdx?_eq_some_iff_getElem.mp h
  have entry : t.labels[id]? = some t.labels[id] := Array.getElem?_eq_getElem inside
  simpa [name?, entry] using same

theorem name?_ne_of_labelId?_eq_none (h : t.labelId? name = none) (id : LabelId) :
    t.name? id ≠ some name := by
  intro named
  obtain ⟨entry, found, rfl⟩ := Option.map_eq_some_iff.mp named
  have other := Array.findIdx?_eq_none_iff.mp h entry (Array.mem_of_getElem? found)
  simp at other

theorem labelId?_of_name? (distinct : t.Distinct) (h : t.name? id = some name) :
    t.labelId? name = some id := by
  cases found : t.labelId? name with
  | none => exact absurd h (name?_ne_of_labelId?_eq_none found id)
  | some other => rw [distinct other id name (name?_of_labelId? found) h]

/-- Looking a name up depends on the names and on the entry found. -/
theorem labelId?_congr (h : ∀ id, t'.name? id = t.name? id) (name : String) :
    t'.labelId? name = t.labelId? name := by
  have names (s : SymbolTable) :
      s.labelId? name = (s.labels.map Prod.fst).findIdx? fun other => other == name := by
    simp [labelId?, Array.findIdx?_map, Function.comp_def]
  have same : t'.labels.map Prod.fst = t.labels.map Prod.fst := by
    apply Array.ext_getElem?
    intro i
    simpa [name?] using h i
  rw [names, names, same]

theorem labelName_of_name? (h : t.name? id = some name) : t.labelName id = name := by
  rw [labelName]
  exact congrArg (Option.getD · "?") h

/-- Entries keep their numbers and names. -/
def KeepsNames (t t' : SymbolTable) : Prop :=
  ∀ id name, t.name? id = some name → t'.name? id = some name

theorem KeepsNames.trans (h : t.KeepsNames t') (h' : t'.KeepsNames t'') : t.KeepsNames t'' :=
  fun id name named => h' id name (h id name named)

theorem keepsNames_of_labels (h : t'.labels = t.labels) : t.KeepsNames t' := by
  intro id name named
  rw [name?, h]
  exact named

/-- From `t` to `t'` names may have been entered, but nothing has been bound. -/
structure Keeps (t t' : SymbolTable) : Prop where
  names : t.KeepsNames t'
  distinct : t.Distinct → t'.Distinct
  binding : ∀ name, t'.binding? name = t.binding? name

theorem keeps_of_labels (h : t'.labels = t.labels) : t.Keeps t' := by
  have names (id : LabelId) : t'.name? id = t.name? id := by rw [name?, h, name?]
  refine ⟨keepsNames_of_labels h, ?_, ?_⟩
  · intro distinct i j name first second
    exact distinct i j name ((names i).symm.trans first) ((names j).symm.trans second)
  · intro name
    have labels : t'.label? = t.label? := by
      funext id
      rw [label?, h, label?]
    rw [binding?, lookup?, labelId?, labels, h]
    rfl

theorem Keeps.trans (h : t.Keeps t') (h' : t'.Keeps t'') : t.Keeps t'' where
  names := h.names.trans h'.names
  distinct distinct := h'.distinct (h.distinct distinct)
  binding name := (h'.binding name).trans (h.binding name)

theorem keeps_intern (t : SymbolTable) (text : String) (location : Int32) :
    t.Keeps (t.intern text location).2 := by
  apply keeps_of_labels
  simp only [intern]
  split
  · rfl
  · split
    · rfl
    · rfl

section Push

variable (t name)

theorem name?_push (label : Label) (id : LabelId) :
    name? { t with labels := t.labels.push (name, label) } id =
      if id = t.labels.size then some name else t.name? id := by
  simp only [name?, Array.getElem?_push]
  split
  · rfl
  · rfl

theorem keepsNames_push (label : Label) :
    t.KeepsNames { t with labels := t.labels.push (name, label) } := by
  intro id other named
  have inside : id ≠ t.labels.size := by
    rintro rfl
    simp [name?] at named
  rw [name?_push, if_neg inside, named]

variable {t name}

theorem distinct_push (distinct : t.Distinct) (new : t.labelId? name = none) (label : Label) :
    Distinct { t with labels := t.labels.push (name, label) } := by
  have absent := name?_ne_of_labelId?_eq_none new
  intro i j other first second
  rw [name?_push] at first second
  split at first
  · next last =>
    split at second
    · next last' => exact last.trans last'.symm
    · cases first
      exact absurd second (absent j)
  · split at second
    · cases second
      exact absurd first (absent i)
    · exact distinct i j other first second

theorem lookup?_eq (t : SymbolTable) (name : String) :
    t.lookup? name = (t.labels.find? fun entry => entry.1 == name).map Prod.snd := by
  rw [Array.find?_eq_bind_findIdx?_getElem?, Option.map_bind]
  rfl

/-- A new entry changes what its own name is bound to, and nothing else. -/
theorem binding?_push (new : t.labelId? name = none) (label : Label) (other : String) :
    binding? { t with labels := t.labels.push (name, label) } other =
      if other = name then (some label).filter Label.defined else t.binding? other := by
  simp only [binding?, lookup?_eq, Array.find?_push]
  by_cases same : other = name
  · subst same
    have none : t.labels.find? (fun entry => entry.1 == other) = none := by
      rw [Array.find?_eq_none]
      simpa using Array.findIdx?_eq_none_iff.mp new
    simp [none]
  · have unequal : (name == other) = false := by
      simpa using fun equal => same (Eq.symm equal)
    simp [unequal, same]

end Push

theorem keeps_reference (t : SymbolTable) (name : String) : t.Keeps (t.reference name).2 := by
  simp only [reference]
  split
  · exact keeps_of_labels rfl
  · next new =>
    refine ⟨keepsNames_push t name _, fun distinct => distinct_push distinct new _, ?_⟩
    · intro other
      rw [binding?_push new]
      split
      · next same =>
        subst same
        simp [binding?, lookup?, new, Label.forward]
      · rfl

/-- A reference to a name leads to the entry of that name. -/
theorem name?_reference (t : SymbolTable) (name : String) :
    (t.reference name).2.name? (t.reference name).1 = some name := by
  simp only [reference]
  split
  · next found => exact name?_of_labelId? found
  · rw [name?_push, if_pos rfl]

/-- An entry that is found keeps its name when it is bound. -/
theorem name?_set (h : t.labelId? name = some id) (label : Label) (other : LabelId) :
    name? { t with labels := t.labels.setIfInBounds id (name, label) } other = t.name? other := by
  have named := name?_of_labelId? h
  simp only [name?, Array.getElem?_setIfInBounds] at named ⊢
  split
  · next same =>
    subst same
    obtain ⟨entry, found, -⟩ := Option.map_eq_some_iff.mp named
    rw [named, if_pos (Array.getElem?_eq_some_iff.mp found).1]
    rfl
  · rfl

theorem keepsNames_bind (t : SymbolTable) (name : String) (label : Label) :
    t.KeepsNames (t.bind name label) := by
  intro id other named
  simp only [bind]
  split
  · next found => rw [name?_set found, named]
  · exact keepsNames_push t name label id other named

theorem Distinct.bind (distinct : t.Distinct) (name : String) (label : Label) :
    (t.bind name label).Distinct := by
  simp only [SymbolTable.bind]
  split
  · next found =>
    intro i j other first second
    rw [name?_set found] at first second
    exact distinct i j other first second
  · next new => exact distinct_push distinct new label

/-- The last binding of a name counts. -/
theorem binding?_bind (t : SymbolTable) (name : String) (label : Label) (other : String) :
    (t.bind name label).binding? other =
      if other = name then (some label).filter Label.defined else t.binding? other := by
  simp only [bind]
  split
  · next id found =>
    have inside : id < t.labels.size := (Array.findIdx?_eq_some_iff_getElem.mp found).1
    have same := labelId?_congr (name?_set found label) other
    simp only [binding?, lookup?, same]
    split
    · next equal =>
      subst equal
      simp [found, label?, inside]
    · next different =>
      cases sought : t.labelId? other with
      | none => rfl
      | some id' =>
        have apart : id ≠ id' := by
          rintro rfl
          exact different (Option.some.inj
            ((name?_of_labelId? sought).symm.trans (name?_of_labelId? found)))
        simp [label?, Array.getElem?_setIfInBounds_ne apart]
  · next new => exact binding?_push new label other

/-- A name that is found has the value it is bound to. -/
theorem labelValue_of_labelId? (h : t.labelId? name = some id) :
    t.labelValue id =
      match (t.binding? name).map Label.value with
      | some value => .pure value
      | none => .fail (.undefinedLabel name) := by
  have named := name?_of_labelId? h
  obtain ⟨entry, found, -⟩ := Option.map_eq_some_iff.mp named
  have label : t.label? id = some entry.2 := by rw [label?, found, Option.map_some]
  simp only [labelValue, binding?, lookup?, h, labelName_of_name? named, Option.bind_some, label]
  cases defined : entry.2.defined with
  | false => simp [Option.filter, defined]
  | true => simp [Option.filter, defined]

/-- A label leaf has the value that its name is bound to. -/
theorem labelValue_eq (distinct : t.Distinct) (h : t.name? id = some name) :
    t.labelValue id =
      match (t.binding? name).map Label.value with
      | some value => .pure value
      | none => .fail (.undefinedLabel name) :=
  labelValue_of_labelId? (labelId?_of_name? distinct h)

end SymbolTable

end Pds1
