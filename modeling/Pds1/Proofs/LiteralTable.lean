import Mathlib.Data.List.Nodup
import Pds1.Proofs.LiteralQueue
import Pds1.Proofs.PageCheck

/-!
# The table of literals

The literals themselves, the queue, the waiting literals by text and the placed literals by text
describe one state, and references and placements keep them in step, in whatever order they come. A
reference takes the latest placed literal that it may share, else the waiting one, else a new one.
It may share those on its own page, and also those at an address of the other sign, since the pages
are compared as signed words.
-/

namespace Pds1

namespace SymbolTable

/-- The literal has no address yet. -/
def Waits (t : SymbolTable) (id : LiteralId) : Prop :=
  ∃ l, t.literals[id]? = some l ∧ l.isDefined = false

def HasAddress (t : SymbolTable) (id : LiteralId) : Prop :=
  ∃ l, t.literals[id]? = some l ∧ l.isDefined = true

/-- The tables that references to literals and placements of waiting literals lead to. The literals
placed so far are listed in the order of their placement. -/
inductive Reached : List LiteralId → SymbolTable → Prop where
  | empty : Reached [] {}
  | intern {order : List LiteralId} {t : SymbolTable} (h : Reached order t) (text : String)
      (location : Int32) : Reached order (t.intern text location).2
  | place {order : List LiteralId} {t : SymbolTable} (h : Reached order t) {id : LiteralId}
      (waits : t.Waits id) (address : Int32) (relocatable : Bool) :
      Reached (order ++ [id]) (t.place id address relocatable)

/-- A new literal waits at the end of the queue. -/
def create (t : SymbolTable) (text : String) : SymbolTable :=
  { t with
    literals := t.literals.push (.ofText text)
    waiting := (text, t.literals.size) :: t.waiting
    queue := t.queue ++ [t.literals.size] }

/-- The placed literals with `text`, oldest first. -/
def placedUnder (t : SymbolTable) (text : String) : List LiteralId :=
  ((t.placed.filter fun entry => entry.1 == text).map Prod.snd).reverse

variable {t : SymbolTable} {order : List LiteralId} {id : LiteralId} {text : String}

theorem Waits.lt (h : t.Waits id) : id < t.literals.size := by
  obtain ⟨l, found, -⟩ := h
  exact (Array.getElem?_eq_some_iff.mp found).1

theorem HasAddress.lt (h : t.HasAddress id) : id < t.literals.size := by
  obtain ⟨l, found, -⟩ := h
  exact (Array.getElem?_eq_some_iff.mp found).1

theorem Waits.not_hasAddress (h : t.Waits id) : ¬ t.HasAddress id := by
  rintro ⟨l, found, defined⟩
  obtain ⟨l', found', undefined⟩ := h
  cases found.symm.trans found'
  cases defined.symm.trans undefined

section Create

variable (t text)

theorem waits_create (k : LiteralId) :
    (t.create text).Waits k ↔ t.Waits k ∨ k = t.literals.size := by
  simp only [Waits, create, Array.getElem?_push]
  by_cases last : k = t.literals.size
  · simp [last, Literal.ofText, Literal.isDefined]
  · simp [last]

theorem hasAddress_create (k : LiteralId) : (t.create text).HasAddress k ↔ t.HasAddress k := by
  simp only [HasAddress, create, Array.getElem?_push]
  by_cases last : k = t.literals.size
  · simp [last, Literal.ofText, Literal.isDefined]
  · simp [last]

theorem literalText_create_of_lt {k : LiteralId} (inside : k < t.literals.size) :
    (t.create text).literalText k = t.literalText k := by
  simp [literalText, literal?, create, Array.getElem?_push_lt, inside]

theorem literalText_create_last : (t.create text).literalText t.literals.size = text := by
  simp [literalText, literal?, create, Literal.ofText]

end Create

theorem waits_place (t : SymbolTable) (id : LiteralId) (address : Int32) (relocatable : Bool)
    (k : LiteralId) : (t.place id address relocatable).Waits k ↔ t.Waits k ∧ k ≠ id := by
  by_cases same : k = id
  · subst same
    simp only [Waits, literals_place_self, ne_eq, not_true, and_false, iff_false]
    rintro ⟨l, found, undefined⟩
    obtain ⟨l', -, rfl⟩ := Option.map_eq_some_iff.mp found
    cases undefined
  · simp [Waits, literals_place_of_ne t address relocatable same, same]

theorem hasAddress_place (waits : t.Waits id) (address : Int32) (relocatable : Bool)
    (k : LiteralId) :
    (t.place id address relocatable).HasAddress k ↔ t.HasAddress k ∨ k = id := by
  by_cases same : k = id
  · subst same
    obtain ⟨l, found, -⟩ := waits
    simp only [HasAddress, literals_place_self, found, or_true, iff_true]
    exact ⟨_, rfl, rfl⟩
  · simp [HasAddress, literals_place_of_ne t address relocatable same, same]

/-- The containers agree with the literals and with the order in which these were placed. -/
structure Consistent (order : List LiteralId) (t : SymbolTable) : Prop where
  increasing : t.queue.Pairwise (· < ·)
  queued : ∀ id, id ∈ t.queue ↔ t.Waits id
  waiting : ∀ text id, (text, id) ∈ t.waiting ↔ t.Waits id ∧ t.literalText id = text
  texts : (t.waiting.map Prod.fst).Nodup
  placed : t.placed = order.reverse.map fun id => (t.literalText id, id)
  addressed : ∀ id, id ∈ order ↔ t.HasAddress id
  once : order.Nodup

theorem consistent_empty : Consistent [] {} := by
  constructor
  · exact .nil
  · intro id
    simp [Waits]
  · intro text id
    simp [Waits]
  · exact .nil
  · rfl
  · intro id
    simp [HasAddress]
  · exact .nil

/-- No two waiting literals share a text. -/
theorem Consistent.unique (h : Consistent order t) {i j : LiteralId} (hi : t.Waits i)
    (hj : t.Waits j) (same : t.literalText i = t.literalText j) : i = j := by
  have first := (h.waiting _ i).mpr ⟨hi, rfl⟩
  have second := (h.waiting _ j).mpr ⟨hj, same.symm⟩
  exact congrArg Prod.snd (List.inj_on_of_nodup_map h.texts first second rfl)

theorem Consistent.lookup_iff (h : Consistent order t) (text : String) (id : LiteralId) :
    t.waiting.lookup text = some id ↔ t.Waits id ∧ t.literalText id = text := by
  rw [← h.waiting]
  constructor
  · exact mem_of_lookup_eq_some
  · intro member
    cases found : t.waiting.lookup text with
    | none =>
      have absent := List.lookup_eq_none_iff.mp found _ member
      simp at absent
    | some j =>
      have member' := mem_of_lookup_eq_some found
      exact congrArg (some ∘ Prod.snd) (List.inj_on_of_nodup_map h.texts member' member rfl)

theorem Consistent.create (h : Consistent order t) (absent : t.waiting.lookup text = none) :
    Consistent order (t.create text) := by
  have old {k : LiteralId} (inside : k < t.literals.size) :
      (t.create text).literalText k = t.literalText k := literalText_create_of_lt t text inside
  have last := literalText_create_last t text
  constructor
  · refine List.pairwise_append.mpr ⟨h.increasing, List.pairwise_singleton _ _, ?_⟩
    intro k member j new
    rw [List.mem_singleton.mp new]
    exact ((h.queued k).mp member).lt
  · intro k
    rw [waits_create, ← h.queued]
    simp [SymbolTable.create]
  · intro other k
    rw [waits_create]
    simp only [SymbolTable.create, List.mem_cons, Prod.mk.injEq, h.waiting]
    constructor
    · rintro (⟨rfl, rfl⟩ | ⟨waits, same⟩)
      · exact ⟨.inr rfl, last⟩
      · exact ⟨.inl waits, (old waits.lt).trans same⟩
    · rintro ⟨waits | rfl, same⟩
      · exact .inr ⟨waits, (old waits.lt).symm.trans same⟩
      · exact .inl ⟨same.symm.trans last, rfl⟩
  · simp only [SymbolTable.create, List.map_cons, List.nodup_cons]
    refine ⟨?_, h.texts⟩
    intro member
    obtain ⟨entry, inside, rfl⟩ := List.mem_map.mp member
    have different := List.lookup_eq_none_iff.mp absent entry inside
    simp at different
  · refine h.placed.trans (List.map_congr_left ?_)
    intro k member
    rw [old ((h.addressed k).mp (List.mem_reverse.mp member)).lt]
  · intro k
    rw [hasAddress_create, h.addressed]
  · exact h.once

theorem Consistent.intern (h : Consistent order t) (text : String) (location : Int32) :
    Consistent order (t.intern text location).2 := by
  simp only [SymbolTable.intern]
  split
  · exact h
  · split
    · exact h
    · next absent => exact h.create absent

theorem Consistent.place (h : Consistent order t) (waits : t.Waits id) (address : Int32)
    (relocatable : Bool) : Consistent (order ++ [id]) (t.place id address relocatable) := by
  have texts (k : LiteralId) : (t.place id address relocatable).literalText k = t.literalText k :=
    literalText_place t id address relocatable k
  constructor
  · exact h.increasing.sublist List.filter_sublist
  · intro k
    rw [waits_place, ← h.queued]
    simp [SymbolTable.place]
  · intro other k
    rw [waits_place, texts]
    simp only [SymbolTable.place, List.mem_filter, h.waiting, bne_iff_ne]
    constructor
    · rintro ⟨⟨waits', rfl⟩, different⟩
      refine ⟨⟨waits', ?_⟩, rfl⟩
      rintro rfl
      exact different rfl
    · rintro ⟨⟨waits', different⟩, rfl⟩
      exact ⟨⟨waits', rfl⟩, fun same => different (h.unique waits' waits same)⟩
  · exact h.texts.sublist (List.filter_sublist.map _)
  · simp only [texts, List.reverse_append, List.reverse_singleton, List.singleton_append,
      List.map_cons]
    rw [← h.placed]
    rfl
  · intro k
    rw [hasAddress_place waits, ← h.addressed]
    simp
  · refine List.nodup_append.mpr ⟨h.once, List.nodup_singleton _, ?_⟩
    intro k member j new
    rw [List.mem_singleton.mp new]
    rintro rfl
    exact waits.not_hasAddress ((h.addressed k).mp member)

theorem Reached.consistent (h : Reached order t) : Consistent order t := by
  induction h with
  | empty => exact consistent_empty
  | intern _ text location ih => exact ih.intern text location
  | place _ waits address relocatable ih => exact ih.place waits address relocatable

theorem Consistent.placedUnder_eq (h : Consistent order t) (text : String) :
    t.placedUnder text = order.filter fun id => t.literalText id == text := by
  rw [placedUnder, h.placed, List.filter_map, List.map_map, ← List.map_reverse, List.filter_reverse,
    List.reverse_reverse]
  exact List.map_id _

/-- In every table that is reached, the queue holds the waiting literals in the order of their
creation, and each text leads to the one literal that waits under it, if any does. The placed
literals stand under their texts, each once and in the order in which they were placed. -/
theorem literal_containers_agree (h : Reached order t) :
    t.queue.Pairwise (· < ·) ∧
    (∀ id, id ∈ t.queue ↔ t.Waits id) ∧
    (∀ text id, t.waiting.lookup text = some id ↔ t.Waits id ∧ t.literalText id = text) ∧
    (t.waiting.map Prod.fst).Nodup ∧
    (∀ i j, t.Waits i → t.Waits j → t.literalText i = t.literalText j → i = j) ∧
    ∀ text, t.placedUnder text = (order.filter fun id => t.literalText id == text) ∧
      (t.placedUnder text).Nodup ∧
      ∀ id, id ∈ t.placedUnder text ↔ t.HasAddress id ∧ t.literalText id = text := by
  have consistent := h.consistent
  refine ⟨consistent.increasing, consistent.queued, consistent.lookup_iff, consistent.texts,
    fun i j hi hj => consistent.unique hi hj, ?_⟩
  intro text
  have under := consistent.placedUnder_eq text
  refine ⟨under, ?_, ?_⟩
  · rw [under]
    exact consistent.once.filter _
  · intro id
    rw [under, List.mem_filter, consistent.addressed, beq_iff_eq]

/-- A text placed twice, from two pages, and waiting again. -/
theorem literal_containers_agree_two_pages :
    let t := ((((({} : SymbolTable).intern "7" 0).2.place 0 0o200 false).intern "7" 0o4000).2.place
      1 0o4001 false).intern "7" 0o10000 |>.2
    Reached [0, 1] t ∧ t.queue = [2] ∧ t.placedUnder "7" = [0, 1] ∧
      t.waiting.lookup "7" = some 2 := by
  intro t
  have first : Reached [0] ((({} : SymbolTable).intern "7" 0).2.place 0 0o200 false) :=
    (Reached.empty.intern "7" 0).place ⟨_, rfl, rfl⟩ 0o200 false
  have reached : Reached [0, 1] t :=
    ((first.intern "7" 0o4000).place ⟨_, rfl, rfl⟩ 0o4001 false).intern "7" 0o10000
  obtain ⟨-, -, lookup, -, -, placed⟩ := literal_containers_agree reached
  have waits : t.Waits 2 := ⟨_, rfl, rfl⟩
  exact ⟨reached, rfl, (placed "7").1, (lookup "7" 2).mpr ⟨waits, rfl⟩⟩

/-- The literal has the text and lies on the page of `location`. -/
def OnPage (t : SymbolTable) (text : String) (location : Int32) (id : LiteralId) : Prop :=
  t.literalText id = text ∧ t.literalAddress id >>> 11 = location >>> 11

/-- The literal has the text and lies on the page of `location` or at an address of the other
sign. -/
def Shared (t : SymbolTable) (text : String) (location : Int32) (id : LiteralId) : Prop :=
  t.literalText id = text ∧ (t.literalAddress id >>> 11 = location >>> 11 ∨
    ¬ (t.literalAddress id < 0 ↔ location < 0))

instance (t : SymbolTable) (text : String) (location : Int32) :
    DecidablePred (t.OnPage text location) :=
  fun _ => inferInstanceAs (Decidable (_ ∧ _))

instance (t : SymbolTable) (text : String) (location : Int32) :
    DecidablePred (t.Shared text location) :=
  fun _ => inferInstanceAs (Decidable (_ ∧ _))

/-- The latest of the placed literals in `p`. -/
def latest? (order : List LiteralId) (p : LiteralId → Prop) [DecidablePred p] : Option LiteralId :=
  (order.filter p).getLast?

/-- What a reference to `text` may come to when it prefers the latest of the placed literals in `p`:
that literal, else the one that waits under the text, else a new one. -/
inductive Chooses (order : List LiteralId) (t : SymbolTable) (text : String)
    (p : LiteralId → Prop) [DecidablePred p] : LiteralId × SymbolTable → Prop where
  | share {id : LiteralId} (latest : latest? order p = some id) : Chooses order t text p (id, t)
  | join {id : LiteralId} (none : latest? order p = none) (waits : t.Waits id)
      (same : t.literalText id = text) : Chooses order t text p (id, t)
  | create (none : latest? order p = none) (absent : ∀ id, t.Waits id → t.literalText id ≠ text) :
      Chooses order t text p (t.literals.size, t.create text)

/-- Two addresses count as near if they are on one page or have opposite signs. -/
theorem isNear_iff (address location : Int32) :
    isNear address location = true ↔
      address >>> 11 = location >>> 11 ∨ ¬ (address < 0 ↔ location < 0) := by
  have near : isNear address location = true ↔ ¬ page2K < address ^^^ location := by
    rw [isNear, decide_eq_true_eq, Int32.not_lt]
  rw [near, PageCheck.sound_page2K.warns, PageCheck.SamePage, not_and_or, not_not]

theorem mem_of_latest? {p : LiteralId → Prop} [DecidablePred p]
    (h : latest? order p = some id) : id ∈ order ∧ p id := by
  simpa using List.mem_of_getLast? h

/-- The latest literal of a wider choice is the latest of a narrower one that has it. -/
theorem latest?_of_subset {p q : LiteralId → Prop} [DecidablePred p] [DecidablePred q]
    (sub : ∀ k, p k → q k) (h : latest? order q = some id) (inside : p id) :
    latest? order p = some id := by
  obtain ⟨before, split⟩ := List.getLast?_eq_some_iff.mp h
  have narrowed : order.filter p = (order.filter q).filter p := by
    rw [List.filter_filter]
    apply List.filter_congr
    intro k _
    by_cases hk : p k
    · simp [hk, sub k hk]
    · simp [hk]
  rw [latest?, narrowed, split, List.filter_append]
  simp [inside]

theorem latest?_eq_none_of_subset {p q : LiteralId → Prop} [DecidablePred p] [DecidablePred q]
    (sub : ∀ k, p k → q k) (h : latest? order q = none) : latest? order p = none := by
  simp only [latest?, List.getLast?_eq_none_iff, List.filter_eq_nil_iff, decide_eq_true_eq] at h ⊢
  intro k member hk
  exact h k member (sub k hk)

theorem Consistent.placedNear?_eq (h : Consistent order t) (text : String) (location : Int32) :
    t.placedNear? text location = latest? order (t.Shared text location) := by
  rw [placedNear?, h.placed, List.find?_map, Option.map_map, latest?,
    List.getLast?_eq_head?_reverse, ← List.filter_reverse, List.head?_filter]
  have condition : ((fun entry : String × LiteralId =>
      entry.1 == text && isNear (t.literalAddress entry.2) location) ∘
        fun id => (t.literalText id, id)) = fun id => decide (t.Shared text location id) := by
    funext k
    rw [Bool.eq_iff_iff, decide_eq_true_eq]
    simp only [Function.comp, Bool.and_eq_true, beq_iff_eq, isNear_iff]
    rfl
  rw [condition]
  exact Option.map_id_apply

theorem Consistent.chooses (h : Consistent order t) (text : String) (location : Int32) :
    Chooses order t text (t.Shared text location) (t.intern text location) := by
  have near := h.placedNear?_eq text location
  simp only [SymbolTable.intern]
  split
  · next id found => exact .share (near.symm.trans found)
  · next none =>
    have none := near.symm.trans none
    split
    · next id found =>
      obtain ⟨waits, same⟩ := (h.lookup_iff text id).mp found
      exact .join none waits same
    · next absent =>
      refine .create none ?_
      intro id waits same
      cases absent.symm.trans ((h.lookup_iff text id).mpr ⟨waits, same⟩)

/-- The literal that a reference comes to has the text referred to. -/
theorem Consistent.literalText_intern (h : Consistent order t) (text : String) (location : Int32) :
    (t.intern text location).2.literalText (t.intern text location).1 = text := by
  have choice := h.chooses text location
  generalize t.intern text location = result at choice ⊢
  cases choice with
  | share latest => exact (mem_of_latest? latest).2.1
  | join _ _ same => exact same
  | create => exact literalText_create_last t text

theorem OnPage.shared {location : Int32} {k : LiteralId} (h : t.OnPage text location k) :
    t.Shared text location k :=
  ⟨h.1, .inl h.2⟩

section Choice

variable {p : LiteralId → Prop} [DecidablePred p] {result : LiteralId × SymbolTable}

theorem Chooses.fst_of_latest? (h : Chooses order t text p result)
    (latest : latest? order p = some id) : result.1 = id := by
  cases h with
  | share latest' => exact Option.some.inj (latest'.symm.trans latest)
  | join none => cases none.symm.trans latest
  | create none => cases none.symm.trans latest

/-- A literal that has its address can only have been shared. -/
theorem Chooses.latest?_of_hasAddress (h : Chooses order t text p result)
    (has : t.HasAddress result.1) : latest? order p = some result.1 := by
  cases h with
  | share latest => exact latest
  | join _ waits => exact absurd has waits.not_hasAddress
  | create => exact absurd has.lt (Nat.lt_irrefl _)

/-- Where the latest literal of a wider choice belongs to a narrower one, both rules agree. -/
theorem Chooses.narrow {q : LiteralId → Prop} [DecidablePred q] (h : Chooses order t text q result)
    (sub : ∀ k, p k → q k) (inside : ∀ id, latest? order q = some id → p id) :
    Chooses order t text p result := by
  cases h with
  | share latest => exact .share (latest?_of_subset sub latest (inside _ latest))
  | join none waits same => exact .join (latest?_eq_none_of_subset sub none) waits same
  | create none absent => exact .create (latest?_eq_none_of_subset sub none) absent

end Choice

/-- A reference to a literal takes the latest placed one with its text that lies on its own page or
at an address of the other sign, else the waiting one, else a new one at the end of the queue. -/
theorem interning_shares_latest (h : Reached order t) (text : String) (location : Int32) :
    Chooses order t text (t.Shared text location) (t.intern text location) ∧
    (Chooses order t text (t.OnPage text location) (t.intern text location) ↔
      ∀ id, latest? order (t.Shared text location) = some id → t.OnPage text location id) ∧
    ((t.HasAddress (t.intern text location).1 → t.OnPage text location (t.intern text location).1) ↔
      ∀ id, latest? order (t.Shared text location) = some id → t.OnPage text location id) := by
  have consistent := h.consistent
  have choice := consistent.chooses text location
  have addressed {id : LiteralId} (latest : latest? order (t.Shared text location) = some id) :
      t.HasAddress (t.intern text location).1 := by
    rw [choice.fst_of_latest? latest]
    exact (consistent.addressed id).mp (mem_of_latest? latest).1
  refine ⟨choice, ⟨?_, ?_⟩, ⟨?_, ?_⟩⟩
  · intro ruled id latest
    have on := (mem_of_latest? (ruled.latest?_of_hasAddress (addressed latest))).2
    rwa [choice.fst_of_latest? latest] at on
  · exact choice.narrow fun k on => on.shared
  · intro near id latest
    have on := near (addressed latest)
    rwa [choice.fst_of_latest? latest] at on
  · intro near has
    exact near _ (choice.latest?_of_hasAddress has)

/-- A reference from the page of a literal shares it. -/
theorem interning_shares_latest_same_page :
    let t := (({} : SymbolTable).intern "7" 0o100).2.place 0 0o200 false
    Reached [0] t ∧ t.OnPage "7" 0o3000 0 ∧
      Chooses [0] t "7" (t.OnPage "7" 0o3000) (t.intern "7" 0o3000) ∧
      t.intern "7" 0o3000 = (0, t) := by
  intro t
  have reached : Reached [0] t :=
    (Reached.empty.intern "7" 0o100).place ⟨_, rfl, rfl⟩ 0o200 false
  have on : t.OnPage "7" 0o3000 0 := by decide
  have rule := (interning_shares_latest reached "7" 0o3000).2.1
  refine ⟨reached, on, rule.mpr ?_, by decide⟩
  intro id latest
  rw [List.mem_singleton.mp (mem_of_latest? latest).1]
  exact on

/-- A reference at the location before the first one shares a literal at the first one, which is on
another page. -/
theorem interning_shares_across_signs :
    let t := (({} : SymbolTable).intern "7" 0).2.place 0 0 false
    Reached [0] t ∧ t.intern "7" (-1) = (0, t) ∧ t.HasAddress 0 ∧
      t.literalAddress 0 >>> 11 ≠ (-1 : Int32) >>> 11 ∧
      ¬ Chooses [0] t "7" (t.OnPage "7" (-1)) (t.intern "7" (-1)) := by
  intro t
  have has : t.HasAddress 0 := ⟨_, rfl, rfl⟩
  have shared : t.intern "7" (-1) = (0, t) := by decide
  refine ⟨(Reached.empty.intern "7" 0).place ⟨_, rfl, rfl⟩ 0 false, shared, has, by decide, ?_⟩
  intro ruled
  rw [shared] at ruled
  have on := (mem_of_latest? (ruled.latest?_of_hasAddress has)).2
  exact absurd on (by decide)

end SymbolTable

end Pds1
