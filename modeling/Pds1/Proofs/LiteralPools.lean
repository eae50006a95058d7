import Pds1.Proofs.Session

/-!
# Literal pools

In a session whose second passes all succeed the pool lines are the literals, one line for each, in
the order in which the literals were created. This holds after every pool as well as between the
passes: a pool takes the literals that come up while it is being placed.
-/

namespace Pds1

namespace Assembly

/-- Every literal has its address and its own pool line. -/
structure PoolsComplete (a : Assembly) : Prop where
  idle : a.symbols.hasWaiting = false
  defined : ∀ l ∈ a.symbols.literals, l.isDefined = true
  lines : a.poolLines.map (fun line => (line.text, line.number)) =
    a.symbols.literals.mapIdx fun i l => (l.text, i + 1)

variable {a b : Assembly} {ts : List Task}

theorem Settled.poolsComplete (h : Settled 0 a) : a.PoolsComplete := by
  refine ⟨by simp [SymbolTable.hasWaiting, h.idle], h.inOrder.isDefined h.idle, ?_⟩
  apply Array.ext
  · simpa using h.size_poolLines
  · intro i inside inside'
    have line : i < a.poolLines.size := by simpa using inside
    have literal : i < a.symbols.literals.size := h.size_poolLines ▸ line
    obtain ⟨number, text⟩ := h.lines i _ (Array.getElem?_eq_getElem line)
    simp [number, text, SymbolTable.literalText, SymbolTable.literal?,
      Array.getElem?_eq_getElem literal]

/-- Literals keep their numbers and texts. -/
theorem Path.texts_prefix (h : Path a ts b) :
    (a.symbols.literals.map Literal.text).toList <+:
      (b.symbols.literals.map Literal.text).toList := by
  induction h with
  | refl => exact List.prefix_refl _
  | task _ _ ih | turn _ _ _ _ _ ih | restart _ ih | mark _ _ _ ih => exact ih
  | move _ m ih =>
    obtain ⟨texts, interned, -⟩ := m.pays
    refine ih.trans ?_
    rw [interned.literals]
    simp
  | @place _ id m _ _ _ _ ih =>
    rw [placeLiteral_eq]
    simpa only [SymbolTable.map_text_place] using ih

/-- The cell that marks a pool counts the lines from its first literal to the last one there is. -/
theorem Settled.back_placePool (h : Settled 0 a.placePool) (waiting : a.symbols.hasWaiting = true) :
    a.placePool.code.back? = some ⟨0, Int32.ofNat (a.poolLines.size + 1),
      .pool (a.poolLines.size + 1) (a.placePool.symbols.literals.size - a.poolLines.size)⟩ := by
  rw [← h.size_poolLines]
  simp [placePool, waiting]

/-- After any session without a failed second pass no literal waits, every literal has an address,
and the pool lines are the literals in the order of their creation, numbered from one. The next
first pass keeps that order, and each pool it places takes all the literals there are by then. -/
theorem pools_place_literals_once (dialect : Dialect) (passes : List Pass)
    (ok : Completes passes (init dialect)) :
    let a := session passes (init dialect)
    a.PoolsComplete ∧ ∀ source : Source,
      (a.symbols.literals.map Literal.text).toList <+:
        ((a.passOne source).2.symbols.literals.map Literal.text).toList ∧
      ∀ m, .pool m ∈ passOneTasks source a → m.placePool.PoolsComplete ∧
        (m.symbols.hasWaiting = true → m.placePool.code.back? =
          some ⟨0, Int32.ofNat (m.poolLines.size + 1), .pool (m.poolLines.size + 1)
            (m.placePool.symbols.literals.size - m.poolLines.size)⟩) := by
  intro a
  obtain ⟨k, settled, kept⟩ := (settled_init dialect).session passes
  obtain rfl : k = 0 := kept ok
  refine ⟨settled.poolsComplete, fun source => ?_⟩
  have path := path_passOne source settled.inOrder
  refine ⟨path.texts_prefix, fun m task => ?_⟩
  obtain ⟨_, before⟩ := path.before task
  have listed : Listed 0 m := before.listed settled.toListed
  have placed : Settled 0 m.placePool :=
    ⟨(path_pool listed.inOrder).listed listed, queue_placePool listed.inOrder⟩
  exact ⟨placed.poolsComplete, placed.back_placePool⟩

/-- A session of three passes; the first source has a pool of its own in front of the last one. -/
def threePasses : List Pass :=
  [.first (.ofText "nested" "\tLAC [LAC [5]]\n\tLTORG\n\tADD [7]"),
    .second (.ofText "nested" "") ⟨{}, .init {} .block⟩,
    .first (.ofText "more" "\tLAC [7]\n\tJMP [LAW 1?JMP [9]]")]

theorem completes_threePasses : Completes threePasses (init .midas) := by
  refine ⟨trivial, ?_, trivial, trivial⟩
  obtain ⟨report, source, a, o, ran, -⟩ :=
    passTwo_of_unlimited (o := ⟨{}, .init {} .block⟩) ⟨rfl, rfl⟩ (.ofText "nested" "") _
  exact ⟨report, congrArg Prod.fst ran⟩

theorem pools_place_three_passes :
    Completes threePasses (init .midas) ∧
      (session threePasses (init .midas)).PoolsComplete ∧
      (session threePasses (init .midas)).symbols.literals.map Literal.text =
        #["LAC [5]", "5", "7", "LAW 1?JMP [9]", "9"] :=
  ⟨completes_threePasses, (pools_place_literals_once .midas threePasses completes_threePasses).1,
    by decide +kernel⟩

end Assembly

end Pds1
