import Mathlib.Data.Finset.Sum
import Mathlib.Data.Fintype.Prod
import Mathlib.Order.Bounds.Defs
import OptimalMatching.Proofs.Assignment.Excess
import OptimalMatching.Proofs.Assignment.Loops
/-!
# Maximum pairings

Tight cells of which no two are in the same row or column are *independent*. The cells of a valid
pairing are, and it is maximum when no independent cells are more than its own.

**Duality.** Every line of a cover contains at most one of some independent cells, so these are not
more than the lines of any cover (`Independent.card_le_size`). That is how one knows a maximum
pairing: it has a cover with as many lines as it has cells. A pairing that is made as large as
possible has one, because a barrier shows a cover, or else all rows are paired
(`Pairing.maximum_maximize`).
-/

namespace OptimalMatching

variable {n : Nat} {tight : Tight n} {p : Pairing n} {cover : Cover n}
  {chosen : Finset (Fin n × Fin n)}

/-! ## Independent cells -/

/-- Tight cells of which no two are in the same row or column. -/
structure Independent (tight : Tight n) (chosen : Finset (Fin n × Fin n)) : Prop where
  tight : ∀ c ∈ chosen, tight c.1 c.2 = true
  row : ∀ c ∈ chosen, ∀ c' ∈ chosen, c.1 = c'.1 → c = c'
  column : ∀ c ∈ chosen, ∀ c' ∈ chosen, c.2 = c'.2 → c = c'

namespace Cover

/-- The lines of a cover: its rows on the left, its columns on the right. -/
def lines (cover : Cover n) : Finset (Fin n ⊕ Fin n) :=
  (Finset.univ.filter fun i => cover.rows.get i = true).disjSum
    (Finset.univ.filter fun j => cover.columns.get j = true)

theorem card_lines (cover : Cover n) : cover.lines.card = cover.size := by
  rw [lines, Finset.card_disjSum, size, countP_finRange, countP_finRange]

/-- The line of a cover that a cell is put to: its row if that belongs to the cover, and otherwise
its column. -/
def lineOf (cover : Cover n) (c : Fin n × Fin n) : Fin n ⊕ Fin n :=
  if cover.rows.get c.1 = true then .inl c.1 else .inr c.2

theorem lineOf_mem_lines (covers : cover.coversAll tight = true) {c : Fin n × Fin n}
    (hc : tight c.1 c.2 = true) : cover.lineOf c ∈ cover.lines := by
  rw [lineOf, lines]
  split_ifs with hrow
  · simpa using hrow
  · simpa using (coversAll_iff.1 covers c.1 c.2 hc).resolve_left hrow

end Cover

namespace Independent

theorem lineOf_injOn (h : Independent tight chosen) (cover : Cover n) :
    Set.InjOn cover.lineOf (chosen : Set (Fin n × Fin n)) := by
  intro c hc c' hc' heq
  rw [Cover.lineOf, Cover.lineOf] at heq
  split_ifs at heq
  · exact h.row c hc c' hc' (Sum.inl.inj heq)
  · exact h.column c hc c' hc' (Sum.inr.inj heq)

/-- **Duality**: independent cells are not more than the lines of a cover. -/
theorem card_le_size (h : Independent tight chosen) (covers : cover.coversAll tight = true) :
    chosen.card ≤ cover.size := by
  rw [← cover.card_lines]
  exact Finset.card_le_card_of_injOn cover.lineOf
    (fun c hc => Cover.lineOf_mem_lines covers (h.tight c hc)) (h.lineOf_injOn cover)

theorem card_le (h : Independent tight chosen) : chosen.card ≤ n := by
  have hcard := Finset.card_le_card_of_injOn Prod.fst (fun c _ => Finset.mem_univ c.1)
    fun c hc c' hc' => h.row c hc c' hc'
  rwa [Finset.card_univ, Fintype.card_fin] at hcard

end Independent

namespace Pairing

/-! ## The cells of a pairing -/

/-- The cells that are paired. -/
def cells (p : Pairing n) : Finset (Fin n × Fin n) :=
  Finset.univ.filter fun c => p.columnOf.get c.1 = some c.2

theorem mem_cells {c : Fin n × Fin n} : c ∈ p.cells ↔ p.columnOf.get c.1 = some c.2 := by
  simp [cells]

theorem Valid.independent_cells (valid : p.Valid tight) : Independent tight p.cells where
  tight _ hc := valid.tight (mem_cells.1 hc)
  row c hc c' hc' heq := by
    have hc := mem_cells.1 hc
    rw [heq, mem_cells.1 hc'] at hc
    exact Prod.ext heq (Option.some.inj hc).symm
  column c hc c' hc' heq := by
    have hc := valid.rowOf (mem_cells.1 hc)
    rw [heq, valid.rowOf (mem_cells.1 hc')] at hc
    exact Prod.ext (Option.some.inj hc).symm heq

theorem card_cells (p : Pairing n) : p.cells.card = p.size := by
  rw [size_eq_card]
  refine Finset.card_bij (fun c _ => c.1) (fun c hc => ?_) (fun c hc c' hc' heq => ?_)
    fun i hi => ?_
  · simp [mem_cells.1 hc]
  · have hc := mem_cells.1 hc
    rw [heq, mem_cells.1 hc'] at hc
    exact Prod.ext heq (Option.some.inj hc).symm
  · obtain ⟨j, hij⟩ := Option.isSome_iff_exists.1 (mem_rows.1 hi)
    exact ⟨(i, j), mem_cells.2 hij, rfl⟩

theorem Valid.columnCount_eq_size (valid : p.Valid tight) : p.columnCount = p.size := by
  rw [columnCount_eq_card, ← valid.card_rows, ← size_eq_card]

/-! ## Maximum pairings -/

/-- No independent cells are more than those of the pairing. -/
def Maximum (tight : Tight n) (p : Pairing n) : Prop :=
  ∀ chosen, Independent tight chosen → chosen.card ≤ p.size

theorem maximum_of_cover? (valid : p.Valid tight) (h : p.cover? tight = some cover) :
    p.Maximum tight := by
  obtain ⟨rfl, hsize⟩ := cover_of_cover? h
  intro chosen independent
  rw [← valid.columnCount_eq_size, ← hsize]
  exact independent.card_le_size (Reach.coversAll_cover tight p)

theorem maximum_of_size_eq (h : p.size = n) : p.Maximum tight := by
  intro chosen independent
  rw [h]
  exact independent.card_le

/-- **A pairing that is made as large as possible** is maximum. -/
theorem maximum_maximize (valid : p.Valid tight) : (p.maximize tight).Maximum tight := by
  obtain ⟨valid', -, hfull | ⟨e, barrier⟩⟩ := maximize_spec valid
  · exact maximum_of_size_eq hfull
  · exact maximum_of_cover? valid' (barrier.cover?_eq valid')

theorem Maximum.maximize_eq (maximum : p.Maximum tight) (valid : p.Valid tight) :
    p.maximize tight = p := by
  obtain ⟨valid', extends', -⟩ := maximize_spec valid
  rcases extends'.eq_or_lt with heq | hlt
  · exact heq
  · have hle := maximum _ valid'.independent_cells
    rw [card_cells] at hle
    omega

end Pairing

/-- **Building a maximum pairing** of the zeros of integer excesses comes to its end, from every
valid pairing. The number that is given back is the greatest number of independent zeros, and the
new pairing, which is valid as well, has that many cells. All lines that were paired still are, and
a maximum pairing is left alone. -/
theorem maximize_builds_maximum (c : Fin n → Fin n → Int) (valid : p.Valid (zeros c)) :
    ∃ q size, p.maximize (Costs.ofInts c).tight = q ∧ p.Builds (zeros c) q size ∧
      IsGreatest {k | ∃ chosen, Independent (zeros c) chosen ∧ chosen.card = k} size ∧
      q.Valid (zeros c) ∧ q.cells.card = size ∧ p.rows ⊆ q.rows ∧ p.columns ⊆ q.columns ∧
      (p.Maximum (zeros c) → q = p) := by
  rw [Costs.tight_eq_zeros]
  obtain ⟨valid', extends', -⟩ := Pairing.maximize_spec valid
  have hcard := (p.maximize (zeros c)).card_cells
  refine ⟨_, _, rfl, Pairing.maximize_builds valid, ⟨⟨_, valid'.independent_cells, hcard⟩, ?_⟩,
    valid', hcard, extends'.rows, extends'.columns, fun maximum => maximum.maximize_eq valid⟩
  rintro k ⟨chosen, independent, rfl⟩
  exact Pairing.maximum_maximize valid chosen independent

/-- Excesses with all zeros in one row and one column. -/
def hook (i j : Fin 3) : Int := if j = 0 ∨ i = 0 ∧ j = 1 then 0 else 1

/-- A pairing of the corner of the hook, which has to give way. -/
def hookCorner : Pairing 3 := Pairing.empty.link 0 0

theorem maximize_builds_maximum_hook : hookCorner.Valid (zeros hook) ∧
    hookCorner.size = 1 ∧ ¬ hookCorner.Maximum (zeros hook) ∧
      ∃ q, hookCorner.maximize (Costs.ofInts hook).tight = q ∧
        hookCorner.Builds (zeros hook) q 2 ∧ q.columnOf.get 0 = some 1 ∧
          q.columnOf.get 1 = some 0 ∧
            IsGreatest {k | ∃ chosen, Independent (zeros hook) chosen ∧ chosen.card = k} 2 := by
  have valid : hookCorner.Valid (zeros hook) := ⟨by decide, by decide⟩
  obtain ⟨q, size, rfl, builds, greatest, -, hcard, -⟩ := maximize_builds_maximum hook valid
  obtain rfl : 2 = size := by
    rw [← hcard, Pairing.card_cells]
    decide
  obtain ⟨chosen, independent, htwo⟩ := greatest.1
  refine ⟨valid, by decide, fun maximum => ?_, _, rfl, builds, by decide, by decide, greatest⟩
  have hle : chosen.card ≤ 1 := maximum chosen independent
  omega

end OptimalMatching
