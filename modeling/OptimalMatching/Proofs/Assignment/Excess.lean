import OptimalMatching.Assignment.Excess
import OptimalMatching.Proofs.Assignment.Cover
/-!
# The excess of integer costs

With integer costs nothing is rounded, and the excess is an integer grid as well. It is *reduced*:
the costs less potentials of the rows and columns, nowhere negative, and with a zero in every row
and every column (`Reduced`). The first choice of potentials makes it so
(`Costs.excess?_ofInts`), and an adjustment keeps it so (`Adjustment.reduced`). The least excess of
an uncovered cell is subtracted exactly, so that cell becomes tight (`Adjustment.tightening`).
-/

namespace OptimalMatching

variable {n : Nat}

/-! ## Least integers -/

theorem Weight.least_ints (a : Int) (l : List Int) :
    least (.int a) (l.map .int) = .int (l.foldl min a) := by
  unfold least
  induction l generalizing a with
  | nil => rfl
  | cons b l ih =>
    rw [List.map_cons, List.foldl_cons, List.foldl_cons, lt_int, ← ih]
    congr 1
    by_cases h : b < a
    · rw [if_pos (by simpa using h), min_eq_right h.le]
    · rw [if_neg (by simpa using h), min_eq_left (not_lt.1 h)]

theorem Weight.least?_ints {l : List Int} (ne : l ≠ []) :
    ∃ m, least? (l.map .int) = some (.int m) ∧ m ∈ l ∧ ∀ a ∈ l, m ≤ a := by
  cases l with
  | nil => exact absurd rfl ne
  | cons b l =>
    have hmin : (b :: l).min? = some (l.foldl min b) := List.min?_cons'
    obtain ⟨hmem, hle⟩ := List.min?_eq_some_iff.1 hmin
    exact ⟨_, congrArg some (least_ints b l), hmem, hle⟩

namespace Costs

theorem map_ints (f : Fin n → Int) :
    ((List.finRange n).map fun j => Weight.int (f j)) = ((List.finRange n).map f).map .int := by
  simp

theorem least?_positions (f : Fin n → Int) (i : Fin n) :
    ∃ m, Weight.least? ((List.finRange n).map fun j => Weight.int (f j)) = some (.int m) ∧
      (∃ j, f j = m) ∧ ∀ j, m ≤ f j := by
  have ne : (List.finRange n).map f ≠ [] := fun h =>
    List.ne_nil_of_mem (List.mem_finRange i) (List.map_eq_nil_iff.1 h)
  obtain ⟨m, hm, hmem, hle⟩ := Weight.least?_ints ne
  rw [map_ints]
  refine ⟨m, hm, ?_, fun j => hle _ (List.mem_map.2 ⟨j, List.mem_finRange j, rfl⟩)⟩
  obtain ⟨j, -, hj⟩ := List.mem_map.1 hmem
  exact ⟨j, hj⟩

end Costs

/-! ## Reduced excesses -/

/-- An excess of costs over potentials that is nowhere negative and has a zero in each row and in
each column. -/
structure Reduced (cost c : Fin n → Fin n → Int) : Prop where
  potentials : ∃ u v : Fin n → Int, ∀ i j, c i j = cost i j - u i - v j
  nonneg : ∀ i j, 0 ≤ c i j
  row_zero : ∀ i, ∃ j, c i j = 0
  column_zero : ∀ j, ∃ i, c i j = 0

namespace Costs

theorem reduceRows?_ofInts (c : Fin n → Fin n → Int) : ∃ u : Fin n → Int,
    (ofInts c).reduceRows? = some (ofInts fun i j => c i j - u i) ∧
      (∀ i, ∃ j, c i j = u i) ∧ ∀ i j, u i ≤ c i j := by
  choose u hu hmem hle using fun i => least?_positions (c i) i
  refine ⟨u, Grid.tabulateM_eq_some_iff.2 fun i j => ?_, hmem, hle⟩
  have hrow : Weight.least? ((ofInts c).row i) = some (.int (u i)) := by
    simpa [Grid.row] using hu i
  rw [cell_ofInts, cell_ofInts, hrow]
  rfl

theorem reduceColumns?_ofInts (c : Fin n → Fin n → Int) : ∃ v : Fin n → Int,
    (ofInts c).reduceColumns? = some (ofInts fun i j => c i j - v j) ∧
      (∀ j, ∃ i, c i j = v j) ∧ ∀ i j, v j ≤ c i j := by
  choose v hv hmem hle using fun j => least?_positions (fun i => c i j) j
  refine ⟨v, Grid.tabulateM_eq_some_iff.2 fun i j => ?_, hmem, fun i j => hle j i⟩
  have hcolumn : Weight.least? ((ofInts c).column j) = some (.int (v j)) := by
    simpa [Grid.column] using hv j
  rw [cell_ofInts, cell_ofInts, hcolumn]
  by_cases hzero : v j = 0
  · simp [hzero]
  · simp [hzero]

/-- **The first choice of potentials** leaves a reduced excess. -/
theorem excess?_ofInts (cost : Fin n → Fin n → Int) :
    ∃ c, (ofInts cost).excess? = some (ofInts c) ∧ Reduced cost c := by
  obtain ⟨u, hu, hrow, hule⟩ := reduceRows?_ofInts cost
  obtain ⟨v, hv, hcolumn, hvle⟩ := reduceColumns?_ofInts fun i j => cost i j - u i
  refine ⟨_, ?_, ⟨u, v, fun i j => rfl⟩, fun i j => ?_, fun i => ?_, fun j => ?_⟩
  · rw [excess?, hu]
    exact hv
  · have := hvle i j
    omega
  · -- A column with a zero is not reduced further.
    obtain ⟨j, hj⟩ := hrow i
    obtain ⟨i', hi'⟩ := hcolumn j
    have h₁ := hvle i j
    have h₂ := hule i' j
    exact ⟨j, by omega⟩
  · obtain ⟨i, hi⟩ := hcolumn j
    exact ⟨i, by omega⟩

theorem mem_uncovered {cover : Cover n} {i j : Fin n} :
    (i, j) ∈ uncovered cover ↔ cover.misses i j = true := by
  simp [uncovered]

theorem misses_iff {tight : Tight n} {p : Pairing n} {i j : Fin n} :
    (Reach.all tight p).cover.misses i j = true ↔
      ReachedRow tight p i ∧ ¬ ReachedColumn tight p j := by
  rw [Cover.misses, Bool.and_eq_true, Bool.not_eq_true', Bool.not_eq_true', ← Bool.not_eq_true,
    ← Bool.not_eq_true, Reach.cover_rows, Reach.cover_columns, not_not]

theorem slack?_ofInts (c : Fin n → Fin n → Int) (cover : Cover n) : (ofInts c).slack? cover =
    Weight.least? (((uncovered cover).map fun x => c x.1 x.2).map .int) := by
  rw [slack?, List.map_map]
  exact congrArg Weight.least? (List.map_congr_left fun x _ => cell_ofInts c x.1 x.2)

theorem adjust?_ofInts (c : Fin n → Fin n → Int) (cover : Cover n) (d : Int) :
    (ofInts c).adjust? cover (.int d) = some (ofInts fun i j =>
      c i j + (if cover.rows.get i then d else 0) - if cover.columns.get j then 0 else d) := by
  refine Grid.tabulateM_eq_some_iff.2 fun i j => ?_
  rw [cell_ofInts, cell_ofInts]
  split_ifs <;> simp

end Costs

/-! ## One adjustment -/

/-- Which cells of an integer grid are zero. -/
def zeros (c : Fin n → Fin n → Int) : Tight n := fun i j => decide (c i j = 0)

theorem Costs.tight_eq_zeros (c : Fin n → Fin n → Int) : (ofInts c).tight = zeros c := by
  funext i j
  exact tight_ofInts c i j

@[simp] theorem zeros_iff {c : Fin n → Fin n → Int} {i j : Fin n} :
    zeros c i j = true ↔ c i j = 0 := by
  simp [zeros]

theorem Reduced.row_tight {cost c : Fin n → Fin n → Int} (reduced : Reduced cost c) (i : Fin n) :
    ∃ j, zeros c i j = true := by
  obtain ⟨j, hj⟩ := reduced.row_zero i
  exact ⟨j, zeros_iff.2 hj⟩

/-- An excess before and after an adjustment by the least excess `d` where a row that is reached
meets a column that is not. -/
structure Adjustment (p : Pairing n) (c c' : Fin n → Fin n → Int) (d : Int) : Prop where
  least : ∀ {i j}, ReachedRow (zeros c) p i → ¬ ReachedColumn (zeros c) p j → d ≤ c i j
  attained : ∃ i j, ReachedRow (zeros c) p i ∧ ¬ ReachedColumn (zeros c) p j ∧ c i j = d
  /-- Cells of one covering line stay, cells of none become less, and cells of two become more. -/
  lowered : ∀ {i j}, ReachedRow (zeros c) p i → ¬ ReachedColumn (zeros c) p j → c' i j = c i j - d
  raised : ∀ {i j}, ¬ ReachedRow (zeros c) p i → ReachedColumn (zeros c) p j → c' i j = c i j + d
  kept : ∀ {i j}, (ReachedRow (zeros c) p i ↔ ReachedColumn (zeros c) p j) → c' i j = c i j

namespace Adjustment

variable {p : Pairing n} {cost c c' : Fin n → Fin n → Int} {d : Int} {i j : Fin n}

/-- A reached row has no zeros in columns that are not reached. -/
theorem positive (h : Adjustment p c c' d) (nonneg : ∀ i j, 0 ≤ c i j) : 0 < d := by
  obtain ⟨i, j, hi, hj, hd⟩ := h.attained
  refine lt_of_le_of_ne (hd ▸ nonneg i j) fun hzero => hj ⟨i, hi, ?_⟩
  rw [zeros_iff, hd, hzero]

theorem tightening (h : Adjustment p c c' d) : Tightening (zeros c) (zeros c') p where
  kept hij htight := by
    rw [zeros_iff] at htight ⊢
    rw [h.kept hij, htight]
  gained := by
    obtain ⟨i, j, hi, hj, hd⟩ := h.attained
    refine ⟨i, j, hi, hj, ?_⟩
    rw [zeros_iff, h.lowered hi hj, hd, Int.sub_self]

/-- **An adjustment** keeps the excess reduced. -/
theorem reduced (h : Adjustment p c c' d) (reduced : Reduced cost c) (valid : p.Valid (zeros c))
    (exposed : ∀ {j}, p.rowOf.get j = none → ¬ ReachedColumn (zeros c) p j) : Reduced cost c' := by
  have hd := h.positive reduced.nonneg
  refine ⟨?_, fun i j => ?_, fun i => ?_, fun j => ?_⟩
  · obtain ⟨u, v, huv⟩ := reduced.potentials
    classical
    -- The adjustment is a shift of the potentials of the lines.
    refine ⟨fun i => u i - if ReachedRow (zeros c) p i then 0 else d,
      fun j => v j + if ReachedColumn (zeros c) p j then 0 else d, fun i j => ?_⟩
    have hij := huv i j
    dsimp only
    by_cases hi : ReachedRow (zeros c) p i <;> by_cases hj : ReachedColumn (zeros c) p j
    · rw [h.kept (iff_of_true hi hj), if_pos hi, if_pos hj]
      omega
    · rw [h.lowered hi hj, if_pos hi, if_neg hj]
      omega
    · rw [h.raised hi hj, if_neg hi, if_pos hj]
      omega
    · rw [h.kept (iff_of_false hi hj), if_neg hi, if_neg hj]
      omega
  · have hnonneg := reduced.nonneg i j
    by_cases hi : ReachedRow (zeros c) p i <;> by_cases hj : ReachedColumn (zeros c) p j
    · rwa [h.kept (iff_of_true hi hj)]
    · rw [h.lowered hi hj]
      exact Int.sub_nonneg_of_le (h.least hi hj)
    · rw [h.raised hi hj]
      omega
    · rwa [h.kept (iff_of_false hi hj)]
  · obtain ⟨j, hj⟩ := h.tightening.row_tight valid reduced.row_tight i
    exact ⟨j, zeros_iff.1 hj⟩
  · -- A column that is reached is paired, and any other column keeps its zeros.
    by_cases hj : ReachedColumn (zeros c) p j
    · obtain ⟨i, hi⟩ := Option.ne_none_iff_exists'.1 fun hnone => exposed hnone hj
      exact ⟨i, zeros_iff.1 ((h.tightening.valid valid).tight (valid.columnOf hi))⟩
    · obtain ⟨i, hi⟩ := reduced.column_zero j
      have hrow : ¬ ReachedRow (zeros c) p i := fun hrow => hj ⟨i, hrow, zeros_iff.2 hi⟩
      exact ⟨i, by rw [h.kept (iff_of_false hrow hj), hi]⟩

end Adjustment

/-- **The adjustment of a round** is made: there is an uncovered cell, and the least excess of such
a cell is an integer that is added and subtracted exactly. -/
theorem exists_adjustment {p : Pairing n} {c : Fin n → Fin n → Int} {e : Entered n}
    (valid : p.Valid (zeros c)) (barrier : p.Barrier (zeros c) e) (less : p.size < n) :
    ∃ d c', Costs.uncovered (Reach.all (zeros c) p).cover ≠ [] ∧
      (Costs.ofInts c).slack? (Reach.all (zeros c) p).cover = some (.int d) ∧
        (Costs.ofInts c).adjust? (Reach.all (zeros c) p).cover (.int d) = some (Costs.ofInts c') ∧
          Adjustment p c c' d := by
  -- The cell of an exposed row and an exposed column is not covered.
  obtain ⟨i₀, hi₀⟩ := Pairing.size_lt_iff.1 less
  obtain ⟨j₀, hj₀⟩ := valid.exists_exposed_column less
  have hrow₀ : ReachedRow (zeros c) p i₀ := .exposed hi₀
  have hcolumn₀ : ¬ ReachedColumn (zeros c) p j₀ := barrier.not_reached_of_exposed valid hj₀
  have hmem₀ : (i₀, j₀) ∈ Costs.uncovered (Reach.all (zeros c) p).cover :=
    Costs.mem_uncovered.2 (Costs.misses_iff.2 ⟨hrow₀, hcolumn₀⟩)
  have ne := List.ne_nil_of_mem hmem₀
  have ne' : (Costs.uncovered (Reach.all (zeros c) p).cover).map (fun x => c x.1 x.2) ≠ [] :=
    fun h => ne (List.map_eq_nil_iff.1 h)
  obtain ⟨d, hd, hmem, hle⟩ := Weight.least?_ints ne'
  refine ⟨d, _, ne, (Costs.slack?_ofInts c _).trans hd, Costs.adjust?_ofInts c _ d,
    fun {i j} hi hj => ?_, ?_, fun {i j} hi hj => ?_, fun {i j} hi hj => ?_, fun {i j} hij => ?_⟩
  · exact hle _ (List.mem_map.2 ⟨(i, j), Costs.mem_uncovered.2 (Costs.misses_iff.2 ⟨hi, hj⟩), rfl⟩)
  · obtain ⟨⟨i, j⟩, hij, hc⟩ := List.mem_map.1 hmem
    obtain ⟨hi, hj⟩ := Costs.misses_iff.1 (Costs.mem_uncovered.1 hij)
    exact ⟨i, j, hi, hj, hc⟩
  · rw [if_neg (by simpa [Reach.cover_rows] using hi),
      if_neg (by simpa [Reach.cover_columns] using hj)]
    omega
  · rw [if_pos ((Reach.cover_rows ..).2 hi), if_pos ((Reach.cover_columns ..).2 hj)]
    omega
  · by_cases hi : ReachedRow (zeros c) p i
    · rw [if_neg (by simpa [Reach.cover_rows] using hi),
        if_pos ((Reach.cover_columns ..).2 (hij.1 hi))]
      omega
    · have hj : ¬ ReachedColumn (zeros c) p j := fun hj => hi (hij.2 hj)
      rw [if_pos ((Reach.cover_rows ..).2 hi), if_neg (by simpa [Reach.cover_columns] using hj)]
      omega

end OptimalMatching
