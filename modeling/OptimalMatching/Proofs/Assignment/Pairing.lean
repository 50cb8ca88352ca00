import Mathlib.Data.Fintype.Card
import OptimalMatching.Assignment.Augmenting
/-!
# Pairings of tight cells

A pairing is valid when its two tables are inverse to each other and its cells are tight. Along an
augmenting path it can be made larger: the rows of the path move to the columns before them, one
after the other, and each move leaves a valid pairing that exposes the next column of the path
(`Pairing.Valid.rotate`). At the end the first column and the last row of the path are paired in
addition (`Pairing.Augments.linkAll`).
-/

namespace OptimalMatching

variable {n : Nat}

theorem countP_finRange (f : Fin n → Bool) :
    (List.finRange n).countP f = (Finset.univ.filter fun i => f i = true).card := by
  rw [List.countP_eq_length_filter,
    ← List.toFinset_card_of_nodup ((List.nodup_finRange n).filter _)]
  congr 1
  ext i
  simp

namespace Pairing

/-- Rows and columns are paired mutually, and they form tight cells. -/
structure Valid (tight : Tight n) (p : Pairing n) : Prop where
  inverse : ∀ {i j}, p.columnOf.get i = some j ↔ p.rowOf.get j = some i
  tight : ∀ {i j}, p.columnOf.get i = some j → tight i j = true

def rows (p : Pairing n) : Finset (Fin n) :=
  Finset.univ.filter fun i => (p.columnOf.get i).isSome = true

def columns (p : Pairing n) : Finset (Fin n) :=
  Finset.univ.filter fun j => (p.rowOf.get j).isSome = true

variable {tight : Tight n} {p q r : Pairing n} {i j k : Fin n}

@[simp] theorem mem_rows : i ∈ p.rows ↔ (p.columnOf.get i).isSome = true := by
  simp [rows]

@[simp] theorem mem_columns : j ∈ p.columns ↔ (p.rowOf.get j).isSome = true := by
  simp [columns]

theorem not_mem_rows : i ∉ p.rows ↔ p.columnOf.get i = none := by
  simp

theorem not_mem_columns : j ∉ p.columns ↔ p.rowOf.get j = none := by
  simp

theorem size_eq_card (p : Pairing n) : p.size = p.rows.card := countP_finRange _

theorem columnCount_eq_card (p : Pairing n) : p.columnCount = p.columns.card := countP_finRange _

theorem size_le (p : Pairing n) : p.size ≤ n := by
  rw [size_eq_card]
  exact card_finset_fin_le _

theorem size_lt_iff : p.size < n ↔ ∃ i, p.columnOf.get i = none := by
  constructor
  · intro h
    by_contra hall
    push Not at hall
    have hrows : p.rows = Finset.univ :=
      Finset.eq_univ_of_forall fun i => mem_rows.2 (Option.isSome_iff_ne_none.2 (hall i))
    rw [size_eq_card, hrows, Finset.card_univ, Fintype.card_fin] at h
    omega
  · rintro ⟨i, hi⟩
    rw [size_eq_card]
    have h := Finset.card_lt_univ_of_notMem (not_mem_rows.2 hi)
    rwa [Fintype.card_fin] at h

theorem valid_empty (tight : Tight n) : (empty : Pairing n).Valid tight :=
  ⟨by simp, by simp⟩

namespace Valid

theorem columnOf (valid : p.Valid tight) (h : p.rowOf.get j = some i) :
    p.columnOf.get i = some j :=
  valid.inverse.2 h

theorem rowOf (valid : p.Valid tight) (h : p.columnOf.get i = some j) : p.rowOf.get j = some i :=
  valid.inverse.1 h

theorem card_rows (valid : p.Valid tight) : p.rows.card = p.columns.card := by
  refine Finset.card_bij' (fun i _ => (p.columnOf.get i).getD i)
    (fun j _ => (p.rowOf.get j).getD j) (fun i hi => ?_) (fun j hj => ?_) (fun i hi => ?_)
    fun j hj => ?_
  · obtain ⟨j, hij⟩ := Option.isSome_iff_exists.1 (mem_rows.1 hi)
    simp [hij, valid.rowOf hij]
  · obtain ⟨i, hij⟩ := Option.isSome_iff_exists.1 (mem_columns.1 hj)
    simp [hij, valid.columnOf hij]
  · obtain ⟨j, hij⟩ := Option.isSome_iff_exists.1 (mem_rows.1 hi)
    simp [hij, valid.rowOf hij]
  · obtain ⟨i, hij⟩ := Option.isSome_iff_exists.1 (mem_columns.1 hj)
    simp [hij, valid.columnOf hij]

theorem exists_exposed_column (valid : p.Valid tight) (less : p.size < n) :
    ∃ j, p.rowOf.get j = none := by
  by_contra hall
  push Not at hall
  have hcolumns : p.columns = Finset.univ :=
    Finset.eq_univ_of_forall fun j => mem_columns.2 (Option.isSome_iff_ne_none.2 (hall j))
  rw [size_eq_card, valid.card_rows, hcolumns, Finset.card_univ, Fintype.card_fin] at less
  omega

/-- Validity depends only on the cells that are paired. -/
theorem congr (valid : p.Valid tight) {tight' : Tight n}
    (same : ∀ {i j}, p.columnOf.get i = some j → tight i j = true → tight' i j = true) :
    p.Valid tight' :=
  ⟨valid.inverse, fun h => same h (valid.tight h)⟩

end Valid

/-! ## Larger pairings -/

/-- A pairing that keeps all lines of another paired and is the same or larger. -/
structure Extends (p q : Pairing n) : Prop where
  rows : p.rows ⊆ q.rows
  columns : p.columns ⊆ q.columns
  eq_or_lt : q = p ∨ p.size < q.size

theorem Extends.refl (p : Pairing n) : p.Extends p :=
  ⟨Finset.Subset.refl _, Finset.Subset.refl _, .inl rfl⟩

theorem Extends.size_le (h : p.Extends q) : p.size ≤ q.size := by
  rcases h.eq_or_lt with rfl | hlt
  · exact Nat.le_refl _
  · exact hlt.le

theorem Extends.columnOf_eq_none (h : p.Extends q) (hi : q.columnOf.get i = none) :
    p.columnOf.get i = none :=
  not_mem_rows.1 fun hmem => not_mem_rows.2 hi (h.rows hmem)

theorem Extends.rowOf_eq_none (h : p.Extends q) (hj : q.rowOf.get j = none) :
    p.rowOf.get j = none :=
  not_mem_columns.1 fun hmem => not_mem_columns.2 hj (h.columns hmem)

theorem Extends.trans (h : p.Extends q) (h' : q.Extends r) : p.Extends r := by
  refine ⟨h.rows.trans h'.rows, h.columns.trans h'.columns, ?_⟩
  rcases h'.eq_or_lt with rfl | hlt
  · exact h.eq_or_lt
  · exact .inr (Nat.lt_of_le_of_lt h.size_le hlt)

theorem size_of_insert (hi : p.columnOf.get i = none) (hrows : q.rows = insert i p.rows) :
    q.size = p.size + 1 := by
  rw [size_eq_card, size_eq_card, hrows, Finset.card_insert_of_notMem (not_mem_rows.2 hi)]

/-- One more row and one more column make a larger pairing. -/
theorem extends_of_insert (hi : p.columnOf.get i = none) (hrows : q.rows = insert i p.rows)
    (hcolumns : q.columns = insert j p.columns) : p.Extends q ∧ p.size < q.size := by
  have hlt : p.size < q.size := by
    rw [size_of_insert hi hrows]
    exact Nat.lt_succ_self _
  exact ⟨⟨hrows ▸ Finset.subset_insert _ _, hcolumns ▸ Finset.subset_insert _ _, .inr hlt⟩, hlt⟩

/-! ## Linking a row and a column -/

theorem rows_link (p : Pairing n) (i j : Fin n) : (p.link i j).rows = insert i p.rows := by
  ext x
  rw [mem_rows, columnOf_link, Finset.mem_insert, mem_rows]
  split_ifs with h
  · simp [h]
  · simp [Ne.symm h]

theorem columns_link (p : Pairing n) (i j : Fin n) : (p.link i j).columns = insert j p.columns := by
  ext x
  rw [mem_columns, rowOf_link, Finset.mem_insert, mem_columns]
  split_ifs with h
  · simp [h]
  · simp [Ne.symm h]

theorem Valid.link (valid : p.Valid tight) (hij : tight i j = true)
    (hi : p.columnOf.get i = none) (hj : p.rowOf.get j = none) : (p.link i j).Valid tight := by
  constructor
  · intro x y
    rw [columnOf_link, rowOf_link]
    split_ifs with hx hy hy
    · simp [hx, hy]
    · refine iff_of_false (fun h => hy (Option.some.inj h)) fun h => ?_
      rw [← hx, ← valid.inverse, hi] at h
      cases h
    · refine iff_of_false (fun h => ?_) fun h => hx (Option.some.inj h)
      rw [← hy, valid.inverse, hj] at h
      cases h
    · exact valid.inverse
  · intro x y h
    rw [columnOf_link] at h
    split_ifs at h with hx
    · exact hx ▸ Option.some.inj h ▸ hij
    · exact valid.tight h

/-- Takes the row of a column away. The row is to be given another column. -/
def free (p : Pairing n) (k : Fin n) : Pairing n := { p with rowOf := p.rowOf.put k none }

theorem rowOf_free (p : Pairing n) (k j : Fin n) :
    (p.free k).rowOf.get j = if k = j then none else p.rowOf.get j :=
  Table.get_put ..

/-- A column that gets a row need not be freed before. -/
theorem link_free (p : Pairing n) (i k : Fin n) : (p.free k).link i k = p.link i k := by
  unfold link free
  congr 1
  refine Table.ext fun x => ?_
  rw [Table.get_put, Table.get_put, Table.get_put]
  split_ifs <;> rfl

theorem linkAll_cons (p : Pairing n) (c : Fin n × Fin n) (cells : List (Fin n × Fin n)) :
    p.linkAll (c :: cells) = (p.link c.1 c.2).linkAll cells := rfl

/-- A row may move from its column to an exposed one. -/
theorem Valid.rotate (valid : p.Valid tight) (hij : tight i j = true)
    (hi : p.columnOf.get i = some k) (hj : p.rowOf.get j = none) :
    ((p.link i j).free k).Valid tight := by
  have hk : p.rowOf.get k = some i := valid.rowOf hi
  have hkj : k ≠ j := by
    intro heq
    subst heq
    simp [hj] at hk
  constructor
  · intro x y
    rw [rowOf_free, rowOf_link]
    show (p.link i j).columnOf.get x = some y ↔ _
    rw [columnOf_link]
    split_ifs with hx hky hjy hky hjy
    · -- The row `i` has moved to `j`, and the column `k` is exposed.
      exact iff_of_false (fun h => hkj (hky.trans (Option.some.inj h).symm)) (by simp)
    · simp [hx, hjy]
    · refine iff_of_false (fun h => hjy (Option.some.inj h)) fun h => ?_
      rw [← hx, ← valid.inverse, hi] at h
      exact hky (Option.some.inj h)
    · refine iff_of_false (fun h => ?_) (by simp)
      rw [← hky, valid.inverse, hk] at h
      exact hx (Option.some.inj h)
    · refine iff_of_false (fun h => ?_) fun h => hx (Option.some.inj h)
      rw [← hjy, valid.inverse, hj] at h
      cases h
    · exact valid.inverse
  · intro x y h
    change (p.link i j).columnOf.get x = some y at h
    rw [columnOf_link] at h
    split_ifs at h with hx
    · exact hx ▸ Option.some.inj h ▸ hij
    · exact valid.tight h

/-! ## Augmenting paths -/

/-- A path of tight cells from a column to an exposed row: from a row on the way it goes on in the
column of the row. -/
inductive Augments (tight : Tight n) (p : Pairing n) : Fin n → AugmentingPath n → Prop where
  | last {i j : Fin n} : tight i j = true → p.columnOf.get i = none → Augments tight p j [(i, j)]
  | step {i j k : Fin n} {path : AugmentingPath n} : tight i j = true →
      p.columnOf.get i = some k → Augments tight p k path → Augments tight p j ((i, j) :: path)

namespace Augments

variable {path : AugmentingPath n}

theorem congr (h : Augments tight p j path)
    (same : ∀ i ∈ path.map Prod.fst, q.columnOf.get i = p.columnOf.get i) :
    Augments tight q j path := by
  induction h with
  | last hij hi => exact .last hij ((same _ (by simp)).trans hi)
  | step hij hi _ ih =>
    exact .step hij ((same _ (by simp)).trans hi) (ih fun i hmem => same i (by simp [hmem]))

theorem linkAll_free (h : Augments tight p k path) (q : Pairing n) :
    (q.free k).linkAll path = q.linkAll path := by
  cases h <;> rw [linkAll_cons, linkAll_cons, link_free]

/-- **Pairing the cells of an augmenting path** keeps the pairing valid. The column where the path
starts and the row where it ends are paired in addition. -/
theorem linkAll (h : Augments tight p j path) (valid : p.Valid tight)
    (nodup : (path.map Prod.fst).Nodup) (exposed : p.rowOf.get j = none) :
    (p.linkAll path).Valid tight ∧ ∃ i, p.columnOf.get i = none ∧
      (p.linkAll path).rows = insert i p.rows ∧
        (p.linkAll path).columns = insert j p.columns := by
  -- Along the path: once the first cell is linked, the rest starts in the column that it freed.
  induction path generalizing p j with
  | nil => cases h
  | cons cell path ih =>
    cases h with
    | @last i _ hij hi =>
      exact ⟨valid.link hij hi exposed, i, hi, rows_link p i j, columns_link p i j⟩
    | @step i _ k _ hij hi rest =>
      obtain ⟨hfresh, nodup⟩ := List.nodup_cons.1 nodup
      have hcolumn : ∀ x, ((p.link i j).free k).columnOf.get x =
          if i = x then some j else p.columnOf.get x := columnOf_link p i j
      have rest' : Augments tight ((p.link i j).free k) k path := rest.congr fun x hx => by
        rw [hcolumn, if_neg]
        intro heq
        subst heq
        exact hfresh hx
      obtain ⟨valid', i', hi', hrows, hcolumns⟩ :=
        ih rest' (valid.rotate hij hi exposed) nodup (by rw [rowOf_free, if_pos rfl])
      rw [linkAll_cons, ← rest.linkAll_free]
      have hii : i ∈ p.rows := by simp [hi]
      refine ⟨valid', i', ?_, ?_, ?_⟩
      · rw [hcolumn] at hi'
        split_ifs at hi'
        exact hi'
      · rw [hrows]
        show insert i' (p.link i j).rows = _
        rw [rows_link, Finset.insert_eq_of_mem hii]
      · -- The column `k` is exposed on the way, and paired again by the rest of the path.
        rw [hcolumns]
        have hk : k ∈ insert j p.columns := Finset.mem_insert_of_mem (by simp [valid.rowOf hi])
        have hfree : ((p.link i j).free k).columns = (insert j p.columns).erase k := by
          rw [← columns_link p i j]
          ext x
          rw [mem_columns, rowOf_free, Finset.mem_erase, mem_columns]
          split_ifs with hx
          · simp [hx]
          · simp [Ne.symm hx]
        rw [hfree, Finset.insert_erase hk]

end Augments

end Pairing

end OptimalMatching
