import OptimalMatching.Assignment.Cover
import OptimalMatching.Proofs.Assignment.Augmenting
/-!
# Minimum covers

**What is reached.** The lines reached from the exposed rows are defined by derivations
(`ReachedRow`, `ReachedColumn`). The computation keeps a list of rows to go on from; each row comes
on it once, so that it is worked off within the steps allowed, and then exactly these lines have
been reached (`Reach.all_rows`, `Reach.all_columns`).

**The cover.** A barrier separates the reached lines from the exposed columns. Every paired cell
then has either both of its lines reached or none, so each of them lies in one line of the cover,
and the cover is as large as the pairing (`Pairing.Barrier.cover?_eq`).

**From round to round.** An adjustment lowers the excess only where a reached row meets a column
that is not reached, and it raises it only where the row is not reached and the column is. All other
tight cells stay tight, and where the excess was least a cell becomes tight (`Tightening`). The
cells of the pairing lie among those that stay tight, and so do the cells through which lines were
reached. So the pairing stays valid, what was reached stays reached, and the new tight cell reaches
a column more. That is all that the course of a run hangs on, whatever the excess is made of.
-/

namespace OptimalMatching

variable {n : Nat} {tight : Tight n} {p : Pairing n} {i j k : Fin n}

/-- The rows that are reached from the exposed ones: from a row every column with which it forms a
tight cell, and from a column its row. -/
inductive ReachedRow (tight : Tight n) (p : Pairing n) : Fin n → Prop where
  | exposed {i : Fin n} : p.columnOf.get i = none → ReachedRow tight p i
  | step {i j k : Fin n} : ReachedRow tight p i → tight i j = true → p.rowOf.get j = some k →
      ReachedRow tight p k

/-- The columns that form a tight cell with a row that is reached. -/
def ReachedColumn (tight : Tight n) (p : Pairing n) (j : Fin n) : Prop :=
  ∃ i, ReachedRow tight p i ∧ tight i j = true

theorem Cover.coversAll_iff {cover : Cover n} : cover.coversAll tight = true ↔
    ∀ i j, tight i j = true → cover.rows.get i = true ∨ cover.columns.get j = true := by
  simp only [coversAll, misses, List.all_eq_true, List.mem_finRange, forall_const,
    Bool.not_eq_true', Bool.and_eq_false_iff, Bool.not_eq_false']
  refine forall_congr' fun i => forall_congr' fun j => ?_
  cases tight i j <;> simp

/-! ## The computation -/

namespace Reach

/-- What holds while lines are reached: they are rightly so, and the rows that are reached are
pending, or under way, or their columns are reached as well. -/
structure Sound (tight : Tight n) (p : Pairing n) (current : Option (Fin n)) (r : Reach n) :
    Prop where
  row : ∀ {i}, r.rows.get i = true → ReachedRow tight p i
  column : ∀ {j}, r.columns.get j = true → ReachedColumn tight p j
  exposed : ∀ {i}, p.columnOf.get i = none → r.rows.get i = true
  partner : ∀ {j k}, r.columns.get j = true → p.rowOf.get j = some k → r.rows.get k = true
  pending : ∀ i ∈ r.pending, r.rows.get i = true
  settled : ∀ {i}, r.rows.get i = true →
    i ∈ r.pending ∨ current = some i ∨ ∀ j, tight i j = true → r.columns.get j = true

/-- The rows that are pending, and those that are not reached yet. -/
def work (r : Reach n) : Nat :=
  r.pending.length + (Finset.univ.filter fun i => r.rows.get i ≠ true).card

variable {current : Option (Fin n)} {r : Reach n}

theorem work_start (p : Pairing n) : (start p).work = n := by
  have hpending : (start p).pending.length = (Finset.univ \ p.rows).card := by
    show ((List.finRange n).filter _).length = _
    rw [← List.countP_eq_length_filter, countP_finRange]
    congr 1
    ext i
    simp
  have hrows : (Finset.univ.filter fun i => (start p).rows.get i ≠ true) = p.rows := by
    ext i
    rw [Finset.mem_filter, start, Table.get_map, Pairing.mem_rows]
    cases p.columnOf.get i <;> simp
  rw [work, hpending, hrows, Finset.card_sdiff_add_card_eq_card (Finset.subset_univ _),
    Finset.card_univ, Fintype.card_fin]

theorem sound_start (tight : Tight n) (p : Pairing n) : Sound tight p none (start p) where
  row hi := .exposed (by simpa [start] using hi)
  column hj := by simp [start] at hj
  exposed hi := by simp [start, hi]
  partner hj := by simp [start] at hj
  pending i hi := by simpa [start] using hi
  settled {i} hi := .inl (by simpa [start] using hi)

/-- A column may be reached from the row under way when its row is reached. -/
theorem Sound.reachColumn (h : r.Sound tight p (some i)) (hi : r.rows.get i = true)
    (hij : tight i j = true) (hj : ∀ {k}, p.rowOf.get j = some k → r.rows.get k = true) :
    Sound tight p (some i) { r with columns := r.columns.put j true } where
  row := h.row
  column {x} hx := by
    rcases (r.columns.get_put_true j x).1 hx with rfl | hx
    · exact ⟨i, h.row hi, hij⟩
    · exact h.column hx
  exposed := h.exposed
  partner {x k} hx hk := by
    rcases (r.columns.get_put_true j x).1 hx with rfl | hx
    · exact hj hk
    · exact h.partner hx hk
  pending := h.pending
  settled hx := (h.settled hx).imp_right <| Or.imp_right fun hall y hy =>
    (r.columns.get_put_true j y).2 (.inr (hall y hy))

theorem Sound.reachRow (h : r.Sound tight p current) (hk : ReachedRow tight p k) :
    Sound tight p current { r with rows := r.rows.put k true, pending := k :: r.pending } where
  row {x} hx := by
    rcases (r.rows.get_put_true k x).1 hx with rfl | hx
    · exact hk
    · exact h.row hx
  column := h.column
  exposed {x} hx := (r.rows.get_put_true k x).2 (.inr (h.exposed hx))
  partner {x l} hx hl := (r.rows.get_put_true k l).2 (.inr (h.partner hx hl))
  pending x hx := by
    refine (r.rows.get_put_true k x).2 ((List.mem_cons.1 hx).imp Eq.symm fun hx => ?_)
    exact h.pending x hx
  settled {x} hx := by
    rcases (r.rows.get_put_true k x).1 hx with rfl | hx
    · exact .inl List.mem_cons_self
    · exact (h.settled hx).imp_left (List.mem_cons_of_mem k)

theorem work_reachRow (r : Reach n) (hk : r.rows.get k ≠ true) :
    work { r with rows := r.rows.put k true, pending := k :: r.pending } = r.work := by
  have herase : (Finset.univ.filter fun x => (r.rows.put k true).get x ≠ true) =
      (Finset.univ.filter fun x => r.rows.get x ≠ true).erase k := by
    ext x
    simp only [Finset.mem_filter, Finset.mem_univ, true_and, Finset.mem_erase, ne_eq,
      Table.get_put_true, not_or, @eq_comm _ k x]
  have hcard := Finset.card_erase_add_one
    (s := Finset.univ.filter fun x => r.rows.get x ≠ true) (a := k) (by simpa using hk)
  simp only [work, herase, List.length_cons]
  omega

/-- Trying a column from the row under way keeps what holds, and the column is reached if it forms
a tight cell with the row. -/
theorem Sound.visit (h : r.Sound tight p (some i)) (hi : r.rows.get i = true) (j : Fin n) :
    (r.visit tight p i j).Sound tight p (some i) ∧ (r.visit tight p i j).work = r.work ∧
      (r.visit tight p i j).rows.get i = true ∧
        (∀ {k}, r.columns.get k = true → (r.visit tight p i j).columns.get k = true) ∧
          (tight i j = true → (r.visit tight p i j).columns.get j = true) := by
  unfold Reach.visit
  split_ifs with hnew
  · simp only [Bool.and_eq_true, Bool.not_eq_true'] at hnew
    obtain ⟨hij, -⟩ := hnew
    have hmono : ∀ {x}, r.columns.get x = true → (r.columns.put j true).get x = true := fun hx =>
      (r.columns.get_put_true j _).2 (.inr hx)
    have hj : (r.columns.put j true).get j = true := (r.columns.get_put_true j j).2 (.inl rfl)
    dsimp only
    split
    · next exposed =>
      have hpartner : ∀ {k}, p.rowOf.get j = some k → r.rows.get k = true := fun hk => by
        simp [exposed] at hk
      exact ⟨h.reachColumn hi hij hpartner, rfl, hi, hmono, fun _ => hj⟩
    · next k hk =>
      split_ifs with hrow
      · have hpartner : ∀ {l}, p.rowOf.get j = some l → r.rows.get l = true := fun hl =>
          Option.some.inj (hk.symm.trans hl) ▸ hrow
        exact ⟨h.reachColumn hi hij hpartner, rfl, hi, hmono, fun _ => hj⟩
      · -- The row `k` is reached first, so that the column may be.
        have hget : ∀ x, (r.rows.put k true).get x = true ↔ k = x ∨ r.rows.get x = true :=
          r.rows.get_put_true k
        have hpartner : ∀ {l}, p.rowOf.get j = some l → (r.rows.put k true).get l = true :=
          fun hl => (hget _).2 (.inl (Option.some.inj (hk.symm.trans hl)))
        have hi' : (r.rows.put k true).get i = true := (hget i).2 (.inr hi)
        exact ⟨(h.reachRow (.step (h.row hi) hij hk)).reachColumn hi' hij hpartner,
          r.work_reachRow hrow, hi', hmono, fun _ => hj⟩
  · refine ⟨h, rfl, hi, id, fun hij => ?_⟩
    simpa [hij] using hnew

/-- After all columns have been tried, the row under way is settled. -/
theorem Sound.expand (h : r.Sound tight p (some i)) (hi : r.rows.get i = true) :
    (r.expand tight p i).Sound tight p none ∧ (r.expand tight p i).work = r.work := by
  -- Over the columns, for any of them that are left and any state that is sound.
  have fold : ∀ (columns : List (Fin n)) (r : Reach n), r.Sound tight p (some i) →
      r.rows.get i = true → (columns.foldl (Reach.visit tight p i) r).Sound tight p (some i) ∧
        (columns.foldl (Reach.visit tight p i) r).work = r.work ∧
          (∀ {k}, r.columns.get k = true →
            (columns.foldl (Reach.visit tight p i) r).columns.get k = true) ∧
              ∀ j ∈ columns, tight i j = true →
                (columns.foldl (Reach.visit tight p i) r).columns.get j = true := by
    intro columns
    induction columns with
    | nil => exact fun r h _ => ⟨h, rfl, id, by simp⟩
    | cons j columns ih =>
      intro r h hi
      obtain ⟨h', hwork, hi', hmono, hj⟩ := h.visit hi j
      obtain ⟨h'', hwork', hmono', hall⟩ := ih _ h' hi'
      refine ⟨h'', hwork'.trans hwork, fun hk => hmono' (hmono hk), fun x hx hix => ?_⟩
      rcases List.mem_cons.1 hx with rfl | hx
      · exact hmono' (hj hix)
      · exact hall x hx hix
  obtain ⟨h', hwork, -, hall⟩ := fold (List.finRange n) r h hi
  refine ⟨⟨h'.row, h'.column, h'.exposed, h'.partner, h'.pending, fun {x} hx => ?_⟩, hwork⟩
  rcases h'.settled hx with hx | hx | hx
  · exact .inl hx
  · obtain rfl := Option.some.inj hx
    exact .inr (.inr fun j hj => hall j (List.mem_finRange j) hj)
  · exact .inr (.inr hx)

/-- A row that is pending, wherever among the others, comes under way. -/
theorem Sound.take {rest : List (Fin n)} (h : r.Sound tight p none)
    (pending : r.pending.Perm (i :: rest)) :
    Sound tight p (some i) { r with pending := rest } ∧ r.rows.get i = true := by
  have hmem : ∀ x, x ∈ r.pending ↔ x = i ∨ x ∈ rest := fun x => by
    rw [pending.mem_iff, List.mem_cons]
  refine ⟨⟨h.row, h.column, h.exposed, h.partner,
    fun x hx => h.pending x ((hmem x).2 (.inr hx)), fun {x} hx => ?_⟩,
    h.pending i ((hmem i).2 (.inl rfl))⟩
  rcases h.settled hx with hx | hx | hx
  · rcases (hmem x).1 hx with rfl | hx
    · exact .inr (.inl rfl)
    · exact .inl hx
  · cases hx
  · exact .inr (.inr hx)

theorem Sound.workOff {rest : List (Fin n)} (h : r.Sound tight p none)
    (pending : r.pending.Perm (i :: rest)) :
    (Reach.expand tight p i { r with pending := rest }).Sound tight p none ∧
      (Reach.expand tight p i { r with pending := rest }).work + 1 = r.work := by
  obtain ⟨hrest, hi⟩ := h.take pending
  obtain ⟨h', hwork⟩ := hrest.expand hi
  have hlength := pending.length_eq
  rw [List.length_cons] at hlength
  refine ⟨h', ?_⟩
  simp only [work] at hwork ⊢
  omega

/-- With enough steps no row stays pending. -/
theorem Sound.close {steps : Nat} (h : r.Sound tight p none) (enough : r.work ≤ steps) :
    (r.close tight p steps).Sound tight p none ∧ (r.close tight p steps).pending = [] := by
  induction steps generalizing r with
  | zero =>
    refine ⟨h, List.length_eq_zero_iff.1 ?_⟩
    have : r.work = r.pending.length + _ := rfl
    show r.pending.length = 0
    omega
  | succ steps ih =>
    unfold Reach.close
    split
    · next hpending => exact ⟨h, hpending⟩
    · next i rest hpending =>
      obtain ⟨h', hwork⟩ := h.workOff (.of_eq hpending)
      exact ih h' (by omega)

/-- When no row is pending, the rows found are the ones that are reached. -/
theorem Sound.get_rows (h : r.Sound tight p none) (done : r.pending = []) (i : Fin n) :
    r.rows.get i = true ↔ ReachedRow tight p i := by
  refine ⟨h.row, fun hi => ?_⟩
  induction hi with
  | exposed hi => exact h.exposed hi
  | step _ hij hk ih =>
    rcases h.settled ih with hmem | hcurrent | hall
    · simp [done] at hmem
    · cases hcurrent
    · exact h.partner (hall _ hij) hk

theorem Sound.get_columns (h : r.Sound tight p none) (done : r.pending = []) (j : Fin n) :
    r.columns.get j = true ↔ ReachedColumn tight p j := by
  refine ⟨h.column, ?_⟩
  rintro ⟨i, hi, hij⟩
  rcases h.settled ((h.get_rows done i).2 hi) with hmem | hcurrent | hall
  · simp [done] at hmem
  · cases hcurrent
  · exact hall j hij

variable (tight p)

theorem sound_all : (all tight p).Sound tight p none ∧ (all tight p).pending = [] :=
  (sound_start tight p).close (work_start p).le

theorem all_rows (i : Fin n) : (all tight p).rows.get i = true ↔ ReachedRow tight p i := by
  obtain ⟨h, done⟩ := sound_all tight p
  exact h.get_rows done i

theorem all_columns (j : Fin n) :
    (all tight p).columns.get j = true ↔ ReachedColumn tight p j := by
  obtain ⟨h, done⟩ := sound_all tight p
  exact h.get_columns done j

theorem cover_rows (i : Fin n) :
    (all tight p).cover.rows.get i = true ↔ ¬ ReachedRow tight p i := by
  rw [← all_rows]
  simp [cover]

theorem cover_columns (j : Fin n) :
    (all tight p).cover.columns.get j = true ↔ ReachedColumn tight p j :=
  all_columns tight p j

/-- A tight cell lies in a row that is not reached, or else it lets its column be reached. -/
theorem coversAll_cover : (all tight p).cover.coversAll tight = true := by
  refine Cover.coversAll_iff.2 fun i j hij => ?_
  by_cases hi : ReachedRow tight p i
  · exact .inr ((cover_columns tight p j).2 ⟨i, hi, hij⟩)
  · exact .inl ((cover_rows tight p i).2 hi)

end Reach

/-! ## The cover of a maximum pairing -/

/-- Only the cover that belongs to the reached lines may be found. -/
theorem Pairing.cover_of_cover? {cover : Cover n} (h : p.cover? tight = some cover) :
    cover = (Reach.all tight p).cover ∧ cover.size = p.columnCount := by
  unfold cover? at h
  dsimp only at h
  split_ifs at h with hcover
  obtain rfl := Option.some.inj h
  rw [Bool.and_eq_true, decide_eq_true_eq] at hcover
  exact ⟨rfl, hcover.2⟩

/-- A paired row and its column are reached together. -/
theorem Pairing.Valid.reached_iff (valid : p.Valid tight) (hij : p.columnOf.get i = some j) :
    ReachedRow tight p i ↔ ReachedColumn tight p j := by
  constructor
  · intro hi
    cases hi with
    | exposed hi => simp [hi] at hij
    | @step i' j' _ hi' htight hj' =>
      obtain rfl := Option.some.inj ((valid.columnOf hj').symm.trans hij)
      exact ⟨i', hi', htight⟩
  · rintro ⟨i', hi', htight⟩
    exact .step hi' htight (valid.rowOf hij)

theorem reachedRow_or_paired (tight : Tight n) (p : Pairing n) (i : Fin n) :
    ReachedRow tight p i ∨ ∃ j, p.columnOf.get i = some j := by
  cases hi : p.columnOf.get i with
  | none => exact .inl (.exposed hi)
  | some j => exact .inr ⟨j, rfl⟩

namespace Pairing.Barrier

variable {e : Entered n}

theorem row_of_reached (barrier : p.Barrier tight e) (valid : p.Valid tight)
    (hi : ReachedRow tight p i) : e.rows.get i ≠ true := by
  induction hi with
  | exposed hi =>
    intro he
    obtain ⟨k, hk, -⟩ := barrier.closed.row he
    simp [hi] at hk
  | @step i j k _ hij hk ih =>
    intro he
    obtain ⟨j', hj', hcolumn⟩ := barrier.closed.row he
    obtain rfl := Option.some.inj ((valid.columnOf hk).symm.trans hj')
    exact ih (barrier.closed.column hcolumn hij)

theorem rowOf_of_reached (barrier : p.Barrier tight e) (valid : p.Valid tight)
    (hj : ReachedColumn tight p j) : ∃ i, p.rowOf.get j = some i := by
  obtain ⟨i, hi, hij⟩ := hj
  by_contra hnone
  have exposed : p.rowOf.get j = none :=
    Option.eq_none_iff_forall_ne_some.2 fun i hi => hnone ⟨i, hi⟩
  exact barrier.row_of_reached valid hi (barrier.closed.column (barrier.exposed exposed) hij)

theorem not_reached_of_exposed (barrier : p.Barrier tight e) (valid : p.Valid tight)
    (hj : p.rowOf.get j = none) : ¬ ReachedColumn tight p j := by
  intro hreached
  obtain ⟨i, hi⟩ := barrier.rowOf_of_reached valid hreached
  simp [hj] at hi

/-- The cover has a line for every paired column: itself if it is reached, and else its row. -/
theorem size_cover (barrier : p.Barrier tight e) (valid : p.Valid tight) :
    (Reach.all tight p).cover.size = p.columnCount := by
  classical
  have hrows : (Finset.univ.filter fun i => (Reach.all tight p).cover.rows.get i = true) =
      Finset.univ.filter fun i => ¬ ReachedRow tight p i :=
    Finset.filter_congr fun i _ => Reach.cover_rows tight p i
  have hcolumns : (Finset.univ.filter fun j => (Reach.all tight p).cover.columns.get j = true) =
      Finset.univ.filter fun j => ReachedColumn tight p j :=
    Finset.filter_congr fun j _ => Reach.cover_columns tight p j
  rw [Cover.size, countP_finRange, countP_finRange, columnCount_eq_card, hrows, hcolumns]
  have hreached : Finset.univ.filter (fun j => ReachedColumn tight p j) =
      p.columns.filter fun j => ReachedColumn tight p j := by
    ext j
    simp only [Finset.mem_filter, Finset.mem_univ, true_and, mem_columns]
    refine (and_iff_right_of_imp fun hj => ?_).symm
    exact Option.isSome_iff_exists.2 (barrier.rowOf_of_reached valid hj)
  -- A row that is not reached is paired, and its column is not reached either.
  have hunreached : (Finset.univ.filter fun i => ¬ ReachedRow tight p i).card =
      (p.columns.filter fun j => ¬ ReachedColumn tight p j).card := by
    have hpair : ∀ i, ¬ ReachedRow tight p i →
        p.columnOf.get i = some ((p.columnOf.get i).getD i) := by
      intro i hi
      obtain ⟨j, hj⟩ := (reachedRow_or_paired tight p i).resolve_left hi
      simp [hj]
    refine Finset.card_bij (fun i _ => (p.columnOf.get i).getD i) (fun i hi => ?_)
      (fun i hi i' hi' heq => ?_) fun j hj => ?_
    · rw [Finset.mem_filter] at hi
      have hij := hpair i hi.2
      rw [Finset.mem_filter, ← valid.reached_iff hij, mem_columns, valid.rowOf hij]
      exact ⟨rfl, hi.2⟩
    · have hij := valid.rowOf (hpair i (Finset.mem_filter.1 hi).2)
      have hij' := valid.rowOf (hpair i' (Finset.mem_filter.1 hi').2)
      rw [← heq, hij] at hij'
      exact Option.some.inj hij'
    · rw [Finset.mem_filter, mem_columns] at hj
      obtain ⟨i, hi⟩ := Option.isSome_iff_exists.1 hj.1
      have hij := valid.columnOf hi
      refine ⟨i, Finset.mem_filter.2 ⟨Finset.mem_univ i, ?_⟩, by simp [hij]⟩
      rw [valid.reached_iff hij]
      exact hj.2
  rw [hunreached, hreached, Nat.add_comm, Finset.card_filter_add_card_filter_not]

/-- **The reached lines give a minimum cover** when a barrier shows that the pairing is maximum. -/
theorem cover?_eq (barrier : p.Barrier tight e) (valid : p.Valid tight) :
    p.cover? tight = some (Reach.all tight p).cover := by
  unfold cover?
  simp [Reach.coversAll_cover, barrier.size_cover valid]

end Pairing.Barrier

/-! ## From round to round -/

variable {tight' : Tight n}

/-- How the tight cells change in an adjustment. -/
structure Tightening (tight tight' : Tight n) (p : Pairing n) : Prop where
  kept : ∀ {i j}, (ReachedRow tight p i ↔ ReachedColumn tight p j) → tight i j = true →
    tight' i j = true
  gained : ∃ i j, ReachedRow tight p i ∧ ¬ ReachedColumn tight p j ∧ tight' i j = true

namespace Tightening

theorem valid (h : Tightening tight tight' p) (valid : p.Valid tight) : p.Valid tight' :=
  valid.congr fun hij htight => h.kept (valid.reached_iff hij) htight

theorem tight_of_reachedRow (h : Tightening tight tight' p) (hi : ReachedRow tight p i)
    (hij : tight i j = true) : tight' i j = true :=
  h.kept (iff_of_true hi ⟨i, hi, hij⟩) hij

theorem reachedRow_mono (h : Tightening tight tight' p) (hi : ReachedRow tight p i) :
    ReachedRow tight' p i := by
  induction hi with
  | exposed hi => exact .exposed hi
  | @step i j k hi hij hk ih => exact .step ih (h.tight_of_reachedRow hi hij) hk

/-- **What was reached stays reached.** -/
theorem reachedColumn_mono (h : Tightening tight tight' p) (hj : ReachedColumn tight p j) :
    ReachedColumn tight' p j := by
  obtain ⟨i, hi, hij⟩ := hj
  exact ⟨i, h.reachedRow_mono hi, h.tight_of_reachedRow hi hij⟩

/-- **One more column is reached.** -/
theorem exists_reachedColumn (h : Tightening tight tight' p) :
    ∃ j, ¬ ReachedColumn tight p j ∧ ReachedColumn tight' p j := by
  obtain ⟨i, j, hi, hj, hij⟩ := h.gained
  exact ⟨j, hj, i, h.reachedRow_mono hi, hij⟩

/-- A row that is reached keeps its tight cells, and any other row has one in its pairing. -/
theorem row_tight (h : Tightening tight tight' p) (valid : p.Valid tight)
    (row : ∀ i, ∃ j, tight i j = true) (i : Fin n) : ∃ j, tight' i j = true := by
  by_cases hi : ReachedRow tight p i
  · obtain ⟨j, hij⟩ := row i
    exact ⟨j, h.tight_of_reachedRow hi hij⟩
  · obtain ⟨j, hij⟩ := (reachedRow_or_paired tight p i).resolve_left hi
    exact ⟨j, (h.valid valid).tight hij⟩

end Tightening

end OptimalMatching
