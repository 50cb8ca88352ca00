import OptimalMatching.Proofs.Assignment.Pairing
/-!
# Searching augmenting paths

**One search.** How a search goes is described without a bound on its depth (`Tries`). It does not
run out of depth, because it enters a new column each time it goes deeper (`search_tries`), and it
ends in one of two ways (`Tries.searched`). Either it finds an augmenting path through rows that
were not entered before; or everything that it has entered is closed: each row that forms a tight
cell with an entered column is entered, and it is paired with an entered column.

**Sweeps.** A sweep that finds nothing leaves a closed set of lines with all exposed columns in it
(`Barrier`). Every other sweep makes the pairing larger, so sweeping comes to an end
(`maximize_spec`).
-/

namespace OptimalMatching

variable {n : Nat} {tight : Tight n} {p q : Pairing n} {e e' : Entered n} {i j k : Fin n}
  {todo : List (Fin n)} {out : Option (AugmentingPath n) × Entered n}

/-! ## What has been entered -/

namespace Entered

theorem get_rows_enterRow (e : Entered n) (i x : Fin n) :
    (e.enterRow i).rows.get x = true ↔ i = x ∨ e.rows.get x = true :=
  e.rows.get_put_true i x

theorem get_columns_enterColumn (e : Entered n) (k x : Fin n) :
    (e.enterColumn k).columns.get x = true ↔ k = x ∨ e.columns.get x = true :=
  e.columns.get_put_true k x

/-- The number of columns that have not been entered. -/
def fresh (e : Entered n) : Nat :=
  (Finset.univ.filter fun k => e.columns.get k ≠ true).card

theorem fresh_le_of_columns (mono : ∀ {k}, e.columns.get k = true → e'.columns.get k = true) :
    e'.fresh ≤ e.fresh := by
  refine Finset.card_le_card fun k hk => ?_
  simp only [Finset.mem_filter, Finset.mem_univ, true_and] at hk ⊢
  exact fun h => hk (mono h)

theorem fresh_enterColumn (hk : e.columns.get k ≠ true) : (e.enterColumn k).fresh < e.fresh := by
  refine Finset.card_lt_card ((Finset.ssubset_iff_of_subset fun x hx => ?_).2 ⟨k, ?_, ?_⟩)
  · simp only [Finset.mem_filter, Finset.mem_univ, true_and] at hx ⊢
    exact fun h => hx ((get_columns_enterColumn ..).2 (.inr h))
  · simpa using hk
  · simp [get_columns_enterColumn]

theorem fresh_lt (hk : e.columns.get k = true) : e.fresh < n := by
  have hlt := Finset.card_lt_univ_of_notMem
    (s := Finset.univ.filter fun k => e.columns.get k ≠ true) (x := k) (by simp [hk])
  rwa [Fintype.card_fin] at hlt

/-- The entered columns lead by tight cells to entered rows only, and the entered rows are paired
with entered columns. -/
structure Closed (tight : Tight n) (p : Pairing n) (e : Entered n) : Prop where
  column : ∀ {i k}, e.columns.get k = true → tight i k = true → e.rows.get i = true
  row : ∀ {i}, e.rows.get i = true → ∃ k, p.columnOf.get i = some k ∧ e.columns.get k = true

theorem closed_nowhere (tight : Tight n) (p : Pairing n) : (nowhere : Entered n).Closed tight p :=
  ⟨by simp [nowhere], by simp [nowhere]⟩

/-- What holds when the rows of a list have been tried in vain in column `j`: whatever has been
entered in addition is closed, apart from the rest of the column itself. -/
structure Closes (tight : Tight n) (p : Pairing n) (j : Fin n) (tried : List (Fin n))
    (e e' : Entered n) : Prop where
  rows : ∀ {i}, e.rows.get i = true → e'.rows.get i = true
  columns : ∀ {k}, e.columns.get k = true → e'.columns.get k = true
  tried : ∀ i ∈ tried, tight i j = true → e'.rows.get i = true
  column : ∀ {k}, e'.columns.get k = true →
    e.columns.get k = true ∨ ∀ i, tight i k = true → e'.rows.get i = true
  row : ∀ {i}, e'.rows.get i = true →
    e.rows.get i = true ∨ ∃ k, p.columnOf.get i = some k ∧ e'.columns.get k = true

namespace Closes

variable {rest : List (Fin n)}

theorem nil (tight : Tight n) (p : Pairing n) (j : Fin n) (e : Entered n) :
    Closes tight p j [] e e :=
  ⟨id, id, by simp, .inl, .inl⟩

theorem skip (h : Closes tight p j rest e e') (hi : tight i j = true → e.rows.get i = true) :
    Closes tight p j (i :: rest) e e' where
  rows := h.rows
  columns := h.columns
  tried x hx hxj := by
    rcases List.mem_cons.1 hx with rfl | hx
    · exact h.rows (hi hxj)
    · exact h.tried x hx hxj
  column := h.column
  row := h.row

theorem enterRow (h : Closes tight p j rest (e.enterRow i) e') (hi : p.columnOf.get i = some k)
    (hk : e.columns.get k = true) : Closes tight p j (i :: rest) e e' where
  rows hx := h.rows ((get_rows_enterRow ..).2 (.inr hx))
  columns := h.columns
  tried x hx hxj := by
    rcases List.mem_cons.1 hx with rfl | hx
    · exact h.rows ((get_rows_enterRow ..).2 (.inl rfl))
    · exact h.tried x hx hxj
  column := h.column
  row {x} hx := by
    rcases h.row hx with hx | hx
    · rcases (get_rows_enterRow ..).1 hx with rfl | hx
      · exact .inr ⟨k, hi, h.columns hk⟩
      · exact .inl hx
    · exact .inr hx

theorem descend {middle : Entered n} (h : Closes tight p j rest middle e')
    (down : Closes tight p k (List.finRange n) ((e.enterRow i).enterColumn k) middle)
    (hi : p.columnOf.get i = some k) : Closes tight p j (i :: rest) e e' where
  rows hx := h.rows (down.rows ((get_rows_enterRow ..).2 (.inr hx)))
  columns hx := h.columns (down.columns ((get_columns_enterColumn ..).2 (.inr hx)))
  tried x hx hxj := by
    rcases List.mem_cons.1 hx with rfl | hx
    · exact h.rows (down.rows ((get_rows_enterRow ..).2 (.inl rfl)))
    · exact h.tried x hx hxj
  column {x} hx := by
    rcases h.column hx with hx | hx
    · rcases down.column hx with hx | hx
      · rcases (get_columns_enterColumn ..).1 hx with rfl | hx
        · exact .inr fun y hy => h.rows (down.tried y (List.mem_finRange y) hy)
        · exact .inl hx
      · exact .inr fun y hy => h.rows (hx y hy)
    · exact .inr hx
  row {x} hx := by
    rcases h.row hx with hx | hx
    · rcases down.row hx with hx | ⟨l, hl, hx⟩
      · rcases (get_rows_enterRow ..).1 hx with rfl | hx
        · exact .inr ⟨k, hi,
            h.columns (down.columns ((get_columns_enterColumn ..).2 (.inl rfl)))⟩
        · exact .inl hx
      · exact .inr ⟨l, hl, h.columns hx⟩
    · exact .inr hx

end Closes

end Entered

namespace Pairing

open Entered

/-! ## One search -/

/-- How a search tries the rows of a list in column `j`, and what comes of it. From a row with a
column that is new it goes on to the rows of that column. -/
inductive Tries (tight : Tight n) (p : Pairing n) : Fin n → List (Fin n) → Entered n →
    Option (AugmentingPath n) × Entered n → Prop where
  | nil {j : Fin n} {e : Entered n} : Tries tight p j [] e (none, e)
  | skip {i j : Fin n} {rest : List (Fin n)} {e : Entered n}
      {out : Option (AugmentingPath n) × Entered n}
      (old : tight i j = true → e.rows.get i = true) (later : Tries tight p j rest e out) :
      Tries tight p j (i :: rest) e out
  | exposed {i j : Fin n} {rest : List (Fin n)} {e : Entered n} (hij : tight i j = true)
      (new : e.rows.get i ≠ true) (free : p.columnOf.get i = none) :
      Tries tight p j (i :: rest) e (some [(i, j)], e)
  | entered {i j k : Fin n} {rest : List (Fin n)} {e : Entered n}
      {out : Option (AugmentingPath n) × Entered n} (hij : tight i j = true)
      (new : e.rows.get i ≠ true) (partner : p.columnOf.get i = some k)
      (old : e.columns.get k = true) (later : Tries tight p j rest (e.enterRow i) out) :
      Tries tight p j (i :: rest) e out
  | found {i j k : Fin n} {rest : List (Fin n)} {e e' : Entered n} {path : AugmentingPath n}
      (hij : tight i j = true) (new : e.rows.get i ≠ true) (partner : p.columnOf.get i = some k)
      (newColumn : e.columns.get k ≠ true)
      (down : Tries tight p k (List.finRange n) ((e.enterRow i).enterColumn k) (some path, e')) :
      Tries tight p j (i :: rest) e (some ((i, j) :: path), e')
  | vain {i j k : Fin n} {rest : List (Fin n)} {e e' : Entered n}
      {out : Option (AugmentingPath n) × Entered n} (hij : tight i j = true)
      (new : e.rows.get i ≠ true) (partner : p.columnOf.get i = some k)
      (newColumn : e.columns.get k ≠ true)
      (down : Tries tight p k (List.finRange n) ((e.enterRow i).enterColumn k) (none, e'))
      (later : Tries tight p j rest e' out) : Tries tight p j (i :: rest) e out

theorem Tries.columns_mono (h : Tries tight p j todo e out) (hk : e.columns.get k = true) :
    out.2.columns.get k = true := by
  induction h with
  | nil => exact hk
  | skip _ _ ih => exact ih hk
  | exposed => exact hk
  | entered _ _ _ _ _ ih => exact ih hk
  | found _ _ _ _ _ ih => exact ih ((get_columns_enterColumn ..).2 (.inr hk))
  | vain _ _ _ _ _ _ ih ih' => exact ih' (ih ((get_columns_enterColumn ..).2 (.inr hk)))

theorem tryRows_tries {descend : Fin n → Entered n → Option (AugmentingPath n) × Entered n}
    {depth : Nat} (hdescend : ∀ k e, e.fresh < depth →
      Tries tight p k (List.finRange n) e (descend k e))
    (j : Fin n) (todo : List (Fin n)) (enough : e.fresh ≤ depth) :
    Tries tight p j todo e (tryRows tight p descend j todo e) := by
  induction todo generalizing e with
  | nil => exact .nil
  | cons i rest ih =>
    rw [tryRows]
    split_ifs with hskip
    · exact .skip (fun hij => by simpa [hij] using hskip) (ih enough)
    · simp only [Bool.or_eq_true, Bool.not_eq_true', not_or, Bool.not_eq_false] at hskip
      obtain ⟨hij, hi⟩ := hskip
      split
      · next free => exact .exposed hij hi free
      · next k hk =>
        dsimp only
        split_ifs with hentered
        · exact .entered hij hi hk hentered (ih (e := e.enterRow i) enough)
        · -- The search enters a new column, so that the depth left is enough for it.
          have hfresh : ((e.enterRow i).enterColumn k).fresh < e.fresh :=
            fresh_enterColumn (e := e.enterRow i) hentered
          have down := hdescend k ((e.enterRow i).enterColumn k) (by omega)
          rcases hdown : descend k ((e.enterRow i).enterColumn k) with ⟨_ | path, middle⟩
          · rw [hdown] at down
            have hmono : middle.fresh ≤ _ := fresh_le_of_columns down.columns_mono
            exact .vain hij hi hk hentered down (ih (by omega))
          · rw [hdown] at down
            exact .found hij hi hk hentered down

theorem explore_tries {depth : Nat} (j : Fin n) (enough : e.fresh < depth) :
    Tries tight p j (List.finRange n) e (p.explore tight depth j e) := by
  induction depth generalizing j e with
  | zero => omega
  | succ depth ih => exact tryRows_tries (fun k _ hlt => ih k hlt) j _ (Nat.le_of_lt_succ enough)

/-- **A search** from any column comes to its end before the depth is used up. -/
theorem search_tries (j : Fin n) (e : Entered n) :
    Tries tight p j (List.finRange n) (e.enterColumn j) (p.search tight j e) :=
  explore_tries j (fresh_lt ((get_columns_enterColumn ..).2 (.inl rfl)))

/-- How the search through a list of rows in column `j` ends: with an augmenting path through rows
that were not entered before, or with nothing left open. -/
def Searched (tight : Tight n) (p : Pairing n) (j : Fin n) (todo : List (Fin n)) (e : Entered n) :
    Option (AugmentingPath n) × Entered n → Prop
  | (some path, _) => Augments tight p j path ∧ (path.map Prod.fst).Nodup ∧
      ∀ i ∈ path.map Prod.fst, e.rows.get i ≠ true
  | (none, e') => Closes tight p j todo e e'

/-- A search goes on after one row, with more that has been entered. -/
theorem Searched.cons {res : Option (AugmentingPath n) × Entered n} {rest : List (Fin n)}
    (h : Searched tight p j rest e' res)
    (mono : ∀ {x}, e.rows.get x = true → e'.rows.get x = true)
    (closes : ∀ {e''}, Closes tight p j rest e' e'' → Closes tight p j (i :: rest) e e'') :
    Searched tight p j (i :: rest) e res := by
  obtain ⟨_ | path, e''⟩ := res
  · exact closes h
  · obtain ⟨augments, nodup, hnew⟩ := h
    exact ⟨augments, nodup, fun x hx hx' => hnew x hx (mono hx')⟩

/-- **What comes of trying rows** is an augmenting path, or nothing is left open. -/
theorem Tries.searched (h : Tries tight p j todo e out) : Searched tight p j todo e out := by
  have henter : ∀ {e : Entered n} {i x : Fin n}, e.rows.get x = true →
      (e.enterRow i).rows.get x = true := fun hx => (get_rows_enterRow ..).2 (.inr hx)
  induction h with
  | @nil j e => exact .nil tight p j e
  | skip old _ ih => exact ih.cons id fun h => h.skip old
  | exposed hij new free => exact ⟨.last hij free, by simp, by simpa using new⟩
  | entered _ _ partner old _ ih => exact ih.cons henter fun h => h.enterRow partner old
  | @found i j k rest e e' path hij new partner _ _ ih =>
    obtain ⟨augments, nodup, hnew⟩ := ih
    refine ⟨.step hij partner augments, List.nodup_cons.2 ⟨fun hmem => ?_, nodup⟩, fun x hx => ?_⟩
    · exact hnew i hmem ((get_rows_enterRow ..).2 (.inl rfl))
    · rcases List.mem_cons.1 hx with rfl | hx
      · exact new
      · exact fun hx' => hnew x hx (henter hx')
  | vain _ _ partner _ _ _ ihdown ihlater =>
    exact ihlater.cons (fun hx => ihdown.rows (henter hx)) fun h => h.descend ihdown partner

theorem search_searched (j : Fin n) (e : Entered n) :
    Searched tight p j (List.finRange n) (e.enterColumn j) (p.search tight j e) :=
  (search_tries j e).searched

theorem closed_of_searched (h : Closes tight p j (List.finRange n) (e.enterColumn j) e')
    (closed : e.Closed tight p) : e'.Closed tight p where
  column {i k} hk hik := by
    rcases h.column hk with hk | hk
    · rcases (get_columns_enterColumn ..).1 hk with rfl | hk
      · exact h.tried i (List.mem_finRange i) hik
      · exact h.rows (closed.column hk hik)
    · exact hk i hik
  row {i} hi := by
    rcases h.row hi with hi | hi
    · obtain ⟨k, hk, hek⟩ := closed.row hi
      exact ⟨k, hk, h.columns ((get_columns_enterColumn ..).2 (.inr hek))⟩
    · exact hi

/-- Lines that no augmenting path crosses: a closed set that contains every exposed column. -/
structure Barrier (tight : Tight n) (p : Pairing n) (e : Entered n) : Prop where
  closed : e.Closed tight p
  exposed : ∀ {j}, p.rowOf.get j = none → e.columns.get j = true

theorem linkAll_of_searched {path : AugmentingPath n} (valid : p.Valid tight)
    (exposed : p.rowOf.get j = none)
    (h : Searched tight p j (List.finRange n) (e.enterColumn j) (some path, e')) :
    (p.linkAll path).Valid tight ∧ p.Extends (p.linkAll path) ∧
      p.size < (p.linkAll path).size := by
  obtain ⟨valid', i, hi, hrows, hcolumns⟩ := h.1.linkAll valid h.2.1 exposed
  exact ⟨valid', extends_of_insert hi hrows hcolumns⟩

theorem size_linkAll_of_searched (valid : p.Valid tight) (exposed : p.rowOf.get j = none)
    (h : Searched tight p j (List.finRange n) (e.enterColumn j) (some path, e')) :
    (p.linkAll path).size = p.size + 1 := by
  obtain ⟨-, i, hi, hrows, -⟩ := h.1.linkAll valid h.2.1 exposed
  exact size_of_insert hi hrows

end Pairing

/-! ## Sweeps -/

namespace Sweep

open Entered Pairing

/-- What holds of a sweep over some columns of a pairing: its pairing is valid and no smaller, and
as long as it has not grown, what has been entered is closed and contains the exposed ones among
the columns. -/
structure Sound (tight : Tight n) (p : Pairing n) (done : List (Fin n)) (s : Sweep n) : Prop where
  valid : s.pairing.Valid tight
  extends' : p.Extends s.pairing
  grown : s.grown = true → p.size < s.pairing.size
  idle : s.grown = false → s.pairing = p ∧ s.entered.Closed tight p ∧
    ∀ j ∈ done, p.rowOf.get j = none → s.entered.columns.get j = true

variable {s : Sweep n} {done : List (Fin n)}

theorem Sound.visit (h : s.Sound tight p done) (j : Fin n) :
    (s.visit tight j).Sound tight p (done ++ [j]) := by
  unfold Sweep.visit
  split_ifs with hskip
  · -- A column that is skipped in an idle sweep is paired or has been entered.
    refine ⟨h.valid, h.extends', h.grown, fun hg => ?_⟩
    obtain ⟨hp, closed, hdone⟩ := h.idle hg
    refine ⟨hp, closed, fun k hk hkp => ?_⟩
    rcases List.mem_append.1 hk with hk | hk
    · exact hdone k hk hkp
    · obtain rfl := List.mem_singleton.1 hk
      simpa [hp, hkp] using hskip
  · have exposed : s.pairing.rowOf.get j = none := by
      simp only [Bool.or_eq_true, not_or] at hskip
      simpa using hskip.1
    have searched : Searched tight s.pairing j _ _ _ := search_searched j s.entered
    unfold grow?
    rcases hres : s.pairing.search tight j s.entered with ⟨_ | path, e'⟩
    · rw [hres] at searched
      refine ⟨h.valid, h.extends', h.grown, fun hg => ?_⟩
      obtain ⟨hp, closed, hdone⟩ := h.idle hg
      rw [hp] at searched
      refine ⟨hp, closed_of_searched searched closed, fun k hk hkp => searched.columns ?_⟩
      rw [get_columns_enterColumn]
      rcases List.mem_append.1 hk with hk | hk
      · exact .inr (hdone k hk hkp)
      · exact .inl (List.mem_singleton.1 hk).symm
    · rw [hres] at searched
      -- A path has been found, so the sweep is not idle.
      obtain ⟨valid', hext, hlt⟩ := linkAll_of_searched h.valid exposed searched
      exact ⟨valid', h.extends'.trans hext, fun _ => Nat.lt_of_le_of_lt h.extends'.size_le hlt,
        fun hg => by cases hg⟩

theorem Sound.foldl (h : s.Sound tight p done) (columns : List (Fin n)) :
    (columns.foldl (Sweep.visit tight) s).Sound tight p (done ++ columns) := by
  induction columns generalizing s done with
  | nil => simpa using h
  | cons j columns ih =>
    rw [List.append_cons]
    exact ih (h.visit j)

/-- **A sweep** makes the pairing larger, or it shows a barrier. -/
theorem run_spec (valid : p.Valid tight) :
    (run tight p).pairing.Valid tight ∧ p.Extends (run tight p).pairing ∧
      ((run tight p).grown = true → p.size < (run tight p).pairing.size) ∧
        ((run tight p).grown = false → (run tight p).pairing = p ∧
          p.Barrier tight (run tight p).entered) := by
  have start : Sound tight p [] ⟨p, .nowhere, false⟩ :=
    ⟨valid, .refl p, (nomatch ·), fun _ => ⟨rfl, closed_nowhere tight p, by simp⟩⟩
  have h : (run tight p).Sound tight p (List.finRange n) := start.foldl (List.finRange n)
  refine ⟨h.valid, h.extends', h.grown, fun hg => ?_⟩
  obtain ⟨hp, closed, hdone⟩ := h.idle hg
  exact ⟨hp, closed, fun {j} hj => hdone j (List.mem_finRange j) hj⟩

end Sweep

/-! ## Maximum pairings -/

namespace Pairing

theorem takeFirst_spec (valid : p.Valid tight) (j : Fin n) :
    (p.takeFirst tight j).Valid tight ∧ p.Extends (p.takeFirst tight j) := by
  unfold takeFirst
  split
  · exact ⟨valid, .refl p⟩
  · next exposed =>
    split
    · exact ⟨valid, .refl p⟩
    · next i hfind =>
      have hi := List.find?_some hfind
      simp only [Bool.and_eq_true, Option.isNone_iff_eq_none] at hi
      exact ⟨valid.link hi.1 hi.2 exposed,
        (extends_of_insert hi.2 (rows_link p i j) (columns_link p i j)).1⟩

theorem greedy_spec (valid : p.Valid tight) :
    (p.greedy tight).Valid tight ∧ p.Extends (p.greedy tight) := by
  unfold greedy
  generalize List.finRange n = columns
  induction columns generalizing p with
  | nil => exact ⟨valid, .refl p⟩
  | cons j columns ih =>
    obtain ⟨valid', hext⟩ := takeFirst_spec valid j
    obtain ⟨valid'', hext'⟩ := ih valid'
    exact ⟨valid'', hext.trans hext'⟩

theorem saturate_spec {sweeps : Nat} (valid : p.Valid tight) (enough : n < sweeps + p.size) :
    (p.saturate tight sweeps).Valid tight ∧ p.Extends (p.saturate tight sweeps) ∧
      ((p.saturate tight sweeps).size = n ∨ ∃ e, (p.saturate tight sweeps).Barrier tight e) := by
  induction sweeps generalizing p with
  | zero =>
    have := p.size_le
    omega
  | succ sweeps ih =>
    unfold saturate
    split_ifs with hless
    · obtain ⟨valid', hext, hgrown, hidle⟩ := Sweep.run_spec valid
      dsimp only
      split_ifs with hg
      · have := hgrown hg
        obtain ⟨valid'', hext', hend⟩ := ih valid' (by omega)
        exact ⟨valid'', hext.trans hext', hend⟩
      · obtain ⟨hp, barrier⟩ := hidle (by simpa using hg)
        rw [hp]
        exact ⟨valid, .refl p, .inr ⟨_, barrier⟩⟩
    · exact ⟨valid, .refl p, .inl (Nat.le_antisymm p.size_le (Nat.le_of_not_lt hless))⟩

/-- **A pairing is extended** until no row is exposed, or until a barrier keeps the exposed rows
from the exposed columns. -/
theorem maximize_spec (valid : p.Valid tight) :
    (p.maximize tight).Valid tight ∧ p.Extends (p.maximize tight) ∧
      ((p.maximize tight).size = n ∨ ∃ e, (p.maximize tight).Barrier tight e) := by
  obtain ⟨valid', hext⟩ := greedy_spec valid
  have enough : n < n + 1 + (p.greedy tight).size := by omega
  obtain ⟨valid'', hext', hend⟩ := saturate_spec valid' enough
  exact ⟨valid'', hext.trans hext', hend⟩

end Pairing

end OptimalMatching
