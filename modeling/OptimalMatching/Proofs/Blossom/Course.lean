import OptimalMatching.Proofs.Blossom.MaximumMatching
/-!
# The course of a pass over the roots

`Course` follows a pass from root to root. A root that has a mate is passed over; any other one is
treated, and `Round.Exact` says what becomes of the matching: a search that fails leaves it as it
is, and one that succeeds is followed by a flip that comes to its end, takes nobody's mate away and
covers two more vertices, the root and the vertex found. The matching is valid before and after each
root.

So every augmentation accounts for two covered vertices (`Course.card_covered`), and for one edge
of the matching that is made from the final pairs (`Run.card_covered_eq`).
-/

namespace OptimalMatching.Blossom

variable {n : Nat} {neighbors : Neighbors n} {mates final : Mates n} {root : Fin n}
  {roots : List (Fin n)} {rounds : List (Round n)} {r : Round n}

/-! ## One root -/

/-- What the treatment of an exposed root does to a matching. -/
structure Round.Exact (neighbors : Neighbors n) (mates : Mates n) (root : Fin n) (r : Round n) :
    Prop where
  root_eq : r.root = root
  before_eq : r.before = mates
  exposed : mates.get root = none
  searched : searchFrom neighbors mates root = some r.finding
  /-- The flip of the path that was found comes to its end. -/
  flipped : ∀ {v}, r.finding.last? = some v →
    flip? r.finding.tree.parent n v mates = some r.after
  /-- The root and the vertex that was found are covered in addition. -/
  covered : ∀ {v}, r.finding.last? = some v →
    v ≠ root ∧ mates.get v = none ∧ r.after.covered = insert v (insert root mates.covered)
  unchanged : r.finding.last? = none → r.after = mates

theorem treatRoot?_eq_some (h : treatRoot? neighbors mates root = some r) :
    searchFrom neighbors mates root = some r.finding ∧
      ∀ {v}, r.finding.last? = some v → flip? r.finding.tree.parent n v mates = some r.after := by
  unfold treatRoot? at h
  obtain ⟨f, hf, h⟩ := Option.bind_eq_some_iff.1 h
  split at h
  · next hlast =>
    obtain rfl := Option.some.inj h
    exact ⟨hf, fun {v} hv => by simp [hlast] at hv⟩
  · next v hlast =>
    obtain ⟨after, hafter, h⟩ := Option.bind_eq_some_iff.1 h
    obtain rfl := Option.some.inj h
    refine ⟨hf, fun {u} hu => ?_⟩
    obtain rfl := Option.some.inj (hlast.symm.trans hu)
    exact hafter

theorem Round.Sound.exact (h : r.Sound neighbors mates root) (exposed : mates.get root = none)
    (treated : treatRoot? neighbors mates root = some r) : r.Exact neighbors mates root := by
  obtain ⟨searched, flipped⟩ := treatRoot?_eq_some treated
  refine ⟨h.root_eq, h.before_eq, exposed, searched, flipped, fun {v} hv => ?_,
    fun hnone => (h.failed hnone).1⟩
  obtain ⟨hne, hnone, hcov⟩ := h.augmented hv
  refine ⟨hne, hnone, ?_⟩
  ext u
  simp [hcov]

theorem Round.Exact.card_covered (h : r.Exact neighbors mates root) : r.after.covered.card =
    mates.covered.card + 2 * if r.finding.last?.isSome then 1 else 0 := by
  cases hlast : r.finding.last? with
  | none => simp [h.unchanged hlast]
  | some v =>
    obtain ⟨hne, hnone, hcov⟩ := h.covered hlast
    have hroot : root ∉ mates.covered := Mates.not_mem_covered.2 h.exposed
    have hv : v ∉ insert root mates.covered := by simp [hne, hnone]
    rw [hcov, Finset.card_insert_of_notMem hv, Finset.card_insert_of_notMem hroot]
    simp

/-! ## All roots -/

/-- A pass over some roots with its rounds, from a matching to the final one. -/
inductive Course (neighbors : Neighbors n) :
    Mates n → List (Fin n) → List (Round n) → Mates n → Prop where
  | done {mates : Mates n} : mates.Valid neighbors → Course neighbors mates [] [] mates
  | skip {mates final : Mates n} {root : Fin n} {roots : List (Fin n)} {rounds : List (Round n)} :
      mates.Valid neighbors → (mates.get root).isSome → Course neighbors mates roots rounds final →
        Course neighbors mates (root :: roots) rounds final
  | treat {mates final : Mates n} {root : Fin n} {roots : List (Fin n)} {r : Round n}
      {rounds : List (Round n)} : mates.Valid neighbors → r.Exact neighbors mates root →
        Course neighbors r.after roots rounds final →
          Course neighbors mates (root :: roots) (r :: rounds) final

theorem Course.card_covered (h : Course neighbors mates roots rounds final) : final.covered.card =
    mates.covered.card + 2 * rounds.countP fun r => r.finding.last?.isSome := by
  induction h with
  | done => simp
  | skip _ _ _ ih => exact ih
  | treat _ exact' _ ih =>
    rw [ih, exact'.card_covered, List.countP_cons]
    omega

theorem Run.go?_course (simple : neighbors.Simple) (valid : mates.Valid neighbors) :
    ∃ r, go? neighbors roots mates = some r ∧ Course neighbors mates roots r.rounds r.mates := by
  induction roots generalizing mates with
  | nil => exact ⟨⟨[], mates⟩, rfl, .done valid⟩
  | cons root rest ih =>
    unfold go?
    split_ifs with hroot
    · obtain ⟨r, hr, course⟩ := ih valid
      exact ⟨r, hr, .skip valid hroot course⟩
    · have exposed : mates.get root = none := by simpa using hroot
      obtain ⟨round, hround, sound⟩ := treatRoot?_sound simple valid exposed
      obtain ⟨later, hlater, course⟩ := ih sound.valid
      exact ⟨⟨round :: later.rounds, later.mates⟩, by simp [hround, hlater],
        .treat valid (sound.exact exposed hround) course⟩

theorem Run.ofNeighbors?_course (simple : neighbors.Simple) : ∃ r, ofNeighbors? neighbors = some r ∧
    Course neighbors (.replicate n none) (List.finRange n) r.rounds r.mates ∧
      r.mates.covered.card = 2 * r.augmentations := by
  obtain ⟨r, hr, course⟩ := go?_course simple (Mates.valid_replicate neighbors)
  have hempty : Mates.covered (Table.replicate n none : Mates n) = ∅ :=
    Finset.eq_empty_of_forall_notMem fun v => by simp
  refine ⟨r, hr, course, ?_⟩
  rw [course.card_covered, hempty, Finset.card_empty, Nat.zero_add, augmentations]

theorem Run.augmented_mem_reports {count : Nat} {r : Run n} :
    Report.augmented count ∈ r.reports ↔ count = r.augmentations := by
  simp [reports]

/-! ## The edges of the final pairs -/

section Edges

variable {view : View} {neighbors : Neighbors view.vertices.length}
  {r : Run view.vertices.length}

/-- The final matching covers two vertices for each of its edges. -/
theorem Run.card_covered_eq (wf : view.graph.WellFormed) (undirected : view.directed = false)
    (represents : Represents view neighbors) (valid : r.mates.Valid neighbors)
    (maximum : ∀ other : Mates view.vertices.length, other.Valid neighbors →
      other.covered.card ≤ r.mates.covered.card) :
    r.mates.covered.card = 2 * (r.edges view).length := by
  have stored := edges_stored (r := r) wf
  have apart := edges_apart wf valid
  refine Nat.le_antisymm (card_covered_le wf undirected represents valid) ?_
  calc 2 * (r.edges view).length
      ≤ (matesOf view (r.edges view)).covered.card :=
        two_mul_length_le_card_covered wf undirected stored apart
    _ ≤ r.mates.covered.card := maximum _ (valid_matesOf wf undirected stored apart represents)

end Edges

/-- A graph with vertices is told as many augmentations as its matching has edges. -/
theorem augmented_mem_compute {view : View} (wf : view.graph.WellFormed)
    (undirected : view.directed = false) : ∃ m, (compute view).result = .ok m ∧
      ∀ count, Report.augmented count ∈ (compute view).reports ↔
        view.vertices ≠ [] ∧ count = m.size := by
  by_cases hempty : view.vertices = []
  · have hcompute : compute view = ⟨[], .ok .empty⟩ := if_pos (by simp [hempty])
    rw [hcompute]
    exact ⟨.empty, rfl, by simp [hempty]⟩
  · obtain ⟨neighbors, hneighbors, represents⟩ := neighborsOf_spec wf undirected
    obtain ⟨r, hr, valid, maximum, hstored, hlength, mates, hm⟩ :=
      Run.ofNeighbors?_edges wf undirected represents
    obtain ⟨r', hr', -, haugmentations⟩ :=
      Run.ofNeighbors?_course (represents.simple wf undirected)
    obtain rfl := Option.some.inj (hr.symm.trans hr')
    have hedges := Run.card_covered_eq wf undirected represents valid maximum
    have hsize : r.augmentations = (r.edges view).length := by omega
    rw [compute_eq hempty hneighbors hr hstored hlength hm]
    refine ⟨_, rfl, fun count => ?_⟩
    rw [List.mem_append, Run.augmented_mem_reports, hsize]
    simp [hempty, Matching.size]

/-- **Every augmentation covers two more vertices.** On a graph without loops the pass over the
roots comes to its end. Before and after each root the mates are mutual and neighbors. A search that
fails changes nothing; one that succeeds is followed by a flip that comes to its end and covers the
root and the vertex found in addition to what was covered. At the end twice as many vertices are
covered as there were augmentations, and the number of augmentations that is told is that of the
edges in the matching. -/
theorem augmentations_account_for_matching :
    (∀ {n : Nat} {neighbors : Neighbors n}, neighbors.Simple →
      ∃ r, Run.ofNeighbors? neighbors = some r ∧
        Course neighbors (.replicate n none) (List.finRange n) r.rounds r.mates ∧
          r.mates.covered.card = 2 * r.augmentations) ∧
    ∀ {view : View}, view.Reachable → view.directed = false →
      ∃ m, (maximumMatching view).result = .ok m ∧
        ∀ count, Report.augmented count ∈ (maximumMatching view).reports ↔
          view.vertices ≠ [] ∧ count = m.size := by
  refine ⟨fun simple => Run.ofNeighbors?_course simple, fun {view} reachable undirected => ?_⟩
  have hmatching : maximumMatching view = compute view := by
    rw [maximumMatching, checkKind_eq_ok undirected reachable.simple]
  rw [hmatching]
  exact augmented_mem_compute reachable.wellFormed undirected

theorem augmentations_account_for_matching_kite : kite.Simple ∧
    (View.ofGraph tadpole).Reachable ∧ (View.ofGraph tadpole).directed = false ∧
      (∃ r, Run.ofNeighbors? kite = some r ∧
        Course kite (.replicate 6 none) (List.finRange 6) r.rounds r.mates ∧
          r.mates.covered.card = 2 * r.augmentations) ∧
      ∃ m, (maximumMatching (.ofGraph tadpole)).result = .ok m ∧
        Report.augmented m.size ∈ (maximumMatching (.ofGraph tadpole)).reports := by
  have simple : kite.Simple := ⟨by decide, by decide⟩
  have reachable : (View.ofGraph tadpole).Reachable :=
    .graph (((Graph.Reachable.empty false).whole _).whole _)
  obtain ⟨m, hm, hcount⟩ := augmentations_account_for_matching.2 reachable rfl
  exact ⟨simple, reachable, rfl, augmentations_account_for_matching.1 simple, m, hm,
    (hcount _).2 ⟨by decide +kernel, rfl⟩⟩

end OptimalMatching.Blossom
