import OptimalMatching.Proofs.Blossom.Completeness
import OptimalMatching.Proofs.Blossom.Exchange
/-!
# One pass over the roots

A root without an augmenting path is stuck: there is a set of vertices of which it alone is exposed
and of which no matching covers all. Later rounds only cover more vertices, so the root stays stuck
(`Stuck.mono`). At the end of the pass every exposed vertex is stuck, and a larger matching, which
could be chosen to cover one of them in addition, does not exist (`Run.from?_maximum`).
-/

namespace OptimalMatching.Blossom

variable {n : Nat} {neighbors : Neighbors n} {mates mates' : Mates n} {root : Fin n}

/-- A vertex that no matching covers together with all vertices that are covered already. A set of
vertices shows it of which no matching covers all. -/
def Stuck (neighbors : Neighbors n) (mates : Mates n) (root : Fin n) : Prop :=
  ∃ s : Finset (Fin n), (∀ v ∈ s, v ≠ root → (mates.get v).isSome) ∧
    ∀ other : Mates n, other.Valid neighbors → ∃ v ∈ s, other.get v = none

namespace Stuck

theorem mono (h : Stuck neighbors mates root) (sub : mates.covered ⊆ mates'.covered) :
    Stuck neighbors mates' root := by
  obtain ⟨s, hs, huncovered⟩ := h
  exact ⟨s, fun v hv hne => Mates.mem_covered.1 (sub (Mates.mem_covered.2 (hs v hv hne))),
    huncovered⟩

theorem exposed (h : Stuck neighbors mates root) (valid' : mates'.Valid neighbors)
    (sub : mates.covered ⊆ mates'.covered) : mates'.get root = none := by
  obtain ⟨s, hs, huncovered⟩ := h.mono sub
  obtain ⟨v, hv, hnone⟩ := huncovered mates' valid'
  by_cases hne : v = root
  · exact hne ▸ hnone
  · simpa [hnone] using hs v hv hne

end Stuck

theorem Exhausted.stuck {t : Tree n} (ex : Exhausted neighbors mates root t)
    (valid : mates.Valid neighbors) (simple : neighbors.Simple) : Stuck neighbors mates root :=
  ⟨Finset.univ.filter fun v => t.outer.get v = true,
    fun v hv hne => ex.mate_of_outer (by simpa using hv) hne,
    fun _ valid' => by simpa using ex.uncovered valid simple valid'⟩

/-! ## One round -/

/-- What the treatment of an exposed root does to a matching: it covers the root and one more
vertex in addition, or it shows that the root is stuck. -/
structure Round.Sound (neighbors : Neighbors n) (mates : Mates n) (root : Fin n) (r : Round n) :
    Prop where
  root_eq : r.root = root
  before_eq : r.before = mates
  valid : r.after.Valid neighbors
  augmented : ∀ {v}, r.finding.last? = some v → v ≠ root ∧ mates.get v = none ∧
    ∀ u, (r.after.get u).isSome ↔ u = v ∨ u = root ∨ (mates.get u).isSome
  failed : r.finding.last? = none → r.after = mates ∧ Stuck neighbors mates root

namespace Round.Sound

variable {r : Round n}

theorem covered_subset (h : r.Sound neighbors mates root) : mates.covered ⊆ r.after.covered := by
  intro u hu
  cases hlast : r.finding.last? with
  | none => rwa [(h.failed hlast).1]
  | some v =>
    exact Mates.mem_covered.2 (((h.augmented hlast).2.2 u).2 (.inr (.inr (Mates.mem_covered.1 hu))))

theorem stuck_of_exposed (h : r.Sound neighbors mates root) (exposed : r.after.get root = none) :
    Stuck neighbors r.after root := by
  cases hlast : r.finding.last? with
  | none =>
    obtain ⟨hafter, stuck⟩ := h.failed hlast
    rwa [hafter]
  | some v =>
    have := ((h.augmented hlast).2.2 root).2 (.inr (.inl rfl))
    simp [exposed] at this

end Round.Sound

/-- **The treatment of an exposed root** comes to its end. -/
theorem treatRoot?_sound (simple : neighbors.Simple) (valid : mates.Valid neighbors)
    (exposed : mates.get root = none) :
    ∃ r, treatRoot? neighbors mates root = some r ∧ r.Sound neighbors mates root := by
  obtain ⟨f, hf, good⟩ := searchFrom_ends valid simple exposed
  unfold Finding.Good at good
  split at good
  · next v hlast =>
    obtain ⟨path, trace, augmenting, -⟩ := good.exists_trace valid simple
    have hflip : flip? f.tree.parent n v mates = some (flipAlong path mates) :=
      trace.flip?_eq augmenting.simple (fun _ _ => rfl)
        (by simpa using augmenting.simple.length_le_card)
    obtain ⟨valid', hcov⟩ := augmenting.flip valid simple
    refine ⟨⟨root, mates, f, flipAlong path mates⟩, by simp [treatRoot?, hf, hlast, hflip],
      ⟨rfl, rfl, valid', fun {u} hu => ?_, fun hnone => ?_⟩⟩
    · obtain rfl := Option.some.inj (hlast.symm.trans hu)
      exact ⟨augmenting.distinct, augmenting.exposed_first, hcov⟩
    · simp [hlast] at hnone
  · next hlast =>
    refine ⟨⟨root, mates, f, mates⟩, by simp [treatRoot?, hf, hlast],
      ⟨rfl, rfl, valid, fun {u} hu => ?_, fun _ => ⟨rfl, good.stuck valid simple⟩⟩⟩
    simp [hlast] at hu

/-! ## All rounds -/

namespace Run

/-- A pass over some roots comes to its end, covers what was covered, and leaves exposed only
those roots that are stuck. -/
theorem go?_ends (simple : neighbors.Simple) (roots : List (Fin n))
    (valid : mates.Valid neighbors) :
    ∃ r, go? neighbors roots mates = some r ∧ r.mates.Valid neighbors ∧
      mates.covered ⊆ r.mates.covered ∧
        ∀ v ∈ roots, r.mates.get v = none → Stuck neighbors r.mates v := by
  induction roots generalizing mates with
  | nil => exact ⟨⟨[], mates⟩, rfl, valid, Finset.Subset.refl _, by simp⟩
  | cons root rest ih =>
    unfold go?
    split_ifs with hroot
    · obtain ⟨r, hr, valid', hsub, hstuck⟩ := ih valid
      refine ⟨r, hr, valid', hsub, fun v hv hnone => ?_⟩
      rcases List.mem_cons.1 hv with rfl | hv
      · have := Mates.mem_covered.1 (hsub (Mates.mem_covered.2 hroot))
        simp [hnone] at this
      · exact hstuck v hv hnone
    · obtain ⟨round, hround, sound⟩ := treatRoot?_sound simple valid (by simpa using hroot)
      obtain ⟨later, hlater, valid', hsub, hstuck⟩ := ih sound.valid
      refine ⟨⟨round :: later.rounds, later.mates⟩, by simp [hround, hlater], valid',
        sound.covered_subset.trans hsub, fun v hv hnone => ?_⟩
      rcases List.mem_cons.1 hv with rfl | hv
      · refine (sound.stuck_of_exposed ?_).mono hsub
        exact Mates.not_mem_covered.1 fun hmem => Mates.not_mem_covered.2 hnone (hsub hmem)
      · exact hstuck v hv hnone

/-- **A pass over all roots** ends with a matching that no other one exceeds. -/
theorem from?_maximum (simple : neighbors.Simple) (valid : mates.Valid neighbors) :
    ∃ r, from? neighbors mates = some r ∧ r.mates.Valid neighbors ∧
      ∀ other : Mates n, other.Valid neighbors → other.covered.card ≤ r.mates.covered.card := by
  obtain ⟨r, hr, valid', -, hstuck⟩ := go?_ends simple (List.finRange n) valid
  refine ⟨r, hr, valid', fun other hother => ?_⟩
  by_contra hlt
  obtain ⟨larger, hlarger, hsub, -⟩ :=
    Mates.exists_covering simple valid' hother (Nat.lt_of_not_le hlt)
  obtain ⟨v, hv, hv'⟩ := Finset.exists_of_ssubset hsub
  have stuck := hstuck v (List.mem_finRange v) (Mates.not_mem_covered.1 hv')
  exact Mates.not_mem_covered.2 (stuck.exposed hlarger hsub.subset) hv

end Run

end OptimalMatching.Blossom
