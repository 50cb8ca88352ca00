import Mathlib.Algebra.BigOperators.Group.Finset.Basic
import Mathlib.Data.ZMod.Basic
import OptimalMatching.Proofs.Blossom.Augment
/-!
# Why an exhausted tree has no augmenting path

A blossom has an odd number of vertices, so a matching that covers all of them uses an edge that
leaves the blossom. When a tree is exhausted, such an edge can only lead to an inner vertex: one
that is not outer but has a parent. Every inner vertex has a base as its mate, and the root is one
more base. So there are fewer inner vertices than blossoms, and no matching of the graph whatsoever
covers all outer vertices (`Exhausted.uncovered`).

The matching of the search covers all of them but the root. Flipping an augmenting path would cover
the root as well; therefore there is none (`Exhausted.no_augmentingPath`).
-/

namespace OptimalMatching.Blossom

variable {n : Nat} {neighbors : Neighbors n} {mates : Mates n} {root : Fin n} {t : Tree n}

/-- A set whose elements are paired off with each other has an even number of them. -/
theorem even_card_of_mates {mates : Mates n} {s : Finset (Fin n)} (f : Fin n → Fin n)
    (mate : ∀ a ∈ s, mates.get a = some (f a)) (mem : ∀ a ∈ s, f a ∈ s)
    (symm : ∀ {a b : Fin n}, mates.get a = some b → mates.get b = some a)
    (ne_self : ∀ a ∈ s, f a ≠ a) : Even s.card := by
  have hsum : ∑ _a ∈ s, (1 : ZMod 2) = 0 := by
    refine Finset.sum_involution (fun a _ => f a) (fun _ _ => by decide)
      (fun a ha _ => ne_self a ha) mem fun a ha => ?_
    exact Option.some.inj ((mate (f a) (mem a ha)).symm.trans (symm (mate a ha)))
  rw [Finset.sum_const, nsmul_eq_mul, mul_one] at hsum
  exact (ZMod.natCast_eq_zero_iff_even).1 hsum

namespace Tree

/-- The bases of the blossoms, single outer vertices included. -/
def bases (t : Tree n) : Finset (Fin n) :=
  Finset.univ.filter fun b => t.outer.get b = true ∧ t.base.get b = b

/-- The vertices of the blossom with a given base. -/
def blossom (t : Tree n) (b : Fin n) : Finset (Fin n) :=
  Finset.univ.filter fun v => t.base.get v = b

/-- The vertices that are not outer but have a parent, and a mate. -/
def inner (t : Tree n) (mates : Mates n) : Finset (Fin n) :=
  Finset.univ.filter fun a => t.outer.get a ≠ true ∧ t.parent.get a ≠ none ∧ mates.get a ≠ none

@[simp] theorem mem_bases {b : Fin n} :
    b ∈ t.bases ↔ t.outer.get b = true ∧ t.base.get b = b := by
  simp [bases]

@[simp] theorem mem_blossom {b v : Fin n} : v ∈ t.blossom b ↔ t.base.get v = b := by
  simp [blossom]

@[simp] theorem mem_inner {a : Fin n} : a ∈ t.inner mates ↔
    t.outer.get a ≠ true ∧ t.parent.get a ≠ none ∧ mates.get a ≠ none := by
  simp [inner]

namespace Alternating

variable {b v : Fin n}

theorem outer_of_mem_blossom (h : t.Alternating neighbors mates root)
    (hb : t.outer.get b = true) (hv : v ∈ t.blossom b) : t.outer.get v = true := by
  by_contra hvo
  rw [mem_blossom, h.base_of_not_outer hvo] at hv
  exact hvo (hv ▸ hb)

/-- **A blossom has an odd number of vertices**: all but the base are paired off. -/
theorem odd_card_blossom (h : t.Alternating neighbors mates root)
    (valid : mates.Valid neighbors) (simple : neighbors.Simple) (hb : b ∈ t.bases) :
    Odd (t.blossom b).card := by
  rw [mem_bases] at hb
  have hmem : b ∈ t.blossom b := mem_blossom.2 hb.2
  have hmate : ∀ a ∈ (t.blossom b).erase b, ∃ m, mates.get a = some m ∧ t.base.get m = b := by
    intro a ha
    rw [Finset.mem_erase, mem_blossom] at ha
    have hao := h.outer_of_mem_blossom hb.1 (mem_blossom.2 ha.2)
    obtain ⟨m, u, hm, -, hbm, -⟩ := h.inside hao fun hba => ha.1 (hba.symm.trans ha.2)
    exact ⟨m, hm, hbm.trans ha.2⟩
  have hget : ∀ a ∈ (t.blossom b).erase b, mates.get a = some ((mates.get a).getD a) := by
    intro a ha
    obtain ⟨m, hm, -⟩ := hmate a ha
    simp [hm]
  have heven : Even ((t.blossom b).erase b).card := by
    refine even_card_of_mates (fun a => (mates.get a).getD a) hget (fun a ha => ?_) valid.symm
      fun a ha => (valid.ne_self simple (hget a ha)).symm
    obtain ⟨m, hm, hbm⟩ := hmate a ha
    rw [hm, Option.getD_some, Finset.mem_erase, mem_blossom]
    refine ⟨?_, hbm⟩
    -- The mate of the base is not outer.
    intro heq
    subst heq
    rw [Finset.mem_erase, mem_blossom] at ha
    exact h.mate_of_base hb.1 hb.2 (valid.symm hm)
      (h.outer_of_mem_blossom hb.1 (mem_blossom.2 ha.2))
  rw [← Finset.card_erase_add_one hmem]
  exact heven.add_one

/-- The mate of an inner vertex is a base other than the root. -/
theorem mate_of_inner (h : t.Alternating neighbors mates root) (valid : mates.Valid neighbors)
    {a m : Fin n} (ha : a ∈ t.inner mates) (mate : mates.get a = some m) :
    m ∈ t.bases.erase root := by
  rw [mem_inner] at ha
  obtain ⟨u, hu⟩ := Option.ne_none_iff_exists'.1 ha.2.1
  have hm : t.outer.get m = true := h.outer_of_link (valid.symm mate) hu
  rw [Finset.mem_erase, mem_bases]
  refine ⟨?_, hm, ?_⟩
  · intro heq
    subst heq
    simpa [h.root_exposed] using valid.symm mate
  · by_contra hbm
    obtain ⟨a', -, hma, -, hba, -⟩ := h.inside hm hbm
    obtain rfl := Option.some.inj ((valid.symm mate).symm.trans hma)
    rw [h.base_of_not_outer ha.1] at hba
    exact ha.1 (hba ▸ h.outer_base hm)

theorem card_inner_lt (h : t.Alternating neighbors mates root) (valid : mates.Valid neighbors) :
    (t.inner mates).card < t.bases.card := by
  have hroot : root ∈ t.bases := mem_bases.2 ⟨h.root_outer, h.base_root⟩
  have hget : ∀ a ∈ t.inner mates, mates.get a = some ((mates.get a).getD a) := by
    intro a ha
    obtain ⟨m, hm⟩ := Option.ne_none_iff_exists'.1 (mem_inner.1 ha).2.2
    simp [hm]
  have hle : (t.inner mates).card ≤ (t.bases.erase root).card := by
    refine Finset.card_le_card_of_injOn (fun a => (mates.get a).getD a)
      (fun a ha => h.mate_of_inner valid ha (hget a ha)) fun a ha a' ha' heq => ?_
    dsimp only at heq
    exact valid.injective (hget a ha) (heq ▸ hget a' ha')
  have := Finset.card_erase_lt_of_mem hroot
  omega

end Alternating

end Tree

namespace Exhausted

/-- A matching that covers a whole blossom matches one of its vertices with an inner one. -/
theorem exists_inner_mate (ex : Exhausted neighbors mates root t) (valid : mates.Valid neighbors)
    (simple : neighbors.Simple) {other : Mates n} (valid' : other.Valid neighbors) {b : Fin n}
    (hb : b ∈ t.bases) (covers : ∀ v ∈ t.blossom b, other.get v ≠ none) :
    ∃ v a, t.base.get v = b ∧ other.get v = some a ∧ a ∈ t.inner mates := by
  by_contra hnone
  push Not at hnone
  have hget : ∀ v ∈ t.blossom b, other.get v = some ((other.get v).getD v) := by
    intro v hv
    obtain ⟨w, hw⟩ := Option.ne_none_iff_exists'.1 (covers v hv)
    simp [hw]
  have heven : Even (t.blossom b).card := by
    refine even_card_of_mates (fun v => (other.get v).getD v) hget (fun v hv => ?_) valid'.symm
      fun v hv => (valid'.ne_self simple (hget v hv)).symm
    have hvo := ex.tree.outer_of_mem_blossom (Tree.mem_bases.1 hb).1 hv
    rcases ex.closed hvo (valid'.adjacent (hget v hv)) with ⟨hbase, -⟩ | hinner
    · exact Tree.mem_blossom.2 (hbase.symm.trans (Tree.mem_blossom.1 hv))
    · exact absurd (Tree.mem_inner.2 hinner) (hnone v _ (Tree.mem_blossom.1 hv) (hget v hv))
  exact Nat.not_even_iff_odd.2 (ex.tree.odd_card_blossom valid simple hb) heven

/-- **No matching covers all outer vertices** of an exhausted tree. -/
theorem uncovered (ex : Exhausted neighbors mates root t) (valid : mates.Valid neighbors)
    (simple : neighbors.Simple) {other : Mates n} (valid' : other.Valid neighbors) :
    ∃ v, t.outer.get v = true ∧ other.get v = none := by
  by_contra hcov
  push Not at hcov
  have hchoose : ∀ b ∈ t.bases, ∃ v a, t.base.get v = b ∧ other.get v = some a ∧
      a ∈ t.inner mates := fun b hb =>
    ex.exists_inner_mate valid simple valid' hb fun v hv =>
      hcov v (ex.tree.outer_of_mem_blossom (Tree.mem_bases.1 hb).1 hv)
  choose! out into hout hinto hinner using hchoose
  have hle : t.bases.card ≤ (t.inner mates).card := by
    refine Finset.card_le_card_of_injOn into hinner fun b hb b' hb' heq => ?_
    have hv : out b = out b' := valid'.injective (hinto b hb) (heq ▸ hinto b' hb')
    rw [← hout b hb, ← hout b' hb', hv]
  have := ex.tree.card_inner_lt valid
  omega

theorem mate_of_outer (ex : Exhausted neighbors mates root t) {v : Fin n}
    (hv : t.outer.get v = true) (hne : v ≠ root) : (mates.get v).isSome := by
  obtain ⟨m, u, hm, -⟩ := ex.tree.link_of_outer hv hne
  simp [hm]

/-- **No augmenting path** starts in the root of an exhausted tree. -/
theorem no_augmentingPath (ex : Exhausted neighbors mates root t) (valid : mates.Valid neighbors)
    (simple : neighbors.Simple) {last : Fin n} {path : List (Fin n)} :
    ¬ AugmentingPath neighbors mates root last path := by
  intro h
  obtain ⟨valid', hcov⟩ := h.flip valid simple
  obtain ⟨v, hv, hnone⟩ := ex.uncovered valid simple valid'
  have hsome : ((flipAlong path mates).get v).isSome := by
    rw [hcov]
    by_cases hne : v = root
    · exact .inl hne
    · exact .inr (.inr (ex.mate_of_outer hv hne))
  simp [hnone] at hsome

end Exhausted

/-! ## What a search finds -/

/-- **A search from an exposed vertex** comes to an end. It finds an exposed vertex exactly when
some augmenting path starts in the root, and then the links of its tree spell such a path. -/
theorem searchFrom_finds_iff (simple : neighbors.Simple) (valid : mates.Valid neighbors)
    (exposed : mates.get root = none) : ∃ f, searchFrom neighbors mates root = some f ∧
      (f.last?.isSome ↔ ∃ last path, AugmentingPath neighbors mates root last path) ∧
      ∀ v, f.last? = some v → ∃ path, Trace f.tree.parent mates v path ∧
        AugmentingPath neighbors mates root v path.reverse := by
  obtain ⟨f, hf, good⟩ := searchFrom_ends valid simple exposed
  refine ⟨f, hf, ?_⟩
  unfold Finding.Good at good
  split at good
  · next v hv =>
    obtain ⟨path, trace, -, augmenting⟩ := good.exists_trace valid simple
    rw [hv]
    refine ⟨iff_of_true rfl ⟨v, _, augmenting⟩, fun w hw => ?_⟩
    obtain rfl := Option.some.inj hw
    exact ⟨path, trace, augmenting⟩
  · next hnone =>
    rw [hnone]
    refine ⟨iff_of_false (by simp) ?_, by simp⟩
    rintro ⟨last, path, h⟩
    exact good.no_augmentingPath valid simple h

/-- A triangle with a tail at each of two corners. -/
def kite : Neighbors 6 := ⟨#v[[1], [0, 2], [1, 3, 4], [2, 4, 5], [2, 3], [3]]⟩

/-- A matching of the kite that leaves the ends of both tails exposed. -/
def kitePairs : Mates 6 := ⟨#v[none, some 2, some 1, some 4, some 3, none]⟩

theorem searchFrom_finds_iff_kite : kite.Simple ∧ kitePairs.Valid kite ∧ kitePairs.get 0 = none ∧
    ∃ f, searchFrom kite kitePairs 0 = some f ∧
      (f.last?.isSome ↔ ∃ last path, AugmentingPath kite kitePairs 0 last path) ∧
      ∀ v, f.last? = some v → ∃ path, Trace f.tree.parent kitePairs v path ∧
        AugmentingPath kite kitePairs 0 v path.reverse := by
  have simple : kite.Simple := ⟨by decide, by decide⟩
  have valid : kitePairs.Valid kite := ⟨by decide, by decide⟩
  exact ⟨simple, valid, by decide, searchFrom_finds_iff simple valid (by decide)⟩

end OptimalMatching.Blossom
