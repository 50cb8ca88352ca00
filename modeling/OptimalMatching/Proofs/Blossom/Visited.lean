import Mathlib.Algebra.BigOperators.Ring.Nat
import OptimalMatching.Proofs.Blossom.Completeness
/-!
# The points of a search

A search comes to a point after each entry that it has treated, and after each vertex that it has
taken from the queue (`Search.Visits`). At every point it is sound.

**Classes.** The vertices with the same base form a class: a blossom, or a single vertex. Each class
has an odd number of vertices, because all but its base are paired off with each other. So there
are as many classes as vertices up to an even number (`odd_card_classes`), and that is why a
contraction, which lets the two ends of an edge fall into one class, always takes away an even
number of them.
-/

namespace OptimalMatching.Blossom

variable {n : Nat} {neighbors : Neighbors n} {mates : Mates n} {root : Fin n} {t t' : Tree n}
  {s s' : Search n} {c : Contraction n}

/-- The points that the search from a root comes to. -/
inductive Search.Visits (neighbors : Neighbors n) (mates : Mates n) (root : Fin n) :
    Search n → Prop
  | start : Visits neighbors mates root (.start neighbors root)
  | next {s s' : Search n} (before : Visits neighbors mates root s)
      (hstep : s.step neighbors mates root = .next s') : Visits neighbors mates root s'
  | contracted {s s' : Search n} {c : Contraction n} (before : Visits neighbors mates root s)
      (hstep : s.step neighbors mates root = .contracted c s') : Visits neighbors mates root s'

/-- **At every point** a search is sound. -/
theorem Search.Visits.sound (visits : Visits neighbors mates root s) (valid : mates.Valid neighbors)
    (simple : neighbors.Simple) (exposed : mates.get root = none) :
    s.Sound neighbors mates root := by
  induction visits with
  | start => exact sound_start exposed
  | next _ hstep ih =>
    have good := ih.step valid simple
    rw [hstep] at good
    exact good.1
  | contracted _ hstep ih =>
    have good := ih.step valid simple
    rw [hstep] at good
    exact good.1

/-! ## Counting classes -/

namespace Tree

/-- The bases of all classes, those of vertices that are not outer included. -/
def classes (t : Tree n) : Finset (Fin n) := Finset.univ.image t.base.get

theorem base_mem_classes (t : Tree n) (i : Fin n) : t.base.get i ∈ t.classes :=
  Finset.mem_image_of_mem _ (Finset.mem_univ i)

/-- If all classes are odd, their number is even or odd as that of the vertices is. -/
theorem odd_card_classes (odd : ∀ b ∈ t.classes, Odd (t.blossom b).card) :
    Odd t.classes.card ↔ Odd n := by
  have hsum : n = ∑ b ∈ t.classes, (t.blossom b).card := by
    simpa [classes, blossom] using Finset.card_eq_sum_card_image t.base.get Finset.univ
  have hodd := Finset.odd_sum_iff_odd_card_odd (s := t.classes) fun b => (t.blossom b).card
  rw [← hsum, Finset.filter_true_of_mem odd] at hodd
  exact hodd.symm

theorem Extends.card_classes_lt (ext : t.Extends mates t')
    (base_base : ∀ i, t.base.get (t.base.get i) = t.base.get i) {v w : Fin n}
    (apart : t.base.get v ≠ t.base.get w) (together : t'.base.get v = t'.base.get w) :
    t'.classes.card < t.classes.card := by
  have hbase : ∀ i, t'.base.get (t.base.get i) = t'.base.get i := fun i => ext.base (base_base i)
  have himage : t'.classes = t.classes.image t'.base.get := by
    simp only [classes, Finset.image_image]
    exact Finset.image_congr fun i _ => (hbase i).symm
  rw [himage]
  refine lt_of_le_of_ne Finset.card_image_le fun hcard => apart ?_
  refine Finset.card_image_iff.1 hcard (t.base_mem_classes v) (t.base_mem_classes w) ?_
  rw [hbase, hbase, together]

namespace Alternating

variable {b v m : Fin n}

/-- A vertex that is not outer is a class of its own. -/
theorem eq_of_mem_blossom (h : t.Alternating neighbors mates root) (hb : t.outer.get b ≠ true)
    (hv : v ∈ t.blossom b) : v = b := by
  rw [mem_blossom] at hv
  by_cases hvo : t.outer.get v = true
  · exact absurd (hv ▸ h.outer_base hvo) hb
  · exact (h.base_of_not_outer hvo).symm.trans hv

/-- A vertex of a class other than its base has its mate in the class. -/
theorem exists_mate_of_mem_blossom (h : t.Alternating neighbors mates root)
    (hv : v ∈ t.blossom b) (ne : v ≠ b) : ∃ m ∈ t.blossom b, mates.get v = some m := by
  have hvb : t.base.get v = b := mem_blossom.1 hv
  have hvo : t.outer.get v = true := by
    by_contra hvo
    exact ne ((h.base_of_not_outer hvo).symm.trans hvb)
  obtain ⟨m, -, hm, -, hmb, -⟩ := h.inside hvo fun hb => ne (hb.symm.trans hvb)
  exact ⟨m, mem_blossom.2 (hmb.trans hvb), hm⟩

/-- The base of a class has no mate in it. -/
theorem mate_ne_of_mem_blossom (h : t.Alternating neighbors mates root)
    (valid : mates.Valid neighbors) (simple : neighbors.Simple) (hb : t.base.get b = b)
    (hm : m ∈ t.blossom b) : mates.get b ≠ some m := by
  intro mate
  by_cases hbo : t.outer.get b = true
  · exact h.mate_of_base hbo hb mate (h.outer_of_mem_blossom hbo hm)
  · exact valid.ne_self simple mate (h.eq_of_mem_blossom hbo hm).symm

theorem odd_card_class (h : t.Alternating neighbors mates root) (valid : mates.Valid neighbors)
    (simple : neighbors.Simple) (hb : t.base.get b = b) : Odd (t.blossom b).card := by
  by_cases hbo : t.outer.get b = true
  · exact h.odd_card_blossom valid simple (mem_bases.2 ⟨hbo, hb⟩)
  · have hblossom : t.blossom b = {b} := by
      ext v
      rw [Finset.mem_singleton]
      refine ⟨h.eq_of_mem_blossom hbo, fun hv => ?_⟩
      rw [hv, mem_blossom, hb]
    simp [hblossom]

/-- The vertices of a class with more than one vertex are outer. -/
theorem outer_of_one_lt_card (h : t.Alternating neighbors mates root)
    (more : 1 < (t.blossom b).card) (hv : v ∈ t.blossom b) : t.outer.get v = true := by
  by_cases hbo : t.outer.get b = true
  · exact h.outer_of_mem_blossom hbo hv
  · obtain ⟨x, hx, y, hy, hxy⟩ := Finset.one_lt_card.1 more
    exact absurd ((h.eq_of_mem_blossom hbo hx).trans (h.eq_of_mem_blossom hbo hy).symm) hxy

/-- A contraction takes away an even number of classes, and at least two. -/
theorem card_classes_of_contract (h : t.Alternating neighbors mates root)
    (h' : t'.Alternating neighbors mates root) (valid : mates.Valid neighbors)
    (simple : neighbors.Simple) (ext : t.Extends mates t') {v w : Fin n}
    (apart : t.base.get v ≠ t.base.get w) (together : t'.base.get v = t'.base.get w) :
    ∃ k, 0 < k ∧ t'.classes.card + 2 * k = t.classes.card := by
  have hodd : ∀ {u : Tree n}, u.Alternating neighbors mates root →
      (Odd u.classes.card ↔ Odd n) := by
    intro u hu
    refine odd_card_classes fun b hb => hu.odd_card_class valid simple ?_
    obtain ⟨i, -, rfl⟩ := Finset.mem_image.1 hb
    exact hu.base_base i
  have hlt := ext.card_classes_lt h.base_base apart together
  obtain ⟨k, hk⟩ : Even (t.classes.card - t'.classes.card) := by
    rw [Nat.even_sub hlt.le, ← not_iff_not, Nat.not_even_iff_odd, Nat.not_even_iff_odd, hodd h,
      hodd h']
  exact ⟨k, by omega, by omega⟩

end Alternating

end Tree

/-! ## One step -/

theorem Search.step_eq_contracted (hstep : s.step neighbors mates root = .contracted c s') :
    ∃ w rest stem, s.entries = w :: rest ∧ s.tree.base.get s.vertex ≠ s.tree.base.get w ∧
      s.tree.isOuter mates root w = true ∧
        s.tree.contract? mates s.vertex w = some (stem, s'.tree) := by
  obtain ⟨t, v, entries⟩ := s
  cases entries with
  | nil =>
    simp only [step, nextVertex] at hstep
    split at hstep <;> cases hstep
  | cons w rest =>
    simp only [step, treat] at hstep
    split_ifs at hstep with hskip houter
    · split at hstep
      · cases hstep
      · next stem t' hcontract =>
        cases hstep
        exact ⟨w, rest, stem, rfl, fun hb => hskip (.inl hb), houter, hcontract⟩
    · split at hstep
      · cases hstep
      · split at hstep <;> cases hstep

/-- A step that contracts a blossom takes away an even number of classes, and at least two. -/
theorem Search.Sound.card_classes (h : s.Sound neighbors mates root) (valid : mates.Valid neighbors)
    (simple : neighbors.Simple) (hstep : s.step neighbors mates root = .contracted c s') :
    ∃ k, 0 < k ∧ s'.tree.classes.card + 2 * k = s.tree.classes.card := by
  obtain ⟨w, rest, stem, hentries, apart, houter, hcontract⟩ := step_eq_contracted hstep
  have adj : w ∈ neighbors.get s.vertex := h.entries_sub (hentries ▸ List.mem_cons_self)
  obtain ⟨stem', t', hcontract', tree, ext, together⟩ :=
    h.tree.contract valid simple h.vertex_outer ((h.tree.outer_iff w).2 houter) adj
  obtain ⟨-, rfl⟩ := Prod.mk.inj (Option.some.inj (hcontract.symm.trans hcontract'))
  exact h.tree.card_classes_of_contract tree valid simple ext apart together

/-- **The classes of a search.** At every point of a search from an exposed vertex a base is its own
base. Each class has an odd number of vertices, of which all but the base are paired off with each
other; the vertices of a class with more than one are outer. The links tell which vertices are
outer. No step finds a link missing, and one that contracts a blossom takes away an even number of
classes, at least two. -/
theorem classes_at_every_point (simple : neighbors.Simple) (valid : mates.Valid neighbors)
    (exposed : mates.get root = none) (visits : s.Visits neighbors mates root) :
    (∀ i, s.tree.base.get (s.tree.base.get i) = s.tree.base.get i) ∧
    (∀ b, s.tree.base.get b = b → Odd (s.tree.blossom b).card ∧
      (∀ v ∈ s.tree.blossom b, v ≠ b →
        ∃ m ∈ s.tree.blossom b, m ≠ v ∧ mates.get v = some m) ∧
      ∀ m ∈ s.tree.blossom b, mates.get b ≠ some m) ∧
    (∀ b, 1 < (s.tree.blossom b).card → ∀ v ∈ s.tree.blossom b, s.tree.outer.get v = true) ∧
    (∀ v, s.tree.isOuter mates root v = true ↔ s.tree.outer.get v = true) ∧
    s.step neighbors mates root ≠ .broken ∧
    ∀ c s', s.step neighbors mates root = .contracted c s' →
      ∃ k, 0 < k ∧ s'.tree.classes.card + 2 * k = s.tree.classes.card := by
  have sound := visits.sound valid simple exposed
  have h := sound.tree
  refine ⟨h.base_base, fun b hb => ⟨h.odd_card_class valid simple hb, fun v hv ne => ?_,
    fun m hm => h.mate_ne_of_mem_blossom valid simple hb hm⟩, fun b more v hv =>
    h.outer_of_one_lt_card more hv, fun v => (h.outer_iff v).symm, fun hstep => ?_,
    fun c s' hstep => sound.card_classes valid simple hstep⟩
  · obtain ⟨m, hm, mate⟩ := h.exists_mate_of_mem_blossom hv ne
    exact ⟨m, hm, (valid.ne_self simple mate).symm, mate⟩
  · have good := sound.step valid simple
    rw [hstep] at good
    exact good

theorem exists_contraction_kite : ∃ (s s' : Search 6) (c : Contraction 6),
    s.Visits kite kitePairs 0 ∧ s.step kite kitePairs 0 = .contracted c s' ∧
      s'.tree.base.get 2 = 2 ∧ s'.tree.blossom 2 = {2, 3, 4} :=
  ⟨_, _, _, .next (.next (.next (.next .start rfl) rfl) rfl) rfl, rfl, rfl, by decide⟩

theorem classes_at_every_point_kite : kite.Simple ∧ kitePairs.Valid kite ∧
    kitePairs.get 0 = none ∧ ∃ (s s' : Search 6) (c : Contraction 6), s.Visits kite kitePairs 0 ∧
      s.step kite kitePairs 0 = .contracted c s' ∧ s'.Visits kite kitePairs 0 ∧
        (∃ k, 0 < k ∧ s'.tree.classes.card + 2 * k = s.tree.classes.card) ∧
          s'.tree.blossom 2 = {2, 3, 4} ∧ Odd (s'.tree.blossom 2).card ∧
            ∀ v ∈ s'.tree.blossom 2, s'.tree.outer.get v = true := by
  have simple : kite.Simple := ⟨by decide, by decide⟩
  have valid : kitePairs.Valid kite := ⟨by decide, by decide⟩
  obtain ⟨s, s', c, visits, hstep, hbase, hblossom⟩ := exists_contraction_kite
  have visits' := visits.contracted hstep
  obtain ⟨-, -, -, -, -, hcount⟩ := classes_at_every_point simple valid (by decide) visits
  obtain ⟨-, hclass, houter, -⟩ := classes_at_every_point simple valid (by decide) visits'
  refine ⟨simple, valid, by decide, s, s', c, visits, hstep, visits', hcount c s' hstep, hblossom,
    (hclass 2 hbase).1, houter 2 ?_⟩
  rw [hblossom]
  decide

end OptimalMatching.Blossom
