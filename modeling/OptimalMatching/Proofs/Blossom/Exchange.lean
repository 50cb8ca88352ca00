import OptimalMatching.Proofs.Blossom.Mates
/-!
# Matchings can be enlarged vertex by vertex

If one matching is smaller than another, there is a matching that covers all vertices of the
smaller one and more (`Mates.exists_covering`). The proof takes a vertex that only the larger one
covers and removes it together with its mate there; what is gained on the rest is completed again by
a pair of one of the two matchings.
-/

namespace OptimalMatching.Blossom.Mates

variable {n : Nat} {neighbors : Neighbors n} {mates other larger : Mates n}

theorem Valid.unpair (valid : mates.Valid neighbors) {a b : Fin n} (h : mates.get a = some b) :
    ((mates.expose a).expose b).Valid neighbors := by
  have hget : ∀ x, ((mates.expose a).expose b).get x =
      if b = x then none else if a = x then none else mates.get x :=
    fun x => by rw [get_expose, get_expose]
  constructor
  · intro v w hv
    rw [hget] at hv
    split_ifs at hv with hbv hav
    have hw := valid.symm hv
    have hbw : b ≠ w := fun hbw => hav (Option.some.inj ((valid.symm h).symm.trans (hbw ▸ hw)))
    have haw : a ≠ w := fun haw => hbv (Option.some.inj (h.symm.trans (haw ▸ hw)))
    rw [hget, if_neg hbw, if_neg haw, hw]
  · intro v w hv
    rw [hget] at hv
    split_ifs at hv with hbv hav
    exact valid.adjacent hv

theorem covered_unpair (mates : Mates n) (a b : Fin n) :
    ((mates.expose a).expose b).covered = (mates.covered.erase a).erase b := by
  ext x
  simp only [mem_covered, get_expose, Finset.mem_erase]
  split_ifs with hb ha
  · simp [hb]
  · simp [ha]
  · simp [Ne.symm hb, Ne.symm ha]

theorem card_covered_unpair (valid : mates.Valid neighbors) (simple : neighbors.Simple)
    {a b : Fin n} (h : mates.get a = some b) :
    ((mates.expose a).expose b).covered.card + 2 = mates.covered.card := by
  have ha : a ∈ mates.covered := mem_covered_of_some h
  have hb : b ∈ mates.covered.erase a :=
    Finset.mem_erase.2 ⟨(valid.ne_self simple h).symm, mem_covered_of_some (valid.symm h)⟩
  rw [covered_unpair, ← Finset.card_erase_add_one ha, ← Finset.card_erase_add_one hb]

theorem covered_join (mates : Mates n) (a b : Fin n) :
    (mates.join a b).covered = insert a (insert b mates.covered) := by
  ext x
  simp only [mem_covered, get_join, Finset.mem_insert]
  split_ifs with hb ha
  · simp [hb]
  · simp [ha]
  · simp [Ne.symm hb, Ne.symm ha]

/-- A join covers a set if the rest of the set is covered already. -/
theorem subset_covered_join {s : Finset (Fin n)} {a b : Fin n}
    (rest : ∀ x ∈ s, x ≠ a → x ≠ b → x ∈ mates.covered) : s ⊆ (mates.join a b).covered := by
  intro x hx
  rw [covered_join, Finset.mem_insert, Finset.mem_insert]
  by_cases ha : x = a
  · exact .inl ha
  · by_cases hb : x = b
    · exact .inr (.inl hb)
    · exact .inr (.inr (rest x hx ha hb))

/-- Each pair of a matching is a pair of one of two others. -/
def DrawnFrom (larger mates other : Mates n) : Prop :=
  ∀ {v w}, larger.get v = some w → mates.get v = some w ∨ other.get v = some w

theorem DrawnFrom.join (h : larger.DrawnFrom mates other) (valid : mates.Valid neighbors)
    (valid' : other.Valid neighbors) {a b : Fin n}
    (pair : mates.get a = some b ∨ other.get a = some b) :
    (larger.join a b).DrawnFrom mates other := by
  intro v w hv
  rw [get_join] at hv
  split_ifs at hv with hbv hav
  · obtain rfl := Option.some.inj hv
    subst hbv
    exact pair.imp valid.symm valid'.symm
  · obtain rfl := Option.some.inj hv
    subst hav
    exact pair
  · exact h hv

/-- Pairs that are left when the vertex `a` is removed from two matchings, with its mate `b` in the
one and its mate `r` in the other. -/
theorem DrawnFrom.of_unpair {a b r : Fin n} (hr : mates.get r = none)
    (h : larger.DrawnFrom ((mates.expose a).expose b) ((other.expose r).expose a)) :
    larger.DrawnFrom mates other ∧ larger.get r = none ∧ larger.get a = none := by
  have hpairs : ∀ {v w}, larger.get v = some w →
      v ≠ r ∧ v ≠ a ∧ (mates.get v = some w ∨ other.get v = some w) := by
    intro v w hv
    rcases h hv with hm | ho
    · rw [get_expose, get_expose] at hm
      split_ifs at hm with hbv hav
      refine ⟨?_, Ne.symm hav, .inl hm⟩
      intro heq
      subst heq
      simp [hr] at hm
    · rw [get_expose, get_expose] at ho
      split_ifs at ho with hav hrv
      exact ⟨Ne.symm hrv, Ne.symm hav, .inr ho⟩
  exact ⟨fun hv => (hpairs hv).2.2,
    Option.eq_none_iff_forall_ne_some.2 fun w hw => (hpairs hw).1 rfl,
    Option.eq_none_iff_forall_ne_some.2 fun w hw => (hpairs hw).2.1 rfl⟩

/-- **A smaller matching can be enlarged** by pairs of itself and of the larger one, so that no
covered vertex is given up. -/
theorem exists_covering (simple : neighbors.Simple) (valid : mates.Valid neighbors)
    (valid' : other.Valid neighbors) (less : mates.covered.card < other.covered.card) :
    ∃ larger : Mates n, larger.Valid neighbors ∧ mates.covered ⊂ larger.covered ∧
      larger.DrawnFrom mates other := by
  induction hk : other.covered.card using Nat.strong_induction_on generalizing mates other with
  | _ k ih =>
  obtain ⟨r, hr, hr'⟩ := Finset.exists_mem_notMem_of_card_lt_card less
  obtain ⟨a, hra⟩ := Option.isSome_iff_exists.1 (mem_covered.1 hr)
  have hrm : mates.get r = none := not_mem_covered.1 hr'
  have adj : a ∈ neighbors.get r := valid'.adjacent hra
  have hnew : ∀ m : Mates n, r ∈ (m.join r a).covered := fun m => by simp [covered_join]
  cases ham : mates.get a with
  | none =>
    have hsub : mates.covered ⊆ (mates.join r a).covered := subset_covered_join fun x hx _ _ => hx
    have drawn : mates.DrawnFrom mates other := fun hv => .inl hv
    exact ⟨mates.join r a, valid.join simple adj hrm ham,
      (Finset.ssubset_iff_of_subset hsub).2 ⟨r, hnew mates, hr'⟩,
      drawn.join valid valid' (.inr hra)⟩
  | some b =>
    have hcard := card_covered_unpair valid simple ham
    have hcard' := card_covered_unpair valid' simple hra
    -- Without `a`, its mate `b`, and `r` the matching is still the smaller one.
    obtain ⟨larger, hvalid, hless, hdrawn⟩ := ih _ (by omega) (valid.unpair ham)
      (valid'.unpair hra) (by omega) rfl
    obtain ⟨drawn, hlr, hla⟩ := hdrawn.of_unpair hrm
    rw [covered_unpair] at hless
    have hkeep : ∀ {x}, x ∈ mates.covered → x ≠ a → x ≠ b → x ∈ larger.covered := fun hx ha hb =>
      hless.subset (Finset.mem_erase.2 ⟨hb, Finset.mem_erase.2 ⟨ha, hx⟩⟩)
    cases hlb : larger.get b with
    | some c =>
      -- The mate `b` is covered anyway, so `a` may go to `r`.
      have hsub : mates.covered ⊆ (larger.join r a).covered := by
        refine subset_covered_join fun x hx _ ha => ?_
        by_cases hb : x = b
        · exact mem_covered_of_some (hb ▸ hlb)
        · exact hkeep hx ha hb
      exact ⟨larger.join r a, hvalid.join simple adj hlr hla,
        (Finset.ssubset_iff_of_subset hsub).2 ⟨r, hnew larger, hr'⟩,
        drawn.join valid valid' (.inr hra)⟩
    | none =>
      -- Otherwise `a` goes back to `b`, and what is new elsewhere stays new.
      have hsub : mates.covered ⊆ (larger.join a b).covered :=
        subset_covered_join fun x hx ha hb => hkeep hx ha hb
      obtain ⟨x, hx, hx'⟩ := Finset.exists_of_ssubset hless
      have hxa : x ≠ a := by
        intro heq
        subst heq
        simp [hla] at hx
      have hxb : x ≠ b := by
        intro heq
        subst heq
        simp [hlb] at hx
      refine ⟨larger.join a b, hvalid.join simple (valid.adjacent ham) hla hlb,
        (Finset.ssubset_iff_of_subset hsub).2 ⟨x, ?_, fun hxm => hx' ?_⟩,
        drawn.join valid valid' (.inl ham)⟩
      · rw [covered_join]
        exact Finset.mem_insert_of_mem (Finset.mem_insert_of_mem hx)
      · exact Finset.mem_erase.2 ⟨hxb, Finset.mem_erase.2 ⟨hxa, hxm⟩⟩

end OptimalMatching.Blossom.Mates
