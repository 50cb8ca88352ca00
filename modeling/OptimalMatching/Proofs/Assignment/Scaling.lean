import OptimalMatching.Proofs.Assignment.Stages
/-!
# Scaled costs

A factor of at least one on all costs and a summand for each row change nothing but the scale of a
run. The summands disappear with the first potentials, which leaves the excess times the factor
(`Costs.excess?_scaled`). From then on both runs go in step: the tight cells are the same, and all
that a round computes from them as well, and the least uncovered excess is the same times the factor
(`Run.go_scaled`).
-/

namespace OptimalMatching

variable {n : Nat} {k d : Int} {cost c c' : Fin n → Fin n → Int} {cover : Cover n}

/-- All entries of a grid, multiplied by a factor. -/
def scaled (k : Int) (c : Fin n → Fin n → Int) : Fin n → Fin n → Int := fun i j => k * c i j

/-- The least of some numbers is the least as well after they have been multiplied by a factor that
is not negative and a summand has been added. -/
theorem least_scaled {ι : Type} {f : ι → Int} {m m' : Int} (hk : 0 ≤ k) (a : Int)
    (attained : ∃ x, f x = m) (lower : ∀ x, m ≤ f x) (attained' : ∃ x, k * f x + a = m')
    (lower' : ∀ x, m' ≤ k * f x + a) : m' = k * m + a := by
  obtain ⟨x, hx⟩ := attained
  obtain ⟨y, hy⟩ := attained'
  have hle : m' ≤ k * m + a := hx ▸ lower' x
  have hge : k * m ≤ k * f y := Int.mul_le_mul_of_nonneg_left (lower y) hk
  omega

namespace Costs

/-! ## The first potentials -/

theorem reduceRows?_scaled (hk : 0 ≤ k) (cost : Fin n → Fin n → Int) (a : Fin n → Int) :
    ∃ c, (ofInts cost).reduceRows? = some (ofInts c) ∧
      (ofInts fun i j => k * cost i j + a i).reduceRows? = some (ofInts (scaled k c)) := by
  obtain ⟨u, hu, attained, lower⟩ := reduceRows?_ofInts cost
  obtain ⟨u', hu', attained', lower'⟩ := reduceRows?_ofInts fun i j => k * cost i j + a i
  have hleast : ∀ i, u' i = k * u i + a i := fun i =>
    least_scaled hk (a i) (attained i) (lower i) (attained' i) (lower' i)
  refine ⟨_, hu, hu'.trans (congrArg (fun c => some (ofInts c)) ?_)⟩
  funext i j
  rw [scaled, hleast, Int.mul_sub]
  omega

theorem reduceColumns?_scaled (hk : 0 ≤ k) (cost : Fin n → Fin n → Int) :
    ∃ c, (ofInts cost).reduceColumns? = some (ofInts c) ∧
      (ofInts (scaled k cost)).reduceColumns? = some (ofInts (scaled k c)) := by
  obtain ⟨v, hv, attained, lower⟩ := reduceColumns?_ofInts cost
  obtain ⟨v', hv', attained', lower'⟩ := reduceColumns?_ofInts (scaled k cost)
  have hleast : ∀ j, v' j = k * v j + 0 := fun j => by
    refine least_scaled hk 0 (attained j) (fun i => lower i j) ?_ fun i => ?_
    · simpa [scaled] using attained' j
    · simpa [scaled] using lower' i j
  refine ⟨_, hv, hv'.trans (congrArg (fun c => some (ofInts c)) ?_)⟩
  funext i j
  rw [scaled, scaled, hleast, Int.mul_sub, Int.add_zero]

/-- **The first potentials** leave the excess times the factor. -/
theorem excess?_scaled (hk : 0 ≤ k) (cost : Fin n → Fin n → Int) (a : Fin n → Int) :
    ∃ c, (ofInts cost).excess? = some (ofInts c) ∧
      (ofInts fun i j => k * cost i j + a i).excess? = some (ofInts (scaled k c)) := by
  obtain ⟨c, hc, hc'⟩ := reduceRows?_scaled hk cost a
  obtain ⟨c', hcolumns, hcolumns'⟩ := reduceColumns?_scaled hk c
  refine ⟨c', ?_, ?_⟩
  · rw [excess?, hc]
    exact hcolumns
  · rw [excess?, hc']
    exact hcolumns'

/-! ## One round -/

theorem ofInts_injective : Function.Injective (ofInts : (Fin n → Fin n → Int) → Costs n) := by
  intro c c' heq
  funext i j
  have hcell := congrArg (fun e : Costs n => e.cell i j) heq
  simpa using hcell

theorem tight_scaled (hk : 0 < k) (c : Fin n → Fin n → Int) :
    (ofInts (scaled k c)).tight = (ofInts c).tight := by
  funext i j
  have hzero : k * c i j = 0 ↔ c i j = 0 := Int.mul_eq_zero.trans (or_iff_right hk.ne')
  rw [tight_ofInts, tight_ofInts, scaled, decide_eq_decide]
  exact hzero

/-- The slack of integer excesses is the least of those outside the cover. -/
theorem slack?_eq_some_iff : (ofInts c).slack? cover = some (.int d) ↔
    (∃ i j, cover.misses i j = true ∧ c i j = d) ∧
      ∀ i j, cover.misses i j = true → d ≤ c i j := by
  rw [slack?_ofInts]
  have hmem : ∀ a, a ∈ (uncovered cover).map (fun x => c x.1 x.2) ↔
      ∃ i j, cover.misses i j = true ∧ c i j = a := by
    simp [mem_uncovered]
  constructor
  · intro h
    have ne : (uncovered cover).map (fun x => c x.1 x.2) ≠ [] := by
      intro hnil
      rw [hnil] at h
      cases h
    obtain ⟨m, hm, attained, lower⟩ := Weight.least?_ints ne
    obtain rfl : m = d := Weight.int.inj (Option.some.inj (hm.symm.trans h))
    exact ⟨(hmem m).1 attained, fun i j hij => lower _ ((hmem _).2 ⟨i, j, hij, rfl⟩)⟩
  · rintro ⟨attained, lower⟩
    have hd := (hmem d).2 attained
    obtain ⟨m, hm, attained', lower'⟩ := Weight.least?_ints (List.ne_nil_of_mem hd)
    obtain ⟨i, j, hij, hc⟩ := (hmem m).1 attained'
    rw [hm, le_antisymm (lower' d hd) (hc ▸ lower i j hij)]

theorem slack?_scaled (hk : 0 ≤ k) (h : (ofInts c).slack? cover = some (.int d)) :
    (ofInts (scaled k c)).slack? cover = some (.int (k * d)) := by
  obtain ⟨⟨i, j, hij, hc⟩, lower⟩ := slack?_eq_some_iff.1 h
  refine slack?_eq_some_iff.2 ⟨⟨i, j, hij, by rw [scaled, hc]⟩, fun i j hij => ?_⟩
  exact Int.mul_le_mul_of_nonneg_left (lower i j hij) hk

theorem adjust?_scaled (h : (ofInts c).adjust? cover (.int d) = some (ofInts c')) :
    (ofInts (scaled k c)).adjust? cover (.int (k * d)) = some (ofInts (scaled k c')) := by
  rw [adjust?_ofInts] at h ⊢
  rw [← ofInts_injective (Option.some.inj h)]
  refine congrArg (fun c => some (ofInts c)) ?_
  funext i j
  rw [scaled, scaled, Int.mul_sub, Int.mul_add, mul_ite, mul_ite, Int.mul_zero]

end Costs

/-! ## The run -/

namespace Assignment

variable {p : Pairing n}

/-- A round and the same round on another scale: the pairing and the cover are the same, the
adjustment and the excess after it are multiplied by the factor, and the same cells are tight. -/
structure Round.Scaled (k : Int) (r r' : Round n) : Prop where
  pairing_eq : r'.pairing = r.pairing
  cover_eq : r'.cover = r.cover
  delta : ∃ d : Int, r.delta = .int d ∧ r'.delta = .int (k * d)
  excess : ∃ c, r.excess = Costs.ofInts c ∧ r'.excess = Costs.ofInts (scaled k c)
  tight_eq : r'.excess.tight = r.excess.tight

/-- **A round on another scale** is made as well. -/
theorem Round.Follows.exists_scaled {r : Round n} (hk : 0 < k)
    (follows : r.Follows (Costs.ofInts c) p) (hexcess : r.excess = Costs.ofInts c')
    (incomplete : (p.maximize (Costs.ofInts c).tight).assignment? = none) :
    ∃ r', r.Scaled k r' ∧ ∀ fuel, Run.go (fuel + 1) (Costs.ofInts (scaled k c)) p =
      ⟨r' :: (Run.go fuel (Costs.ofInts (scaled k c')) r.pairing).rounds,
        (Run.go fuel (Costs.ofInts (scaled k c')) r.pairing).ending⟩ := by
  obtain ⟨d, -, hd⟩ := follows.positive
  have htight := Costs.tight_scaled hk c
  have hcover := follows.cover_eq
  have hslack := Costs.slack?_scaled hk.le (hd ▸ follows.slack_eq)
  have hadjust := Costs.adjust?_scaled (k := k) (hd ▸ hexcess ▸ follows.excess_eq)
  refine ⟨⟨r.pairing, r.cover, .int (k * d), Costs.ofInts (scaled k c')⟩,
    ⟨rfl, rfl, ⟨d, hd, rfl⟩, ⟨c', hexcess, rfl⟩, ?_⟩, fun fuel => ?_⟩
  · rw [hexcess]
    exact Costs.tight_scaled hk c'
  · rw [follows.pairing_eq, ← htight] at hcover ⊢
    rw [← htight] at incomplete
    exact Run.go_round incomplete hcover hslack hadjust

/-- **Two runs in step**: their rounds are the same on two scales, and so is how they end. -/
theorem Run.go_scaled (fuel : Nat) (hk : 0 < k) (reduced : Reduced cost c)
    (valid : p.Valid (zeros c)) :
    List.Forall₂ (Round.Scaled k) (go fuel (Costs.ofInts c) p).rounds
        (go fuel (Costs.ofInts (scaled k c)) p).rounds ∧
      (go fuel (Costs.ofInts (scaled k c)) p).ending = (go fuel (Costs.ofInts c) p).ending := by
  induction fuel generalizing c p with
  | zero => exact ⟨.nil, rfl⟩
  | succ fuel ih =>
    have htight := Costs.tight_scaled hk c
    cases hassigned : (p.maximize (Costs.ofInts c).tight).assignment? with
    | some columns =>
      rw [go_assigned hassigned, go_assigned (htight ▸ hassigned), htight]
      exact ⟨.nil, rfl⟩
    | none =>
      obtain ⟨r, c', follows, -, hexcess, reduced', valid', -, -, hgo⟩ :=
        exists_round reduced valid (Costs.tight_eq_zeros c ▸ hassigned)
      obtain ⟨r', hr', hgo'⟩ := follows.exists_scaled hk hexcess hassigned
      obtain ⟨hrounds, hending⟩ := ih reduced' valid'
      rw [hgo, hgo']
      exact ⟨.cons hr' hrounds, hending⟩

/-- **Scaled costs**: a factor of at least one on all costs and a summand for each row leave the
excess times the factor. The rounds of the two runs are the same but for the scale of the excesses
and of the adjustments, they are as many, and the assignment is the same. -/
theorem run_scaled (cost : Fin n → Fin n → Int) (hk : 1 ≤ k) (a : Fin n → Int) :
    ∃ c, (Costs.ofInts cost).excess? = some (Costs.ofInts c) ∧
      (Costs.ofInts fun i j => k * cost i j + a i).excess? =
        some (Costs.ofInts fun i j => k * c i j) ∧
      (Costs.ofInts fun i j => k * c i j).tight = (Costs.ofInts c).tight ∧
      List.Forall₂ (Round.Scaled k) (Run.ofExcess (Costs.ofInts c)).rounds
        (Run.ofExcess (Costs.ofInts fun i j => k * c i j)).rounds ∧
      (Run.ofExcess (Costs.ofInts fun i j => k * c i j)).rounds.length =
        (Run.ofExcess (Costs.ofInts c)).rounds.length ∧
      ∃ p columns, (Run.ofExcess (Costs.ofInts c)).ending = .assigned p columns ∧
        (Run.ofExcess (Costs.ofInts fun i j => k * c i j)).ending = .assigned p columns ∧
        (Run.ofExcess (Costs.ofInts c)).assignment = .ok columns ∧
        (Run.ofExcess (Costs.ofInts fun i j => k * c i j)).assignment = .ok columns := by
  obtain ⟨c, hc, hc'⟩ := Costs.excess?_scaled (Int.le_of_lt hk) cost a
  obtain ⟨c₀, hc₀, reduced⟩ := Costs.excess?_ofInts cost
  obtain rfl := Costs.ofInts_injective (Option.some.inj (hc.symm.trans hc₀))
  obtain ⟨p, columns, -, hending, -⟩ := Run.ofExcess_ends reduced
  have valid := Pairing.valid_empty (zeros c)
  obtain ⟨hrounds, hending'⟩ := Run.go_scaled (n * n + 1) hk reduced valid
  have hsame : (Run.ofExcess (Costs.ofInts (scaled k c))).ending = .assigned p columns :=
    hending'.trans hending
  refine ⟨c, hc, hc', Costs.tight_scaled hk c, hrounds, hrounds.length_eq.symm, p, columns,
    hending, hsame, ?_, ?_⟩
  · rw [Run.assignment, hending]
  · show (Run.ofExcess (Costs.ofInts (scaled k c))).assignment = .ok columns
    rw [Run.assignment, hsame]

theorem run_scaled_products : (1 : Int) ≤ 3 ∧ ∃ c r rest r' rest',
    (Costs.ofInts products).excess? = some (Costs.ofInts c) ∧
      (Costs.ofInts fun i j => 3 * products i j + (i - 7)).excess? =
        some (Costs.ofInts fun i j => 3 * c i j) ∧
      (Run.ofExcess (Costs.ofInts c)).rounds = r :: rest ∧
      (Run.ofExcess (Costs.ofInts fun i j => 3 * c i j)).rounds = r' :: rest' ∧
      r.Scaled 3 r' ∧ rest'.length = rest.length := by
  obtain ⟨c, hc, hc', -, hrounds, hlength, -⟩ :=
    run_scaled products (k := 3) (by decide) fun i => i - 7
  have adjusted : ((Costs.ofInts products).excess?.any fun excess =>
      (Run.ofExcess excess).rounds ≠ []) = true := by
    decide +kernel
  rw [hc, Option.any_some, decide_eq_true_eq] at adjusted
  obtain ⟨r, rest, heq⟩ := List.exists_cons_of_ne_nil adjusted
  rw [heq] at hrounds hlength
  obtain ⟨r', rest', hr', -, heq'⟩ := List.forall₂_cons_left_iff.1 hrounds
  rw [heq'] at hlength
  exact ⟨by decide, c, r, rest, r', rest', hc, hc', heq, heq', hr', Nat.succ.inj hlength⟩

end Assignment

end OptimalMatching
