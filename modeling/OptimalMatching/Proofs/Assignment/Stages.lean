import OptimalMatching.Proofs.Assignment.Run
/-!
# What holds throughout a run

A run calls three operations by turns: it maximizes the pairing, finds a cover, and adjusts the
excess. `Run.stages` lists the excess and the pairing at the start and after each of these calls.

**At every stage** of a run on integer costs the excess is reduced and the pairing is valid: what is
paired has excess zero (`Stage.Sound`). The cover is what this hangs on. A paired cell lies in one
of its lines, so an adjustment leaves it alone, and a zero lies in at least one, so that no excess
falls below zero.

**From stage to stage** no line loses its partner, though it may get another one (`Stage.Keeps`).
-/

namespace OptimalMatching.Assignment

variable {n : Nat}

/-! ## The stages of a run -/

/-- What has just been done. -/
inductive Phase where
  /-- The first potentials were chosen. -/
  | reduced
  /-- The pairing was extended to a maximum pairing. -/
  | maximized
  /-- The cover was found. -/
  | covered
  /-- The potentials were adjusted. -/
  | adjusted
  deriving DecidableEq

/-- What a run holds between two calls. -/
structure Stage (n : Nat) where
  phase : Phase
  excess : Costs n
  pairing : Pairing n

/-- The stages of the round in which a run ends. A call that fails leads to no stage. -/
def Ending.stages (excess : Costs n) : Ending n → List (Stage n)
  | .assigned p _ | .notACover p => [⟨.maximized, excess, p⟩]
  | .nothingUncovered p _ | .tooLarge p _ _ =>
    [⟨.maximized, excess, p⟩, ⟨.covered, excess, p⟩]
  | .unbounded => []

/-- The stages of the rounds from an excess on. -/
def stagesFrom (ending : Ending n) : Costs n → List (Round n) → List (Stage n)
  | excess, [] => ending.stages excess
  | excess, r :: rest =>
    [⟨.maximized, excess, r.pairing⟩, ⟨.covered, excess, r.pairing⟩,
      ⟨.adjusted, r.excess, r.pairing⟩] ++ stagesFrom ending r.excess rest

/-- The stages of a run from an excess. -/
def Run.stages (excess : Costs n) (r : Run n) : List (Stage n) :=
  ⟨.reduced, excess, .empty⟩ :: stagesFrom r.ending excess r.rounds

/-- The excess belongs to integer costs and is reduced, and the pairing is valid. -/
def Stage.Sound (cost : Fin n → Fin n → Int) (s : Stage n) : Prop :=
  ∃ c, s.excess = Costs.ofInts c ∧ Reduced cost c ∧ s.pairing.Valid (zeros c)

/-- Lines that are paired at one stage are paired at another. -/
def Stage.Keeps (s t : Stage n) : Prop :=
  s.pairing.rows ⊆ t.pairing.rows ∧ s.pairing.columns ⊆ t.pairing.columns

/-! ## From stage to stage -/

/-- Every stage is sound and keeps paired what a pairing pairs, and so does each stage with those
before it. -/
def Sustained (cost : Fin n → Fin n → Int) (p : Pairing n) (stages : List (Stage n)) : Prop :=
  (∀ s ∈ stages, s.Sound cost ∧ p.rows ⊆ s.pairing.rows ∧ p.columns ⊆ s.pairing.columns) ∧
    stages.Pairwise Stage.Keeps

variable {cost c : Fin n → Fin n → Int} {p q : Pairing n} {stages : List (Stage n)}

theorem Sustained.nil : Sustained cost p [] := ⟨by simp, .nil⟩

/-- One more stage before stages that keep what it pairs. -/
theorem Sustained.cons (h : Sustained cost q stages) (extends' : p.Extends q) (phase : Phase)
    (reduced : Reduced cost c) (valid : q.Valid (zeros c)) :
    Sustained cost p (⟨phase, Costs.ofInts c, q⟩ :: stages) := by
  refine ⟨fun s hs => ?_, List.pairwise_cons.2 ⟨fun s hs => (h.1 s hs).2, h.2⟩⟩
  rcases List.mem_cons.1 hs with rfl | hs
  · exact ⟨⟨c, rfl, reduced, valid⟩, extends'.rows, extends'.columns⟩
  · obtain ⟨sound, hrows, hcolumns⟩ := h.1 s hs
    exact ⟨sound, extends'.rows.trans hrows, extends'.columns.trans hcolumns⟩

/-- **The stages of a run** from a reduced excess and a valid pairing. -/
theorem Run.go_sustained {fuel : Nat} (reduced : Reduced cost c) (valid : p.Valid (zeros c)) :
    Sustained cost p (stagesFrom (go fuel (Costs.ofInts c) p).ending (Costs.ofInts c)
      (go fuel (Costs.ofInts c) p).rounds) := by
  induction fuel generalizing c p with
  | zero => exact .nil
  | succ fuel ih =>
    obtain ⟨valid', extends', -⟩ := Pairing.maximize_spec valid
    cases hassigned : (p.maximize (zeros c)).assignment? with
    | some columns =>
      rw [go_of_assignment? hassigned]
      exact Sustained.nil.cons extends' .maximized reduced valid'
    | none =>
      obtain ⟨r, c', -, hpairing, hexcess, reduced', hvalid, -, -, hgo⟩ :=
        exists_round reduced valid hassigned
      rw [hgo, stagesFrom, hexcess, hpairing]
      rw [hpairing] at hvalid
      -- The pairing stays while the cover is found and the excess is adjusted.
      have later := (ih reduced' hvalid).cons (.refl _) .adjusted reduced' hvalid
      exact (later.cons (.refl _) .covered reduced valid').cons extends' .maximized reduced valid'

/-- **Throughout the run on integer costs** the excess is the costs less potentials of the rows and
columns, it is nowhere negative and has a zero in each row and in each column; rows and columns are
paired mutually, in cells with excess zero; and a line that is paired stays so. -/
theorem stages_sound (cost : Fin n → Fin n → Int) :
    ∃ excess, (Costs.ofInts cost).excess? = some excess ∧
      (∃ p columns, (Run.ofExcess excess).ending = .assigned p columns) ∧
      (∀ s ∈ (Run.ofExcess excess).stages excess, s.Sound cost) ∧
      ((Run.ofExcess excess).stages excess).Pairwise Stage.Keeps := by
  obtain ⟨c, hc, reduced⟩ := Costs.excess?_ofInts cost
  obtain ⟨p, columns, -, hending, -⟩ := Run.ofExcess_ends reduced
  have valid := Pairing.valid_empty (zeros c)
  have sustained :
      Sustained cost .empty ((Run.ofExcess (Costs.ofInts c)).stages (Costs.ofInts c)) :=
    (Run.go_sustained reduced valid).cons (.refl _) .reduced reduced valid
  exact ⟨_, hc, ⟨p, columns, hending⟩, fun s hs => (sustained.1 s hs).1, sustained.2⟩

/-- Costs that grow along rows and columns, so that the first potentials do not do. -/
def products (i j : Fin 3) : Int := (i + 1 : Int) * (j + 1)

theorem stages_sound_products : ∃ excess, (Costs.ofInts products).excess? = some excess ∧
    ∃ s ∈ (Run.ofExcess excess).stages excess, s.phase = .adjusted ∧ s.Sound products := by
  obtain ⟨excess, hexcess, -, sound, -⟩ := stages_sound products
  have adjusted : ((Costs.ofInts products).excess?.any fun excess =>
      ((Run.ofExcess excess).stages excess).any fun s => s.phase = .adjusted) = true := by
    decide +kernel
  rw [hexcess, Option.any_some] at adjusted
  obtain ⟨s, hs, hphase⟩ := List.any_eq_true.1 adjusted
  exact ⟨excess, hexcess, s, hs, by simpa using hphase, sound s hs⟩

end OptimalMatching.Assignment
