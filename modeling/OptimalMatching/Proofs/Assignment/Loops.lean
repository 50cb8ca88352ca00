import OptimalMatching.Proofs.Assignment.Augmenting
/-!
# The loops that make a pairing maximum

The operations of a pairing are given a depth and a number of sweeps, and the size of a pairing is
counted anew whenever it is asked for. Here the loops are described without these means: a search
goes down as long as it finds new columns (`Pairing.Tries`), sweeps go on as long as they find
something, and one number is kept along, to which one is added with each cell that is paired in
addition.

A derivation of `Pairing.Builds` is a course of these loops that has come to its end. What the
operations do is such a course (`Pairing.maximize_builds`): neither the depth nor the sweeps are
ever used up, and the number that is kept along is the size of the pairing.
-/

namespace OptimalMatching

variable {n : Nat} {tight : Tight n} {p : Pairing n} {s : Sweep n}

/-! ## Sweeps -/

namespace Sweep

open Pairing

/-- How a sweep goes on over the columns of a list, with the number that is kept along. -/
inductive Goes (tight : Tight n) : List (Fin n) → Sweep n → Nat → Sweep n → Nat → Prop where
  | done {s : Sweep n} {size : Nat} : Goes tight [] s size s size
  | skip {j : Fin n} {rest : List (Fin n)} {s s' : Sweep n} {size size' : Nat}
      (old : s.pairing.rowOf.get j = none → s.entered.columns.get j = true)
      (later : Goes tight rest s size s' size') : Goes tight (j :: rest) s size s' size'
  | vain {j : Fin n} {rest : List (Fin n)} {s s' : Sweep n} {size size' : Nat} {e : Entered n}
      (exposed : s.pairing.rowOf.get j = none) (new : s.entered.columns.get j ≠ true)
      (tried : Tries tight s.pairing j (List.finRange n) (s.entered.enterColumn j) (none, e))
      (later : Goes tight rest { s with entered := e } size s' size') :
      Goes tight (j :: rest) s size s' size'
  | grown {j : Fin n} {rest : List (Fin n)} {s s' : Sweep n} {size size' : Nat} {e : Entered n}
      {path : AugmentingPath n} (exposed : s.pairing.rowOf.get j = none)
      (new : s.entered.columns.get j ≠ true)
      (tried : Tries tight s.pairing j (List.finRange n) (s.entered.enterColumn j) (some path, e))
      (later : Goes tight rest ⟨s.pairing.linkAll path, e, true⟩ (size + 1) s' size') :
      Goes tight (j :: rest) s size s' size'

/-- **A sweep** goes on to its end, and the number stays the size of the pairing. -/
theorem foldl_goes (columns : List (Fin n)) (valid : s.pairing.Valid tight) :
    Goes tight columns s s.pairing.size (columns.foldl (visit tight) s)
      (columns.foldl (visit tight) s).pairing.size := by
  induction columns generalizing s with
  | nil => exact .done
  | cons j rest ih =>
    rw [List.foldl_cons]
    by_cases hskip : s.pairing.rowOf.get j = none → s.entered.columns.get j = true
    · have hvisit : s.visit tight j = s := by
        rw [visit, if_pos]
        cases hrow : s.pairing.rowOf.get j with
        | none => simp [hskip hrow]
        | some i => simp
      rw [hvisit]
      exact .skip hskip (ih valid)
    · obtain ⟨exposed, new⟩ := Classical.not_imp.1 hskip
      have tried : Tries tight s.pairing j _ _ _ := search_tries j s.entered
      have searched : Searched tight s.pairing j _ _ _ := search_searched j s.entered
      rcases hres : s.pairing.search tight j s.entered with ⟨_ | path, e⟩
      · have hvisit : s.visit tight j = { s with entered := e } := by
          simp [visit, grow?, exposed, new, hres]
        rw [hres] at tried
        rw [hvisit]
        exact .vain exposed new tried (ih valid)
      · have hvisit : s.visit tight j = ⟨s.pairing.linkAll path, e, true⟩ := by
          simp [visit, grow?, exposed, new, hres]
        rw [hres] at tried searched
        rw [hvisit]
        -- The number is counted up by one, and so is the size.
        refine .grown exposed new tried ?_
        rw [← size_linkAll_of_searched valid exposed searched]
        exact ih (linkAll_of_searched valid exposed searched).1

end Sweep

namespace Pairing

/-- How sweeps go on until one finds nothing or no line is exposed. -/
inductive Saturates (tight : Tight n) : Pairing n → Nat → Pairing n → Nat → Prop where
  | full {p : Pairing n} {size : Nat} (h : n ≤ size) : Saturates tight p size p size
  | last {p : Pairing n} {s : Sweep n} {size size' : Nat} (less : size < n)
      (sweep : Sweep.Goes tight (List.finRange n) ⟨p, .nowhere, false⟩ size s size')
      (idle : s.grown = false) : Saturates tight p size s.pairing size'
  | more {p q : Pairing n} {s : Sweep n} {size size' size'' : Nat} (less : size < n)
      (sweep : Sweep.Goes tight (List.finRange n) ⟨p, .nowhere, false⟩ size s size')
      (grown : s.grown = true) (later : Saturates tight s.pairing size' q size'') :
      Saturates tight p size q size''

theorem saturate_saturates {sweeps : Nat} (valid : p.Valid tight) (enough : n < sweeps + p.size) :
    Saturates tight p p.size (p.saturate tight sweeps) (p.saturate tight sweeps).size := by
  induction sweeps generalizing p with
  | zero =>
    have := p.size_le
    omega
  | succ sweeps ih =>
    rw [saturate]
    split_ifs with hless
    · obtain ⟨valid', -, hgrown, -⟩ := Sweep.run_spec valid
      have sweep : Sweep.Goes tight (List.finRange n) ⟨p, .nowhere, false⟩ p.size
          (Sweep.run tight p) (Sweep.run tight p).pairing.size :=
        Sweep.foldl_goes (List.finRange n) (s := ⟨p, .nowhere, false⟩) valid
      dsimp only
      split_ifs with hg
      · have := hgrown hg
        exact .more hless sweep hg (ih valid' (by omega))
      · exact .last hless sweep (by simpa using hg)
    · exact .full (Nat.le_of_not_lt hless)

/-! ## The first approximation -/

/-- How the exposed columns of a list take rows, with the number that is kept along. -/
inductive Takes (tight : Tight n) : List (Fin n) → Pairing n → Nat → Pairing n → Nat → Prop where
  | done {p : Pairing n} {size : Nat} : Takes tight [] p size p size
  | paired {i j : Fin n} {rest : List (Fin n)} {p q : Pairing n} {size size' : Nat}
      (partner : p.rowOf.get j = some i) (later : Takes tight rest p size q size') :
      Takes tight (j :: rest) p size q size'
  | vain {j : Fin n} {rest : List (Fin n)} {p q : Pairing n} {size size' : Nat}
      (exposed : p.rowOf.get j = none)
      (noRow : ((List.finRange n).find? fun i => tight i j && (p.columnOf.get i).isNone) = none)
      (later : Takes tight rest p size q size') : Takes tight (j :: rest) p size q size'
  | takes {i j : Fin n} {rest : List (Fin n)} {p q : Pairing n} {size size' : Nat}
      (exposed : p.rowOf.get j = none)
      (first : ((List.finRange n).find? fun i => tight i j && (p.columnOf.get i).isNone) = some i)
      (later : Takes tight rest (p.link i j) (size + 1) q size') :
      Takes tight (j :: rest) p size q size'

theorem foldl_takes (columns : List (Fin n)) (p : Pairing n) :
    Takes tight columns p p.size (columns.foldl (takeFirst tight) p)
      (columns.foldl (takeFirst tight) p).size := by
  induction columns generalizing p with
  | nil => exact .done
  | cons j rest ih =>
    rw [List.foldl_cons, takeFirst]
    split
    · next i partner => exact .paired partner (ih p)
    · next exposed =>
      split
      · next noRow => exact .vain exposed noRow (ih p)
      · next i first =>
        have hi := List.find?_some first
        simp only [Bool.and_eq_true, Option.isNone_iff_eq_none] at hi
        refine .takes exposed first ?_
        rw [← size_of_insert hi.2 (rows_link p i j)]
        exact ih (p.link i j)

/-! ## Building a maximum pairing -/

/-- A course of the loops from a pairing to another one with the number that is given back. -/
def Builds (tight : Tight n) (p q : Pairing n) (size : Nat) : Prop :=
  ∃ p' size', Takes tight (List.finRange n) p p.size p' size' ∧ Saturates tight p' size' q size

/-- **Building a maximum pairing** comes to its end and gives back its size. -/
theorem maximize_builds (valid : p.Valid tight) :
    p.Builds tight (p.maximize tight) (p.maximize tight).size :=
  ⟨_, _, foldl_takes (List.finRange n) p,
    saturate_saturates (greedy_spec valid).1
      (Nat.lt_of_lt_of_le n.lt_succ_self (Nat.le_add_right ..))⟩

end Pairing

end OptimalMatching
