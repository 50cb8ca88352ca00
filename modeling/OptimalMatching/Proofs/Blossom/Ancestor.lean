import OptimalMatching.Proofs.Blossom.Contract
/-!
# The loops of a contraction

Contracting a blossom takes four loops: one goes from the first end of the closing edge up to the
root and notes the bases it passes, one goes up from the second end until it meets such a base, and
two mark the sides. Each is described by a relation in which a step is possible only if the links
that it follows are there (`Tree.Ascent`, `Tree.MeetsAt`, `Tree.Marking`). So a derivation shows two
things at once: the loop comes to its end, and no link is missing on the way.

The operations of a tree are given a number of steps. Whatever they find is derived
(`ascent_of_chain?`, `meetsAt_of_find?`, `marking_of_markSide?`), and in a tree that has grown from
a matching they find something whenever an edge between two outer vertices closes a blossom. The
base where the two ways meet does not depend on which end comes first
(`Tree.Alternating.commonBase?_comm`).
-/

namespace OptimalMatching.Blossom

variable {n : Nat} {neighbors : Neighbors n} {mates : Mates n} {root : Fin n} {t t' : Tree n}

namespace Tree

/-! ## The loops -/

/-- The bases that are passed on the way up from a vertex, until one is exposed. -/
inductive Ascent (t : Tree n) (mates : Mates n) : Fin n → List (Fin n) → Prop where
  | top {v : Fin n} (exposed : mates.get (t.base.get v) = none) : Ascent t mates v [t.base.get v]
  | up {v m u : Fin n} {l : List (Fin n)} (mate : mates.get (t.base.get v) = some m)
      (link : t.parent.get m = some u) (above : Ascent t mates u l) :
      Ascent t mates v (t.base.get v :: l)

/-- The base on the way up from a vertex at which one stops when some bases have been seen. -/
inductive MeetsAt (t : Tree n) (mates : Mates n) (seen : List (Fin n)) : Fin n → Fin n → Prop where
  | here {v : Fin n} (met : t.base.get v ∈ seen) : MeetsAt t mates seen v (t.base.get v)
  | up {v m u b : Fin n} (unmet : t.base.get v ∉ seen) (mate : mates.get (t.base.get v) = some m)
      (link : t.parent.get m = some u) (above : MeetsAt t mates seen u b) :
      MeetsAt t mates seen v b

/-- The marks after a vertex and its mate have been passed on the way up from `child`. -/
def Marks.pass (marks : Marks n) (base : Table (Fin n) n) (v m child : Fin n) : Marks n where
  parent := marks.parent.put v (some child)
  marked := (marks.marked.put (base.get v) true).put (base.get m) true

/-- How one side of a blossom is marked, from a vertex and the one before it up to the base
`stem`. -/
inductive Marking (mates : Mates n) (base : Table (Fin n) n) (stem : Fin n) :
    Fin n → Fin n → Marks n → Marks n → Prop where
  | done {v child : Fin n} {marks : Marks n} (arrived : base.get v = stem) :
      Marking mates base stem v child marks marks
  | up {v child m u : Fin n} {marks marks' : Marks n} (below : base.get v ≠ stem)
      (mate : mates.get v = some m) (link : (marks.pass base v m child).parent.get m = some u)
      (above : Marking mates base stem u m (marks.pass base v m child) marks') :
      Marking mates base stem v child marks marks'

/-- The first member of a list that is in another one. -/
def FirstMet (seen way : List (Fin n)) (b : Fin n) : Prop :=
  b ∈ seen ∧ ∃ below above, way = below ++ b :: above ∧ ∀ c ∈ below, c ∉ seen

/-! ## What the operations find is derived -/

variable {v w b stem child : Fin n} {l seen way : List (Fin n)} {steps : Nat}
  {marks marks' : Marks n}

theorem ascent_of_chain? (h : t.chain? mates steps v = some l) : t.Ascent mates v l := by
  induction steps generalizing v l with
  | zero => cases h
  | succ steps ih =>
    rw [chain?] at h
    split at h
    · next exposed =>
      obtain rfl := Option.some.inj h
      exact .top exposed
    · next m mate =>
      obtain ⟨u, link, h⟩ := Option.bind_eq_some_iff.1 h
      obtain ⟨l', hl', h⟩ := Option.bind_eq_some_iff.1 h
      obtain rfl := Option.some.inj h
      exact .up mate link (ih hl')

theorem meetsAt_of_find? (ascent : t.Ascent mates v way) (h : way.find? (· ∈ seen) = some b) :
    t.MeetsAt mates seen v b := by
  induction ascent with
  | @top v exposed =>
    by_cases met : t.base.get v ∈ seen
    · obtain rfl : t.base.get v = b := by simpa [met] using h
      exact .here met
    · simp [met] at h
  | @up v m u l mate link above ih =>
    by_cases met : t.base.get v ∈ seen
    · obtain rfl : t.base.get v = b := by simpa [met] using h
      exact .here met
    · exact .up met mate link (ih (by simpa [met] using h))

theorem marking_of_markSide? {base : Table (Fin n) n}
    (h : markSide? mates base stem steps v child marks = some marks') :
    Marking mates base stem v child marks marks' := by
  induction steps generalizing v child marks with
  | zero => cases h
  | succ steps ih =>
    rw [markSide?] at h
    split_ifs at h with arrived
    · obtain rfl := Option.some.inj h
      exact .done arrived
    · obtain ⟨m, mate, h⟩ := Option.bind_eq_some_iff.1 h
      obtain ⟨u, link, h⟩ := Option.bind_eq_some_iff.1 h
      exact .up arrived mate link (ih h)

theorem firstMet_of_find? (h : way.find? (· ∈ seen) = some b) : FirstMet seen way b := by
  obtain ⟨hb, below, above, rfl, hbelow⟩ := List.find?_eq_some_iff_append.1 h
  exact ⟨by simpa using hb, below, above, rfl, by simpa using hbelow⟩

/-! ## Closing a blossom -/

/-- The common base of two vertices as it is looked for: `seen` are the bases on the way up from the
first one, `way` those on the way up from the second. -/
structure Meeting (t : Tree n) (mates : Mates n) (v w b : Fin n) (seen way : List (Fin n)) :
    Prop where
  first : t.Ascent mates v seen
  second : t.Ascent mates w way
  meets : t.MeetsAt mates seen w b
  firstMet : FirstMet seen way b
  found : t.commonBase? mates v w = some b

/-- What is done when an edge between the outer vertices `v` and `w` closes a blossom: its base is
the same from either end, and both sides are marked up to it. -/
structure Closing (t : Tree n) (mates : Mates n) (v w stem : Fin n) (seen way : List (Fin n))
    (marks marks' : Marks n) : Prop where
  forth : t.Meeting mates v w stem seen way
  back : t.Meeting mates w v stem way seen
  left : Marking mates t.base stem v w ⟨t.parent, .replicate n false⟩ marks
  right : Marking mates t.base stem w v marks marks'
  contracts : t.contract? mates v w = some (stem, t.merge stem marks')

theorem chains_of_commonBase? (h : t.commonBase? mates v w = some b) :
    ∃ seen way, t.chain? mates (n + 1) v = some seen ∧ t.chain? mates (n + 1) w = some way ∧
      way.find? (· ∈ seen) = some b := by
  obtain ⟨seen, hseen, h⟩ := Option.bind_eq_some_iff.1 h
  obtain ⟨way, hway, h⟩ := Option.bind_eq_some_iff.1 h
  exact ⟨seen, way, hseen, hway, h⟩

theorem marks_of_contract? (h : t.contract? mates v w = some (stem, t')) :
    t.commonBase? mates v w = some stem ∧ ∃ marks marks',
      Marking mates t.base stem v w ⟨t.parent, .replicate n false⟩ marks ∧
        Marking mates t.base stem w v marks marks' ∧ t' = t.merge stem marks' := by
  obtain ⟨stem', hstem, h⟩ := Option.bind_eq_some_iff.1 h
  obtain ⟨marks, hmarks, h⟩ := Option.bind_eq_some_iff.1 h
  obtain ⟨marks', hmarks', h⟩ := Option.bind_eq_some_iff.1 h
  obtain ⟨rfl, rfl⟩ := Prod.mk.inj (Option.some.inj h)
  exact ⟨hstem, marks, marks', marking_of_markSide? hmarks, marking_of_markSide? hmarks', rfl⟩

/-- The lowest common base of two outer vertices is the same from either side. -/
theorem Alternating.commonBase?_comm (h : t.Alternating neighbors mates root)
    (hv : t.outer.get v = true) (hw : t.outer.get w = true) :
    t.commonBase? mates v w = t.commonBase? mates w v := by
  obtain ⟨lv, wayv, clearv⟩ := h.exists_way hv
  obtain ⟨lw, wayw, clearw⟩ := h.exists_way hw
  obtain ⟨b, l, hb, way, meet⟩ := h.commonBase?_eq hv hw wayv wayw clearv clearw
  obtain ⟨b', l', hb', way', meet'⟩ := h.commonBase?_eq hw hv wayw wayv clearw clearv
  -- Each of the two is on both ways, so it is on the way from the other one.
  have hl : b ∈ l' := meet'.lowest b meet.right meet.left meet.fixed
  have hl' : b' ∈ l := meet.lowest b' meet'.right meet'.left meet'.fixed
  rw [hb, hb', way.antisymm way' hl' hl]

theorem meeting_of_find? (hseen : t.chain? mates (n + 1) v = some seen)
    (hway : t.chain? mates (n + 1) w = some way) (h : t.commonBase? mates v w = some b) :
    t.Meeting mates v w b seen way := by
  obtain ⟨seen', way', hseen', hway', hfind⟩ := chains_of_commonBase? h
  obtain rfl := Option.some.inj (hseen.symm.trans hseen')
  obtain rfl := Option.some.inj (hway.symm.trans hway')
  have ascent := ascent_of_chain? hway
  exact ⟨ascent_of_chain? hseen, ascent, meetsAt_of_find? ascent hfind, firstMet_of_find? hfind, h⟩

/-- **Closing a blossom**: all loops come to their end, and no link is missing on the way. -/
theorem Alternating.exists_closing (h : t.Alternating neighbors mates root)
    (valid : mates.Valid neighbors) (simple : neighbors.Simple) (hv : t.outer.get v = true)
    (hw : t.outer.get w = true) (adj : w ∈ neighbors.get v) :
    ∃ stem seen way marks marks', t.Closing mates v w stem seen way marks marks' := by
  obtain ⟨stem, t', hcontract, -⟩ := h.contract valid simple hv hw adj
  obtain ⟨hstem, marks, marks', left, right, rfl⟩ := marks_of_contract? hcontract
  obtain ⟨seen, way, hseen, hway, -⟩ := chains_of_commonBase? hstem
  have hstem' := (h.commonBase?_comm hv hw).symm.trans hstem
  exact ⟨stem, seen, way, marks, marks', meeting_of_find? hseen hway hstem,
    meeting_of_find? hway hseen hstem', left, right, hcontract⟩

end Tree

end OptimalMatching.Blossom
