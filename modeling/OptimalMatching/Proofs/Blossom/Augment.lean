import OptimalMatching.Blossom.Run
import OptimalMatching.Proofs.Blossom.Search
/-!
# Tracing and flipping paths

**Tracing.** From the vertex that a search has reached, the links of the tree are followed: to its
parent, to the mate of the parent, to the parent of the mate, and so on. `Trace` lists the vertices
met. Read backwards they are an augmenting path from the root (`Reached.exists_trace`).

**Flipping.** When the edges of an augmenting path are taken in and out by turns, the result is a
matching that covers the two ends of the path in addition (`AugmentingPath.flip`). The run does this
while it follows the links (`Trace.flip?_eq`).
-/

namespace OptimalMatching.Blossom

variable {n : Nat} {neighbors : Neighbors n} {mates mates' : Mates n} {root : Fin n} {t : Tree n}

/-! ## Alternating lists -/

/-- Whether the edge after `k` others is to be matched, when `matched` tells it of the first. -/
def matchedAfter (matched : Bool) (k : Nat) : Bool := if k % 2 = 0 then matched else !matched

theorem matchedAfter_succ (matched : Bool) (k : Nat) :
    matchedAfter matched (k + 1) = matchedAfter (!matched) k := by
  by_cases hk : k % 2 = 0
  · rw [matchedAfter, matchedAfter, if_neg (by omega), if_pos hk]
  · rw [matchedAfter, matchedAfter, if_pos (by omega), if_neg hk, Bool.not_not]

theorem matchedAfter_matchedAfter (matched : Bool) (k : Nat) :
    matchedAfter (matchedAfter matched k) k = matched := by
  by_cases hk : k % 2 = 0 <;> simp [matchedAfter, hk]

namespace Alternates

variable {matched : Bool} {l : List (Fin n)}

theorem congr (h : Alternates neighbors mates matched l)
    (same : ∀ a ∈ l, mates'.get a = mates.get a) : Alternates neighbors mates' matched l := by
  induction l generalizing matched with
  | nil => trivial
  | cons a l ih =>
    cases l with
    | nil => trivial
    | cons b l =>
      refine ⟨h.1, ?_, ih h.2.2 fun c hc => same c (List.mem_cons_of_mem _ hc)⟩
      rw [same a List.mem_cons_self]
      exact h.2.1

theorem concat_iff {x y : Fin n} : Alternates neighbors mates matched (l ++ [x, y]) ↔
    Alternates neighbors mates matched (l ++ [x]) ∧ y ∈ neighbors.get x ∧
      (mates.get x = some y ↔ matchedAfter matched l.length = true) := by
  induction l generalizing matched with
  | nil => simp [Alternates, matchedAfter]
  | cons a l ih =>
    rw [List.length_cons, matchedAfter_succ]
    cases l with
    | nil => simp [Alternates, matchedAfter, and_assoc]
    | cons b l =>
      simp only [List.cons_append] at ih ⊢
      simp only [Alternates, ih, and_assoc]

theorem reverse (h : Alternates neighbors mates matched l) (valid : mates.Valid neighbors)
    (simple : neighbors.Simple) :
    Alternates neighbors mates (matchedAfter matched l.length) l.reverse := by
  induction l generalizing matched with
  | nil => trivial
  | cons a l ih =>
    cases l with
    | nil => trivial
    | cons b l =>
      rw [List.length_cons, matchedAfter_succ, List.reverse_cons, List.reverse_cons,
        List.append_assoc]
      refine concat_iff.2 ⟨by simpa using ih h.2.2, simple.symm h.1, ?_⟩
      rw [List.length_cons, matchedAfter_succ, Bool.not_not, List.length_reverse,
        matchedAfter_matchedAfter, ← h.2.1]
      exact ⟨valid.symm, valid.symm⟩

end Alternates

/-! ## Tracing the links -/

/-- The vertices met from `v` when one goes to the parent and from there to the mate by turns,
until a parent is exposed. -/
inductive Trace (parent : Table (Option (Fin n)) n) (mates : Mates n) :
    Fin n → List (Fin n) → Prop where
  | last {v p : Fin n} (link : parent.get v = some p) (exposed : mates.get p = none) :
      Trace parent mates v [v, p]
  | step {v p u : Fin n} {l : List (Fin n)} (link : parent.get v = some p)
      (mate : mates.get p = some u) (trace : Trace parent mates u l) :
      Trace parent mates v (v :: p :: l)

theorem Trace.even_length {parent : Table (Option (Fin n)) n} {v : Fin n} {l : List (Fin n)}
    (trace : Trace parent mates v l) : l.length % 2 = 0 := by
  induction trace with
  | last => simp
  | step _ _ _ ih =>
    simp only [List.length_cons]
    omega

/-- Along a clear way to the root, the trace is a simple alternating path. -/
theorem Tree.Alternating.exists_trace (h : t.Alternating neighbors mates root)
    (valid : mates.Valid neighbors) (simple : neighbors.Simple) {v p : Fin n} {l : List (Fin n)}
    (link : t.parent.get v = some p) (way : Way t.parent mates p l) (clear : Clear mates l)
    (hv : v ∉ l) (hmate : ∀ a ∈ l, mates.get v ≠ some a) :
    ∃ path, Trace t.parent mates v path ∧ path.head? = some v ∧ path.getLast? = some root ∧
      path.Nodup ∧ Alternates neighbors mates false path ∧
        ∀ q ∈ path, q = v ∨ q ∈ l ∨ ∃ a ∈ l, mates.get a = some q := by
  have hpo : t.outer.get p = true := h.parent_outer link
  have adj : p ∈ neighbors.get v := simple.symm (h.parent_adjacent link)
  -- Along the way: `v` stays off the rest of it, and so does the mate of `v`.
  induction way generalizing v with
  | @top p exposed =>
    have hvp : v ≠ p := fun hvp => hv (by simp [hvp])
    have hmvp : mates.get v ≠ some p := hmate p List.mem_cons_self
    refine ⟨[v, p], .last link exposed, rfl, ?_, by simp [hvp], ⟨adj, by simp [hmvp], trivial⟩, ?_⟩
    · rw [h.eq_root hpo exposed]
      rfl
    · intro q hq
      rcases List.mem_cons.1 hq with rfl | hq
      · exact .inl rfl
      · exact .inr (.inl hq)
  | @up p m u l mate link' way ih =>
    have hpl : p ∉ l := (List.nodup_cons.1 clear.1).1
    have hml : m ∉ l := fun hm =>
      clear.2 p List.mem_cons_self m (List.mem_cons_of_mem _ hm) mate
    have hmate' : ∀ a ∈ l, mates.get m ≠ some a := fun a ha hma =>
      hpl (Option.some.inj ((valid.symm mate).symm.trans hma) ▸ ha)
    obtain ⟨path, trace, hhead, hlast, nodup, alternates, hpath⟩ :=
      ih link' (clear.sublist (List.sublist_cons_self _ _)) hml hmate' (h.parent_outer link')
        (simple.symm (h.parent_adjacent link'))
    obtain ⟨rest, rfl⟩ : ∃ rest, path = m :: rest := by
      cases trace <;> exact ⟨_, rfl⟩
    have hmvp : mates.get v ≠ some p := hmate p List.mem_cons_self
    have hvm : v ≠ m := by
      intro heq
      subst heq
      exact hmvp (valid.symm mate)
    have hvp : v ≠ p := fun hvp => hv (by simp [hvp])
    have hpm : p ≠ m := valid.ne_self simple mate
    refine ⟨v :: p :: m :: rest, .step link mate trace, rfl, by simpa using hlast, ?_,
      ⟨adj, by simp [hmvp], valid.adjacent mate, by simp [mate], alternates⟩, ?_⟩
    · -- Neither `v` nor `p` comes again, as the path above is on the way or matched to it.
      refine List.nodup_cons.2 ⟨fun hmem => ?_, List.nodup_cons.2 ⟨fun hmem => ?_, nodup⟩⟩
      · rcases List.mem_cons.1 hmem with hmem | hmem
        · exact hvp hmem
        · rcases hpath v hmem with hmem | hmem | ⟨a, ha, hav⟩
          · exact hvm hmem
          · exact hv (List.mem_cons_of_mem _ hmem)
          · exact hmate a (List.mem_cons_of_mem _ ha) (valid.symm hav)
      · rcases hpath p hmem with hmem | hmem | ⟨a, ha, hap⟩
        · exact hpm hmem
        · exact hpl hmem
        · exact clear.2 a (List.mem_cons_of_mem _ ha) p List.mem_cons_self hap
    · intro q hq
      rcases List.mem_cons.1 hq with rfl | hq
      · exact .inl rfl
      · rcases List.mem_cons.1 hq with rfl | hq
        · exact .inr (.inl List.mem_cons_self)
        · rcases hpath q hq with rfl | hq | ⟨a, ha, hq⟩
          · exact .inr (.inr ⟨p, List.mem_cons_self, mate⟩)
          · exact .inr (.inl (List.mem_cons_of_mem _ hq))
          · exact .inr (.inr ⟨a, List.mem_cons_of_mem _ ha, hq⟩)

/-- **The trace of a vertex that was reached** is an augmenting path, read backwards. -/
theorem Reached.exists_trace {v : Fin n} (r : Reached neighbors mates root t v)
    (valid : mates.Valid neighbors) (simple : neighbors.Simple) :
    ∃ path, Trace t.parent mates v path ∧ AugmentingPath neighbors mates v root path ∧
      AugmentingPath neighbors mates root v path.reverse := by
  obtain ⟨p, link⟩ := r.link
  obtain ⟨l, way, clear⟩ := r.tree.exists_way (r.tree.parent_outer link)
  have hv : v ∉ l := fun hv =>
    r.ne_root (r.tree.eq_root (r.tree.outer_of_mem_way (r.tree.parent_outer link) way hv) r.exposed)
  obtain ⟨path, trace, hhead, hlast, nodup, alternates, -⟩ :=
    r.tree.exists_trace valid simple link way clear hv (by simp [r.exposed])
  have alternates' := alternates.reverse valid simple
  rw [matchedAfter, if_pos trace.even_length] at alternates'
  refine ⟨path, trace, ⟨hhead, hlast, r.ne_root, r.exposed, r.tree.root_exposed, nodup, alternates⟩,
    ?_⟩
  exact ⟨by simpa using hlast, by simpa using hhead, r.ne_root.symm, r.tree.root_exposed, r.exposed,
    List.nodup_reverse.2 nodup, alternates'⟩

/-! ## Flipping a path -/

/-- Joins the vertices of a list two by two. -/
def flipAlong : List (Fin n) → Mates n → Mates n
  | a :: b :: l, mates => flipAlong l (mates.join a b)
  | _, mates => mates

theorem Trace.flip?_eq {parent : Table (Option (Fin n)) n} {v : Fin n} {l : List (Fin n)}
    {steps : Nat} (trace : Trace parent mates v l) (nodup : l.Nodup)
    (same : ∀ a ∈ l, mates'.get a = mates.get a) (enough : l.length ≤ steps) :
    flip? parent steps v mates' = some (flipAlong l mates') := by
  induction trace generalizing mates' steps with
  | @last v p link exposed =>
    obtain ⟨steps, rfl⟩ : ∃ k, steps = k + 1 := ⟨steps - 1, by simp at enough; omega⟩
    have hp : mates'.get p = none := by rw [same p (by simp), exposed]
    simp [flip?, link, hp, flipAlong, Mates.join]
  | @step v p u l link mate trace ih =>
    simp only [List.length_cons] at enough
    obtain ⟨steps, rfl⟩ : ∃ k, steps = k + 1 := ⟨steps - 1, by omega⟩
    have hp : mates'.get p = some u := by rw [same p (by simp), mate]
    have hvp := List.nodup_cons.1 nodup
    have hpl := List.nodup_cons.1 hvp.2
    -- The vertices further up still have the mates they had before the flip.
    have same' : ∀ a ∈ l, (mates'.join v p).get a = mates.get a := by
      intro a ha
      have hpa : p ≠ a := fun h => hpl.1 (h ▸ ha)
      have hva : v ≠ a := fun h => hvp.1 (h ▸ List.mem_cons_of_mem _ ha)
      rw [Mates.get_join, if_neg hpa, if_neg hva]
      exact same a (by simp [ha])
    have := ih hpl.2 same' (Nat.le_of_succ_le (Nat.le_of_succ_le_succ enough))
    simpa [flip?, link, hp, flipAlong, Mates.join] using this

/-- After the first two edges of an augmenting path have been exchanged, the rest of it is an
augmenting path that starts in an exposed vertex again. -/
theorem AugmentingPath.rest {a b c last : Fin n} {l : List (Fin n)}
    (h : AugmentingPath neighbors mates a last (a :: b :: c :: l)) (valid : mates.Valid neighbors)
    (mate : mates.get b = some c) :
    AugmentingPath neighbors ((mates.join a b).expose c) c last (c :: l) := by
  have hget : ∀ x, ((mates.join a b).expose c).get x =
      if c = x then none else if b = x then some a else if a = x then some b
        else mates.get x := fun x => by rw [Mates.get_expose, Mates.get_join]
  have hab := List.nodup_cons.1 h.simple
  have hbc := List.nodup_cons.1 hab.2
  have hcl := List.nodup_cons.1 hbc.2
  -- Only `a`, `b` and `c` have been touched.
  have hsame : ∀ x ∈ l, ((mates.join a b).expose c).get x = mates.get x := by
    intro x hx
    have ha : a ≠ x := fun h => hab.1 (by simp [h, hx])
    have hb : b ≠ x := fun h => hbc.1 (by simp [h, hx])
    have hc : c ≠ x := fun h => hcl.1 (h ▸ hx)
    rw [hget, if_neg hc, if_neg hb, if_neg ha]
  have ends : (c :: l).getLast? = some last := by simpa using h.ends
  have hne : c ≠ last := by
    intro heq
    subst heq
    simpa [valid.symm mate] using h.exposed_last
  constructor
  case starts => rfl
  case ends => exact ends
  case distinct => exact hne
  case exposed_first => simp [hget]
  case exposed_last =>
    have hmem : last ∈ l := (List.mem_cons.1 (List.mem_of_getLast? ends)).resolve_left hne.symm
    rw [hsame last hmem, h.exposed_last]
  case simple => exact hbc.2
  case alternates =>
    cases l with
    | nil => trivial
    | cons d l =>
      obtain ⟨hcd, -, alternates⟩ := h.alternates.2.2.2.2
      exact ⟨hcd, by simp [hget], alternates.congr hsame⟩

/-- **Flipping an augmenting path** gives a matching that covers the two ends in addition. -/
theorem AugmentingPath.flip {first last : Fin n} {path : List (Fin n)}
    (h : AugmentingPath neighbors mates first last path) (valid : mates.Valid neighbors)
    (simple : neighbors.Simple) : (flipAlong path mates).Valid neighbors ∧
      ∀ v, ((flipAlong path mates).get v).isSome ↔
        v = first ∨ v = last ∨ (mates.get v).isSome := by
  -- Two edges at a time; after them the path goes on from an exposed vertex.
  induction path using List.twoStepInduction generalizing first mates with
  | nil => cases h.starts
  | singleton a =>
    exact absurd (Option.some.inj (h.starts.symm.trans h.ends)) h.distinct
  | cons_cons a b l ih _ =>
    obtain rfl : a = first := Option.some.inj h.starts
    cases l with
    | nil =>
      obtain rfl : b = last := Option.some.inj h.ends
      have hflip : flipAlong [a, b] mates = mates.join a b := rfl
      refine ⟨valid.join simple h.alternates.1 h.exposed_first h.exposed_last, fun v => ?_⟩
      rw [hflip, Mates.get_join]
      split_ifs with hb ha
      · simp [hb]
      · simp [ha]
      · simp [Ne.symm hb, Ne.symm ha]
    | cons c l =>
      have mate : mates.get b = some c := by simpa using h.alternates.2.2.2.1
      have hrest := h.rest valid mate
      obtain ⟨d, l, rfl⟩ : ∃ d l', l = d :: l' := by
        cases l with
        | nil => exact absurd (Option.some.inj hrest.ends) hrest.distinct
        | cons d l => exact ⟨d, l, rfl⟩
      have hflip : flipAlong (a :: b :: c :: d :: l) mates =
          flipAlong (c :: d :: l) ((mates.join a b).expose c) := by
        simp only [flipAlong, Mates.join_expose]
      obtain ⟨valid', hcov⟩ :=
        ih hrest (valid.rotate simple h.alternates.1 h.exposed_first mate)
      rw [hflip]
      refine ⟨valid', fun v => (hcov v).trans ?_⟩
      rw [Mates.get_expose, Mates.get_join]
      split_ifs with hc hb ha
      · simp [← hc, valid.symm mate]
      · simp [← hb, mate]
      · simp [ha]
      · simp [Ne.symm hc, Ne.symm ha]

end OptimalMatching.Blossom
