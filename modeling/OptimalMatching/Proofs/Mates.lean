import Mathlib.Data.Finset.Card
import Mathlib.Data.List.Pairwise
import OptimalMatching.Matching
import OptimalMatching.Proofs.Graph.Neighbors
/-!
# The mates that edges make

A matching enters its edges one after the other. An edge makes its two ends mates of each other,
unless one of them has a mate already. What an edge is does not matter here: edges can be told
apart, and each of them has two ends, which may be the same vertex.

**Entered so far.** The table of mates knows exactly the ends of the edges that have been entered
(`Matching.Records`). So the next edge is refused exactly when it meets one of these, and all edges
are entered exactly when no two of them meet (`Matching.enterAll_spec`).

**In any order.** Whether two edges of a set meet does not depend on the order in which the set is
listed, and neither does what the table knows in the end (`Matching.ofEdges_matches`). In
particular edges of a graph of which no two have a common end make a matching
(`Matching.ofEdges_eq_ok`).
-/

namespace OptimalMatching

/-- The two ends of an edge. -/
abbrev Ends := Vertex × Vertex

/-- A vertex is one of the ends. -/
def Ends.Has (p : Ends) (x : Vertex) : Prop := p.1 = x ∨ p.2 = x

/-- Two vertices are the ends, one way round or the other. -/
def Ends.Joins (p : Ends) (x y : Vertex) : Prop := p = (x, y) ∨ p = (y, x)

/-- Two edges have a common end. -/
def Ends.Meet (p q : Ends) : Prop := ∃ x, p.Has x ∧ q.Has x

instance (p : Ends) (x : Vertex) : Decidable (p.Has x) := inferInstanceAs (Decidable (_ ∨ _))

theorem Ends.meet_iff {p q : Ends} : p.Meet q ↔ q.Has p.1 ∨ q.Has p.2 := by
  constructor
  · rintro ⟨x, rfl | rfl, hx⟩
    · exact .inl hx
    · exact .inr hx
  · rintro (hs | ht)
    · exact ⟨p.1, .inl rfl, hs⟩
    · exact ⟨p.2, .inr rfl, ht⟩

instance (p q : Ends) : Decidable (p.Meet q) := decidable_of_iff _ Ends.meet_iff.symm

theorem Ends.Joins.symm {p : Ends} {x y : Vertex} (h : p.Joins x y) : p.Joins y x := Or.symm h

theorem Ends.Joins.has {p : Ends} {x y : Vertex} (h : p.Joins x y) : p.Has x := by
  rcases h with rfl | rfl
  · exact .inl rfl
  · exact .inr rfl

/-- Whoever is an end is joined to someone. -/
theorem Ends.has_iff {p : Ends} {x : Vertex} : p.Has x ↔ ∃ y, p.Joins x y := by
  constructor
  · rintro (rfl | rfl)
    · exact ⟨p.2, .inl rfl⟩
    · exact ⟨p.1, .inr rfl⟩
  · rintro ⟨y, hy⟩
    exact hy.has

/-- Seen from one end, the other one is joined to it. -/
theorem Ends.joins_iff_of_fst {p : Ends} {x y : Vertex} (h : p.1 = x) :
    p.Joins x y ↔ p.2 = y := by
  subst h
  unfold Ends.Joins
  rw [Prod.ext_iff, Prod.ext_iff]
  exact ⟨fun hj => hj.elim And.right fun hj => hj.2.trans hj.1, fun ht => .inl ⟨rfl, ht⟩⟩

theorem Ends.joins_iff_of_snd {p : Ends} {x y : Vertex} (h : p.2 = x) :
    p.Joins x y ↔ p.1 = y := by
  subst h
  unfold Ends.Joins
  rw [Prod.ext_iff, Prod.ext_iff]
  exact ⟨fun hj => hj.elim (fun hj => hj.1.trans hj.2) And.left, fun hs => .inr ⟨hs, rfl⟩⟩

theorem Ends.Meet.symm {p q : Ends} (h : p.Meet q) : q.Meet p := h.imp fun _ hx => hx.symm

namespace Matching

variable {ε : Type} {ends : ε → Ends} {done es edges order : List ε} {e : ε}
  {mates : OrderedMap Vertex Vertex} {endpoints : ε → Except Failure (Vertex × Vertex)}

/-! ## Entering edges -/

/-- A table knows the ends of edges, and nothing else, as mates of each other. -/
def Records (mates : OrderedMap Vertex Vertex) (ends : ε → Ends) (done : List ε) : Prop :=
  ∀ x y, mates.get? x = some y ↔ ∃ e ∈ done, (ends e).Joins x y

/-- No two edges of a list meet. -/
def Apart (ends : ε → Ends) (es : List ε) : Prop :=
  es.Pairwise fun e f => ¬ (ends e).Meet (ends f)

theorem records_empty : Records .empty ends [] := fun x y => by simp

/-- Makes the ends of edges mates, one edge after the other. -/
def enterAll (endpoints : ε → Except Failure (Vertex × Vertex)) (mates : OrderedMap Vertex Vertex)
    (es : List ε) : Except Failure (OrderedMap Vertex Vertex) :=
  es.foldlM (fun mates e => do pair mates (← endpoints e)) mates

theorem Records.mem_keys_iff (h : Records mates ends done) {x : Vertex} :
    x ∈ mates.keys ↔ ∃ e ∈ done, (ends e).Has x := by
  rw [← OrderedMap.contains_iff, OrderedMap.contains, Option.isSome_iff_exists]
  simp only [h x, Ends.has_iff]
  constructor
  · rintro ⟨y, e, he, hy⟩
    exact ⟨e, he, y, hy⟩
  · rintro ⟨e, he, y, hy⟩
    exact ⟨y, e, he, hy⟩

/-- An edge is refused when it meets one that has been entered. -/
theorem Records.pair_eq_error (h : Records mates ends done) {f : ε} (hf : f ∈ done)
    (hmeet : (ends f).Meet (ends e)) : pair mates (ends e) = .error .sharedEnd := by
  obtain ⟨x, hfx, hex⟩ := hmeet
  have hx : x ∈ mates.keys := h.mem_keys_iff.2 ⟨f, hf, hfx⟩
  refine if_pos ?_
  rw [OrderedMap.contains_iff, OrderedMap.contains_iff]
  rcases hex with rfl | rfl
  · exact .inl hx
  · exact .inr hx

/-- **One more edge** that meets none of the others. -/
theorem Records.exists_pair (h : Records mates ends done)
    (free : ∀ f ∈ done, ¬ (ends f).Meet (ends e)) :
    ∃ mates', pair mates (ends e) = .ok mates' ∧ Records mates' ends (done ++ [e]) := by
  have hfree : ∀ x, (ends e).Has x → x ∉ mates.keys := by
    intro x hx hmem
    obtain ⟨f, hf, hfx⟩ := h.mem_keys_iff.1 hmem
    exact free f hf ⟨x, hfx, hx⟩
  have hs := hfree _ (.inl rfl)
  have ht := hfree _ (.inr rfl)
  refine ⟨_, if_neg (by simp [hs, ht]), fun x y => ?_⟩
  rw [OrderedMap.get?_insert, OrderedMap.get?_insert]
  simp only [List.mem_append, List.mem_singleton, or_and_right, exists_or, exists_eq_left]
  -- an end of the new edge is an end of none of the others
  have hother : (ends e).Has x → ¬ ∃ f ∈ done, (ends f).Joins x y := fun hx hjoins =>
    hfree x hx (h.mem_keys_iff.2 (hjoins.imp fun f hf => ⟨hf.1, hf.2.has⟩))
  split_ifs with hxt hxs
  · rw [Option.some_inj, Ends.joins_iff_of_snd hxt, or_iff_right (hother (.inr hxt))]
  · rw [Option.some_inj, Ends.joins_iff_of_fst hxs, or_iff_right (hother (.inl hxs))]
  · rw [h x y, or_iff_left fun hj => hj.has.elim hxs hxt]

/-- **All edges** are entered if no two of them meet, and otherwise one of them is refused. -/
theorem enterAll_spec (h : Records mates ends done) (apart : Apart ends done)
    (total : ∀ e ∈ es, endpoints e = .ok (ends e)) :
    (Apart ends (done ++ es) → ∃ mates', enterAll endpoints mates es = .ok mates' ∧
      Records mates' ends (done ++ es)) ∧
    (¬ Apart ends (done ++ es) → enterAll endpoints mates es = .error .sharedEnd) := by
  -- Over the edges that are left, with the mates recording the edges that are done.
  induction es generalizing done mates with
  | nil =>
    rw [List.append_nil]
    exact ⟨fun _ => ⟨mates, rfl, h⟩, fun hnot => absurd apart hnot⟩
  | cons e es ih =>
    have hstep : enterAll endpoints mates (e :: es) =
        (pair mates (ends e)).bind fun mates' => enterAll endpoints mates' es := by
      unfold enterAll
      rw [List.foldlM_cons, total e List.mem_cons_self]
      rfl
    have hsplit : done ++ e :: es = (done ++ [e]) ++ es := by simp
    rw [hstep]
    by_cases hmeet : ∃ f ∈ done, (ends f).Meet (ends e)
    · -- The edge meets one that is done: it is refused, and the whole list is not apart.
      obtain ⟨f, hf, hfe⟩ := hmeet
      rw [h.pair_eq_error hf hfe]
      refine ⟨fun hapart => ?_, fun _ => rfl⟩
      exact absurd hfe ((List.pairwise_append.1 hapart).2.2 f hf e List.mem_cons_self)
    · have free : ∀ f ∈ done, ¬ (ends f).Meet (ends e) := fun f hf hfe => hmeet ⟨f, hf, hfe⟩
      obtain ⟨mates', hpair, hrecords⟩ := h.exists_pair free
      have hdone : Apart ends (done ++ [e]) :=
        List.pairwise_append.2 ⟨apart, List.pairwise_singleton .., by simpa using free⟩
      rw [hpair, hsplit]
      exact ih hrecords hdone fun f hf => total f (List.mem_cons_of_mem _ hf)

/-! ## The matching of a set of edges -/

/-- Two different edges have a common end. -/
def Clash (ends : ε → Ends) (edges : List ε) : Prop :=
  ∃ e ∈ edges, ∃ f ∈ edges, e ≠ f ∧ (ends e).Meet (ends f)

theorem apart_iff_not_clash (nodup : es.Nodup) : Apart ends es ↔ ¬ Clash ends es := by
  have : Std.Symm fun e f : ε => ¬ (ends e).Meet (ends f) := ⟨fun _ _ h h' => h h'.symm⟩
  constructor
  · rintro apart ⟨e, he, f, hf, hne, hmeet⟩
    exact apart.forall he hf hne hmeet
  · intro hnot
    exact nodup.pairwise_of_forall_ne fun e he f hf hne hmeet => hnot ⟨e, he, f, hf, hne, hmeet⟩

variable [DecidableEq ε]

instance : Decidable (Clash ends edges) :=
  inferInstanceAs (Decidable (∃ e ∈ edges, ∃ f ∈ edges, e ≠ f ∧ (ends e).Meet (ends f)))

theorem ofEdges_eq (endpoints : ε → Except Failure (Vertex × Vertex)) (es : List ε)
    (value : Weight) : ofEdges endpoints es value =
      (enterAll endpoints .empty (distinct es)).map fun mates => ⟨distinct es, value, mates⟩ := by
  unfold ofEdges enterAll
  dsimp only
  cases (distinct es).foldlM (fun mates e => do pair mates (← endpoints e))
    (OrderedMap.empty : OrderedMap Vertex Vertex) <;> rfl

/-- What a matching of edges says about them. -/
structure Describes (m : Matching ε) (ends : ε → Ends) (edges : List ε) (value : Weight) :
    Prop where
  value_eq : m.value = value
  contains_iff : ∀ e, m.contains e = true ↔ e ∈ edges
  /-- Repetitions do not count. -/
  size_eq : m.size = edges.toFinset.card
  isMatched_iff : ∀ x, m.isMatched x = true ↔ ∃ e ∈ edges, (ends e).Has x
  mate?_iff : ∀ x y, m.mate? x = some y ↔ ∃ e ∈ edges, (ends e).Joins x y
  mate?_mate? : ∀ x, m.isMatched x = true → (m.mate? x).bind m.mate? = some x

theorem describes_of_records {value : Weight} (h : Records mates ends es) (nodup : es.Nodup)
    (same : ∀ e, e ∈ es ↔ e ∈ edges) : Describes ⟨es, value, mates⟩ ends edges value where
  value_eq := rfl
  contains_iff e := decide_eq_true_iff.trans (same e)
  size_eq := by
    show es.length = _
    rw [← List.toFinset_card_of_nodup nodup]
    exact congrArg Finset.card (Finset.ext fun e => by simp [same e])
  isMatched_iff x := by
    show mates.contains x = true ↔ _
    simp only [OrderedMap.contains_iff, h.mem_keys_iff, same]
  mate?_iff x y := by
    show mates.get? x = some y ↔ _
    simp only [h x y, same]
  mate?_mate? x hx := by
    obtain ⟨e, he, hex⟩ := h.mem_keys_iff.1 (OrderedMap.contains_iff.1 hx)
    obtain ⟨y, hy⟩ := Ends.has_iff.1 hex
    show (mates.get? x).bind mates.get? = some x
    rw [(h x y).2 ⟨e, he, hy⟩, Option.bind_some, (h y x).2 ⟨e, he, hy.symm⟩]

/-- **A set of edges**, whatever the order in which it is listed and however often an edge is
given, makes a matching exactly when no two different edges have a common end. The matching has
these edges, each once, and knows their ends as mates of each other. -/
theorem ofEdges_matches (total : ∀ e ∈ edges, endpoints e = .ok (ends e))
    (same : ∀ e, e ∈ order ↔ e ∈ edges) (value : Weight) :
    (Clash ends edges → ofEdges endpoints order value = .error .sharedEnd) ∧
    (¬ Clash ends edges →
      ∃ m, ofEdges endpoints order value = .ok m ∧ m.Describes ends edges value) := by
  have hmem : ∀ e, e ∈ distinct order ↔ e ∈ edges := fun e => mem_distinct.trans (same e)
  have nodup := nodup_distinct order
  have hclash : Apart ends (distinct order) ↔ ¬ Clash ends edges := by
    rw [apart_iff_not_clash nodup]
    unfold Clash
    simp only [hmem]
  obtain ⟨hok, herror⟩ := enterAll_spec records_empty .nil fun e he => total e ((hmem e).1 he)
  rw [List.nil_append, hclash] at hok herror
  rw [ofEdges_eq]
  constructor
  · intro clash
    rw [herror (not_not_intro clash)]
    rfl
  · intro hnot
    obtain ⟨mates, hmates, hrecords⟩ := hok hnot
    rw [hmates]
    exact ⟨_, rfl, describes_of_records hrecords nodup hmem⟩

/-- The ends of an edge that is given by a key. -/
def keyEnds (key : Key) : Ends :=
  match Edge.parts key with
  | .ok ends => ends
  | .error _ => (key, key)

/-- One edge is given twice, one by a text of two characters, and one is a loop. -/
def couples : List Key :=
  [.tuple [.int 1, .int 2], .text "ab", .tuple [.int 1, .int 2], .tuple [.null, .null]]

/-- Two edges that lead both ways between two vertices. -/
def thereAndBack : List Key := [.tuple [.int 1, .int 2], .tuple [.int 2, .int 1]]

theorem ofEdges_matches_couples :
    (∀ e ∈ couples, Edge.parts e = .ok (keyEnds e)) ∧ (∀ e, e ∈ couples.reverse ↔ e ∈ couples) ∧
      ¬ Clash keyEnds couples ∧
      (∃ m, ofEdges Edge.parts couples.reverse (.int 3) = .ok m ∧
        m.Describes keyEnds couples (.int 3) ∧ m.size = 3 ∧
          m.mate? (.text "b") = some (.text "a") ∧ m.mate? .null = some .null) ∧
      ofEdges Edge.parts thereAndBack (.int 2) = .error .sharedEnd := by
  have total : ∀ e ∈ couples, Edge.parts e = .ok (keyEnds e) := by
    simp only [couples, List.forall_mem_cons]
    exact ⟨rfl, rfl, rfl, rfl, by simp⟩
  have total' : ∀ e ∈ thereAndBack, Edge.parts e = .ok (keyEnds e) := by
    simp only [thereAndBack, List.forall_mem_cons]
    exact ⟨rfl, rfl, by simp⟩
  have same : ∀ e, e ∈ couples.reverse ↔ e ∈ couples := fun e => List.mem_reverse
  have apart : ¬ Clash keyEnds couples := by decide +kernel
  have clash : Clash keyEnds thereAndBack := by decide +kernel
  obtain ⟨m, hm, hdescribes⟩ := (ofEdges_matches total same (.int 3)).2 apart
  refine ⟨total, same, apart, ⟨m, hm, hdescribes, ?_, ?_, ?_⟩,
    (ofEdges_matches total' (fun _ => Iff.rfl) (.int 2)).1 clash⟩
  · exact hdescribes.size_eq.trans (by decide +kernel)
  · exact (hdescribes.mate?_iff _ _).2 ⟨.text "ab", by decide +kernel, .inr rfl⟩
  · exact (hdescribes.mate?_iff _ _).2 ⟨.tuple [.null, .null], by decide +kernel, .inl rfl⟩

end Matching

/-! ## Edges of a graph -/

/-- Two edges without a common end. -/
def Edge.Apart (e f : Edge) : Prop := ∀ v, e.touches v = true → f.touches v ≠ true

instance : Std.Symm Edge.Apart := ⟨fun _ _ h v hf he => h v he hf⟩

/-- Among edges that are apart only one touches a vertex. -/
theorem eq_of_touches {es : List Edge} (apart : es.Pairwise Edge.Apart) {e f : Edge} {v : Vertex}
    (he : e ∈ es) (hf : f ∈ es) (hev : e.touches v = true) (hfv : f.touches v = true) : e = f := by
  by_contra hne
  exact apart.forall he hf hne v hev hfv

theorem nodup_of_apart {es : List Edge} (apart : es.Pairwise Edge.Apart) : es.Nodup := by
  refine apart.imp fun {e f} h => ?_
  intro heq
  subst heq
  exact h e.source (Graph.touches_iff.2 (.inl rfl)) (Graph.touches_iff.2 (.inl rfl))

namespace Matching

/-- **Edges that are apart** make a matching. -/
theorem ofEdges_eq_ok {endpoints : Edge → Except Failure (Vertex × Vertex)} {es : List Edge}
    (value : Weight) (ends : ∀ e ∈ es, endpoints e = .ok (e.source, e.target))
    (apart : es.Pairwise Edge.Apart) :
    ∃ mates, ofEdges endpoints es value = .ok ⟨es, value, mates⟩ := by
  have hapart : Apart (fun e : Edge => (e.source, e.target)) es := by
    refine apart.imp fun {e f} h => ?_
    rintro ⟨v, hev, hfv⟩
    exact h v (Graph.touches_iff.2 hev) (Graph.touches_iff.2 hfv)
  obtain ⟨mates, hmates, -⟩ := (enterAll_spec records_empty .nil ends).1 hapart
  refine ⟨mates, ?_⟩
  rw [ofEdges_eq, distinct_eq_self (nodup_of_apart apart), hmates]
  rfl

end Matching

end OptimalMatching
