import OptimalMatching.Proofs.Blossom.Mates
/-!
# Ways up an alternating tree

From an outer vertex one goes up the tree by going to its mate and on to the parent of the mate,
until an exposed vertex is reached. `Way parent mates v l` says that `l` lists the vertices where
such a step begins or the way ends, from `v` on; the mates in between are not listed. The way is a
simple path exactly when its list is `Clear`: no vertex is listed twice, and no two listed vertices
are mates.

Ways are unique, and the way from a listed vertex is an end piece of the list. That is all that
the order of vertices along a tree is needed for.
-/

namespace OptimalMatching.Blossom

variable {n : Nat}

/-- The vertices on the way up from `v`, every other one. -/
inductive Way (parent : Table (Option (Fin n)) n) (mates : Mates n) :
    Fin n → List (Fin n) → Prop where
  | top {v : Fin n} (exposed : mates.get v = none) : Way parent mates v [v]
  | up {v m u : Fin n} {l : List (Fin n)} (mate : mates.get v = some m)
      (link : parent.get m = some u) (way : Way parent mates u l) : Way parent mates v (v :: l)

/-- No vertex occurs twice, and no two are mates. -/
def Clear (mates : Mates n) (l : List (Fin n)) : Prop :=
  l.Nodup ∧ ∀ a ∈ l, ∀ b ∈ l, mates.get a ≠ some b

namespace Way

variable {parent parent' : Table (Option (Fin n)) n} {mates : Mates n} {v w : Fin n}
  {l l' : List (Fin n)}

theorem eq_cons (way : Way parent mates v l) : ∃ rest, l = v :: rest := by
  cases way <;> exact ⟨_, rfl⟩

theorem mem_self (way : Way parent mates v l) : v ∈ l := by
  obtain ⟨rest, rfl⟩ := way.eq_cons
  exact List.mem_cons_self

theorem unique (way : Way parent mates v l) (way' : Way parent mates v l') : l = l' := by
  induction way generalizing l' with
  | top exposed =>
    cases way' with
    | top => rfl
    | up mate => simp [exposed] at mate
  | up mate link _ ih =>
    cases way' with
    | top exposed => simp [exposed] at mate
    | up mate' link' way' =>
      obtain rfl := Option.some.inj (mate.symm.trans mate')
      obtain rfl := Option.some.inj (link.symm.trans link')
      rw [ih way']

theorem suffix (way : Way parent mates v l) (hw : w ∈ l) :
    ∃ l', Way parent mates w l' ∧ l' <:+ l := by
  induction way with
  | top exposed =>
    obtain rfl := List.mem_singleton.1 hw
    exact ⟨_, .top exposed, List.suffix_rfl⟩
  | up mate link way ih =>
    rcases List.mem_cons.1 hw with rfl | hw
    · exact ⟨_, .up mate link way, List.suffix_rfl⟩
    · obtain ⟨l', way', hs⟩ := ih hw
      exact ⟨l', way', hs.trans (List.suffix_cons _ _)⟩

theorem suffix_of_mem (way : Way parent mates v l) (hw : w ∈ l) (way' : Way parent mates w l') :
    l' <:+ l := by
  obtain ⟨l'', way'', hs⟩ := way.suffix hw
  rwa [way'.unique way'']

theorem subset (way : Way parent mates v l) (hw : w ∈ l) (way' : Way parent mates w l') :
    l' ⊆ l :=
  (way.suffix_of_mem hw way').subset

theorem antisymm (way : Way parent mates v l) (way' : Way parent mates w l') (hw : w ∈ l)
    (hv : v ∈ l') : v = w := by
  have hl : l' = l := (way.suffix_of_mem hw way').eq_of_length_le
    (way'.suffix_of_mem hv way).length_le
  obtain ⟨rest, rfl⟩ := way.eq_cons
  obtain ⟨rest', rfl⟩ := way'.eq_cons
  exact (List.cons.inj hl).1.symm

theorem getLast_exposed (way : Way parent mates v l) :
    ∃ r, l.getLast? = some r ∧ mates.get r = none := by
  induction way with
  | top exposed => exact ⟨_, rfl, exposed⟩
  | up mate link way ih =>
    obtain ⟨rest, rfl⟩ := way.eq_cons
    simpa using ih

theorem isParent_of_mem (way : Way parent mates v l) (hw : w ∈ l) :
    w = v ∨ ∃ m, parent.get m = some w := by
  induction way with
  | top => exact .inl (List.mem_singleton.1 hw)
  | up mate link way ih =>
    rcases List.mem_cons.1 hw with rfl | hw
    · exact .inl rfl
    · rcases ih hw with rfl | h
      · exact .inr ⟨_, link⟩
      · exact .inr h

theorem congr (way : Way parent mates v l)
    (same : ∀ a ∈ l, ∀ m, mates.get a = some m → parent'.get m = parent.get m) :
    Way parent' mates v l := by
  induction way with
  | top exposed => exact .top exposed
  | up mate link way ih =>
    refine .up mate ?_ (ih fun a ha => same a (List.mem_cons_of_mem _ ha))
    rw [same _ List.mem_cons_self _ mate, link]

end Way

namespace Clear

variable {mates : Mates n} {l l' : List (Fin n)}

theorem sublist (clear : Clear mates l) (h : l'.Sublist l) : Clear mates l' :=
  ⟨clear.1.sublist h, fun a ha b hb => clear.2 a (h.subset ha) b (h.subset hb)⟩

theorem singleton {v : Fin n} (h : mates.get v ≠ some v) : Clear mates [v] := by
  simp [Clear, h]

/-- One more vertex is clear of a list if neither it nor its mate is listed. -/
theorem cons {v m : Fin n} (clear : Clear mates l) (mate : mates.get v = some m)
    (symm : ∀ a b : Fin n, mates.get a = some b → mates.get b = some a) (hv : v ∉ l)
    (hm : m ∉ l) (hne : v ≠ m) : Clear mates (v :: l) := by
  refine ⟨List.nodup_cons.2 ⟨hv, clear.1⟩, fun a ha b hb hab => ?_⟩
  rcases List.mem_cons.1 ha with rfl | hal
  · obtain rfl := Option.some.inj (mate.symm.trans hab)
    rcases List.mem_cons.1 hb with rfl | hbl
    · exact hne rfl
    · exact hm hbl
  · rcases List.mem_cons.1 hb with rfl | hbl
    · obtain rfl := Option.some.inj (mate.symm.trans (symm _ _ hab))
      exact hm hal
    · exact clear.2 a hal b hbl hab

end Clear

end OptimalMatching.Blossom
