import OptimalMatching.Proofs.Blossom.Flank
/-!
# Contracting a blossom

**Redirected links.** After the parents along both flanks of a new blossom are redirected, one can
go from each mate on a flank back to the end of the closing edge, over to the other end, and up from
there. Links that other outer vertices use for their way are overwritten by this. Such a way leaves
its old course where it first meets a flank, follows the flank back, crosses to the other side, and
goes up there. It stays clear: a vertex that it had passed before and passes again on the other side
would bring the blossom of the flank onto the way from the other side.

**The merged tree.** The blossoms on the flanks and the mates in between are absorbed by the blossom
of the base. The way up from an absorbed vertex stays inside of the new blossom.

Main result: `Alternating.contract`, contracting succeeds and keeps the shape of the tree.
-/

namespace OptimalMatching.Blossom

variable {n : Nat} {neighbors : Neighbors n} {mates : Mates n} {root : Fin n} {t : Tree n}

/-! ## Ways after the links are redirected -/

section Redirect

variable {parent : Table (Option (Fin n)) n} {v w child stem : Fin n}
  {lv lw l xs us : List (Fin n)}

/-- From the mate of a vertex of a flank one goes back along the flank and on from `child`. -/
theorem Redirected.exists_way (r : Redirected mates parent child xs)
    (symm : ∀ {a b : Fin n}, mates.get a = some b → mates.get b = some a)
    (loopless : ∀ {a b : Fin n}, mates.get a = some b → a ≠ b)
    (way : Way parent mates child l) (clear : Clear mates l) (clearxs : Clear mates xs)
    (apart : ∀ x ∈ xs, ∀ y, mates.get x = some y → x ∉ l ∧ y ∉ l) {x y : Fin n} (hx : x ∈ xs)
    (mate : mates.get x = some y) : ∃ l', Way parent mates y l' ∧ Clear mates l' ∧
      ∀ q ∈ l', q ∈ l ∨ ∃ x' ∈ xs, mates.get x' = some q := by
  -- Along the flank: the way below a vertex of it is the one below its predecessor, with the mate
  -- of the predecessor put before it.
  induction xs generalizing child l with
  | nil => simp at hx
  | cons a xs ih =>
    obtain ⟨hlink, m, hm, r⟩ := r
    have way' : Way parent mates m (m :: l) := .up (symm hm) hlink way
    have hal := apart a List.mem_cons_self m hm
    have clear' : Clear mates (m :: l) :=
      clear.cons (symm hm) (fun _ _ => symm) hal.2 hal.1 (loopless (symm hm))
    have listed : ∀ q ∈ m :: l, q ∈ l ∨ ∃ x' ∈ a :: xs, mates.get x' = some q := by
      intro q hq
      rcases List.mem_cons.1 hq with rfl | hq
      · exact .inr ⟨a, List.mem_cons_self, hm⟩
      · exact .inl hq
    rcases List.mem_cons.1 hx with rfl | hx
    · obtain rfl := Option.some.inj (hm.symm.trans mate)
      exact ⟨_, way', clear', listed⟩
    · have apart' : ∀ x ∈ xs, ∀ y, mates.get x = some y → x ∉ m :: l ∧ y ∉ m :: l := by
        intro z hz y hy
        have hzl := apart z (List.mem_cons_of_mem _ hz) y hy
        simp only [List.mem_cons, not_or]
        -- Two vertices of a clear flank are not mates and have different mates.
        refine ⟨⟨?_, hzl.1⟩, ?_, hzl.2⟩
        · intro heq
          subst heq
          exact clearxs.2 a List.mem_cons_self z (List.mem_cons_of_mem _ hz) hm
        · intro heq
          subst heq
          have haz : a = z := Option.some.inj ((symm hm).symm.trans (symm hy))
          exact (List.nodup_cons.1 clearxs.1).1 (haz ▸ hz)
      obtain ⟨l', way'', clear'', hl'⟩ :=
        ih r way' clear' (clearxs.sublist (List.sublist_cons_self _ _)) apart' hx
      refine ⟨l', way'', clear'', fun q hq => ?_⟩
      rcases hl' q hq with hq | ⟨x', hx', hq⟩
      · exact listed q hq
      · exact .inr ⟨x', List.mem_cons_of_mem _ hx', hq⟩

/-- The parent of a vertex of a flank after redirection: `child` for the first vertex, and for
each other one the mate of its predecessor, from which it was reached before. -/
theorem Redirected.links {parent' : Table (Option (Fin n)) n}
    (r : Redirected mates parent' child xs) (way : Way parent mates v l) (beginning : xs <+: l)
    {x : Fin n} (hx : x ∈ xs) : parent'.get x = some child ∧ x = v ∨
      ∃ x' ∈ xs, ∃ m, mates.get x' = some m ∧ parent.get m = some x ∧ parent'.get x = some m := by
  induction xs generalizing child v l with
  | nil => simp at hx
  | cons a xs ih =>
    obtain ⟨hlink, m, hm, r⟩ := r
    cases way with
    | top exposed =>
      obtain ⟨rfl, -⟩ := List.cons_prefix_cons.1 beginning
      simp [exposed] at hm
    | up mate link way =>
      obtain ⟨rfl, beginning'⟩ := List.cons_prefix_cons.1 beginning
      rcases List.mem_cons.1 hx with rfl | hx
      · exact .inl ⟨hlink, rfl⟩
      · obtain rfl := Option.some.inj (hm.symm.trans mate)
        rcases ih r way beginning' hx with ⟨hx', rfl⟩ | ⟨x', hx', m', hm', hlink', hx''⟩
        · exact .inr ⟨a, List.mem_cons_self, m, hm, link, hx'⟩
        · exact .inr ⟨x', List.mem_cons_of_mem _ hx', m', hm', hlink', hx''⟩

theorem Redirected.exists_mate (r : Redirected mates parent child xs) {x : Fin n} (hx : x ∈ xs) :
    (∃ c, parent.get x = some c) ∧ ∃ y, mates.get x = some y := by
  induction xs generalizing child with
  | nil => simp at hx
  | cons a xs ih =>
    obtain ⟨hlink, m, hm, r⟩ := r
    rcases List.mem_cons.1 hx with rfl | hx
    · exact ⟨⟨_, hlink⟩, m, hm⟩
    · exact ih r hx

/-- The links of a tree after both flanks of a blossom have been redirected. -/
structure Redirection (t : Tree n) (mates : Mates n) (parent : Table (Option (Fin n)) n)
    (v w stem : Fin n) (lv lw xs us : List (Fin n)) : Prop where
  left : t.Flank mates stem v lv lw xs
  right : t.Flank mates stem w lw lv us
  left_links : Redirected mates parent w xs
  right_links : Redirected mates parent v us
  parent_eq : ∀ {c}, c ∉ xs → c ∉ us → parent.get c = t.parent.get c

theorem Redirection.symm (r : Redirection t mates parent v w stem lv lw xs us) :
    Redirection t mates parent w v stem lw lv us xs :=
  ⟨r.right, r.left, r.right_links, r.left_links, fun h h' => r.parent_eq h' h⟩

variable (h : t.Alternating neighbors mates root) (valid : mates.Valid neighbors)
  (hv : t.outer.get v = true) (hw : t.outer.get w = true)

include h valid hv hw

/-- The way from the other end of the closing edge does not change. -/
theorem Redirection.way_right (r : Redirection t mates parent v w stem lv lw xs us) :
    Way parent mates w lw := by
  refine r.right.way.congr fun a ha m hm => r.parent_eq (fun hx => ?_) fun hu => ?_
  · exact r.left.mate_not_mem_other h hv hw r.right.way hx (valid.symm hm) ha
  · exact r.right.clear.2 m (r.right.mem_way hu) a ha (valid.symm hm)

/-- From the mate of a vertex of a flank one goes back along the flank, over the closing edge, and
up on the other side. -/
theorem Redirection.exists_way_mate (r : Redirection t mates parent v w stem lv lw xs us)
    (simple : neighbors.Simple) {x y : Fin n} (hx : x ∈ xs) (mate : mates.get x = some y) :
    ∃ l', Way parent mates y l' ∧ Clear mates l' ∧
      ∀ q ∈ l', q ∈ lw ∨ ∃ x' ∈ xs, mates.get x' = some q := by
  refine r.left_links.exists_way valid.symm (valid.ne_self simple) (r.way_right h valid hv hw)
    r.right.clear (r.left.clear.sublist r.left.beginning.sublist) (fun x hx y hy => ⟨?_, ?_⟩)
    hx mate
  · exact r.left.not_mem_other h hw r.right.way hx rfl
  · exact r.left.mate_not_mem_other h hv hw r.right.way hx hy

/-- What a way becomes that meets the flank `xs`: it consists of vertices that it had before,
of mates of the flank, and of vertices on the way from the other side. -/
def Diverted (mates : Mates n) (xs lw l l' : List (Fin n)) : Prop :=
  (∃ x ∈ xs, ∃ y ∈ l, mates.get x = some y) ∧
    ∀ q ∈ l', q ∈ l ∨ (∃ x ∈ xs, mates.get x = some q) ∨ q ∈ lw

/-- A vertex before the point where a way meets a flank is not on the diverted rest of the way, and
neither is its mate. -/
theorem Redirection.not_mem_diverted (r : Redirection t mates parent v w stem lv lw xs us)
    {z m u : Fin n} {l' : List (Fin n)} (hz : t.outer.get z = true) (mate : mates.get z = some m)
    (link : t.parent.get m = some u) (way : Way t.parent mates u l) (clear : Clear mates (z :: l))
    (hm : m ∉ xs) (diverted : Diverted mates xs lw l l') : z ∉ l' ∧ m ∉ l' := by
  obtain ⟨⟨x, hx, y, hy, hxy⟩, hl'⟩ := diverted
  have wayz : Way t.parent mates z (z :: l) := .up mate link way
  have hyz : y ∈ z :: l := List.mem_cons_of_mem _ hy
  have hylw : y ∉ lw := r.left.mate_not_mem_other h hv hw r.right.way hx hxy
  refine ⟨fun hzl' => ?_, fun hml' => ?_⟩
  · rcases hl' z hzl' with hzl | ⟨x', hx', hxz⟩ | hzw
    · exact (List.nodup_cons.1 clear.1).1 hzl
    · exact hm (Option.some.inj (mate.symm.trans (valid.symm hxz)) ▸ hx')
    · exact hylw (r.right.way.subset hzw wayz hyz)
  · rcases hl' m hml' with hml | ⟨x', hx', hxm⟩ | hmw
    · exact clear.2 z List.mem_cons_self m (List.mem_cons_of_mem _ hml) mate
    · -- Then `z` is on the flank, and with `y` the way from `v` would pass two mates.
      have hzx : z = x' := valid.injective mate hxm
      have hzv : z ∈ lv := r.left.mem_way (hzx ▸ hx')
      exact r.left.clear.2 x (r.left.mem_way hx) y (r.left.way.subset hzv wayz hyz) hxy
    · -- Then `z` is in a blossom of the other way, which would pass the blossom of `y`.
      have hmo := h.outer_of_mem_way hw r.right.way hmw
      have hyo := h.outer_of_mem_way hz wayz hyz
      have hb : t.base.get z = t.base.get m := h.base_eq_of_mates hz hmo mate
      obtain ⟨lb, wayb, -⟩ := h.exists_way (h.outer_base hz)
      obtain ⟨lm, waym, hsub⟩ := r.right.way.suffix hmw
      have hyb : t.base.get y ∈ lb := h.base_mem_way_base hz wayz wayb hyz
      have hbm : t.base.get z ∈ lm := hb ▸ h.base_mem_way hmo waym
      have hyw : t.base.get y ∈ lw := hsub.subset (waym.subset hbm wayb hyb)
      exact r.left.apart hx (h.base_eq_of_mates (r.left.outer h hv hx) hyo hxy ▸ hyw)

/-- After redirection a clear way still leads up from every outer vertex. -/
theorem Redirection.exists_way (r : Redirection t mates parent v w stem lv lw xs us)
    (simple : neighbors.Simple) {z : Fin n} (hz : t.outer.get z = true)
    (way : Way t.parent mates z l) (clear : Clear mates l) : ∃ l', Way parent mates z l' ∧
      Clear mates l' ∧ (l' = l ∨ Diverted mates xs lw l l' ∨ Diverted mates us lv l l') := by
  induction way with
  | top exposed => exact ⟨_, .top exposed, clear, .inl rfl⟩
  | @up z m u l mate link way ih =>
    -- The way is kept up to the first mate that is on a flank, and diverted there.
    by_cases hx : m ∈ xs
    · obtain ⟨l', way', clear', hl'⟩ := r.exists_way_mate h valid hv hw simple hx (valid.symm mate)
      refine ⟨l', way', clear', .inr (.inl ⟨⟨m, hx, z, List.mem_cons_self, valid.symm mate⟩, ?_⟩)⟩
      exact fun q hq => .inr (hl' q hq).symm
    by_cases hu : m ∈ us
    · obtain ⟨l', way', clear', hl'⟩ :=
        r.symm.exists_way_mate h valid hw hv simple hu (valid.symm mate)
      refine ⟨l', way', clear', .inr (.inr ⟨⟨m, hu, z, List.mem_cons_self, valid.symm mate⟩, ?_⟩)⟩
      exact fun q hq => .inr (hl' q hq).symm
    · obtain ⟨l', way', clear', hl'⟩ :=
        ih (h.parent_outer link) (clear.sublist (List.sublist_cons_self _ _))
      have hdiv : ∀ {xs lw : List (Fin n)}, Diverted mates xs lw l l' →
          Diverted mates xs lw (z :: l) (z :: l') := by
        rintro xs lw ⟨⟨x, hx, y, hy, hxy⟩, hl'⟩
        refine ⟨⟨x, hx, y, List.mem_cons_of_mem _ hy, hxy⟩, fun q hq => ?_⟩
        rcases List.mem_cons.1 hq with rfl | hq
        · exact .inl List.mem_cons_self
        · exact (hl' q hq).imp_left (List.mem_cons_of_mem _)
      have hnot : z ∉ l' ∧ m ∉ l' := by
        rcases hl' with rfl | hd | hd
        · exact ⟨(List.nodup_cons.1 clear.1).1,
            fun hm => clear.2 z List.mem_cons_self m (List.mem_cons_of_mem _ hm) mate⟩
        · exact r.not_mem_diverted h valid hv hw hz mate link way clear hx hd
        · exact r.symm.not_mem_diverted h valid hw hv hz mate link way clear hu hd
      refine ⟨z :: l', .up mate ((r.parent_eq hx hu).trans link) way', ?_, ?_⟩
      · exact clear'.cons mate (fun _ _ => valid.symm) hnot.1 hnot.2 (valid.ne_self simple mate)
      · rcases hl' with rfl | hd | hd
        · exact .inl rfl
        · exact .inr (.inl (hdiv hd))
        · exact .inr (.inr (hdiv hd))

end Redirect

/-! ## The merged tree -/

/-- The vertices that a contraction moves into the new blossom: those of the blossoms on its flanks,
and the mates in between. -/
def Absorbed (t : Tree n) (mates : Mates n) (flanks : List (Fin n)) (i : Fin n) : Prop :=
  ∃ x ∈ flanks, t.base.get i = t.base.get x ∨ mates.get x = some i

theorem Absorbed.of_mem {flanks : List (Fin n)} {x : Fin n} (hx : x ∈ flanks) :
    Absorbed t mates flanks x :=
  ⟨x, hx, .inl rfl⟩

namespace Tree

variable {stem : Fin n} {marks : Marks n} {flanks : List (Fin n)}

theorem get_base_merge (t : Tree n) (stem : Fin n) (marks : Marks n) (i : Fin n) :
    (t.merge stem marks).base.get i =
      if marks.marked.get (t.base.get i) = true then stem else t.base.get i := by
  simp [merge]

theorem base_merge_of_stem (t : Tree n) (marks : Marks n) {i : Fin n}
    (hi : t.base.get i = stem) : (t.merge stem marks).base.get i = stem := by
  rw [get_base_merge, hi]
  split <;> rfl

theorem get_outer_merge (t : Tree n) (stem : Fin n) (marks : Marks n) (i : Fin n) :
    (t.merge stem marks).outer.get i = true ↔
      t.outer.get i = true ∨ marks.marked.get (t.base.get i) = true := by
  simp [merge]

/-- What the flanks of a new blossom with base `stem` have in common. -/
structure Flanks (t : Tree n) (neighbors : Neighbors n) (mates : Mates n) (stem v w : Fin n)
    (flanks : List (Fin n)) (marks : Marks n) : Prop where
  stem_outer : t.outer.get stem = true
  stem_fixed : t.base.get stem = stem
  outer : ∀ {x}, x ∈ flanks → t.outer.get x = true
  base_ne : ∀ {x}, x ∈ flanks → t.base.get x ≠ stem
  base_mem : ∀ {x}, x ∈ flanks → t.base.get x ∈ flanks
  next : ∀ {x m u}, x ∈ flanks → mates.get x = some m → t.parent.get m = some u →
    u ∈ flanks ∨ t.base.get u = stem
  mate : ∀ {x}, x ∈ flanks → ∃ y, mates.get x = some y
  /-- The new parent of a vertex on a flank. -/
  link : ∀ {x}, x ∈ flanks → ∃ c, marks.parent.get x = some c ∧ x ∈ neighbors.get c ∧
    (c = v ∨ c = w ∨ ∃ x' ∈ flanks, mates.get x' = some c)
  ends : ∀ {c}, c = v ∨ c = w → t.outer.get c = true ∧ (c ∈ flanks ∨ t.base.get c = stem)
  parent_eq : ∀ {c}, c ∉ flanks → marks.parent.get c = t.parent.get c
  marked_iff : ∀ i, marks.marked.get (t.base.get i) = true ↔ Absorbed t mates flanks i
  exists_way : ∀ {i}, t.outer.get i = true ∨ Absorbed t mates flanks i →
    ∃ l, Way marks.parent mates i l ∧ Clear mates l

namespace Flanks

variable {v w : Fin n} (f : t.Flanks neighbors mates stem v w flanks marks)
  (h : t.Alternating neighbors mates root) (valid : mates.Valid neighbors)

include f

theorem base_of_absorbed {i : Fin n} (hi : Absorbed t mates flanks i) :
    (t.merge stem marks).base.get i = stem := by
  rw [get_base_merge, if_pos ((f.marked_iff i).2 hi)]

theorem base_of_not_absorbed {i : Fin n} (hi : ¬ Absorbed t mates flanks i) :
    (t.merge stem marks).base.get i = t.base.get i := by
  rw [get_base_merge, if_neg fun hm => hi ((f.marked_iff i).1 hm)]

theorem outer_iff {i : Fin n} : (t.merge stem marks).outer.get i = true ↔
    t.outer.get i = true ∨ Absorbed t mates flanks i :=
  (get_outer_merge t stem marks i).trans (or_congr_right (f.marked_iff i))

include h

theorem absorbed_of_base_eq {i j : Fin n} (hj : t.outer.get j = true)
    (absorbed : Absorbed t mates flanks j) (hij : t.base.get i = t.base.get j) :
    Absorbed t mates flanks i := by
  obtain ⟨x, hx, hb | hm⟩ := absorbed
  · exact ⟨x, hx, .inl (hij.trans hb)⟩
  · exact ⟨x, hx, .inl (hij.trans (h.base_eq_of_mates (f.outer hx) hj hm).symm)⟩

theorem not_absorbed_stem : ¬ Absorbed t mates flanks stem := by
  rintro ⟨x, hx, hb | hm⟩
  · exact f.base_ne hx (hb.symm.trans f.stem_fixed)
  · exact f.base_ne hx ((h.base_eq_of_mates (f.outer hx) f.stem_outer hm).trans f.stem_fixed)

theorem not_absorbed_mate {i m : Fin n} (hi : t.outer.get i = true)
    (absorbed : ¬ Absorbed t mates flanks i) (valid : mates.Valid neighbors)
    (mate : mates.get i = some m) : ¬ Absorbed t mates flanks m := by
  rintro ⟨x, hx, hb | hm⟩
  · by_cases hmo : t.outer.get m = true
    · exact absorbed ⟨x, hx, .inl ((h.base_eq_of_mates hi hmo mate).trans hb)⟩
    · rw [h.base_of_not_outer hmo] at hb
      exact hmo (hb ▸ h.outer_base (f.outer hx))
  · exact absorbed (valid.injective mate hm ▸ Absorbed.of_mem hx)

theorem outer_of_absorbed_link (valid : mates.Valid neighbors) {i m u : Fin n}
    (mate : mates.get i = some m) (link : marks.parent.get m = some u) :
    t.outer.get i = true ∨ Absorbed t mates flanks i := by
  by_cases hm : m ∈ flanks
  · exact .inr ⟨m, hm, .inr (valid.symm mate)⟩
  · exact .inl (h.outer_of_link mate ((f.parent_eq hm).symm.trans link))

omit h in
theorem base_of_new_parent {c : Fin n}
    (hc : c = v ∨ c = w ∨ ∃ x ∈ flanks, mates.get x = some c) :
    (t.merge stem marks).base.get c = stem := by
  have hends : c = v ∨ c = w → (t.merge stem marks).base.get c = stem := fun hc =>
    (f.ends hc).2.elim (fun hm => f.base_of_absorbed (.of_mem hm)) (base_merge_of_stem t marks)
  rcases hc with hc | hc | ⟨x, hx, hxc⟩
  · exact hends (.inl hc)
  · exact hends (.inr hc)
  · exact f.base_of_absorbed ⟨x, hx, .inr hxc⟩

/-- The way up from a vertex that was absorbed stays in the new blossom. -/
theorem inside_of_absorbed (valid : mates.Valid neighbors) {i : Fin n}
    (absorbed : Absorbed t mates flanks i) : ∃ m u, mates.get i = some m ∧
      marks.parent.get m = some u ∧ (t.merge stem marks).base.get m = stem ∧
        (t.merge stem marks).base.get u = stem := by
  by_cases hmate : ∃ x ∈ flanks, mates.get x = some i
  · -- A mate in between goes back along the flank.
    obtain ⟨x, hx, hxi⟩ := hmate
    obtain ⟨c, hc, -, hcases⟩ := f.link hx
    exact ⟨x, c, valid.symm hxi, hc, f.base_of_absorbed (.of_mem hx),
      f.base_of_new_parent hcases⟩
  · -- Every other vertex keeps its link.
    have hkeep : ∀ {m u : Fin n}, mates.get i = some m → t.parent.get m = some u →
        marks.parent.get m = some u := fun hm hu =>
      (f.parent_eq fun hmf => hmate ⟨_, hmf, valid.symm hm⟩).trans hu
    obtain ⟨x, hx, hb | hm⟩ := absorbed
    · have hi : t.outer.get i = true := by
        by_contra hi
        exact hi (h.base_of_not_outer hi ▸ hb ▸ h.outer_base (f.outer hx))
      by_cases hbi : t.base.get i = i
      · have hif : i ∈ flanks := hbi ▸ hb ▸ f.base_mem hx
        obtain ⟨m, hm⟩ := f.mate hif
        have hne : i ≠ root := by
          intro heq
          subst heq
          simp [h.root_exposed] at hm
        obtain ⟨m', u, hm', hu⟩ := h.link_of_outer hi hne
        obtain rfl := Option.some.inj (hm.symm.trans hm')
        refine ⟨m, u, hm, hkeep hm hu, f.base_of_absorbed ⟨i, hif, .inr hm⟩, ?_⟩
        exact (f.next hif hm hu).elim (fun hu => f.base_of_absorbed (.of_mem hu))
          (base_merge_of_stem t marks)
      · obtain ⟨m, u, hm, hu, hbm, hbu⟩ := h.inside hi hbi
        exact ⟨m, u, hm, hkeep hm hu, f.base_of_absorbed ⟨x, hx, .inl (hbm.trans hb)⟩,
          f.base_of_absorbed ⟨x, hx, .inl (hbu.trans hb)⟩⟩
    · exact absurd ⟨x, hx, hm⟩ hmate

/-- The way up from a vertex that was not absorbed stays in its old blossom. -/
theorem inside_of_not_absorbed (valid : mates.Valid neighbors) {i : Fin n}
    (hi : t.outer.get i = true) (absorbed : ¬ Absorbed t mates flanks i)
    (hb : t.base.get i ≠ i) : ∃ m u, mates.get i = some m ∧ marks.parent.get m = some u ∧
      (t.merge stem marks).base.get m = t.base.get i ∧
        (t.merge stem marks).base.get u = t.base.get i := by
  obtain ⟨m, u, hm, hu, hbm, hbu⟩ := h.inside hi hb
  have hmabs : ¬ Absorbed t mates flanks m := f.not_absorbed_mate h hi absorbed valid hm
  have huabs : ¬ Absorbed t mates flanks u := fun hu' =>
    absorbed (f.absorbed_of_base_eq h (h.parent_outer hu) hu' hbu.symm)
  refine ⟨m, u, hm, (f.parent_eq fun hmf => hmabs (.of_mem hmf)).trans hu, ?_, ?_⟩
  · rw [f.base_of_not_absorbed hmabs, hbm]
  · rw [f.base_of_not_absorbed huabs, hbu]

/-- The merged tree has the shape of a search tree. -/
theorem alternating (valid : mates.Valid neighbors) :
    (t.merge stem marks).Alternating neighbors mates root where
  root_exposed := h.root_exposed
  -- Every clause of the shape splits on whether the vertex goes into the new blossom.
  outer_iff i := by
    rw [f.outer_iff, isOuter_iff]
    constructor
    · intro hi
      by_cases habs : Absorbed t mates flanks i
      · obtain ⟨m, u, hm, hu, -⟩ := f.inside_of_absorbed h valid habs
        exact .inr ⟨m, u, hm, hu⟩
      · have hio := hi.resolve_right habs
        refine (isOuter_iff.1 ((h.outer_iff i).1 hio)).imp_right fun ⟨m, u, hm, hu⟩ => ?_
        refine ⟨m, u, hm, (f.parent_eq fun hmf => habs ?_).trans hu⟩
        exact ⟨m, hmf, .inr (valid.symm hm)⟩
    · rintro (rfl | ⟨m, u, hm, hu⟩)
      · exact .inl h.root_outer
      · exact f.outer_of_absorbed_link h valid hm hu
  parent_adjacent {c u} hu := by
    by_cases hc : c ∈ flanks
    · obtain ⟨c', hc', hadj, -⟩ := f.link hc
      exact Option.some.inj (hc'.symm.trans hu) ▸ hadj
    · exact h.parent_adjacent ((f.parent_eq hc).symm.trans hu)
  parent_outer {c u} hu := by
    rw [f.outer_iff]
    by_cases hc : c ∈ flanks
    · obtain ⟨c', hc', -, hcases⟩ := f.link hc
      obtain rfl := Option.some.inj (hc'.symm.trans hu)
      rcases hcases with hcv | hcw | ⟨x, hx, hxc⟩
      · exact .inl (f.ends (.inl hcv)).1
      · exact .inl (f.ends (.inr hcw)).1
      · exact .inr ⟨x, hx, .inr hxc⟩
    · exact .inl (h.parent_outer ((f.parent_eq hc).symm.trans hu))
  exists_way hi := f.exists_way (f.outer_iff.1 hi)
  base_base i := by
    by_cases hi : Absorbed t mates flanks i
    · rw [f.base_of_absorbed hi, base_merge_of_stem t marks f.stem_fixed]
    · rw [f.base_of_not_absorbed hi]
      by_cases hio : t.outer.get i = true
      · rw [f.base_of_not_absorbed fun hb => hi ?_, h.base_base]
        exact f.absorbed_of_base_eq h (h.outer_base hio) hb (h.base_base i).symm
      · rw [h.base_of_not_outer hio, f.base_of_not_absorbed hi, h.base_of_not_outer hio]
  outer_base {i} hi := by
    by_cases habs : Absorbed t mates flanks i
    · rw [f.base_of_absorbed habs]
      exact f.outer_iff.2 (.inl f.stem_outer)
    · rw [f.base_of_not_absorbed habs]
      exact f.outer_iff.2 (.inl (h.outer_base ((f.outer_iff.1 hi).resolve_right habs)))
  base_of_not_outer {i} hi := by
    have hi' := not_or.1 fun ho => hi (f.outer_iff.2 ho)
    rw [f.base_of_not_absorbed hi'.2, h.base_of_not_outer hi'.1]
  inside {i} hi hb := by
    by_cases habs : Absorbed t mates flanks i
    · rw [f.base_of_absorbed habs]
      exact f.inside_of_absorbed h valid habs
    · rw [f.base_of_not_absorbed habs] at hb ⊢
      exact f.inside_of_not_absorbed h valid ((f.outer_iff.1 hi).resolve_right habs) habs hb
  mate_of_base {i m} hi hb hm hmo := by
    by_cases habs : Absorbed t mates flanks i
    · rw [f.base_of_absorbed habs] at hb
      -- The new blossom is its own base, and the mate of the stem stays outside of it.
      exact f.not_absorbed_stem h (hb ▸ habs)
    · have hio := (f.outer_iff.1 hi).resolve_right habs
      rw [f.base_of_not_absorbed habs] at hb
      exact (f.outer_iff.1 hmo).elim (h.mate_of_base hio hb hm)
        (f.not_absorbed_mate h hio habs valid hm)

end Flanks

/-! ## Contracting -/

theorem extends_merge (f : t.Flanks neighbors mates stem v w flanks marks) :
    t.Extends mates (t.merge stem marks) where
  outer hi := f.outer_iff.2 (.inl hi)
  base hij := by rw [get_base_merge, get_base_merge, hij]
  fresh {c} hc := by
    by_cases hcf : c ∈ flanks
    · obtain ⟨y, hy⟩ := f.mate hcf
      exact .inr (by simp [hy])
    · exact .inl fun hnone => hc ((f.parent_eq hcf).trans hnone)
  parent {c} hc := by
    by_cases hcf : c ∈ flanks
    · obtain ⟨c', hc', -⟩ := f.link hcf
      exact fun hnone => by simp [merge, hc'] at hnone
    · exact fun hnone => hc ((f.parent_eq hcf).symm.trans hnone)
  queue := by
    -- The marked vertices that become outer are queued, each of them once.
    refine ⟨_, rfl, (List.nodup_finRange n).filter _, fun i => ?_⟩
    rw [get_outer_merge]
    simp only [List.mem_filter, List.mem_finRange, true_and, Bool.and_eq_true, Bool.not_eq_true',
      Bool.not_eq_true]
    constructor
    · rintro ⟨hm, ho⟩
      exact ⟨.inr hm, ho⟩
    · rintro ⟨hm, ho⟩
      exact ⟨hm.resolve_left (by simp [ho]), ho⟩

end Tree

/-- The redirected and marked flanks of the blossom that an edge closes. -/
theorem Redirection.toFlanks {stem v w : Fin n} {marks : Tree.Marks n}
    {lv lw ls xs us : List (Fin n)} (r : Redirection t mates marks.parent v w stem lv lw xs us)
    (h : t.Alternating neighbors mates root) (valid : mates.Valid neighbors)
    (simple : neighbors.Simple) (hv : t.outer.get v = true) (hw : t.outer.get w = true)
    (adj : w ∈ neighbors.get v) (meet : t.Meet stem ls lv lw)
    (marked : ∀ b, marks.marked.get b = true ↔
      ∃ x ∈ xs ++ us, b = t.base.get x ∨ ∃ m, mates.get x = some m ∧ b = t.base.get m) :
    t.Flanks neighbors mates stem v w (xs ++ us) marks := by
  have houter : ∀ {x : Fin n}, x ∈ xs ++ us → t.outer.get x = true := fun hx =>
    (List.mem_append.1 hx).elim (r.left.outer h hv) (r.right.outer h hw)
  have hpar : ∀ {x x' m : Fin n}, t.parent.get m = some x → marks.parent.get x = some m →
      x' ∈ xs ++ us → mates.get x' = some m → ∃ c, marks.parent.get x = some c ∧
        x ∈ neighbors.get c ∧ (c = v ∨ c = w ∨ ∃ x' ∈ xs ++ us, mates.get x' = some c) :=
    fun hlink hx hx' hm =>
      ⟨_, hx, simple.symm (h.parent_adjacent hlink), .inr (.inr ⟨_, hx', hm⟩)⟩
  constructor
  case stem_outer => exact h.outer_of_mem_way hv r.left.way meet.left
  case stem_fixed => exact meet.fixed
  case outer => exact houter
  case base_ne => exact fun hx => (List.mem_append.1 hx).elim r.left.base_ne r.right.base_ne
  case base_mem =>
    intro x hx
    exact List.mem_append.2 ((List.mem_append.1 hx).imp r.left.base_mem r.right.base_mem)
  case next =>
    intro x m u hx hm hu
    rcases List.mem_append.1 hx with hx | hx
    · exact (r.left.next hx hm hu).imp_left (List.mem_append_left _)
    · exact (r.right.next hx hm hu).imp_left (List.mem_append_right _)
  case mate =>
    intro x hx
    rcases List.mem_append.1 hx with hx | hx
    · exact (r.left_links.exists_mate hx).2
    · exact (r.right_links.exists_mate hx).2
  case link =>
    intro x hx
    rcases List.mem_append.1 hx with hx | hx
    · -- The first vertex of a flank now leads to the other end of the edge, each later one to
      -- the mate of its predecessor.
      rcases r.left_links.links r.left.way r.left.beginning hx with
        ⟨hlink, rfl⟩ | ⟨x', hx', m, hm, hlink, hxm⟩
      · exact ⟨w, hlink, simple.symm adj, .inr (.inl rfl)⟩
      · exact hpar hlink hxm (List.mem_append_left _ hx') hm
    · rcases r.right_links.links r.right.way r.right.beginning hx with
        ⟨hlink, rfl⟩ | ⟨x', hx', m, hm, hlink, hxm⟩
      · exact ⟨v, hlink, adj, .inl rfl⟩
      · exact hpar hlink hxm (List.mem_append_right _ hx') hm
  case ends =>
    intro c hc
    rcases hc with rfl | rfl
    · exact ⟨hv, r.left.start.imp_left (List.mem_append_left _)⟩
    · exact ⟨hw, r.right.start.imp_left (List.mem_append_right _)⟩
  case parent_eq =>
    intro c hc
    rw [List.mem_append, not_or] at hc
    exact r.parent_eq hc.1 hc.2
  case marked_iff =>
    intro i
    rw [marked]
    refine exists_congr fun x => and_congr_right fun hx => ?_
    constructor
    · rintro (hb | ⟨m, hm, hb⟩)
      · exact .inl hb
      · -- An outer mate has the base of the vertex itself, and an inner one is its own base.
        by_cases hmo : t.outer.get m = true
        · exact .inl (hb.trans (h.base_eq_of_mates (houter hx) hmo hm).symm)
        · rw [h.base_of_not_outer hmo] at hb
          by_cases hi : t.outer.get i = true
          · exact absurd (hb ▸ h.outer_base hi) hmo
          · rw [h.base_of_not_outer hi] at hb
            exact .inr (hb ▸ hm)
    · rintro (hb | hm)
      · exact .inl hb
      · exact .inr ⟨i, hm, rfl⟩
  case exists_way =>
    intro i hi
    by_cases hio : t.outer.get i = true
    · obtain ⟨l, way, clear⟩ := h.exists_way hio
      obtain ⟨l', way', clear', -⟩ := r.exists_way h valid hv hw simple hio way clear
      exact ⟨l', way', clear'⟩
    · obtain ⟨x, hx, hb | hm⟩ := hi.resolve_left hio
      · -- An inner vertex in the new blossom is the mate of one of a flank.
        rw [h.base_of_not_outer hio] at hb
        exact absurd (hb ▸ h.outer_base (houter hx)) hio
      · rcases List.mem_append.1 hx with hx | hx
        · obtain ⟨l', way', clear', -⟩ := r.exists_way_mate h valid hv hw simple hx hm
          exact ⟨l', way', clear'⟩
        · obtain ⟨l', way', clear', -⟩ := r.symm.exists_way_mate h valid hw hv simple hx hm
          exact ⟨l', way', clear'⟩

namespace Tree.Alternating

/-- **Contracting a blossom** succeeds, keeps the shape of the tree, and brings the two ends of
the edge that closed the blossom together. -/
theorem contract {v w : Fin n} (h : t.Alternating neighbors mates root)
    (valid : mates.Valid neighbors) (simple : neighbors.Simple) (hv : t.outer.get v = true)
    (hw : t.outer.get w = true) (adj : w ∈ neighbors.get v) :
    ∃ stem t', t.contract? mates v w = some (stem, t') ∧
      t'.Alternating neighbors mates root ∧ t.Extends mates t' ∧
        t'.base.get v = t'.base.get w := by
  obtain ⟨lv, wayv, clearv⟩ := h.exists_way hv
  obtain ⟨lw, wayw, clearw⟩ := h.exists_way hw
  obtain ⟨stem, ls, hstem, ways, meet⟩ := h.commonBase?_eq hv hw wayv wayw clearv clearw
  have left := h.flank hv wayv clearv ways meet
  have right := h.flank hw wayw clearw ways meet.symm
  obtain ⟨marks₁, hmarks₁, hmarked₁⟩ := markSide?_eq w ⟨t.parent, .replicate n false⟩ wayv clearv
    ⟨stem, meet.left, meet.fixed⟩ (Nat.le_succ_of_le clearv.length_le)
  -- The second side is marked along its old way, which the first side has not changed.
  have wayw₁ : Way marks₁.parent mates w lw := by
    refine wayw.congr fun a ha m hm => hmarked₁.parent_eq fun hx => ?_
    exact left.mate_not_mem_other h hv hw wayw hx (valid.symm hm) ha
  obtain ⟨marks, hmarks, hmarked⟩ := markSide?_eq v marks₁ wayw₁ clearw
    ⟨stem, meet.right, meet.fixed⟩ (Nat.le_succ_of_le clearw.length_le)
  have r : Redirection t mates marks.parent v w stem lv lw _ _ :=
    { left := left
      right := right
      left_links := hmarked₁.redirected.congr fun x hx => hmarked.parent_eq fun hx' =>
        left.not_mem_other h hw wayw hx rfl (right.mem_way hx')
      right_links := hmarked.redirected
      parent_eq := fun hx hx' => (hmarked.parent_eq hx').trans (hmarked₁.parent_eq hx) }
  have f := r.toFlanks h valid simple hv hw adj meet fun b => by
    rw [hmarked.marked_iff, hmarked₁.marked_iff]
    simp only [Table.get_replicate, Bool.false_eq_true, false_or, List.mem_append, or_and_right,
      exists_or]
  refine ⟨stem, t.merge stem marks, ?_, f.alternating h valid, extends_merge f, ?_⟩
  · simp [Tree.contract?, hstem, hmarks₁, hmarks]
  · rw [f.base_of_new_parent (.inl rfl), f.base_of_new_parent (.inr (.inl rfl))]

end Tree.Alternating

end OptimalMatching.Blossom
