import Mathlib.Data.List.TakeWhile
import OptimalMatching.Proofs.Blossom.Alternating
/-!
# The flanks of a blossom

An edge between outer vertices `v` and `w` of different blossoms closes a new blossom. Its base is
the lowest base `stem` on the ways from both (`Alternating.commonBase?_eq`). Its two flanks are the
beginnings of these ways, up to where the blossom of `stem` is entered; neither way passes the
blossoms on the flank of the other (`Flank.apart`). Marking a flank succeeds, and redirects the
parents of its vertices backwards (`markSide?_eq`).
-/

namespace OptimalMatching.Blossom

variable {n : Nat} {neighbors : Neighbors n} {mates : Mates n} {root : Fin n} {t : Tree n}

/-! ## Lists of bases -/

theorem Clear.length_le {l : List (Fin n)} (clear : Clear mates l) : l.length ≤ n := by
  simpa using clear.1.length_le_card

namespace Tree.Alternating

variable {v w : Fin n} {l lv lw : List (Fin n)}

/-- The chain of bases of a vertex lists the bases on its way. -/
theorem chain?_eq (h : t.Alternating neighbors mates root) {steps : Nat}
    (hv : t.outer.get v = true) (way : Way t.parent mates v l) (enough : l.length ≤ steps) :
    t.chain? mates steps v = some (l.filter fun c => t.base.get c = c) := by
  induction steps generalizing v l with
  | zero =>
    obtain ⟨rest, rfl⟩ := way.eq_cons
    simp at enough
  | succ steps ih =>
    obtain ⟨before, l', rfl, way', hbefore⟩ := h.way_split hv way
    have hfilter : before.filter (fun c => t.base.get c = c) = [] := by
      simpa [List.filter_eq_nil_iff] using hbefore
    rw [List.filter_append, hfilter, List.nil_append, chain?]
    cases way' with
    | top exposed => simp [exposed, h.base_base]
    | @up _ m u l' mate link way' =>
      have enough' : l'.length ≤ steps := by
        simp only [List.length_append, List.length_cons] at enough
        omega
      simp [mate, link, ih (h.parent_outer link) way' enough', h.base_base]

end Tree.Alternating

/-- The base `stem` lies on both of two ways, and a base on both lies on the way from it. -/
structure Tree.Meet (t : Tree n) (stem : Fin n) (ls lv lw : List (Fin n)) : Prop where
  fixed : t.base.get stem = stem
  left : stem ∈ lv
  right : stem ∈ lw
  lowest : ∀ c ∈ lv, c ∈ lw → t.base.get c = c → c ∈ ls

theorem Tree.Meet.symm {stem : Fin n} {ls lv lw : List (Fin n)} (meet : t.Meet stem ls lv lw) :
    t.Meet stem ls lw lv :=
  ⟨meet.fixed, meet.right, meet.left, fun c hw hv => meet.lowest c hv hw⟩

theorem Way.of_append {parent : Table (Option (Fin n)) n} {v w : Fin n} {l l' : List (Fin n)}
    (way : Way parent mates v (l ++ w :: l')) : Way parent mates w (w :: l') := by
  induction l generalizing v with
  | nil =>
    obtain ⟨rest, hr⟩ := way.eq_cons
    obtain ⟨rfl, -⟩ := List.cons.inj hr
    exact way
  | cons a l ih =>
    rw [List.cons_append] at way
    generalize hl : l ++ w :: l' = rest at way
    cases way with
    | top => simp at hl
    | up _ _ way => exact ih (hl ▸ way)

namespace Tree.Alternating

variable {v w stem : Fin n} {l l' ls lv lw : List (Fin n)}

theorem root_mem_way (h : t.Alternating neighbors mates root) (hv : t.outer.get v = true)
    (way : Way t.parent mates v l) : root ∈ l := by
  obtain ⟨r, hr, exposed⟩ := way.getLast_exposed
  have hl : r ∈ l := List.mem_of_getLast? hr
  exact h.eq_root (h.outer_of_mem_way hv way hl) exposed ▸ hl

theorem commonBase?_eq (h : t.Alternating neighbors mates root) (hv : t.outer.get v = true)
    (hw : t.outer.get w = true) (wayv : Way t.parent mates v lv) (wayw : Way t.parent mates w lw)
    (clearv : Clear mates lv) (clearw : Clear mates lw) :
    ∃ stem ls, t.commonBase? mates v w = some stem ∧ Way t.parent mates stem ls ∧
      t.Meet stem ls lv lw := by
  have hfind : t.commonBase? mates v w =
      lw.find? fun c => decide (t.base.get c = c) && decide (c ∈ lv ∧ t.base.get c = c) := by
    simp [commonBase?, h.chain?_eq hv wayv (Nat.le_succ_of_le clearv.length_le),
      h.chain?_eq hw wayw (Nat.le_succ_of_le clearw.length_le), List.find?_filter]
  cases hs : t.commonBase? mates v w with
  | none =>
    rw [hfind, List.find?_eq_none] at hs
    have := hs root (h.root_mem_way hw wayw)
    simp [h.base_root, h.root_mem_way hv wayv] at this
  | some stem =>
    rw [hfind, List.find?_eq_some_iff_append] at hs
    obtain ⟨hstem, as, bs, rfl, hbefore⟩ := hs
    simp only [Bool.and_eq_true, decide_eq_true_eq] at hstem
    refine ⟨stem, stem :: bs, rfl, wayw.of_append, hstem.1, hstem.2.1, by simp,
      fun c hcv hcw hc => (List.mem_append.1 hcw).resolve_left fun hc' => ?_⟩
    simpa [hc, hcv] using hbefore c hc'

end Tree.Alternating

/-! ## The flanks of a blossom -/

namespace Way

variable {parent : Table (Option (Fin n)) n} {v x s : Fin n} {l lx : List (Fin n)}
  {p : Fin n → Bool}

/-- The way from a vertex in the beginning of a way passes what comes after the beginning. -/
theorem mem_of_mem_takeWhile (way : Way parent mates v l) (wayx : Way parent mates x lx)
    (hx : x ∈ l.takeWhile p) (hs : s ∈ l) (stop : p s = false) : s ∈ lx := by
  induction way with
  | top exposed =>
    obtain rfl := List.mem_singleton.1 ((List.takeWhile_sublist p).subset hx)
    obtain rfl := List.mem_singleton.1 hs
    exact wayx.mem_self
  | @up v m u l mate link way ih =>
    rw [List.takeWhile_cons] at hx
    split_ifs at hx with hv
    · rcases List.mem_cons.1 hx with rfl | hx
      · exact (Way.up mate link way).unique wayx ▸ hs
      · have hsl : s ∈ l := (List.mem_cons.1 hs).resolve_left fun h => by simp [h, hv] at stop
        exact ih hx hsl
    · simp at hx

/-- One step up from the beginning of a way, one is still in the beginning or just after it. -/
theorem next_of_mem_takeWhile (way : Way parent mates v l) {m u : Fin n}
    (hx : x ∈ l.takeWhile p) (mate : mates.get x = some m) (link : parent.get m = some u) :
    u ∈ l.takeWhile p ∨ p u = false := by
  induction way with
  | top exposed =>
    obtain rfl := List.mem_singleton.1 ((List.takeWhile_sublist p).subset hx)
    simp [exposed] at mate
  | @up v m' u' l mate' link' way ih =>
    rw [List.takeWhile_cons] at hx ⊢
    split_ifs at hx ⊢ with hv
    · rcases List.mem_cons.1 hx with rfl | hx
      · obtain rfl := Option.some.inj (mate.symm.trans mate')
        obtain rfl := Option.some.inj (link.symm.trans link')
        cases hu : p u with
        | false => exact .inr rfl
        | true =>
          obtain ⟨rest, rfl⟩ := way.eq_cons
          simp [hu]
      · exact (ih hx).imp_left (List.mem_cons_of_mem _)
    · simp at hx

end Way

/-- One flank of a new blossom with base `stem`: the beginning `xs` of the way `lv` from `v`, as
seen against the way `lw` from the other side. -/
structure Tree.Flank (t : Tree n) (mates : Mates n) (stem v : Fin n) (lv lw xs : List (Fin n)) :
    Prop where
  way : Way t.parent mates v lv
  clear : Clear mates lv
  beginning : xs <+: lv
  start : v ∈ xs ∨ t.base.get v = stem
  next : ∀ {x m u}, x ∈ xs → mates.get x = some m → t.parent.get m = some u →
    u ∈ xs ∨ t.base.get u = stem
  base_ne : ∀ {x}, x ∈ xs → t.base.get x ≠ stem
  base_mem : ∀ {x}, x ∈ xs → t.base.get x ∈ xs
  /-- The other way does not pass the blossoms of the flank. -/
  apart : ∀ {x}, x ∈ xs → t.base.get x ∉ lw

namespace Tree.Alternating

variable {v w stem : Fin n} {l l' ls lv lw xs : List (Fin n)}

/-- With a vertex, its base is in the beginning of a way up to where a blossom is entered. -/
theorem base_mem_takeWhile (h : t.Alternating neighbors mates root) (hv : t.outer.get v = true)
    (way : Way t.parent mates v l) {x : Fin n}
    (hx : x ∈ l.takeWhile fun x => t.base.get x ≠ stem) :
    t.base.get x ∈ l.takeWhile fun x => t.base.get x ≠ stem := by
  -- Up the way: a base is reached from within its blossom, which the way passes in one piece.
  induction way generalizing x with
  | top exposed =>
    obtain rfl := h.eq_root hv exposed
    obtain rfl := List.mem_singleton.1 ((List.takeWhile_sublist _).subset hx)
    rwa [h.base_root]
  | @up v m u l mate link way ih =>
    rw [List.takeWhile_cons] at hx ⊢
    split_ifs at hx ⊢ with hstem
    · rcases List.mem_cons.1 hx with rfl | hx
      · by_cases hb : t.base.get x = x
        · simp [hb]
        · -- Inside a blossom the next vertex has the same base.
          obtain ⟨m', u', hm, hu, -, hbu⟩ := h.inside hv hb
          obtain rfl := Option.some.inj (mate.symm.trans hm)
          obtain rfl := Option.some.inj (link.symm.trans hu)
          have hul : u ∈ l.takeWhile fun x => t.base.get x ≠ stem := by
            obtain ⟨rest, rfl⟩ := way.eq_cons
            rw [List.takeWhile_cons, if_pos (hbu.symm ▸ hstem)]
            exact List.mem_cons_self
          exact List.mem_cons_of_mem _ (hbu ▸ ih (h.parent_outer link) hul)
      · exact List.mem_cons_of_mem _ (ih (h.parent_outer link) hx)
    · simp at hx

/-- The beginning of a way up to the blossom of the lowest common base is a flank. -/
theorem flank (h : t.Alternating neighbors mates root) (hv : t.outer.get v = true)
    (way : Way t.parent mates v lv) (clear : Clear mates lv) (ways : Way t.parent mates stem ls)
    (meet : t.Meet stem ls lv lw) :
    t.Flank mates stem v lv lw (lv.takeWhile fun x => t.base.get x ≠ stem) where
  way := way
  clear := clear
  beginning := List.takeWhile_prefix _
  start := by
    obtain ⟨rest, rfl⟩ := way.eq_cons
    by_cases hb : t.base.get v = stem <;> simp [hb]
  next hx mate link := by simpa using way.next_of_mem_takeWhile hx mate link
  base_ne hx := by simpa using List.mem_takeWhile_imp hx
  base_mem hx := h.base_mem_takeWhile hv way hx
  apart {x} hx hxw := by
    have hb := h.base_mem_takeWhile hv way hx
    have hbv : t.base.get x ∈ lv := (List.takeWhile_sublist _).subset hb
    obtain ⟨lb, wayb, -⟩ := way.suffix hbv
    -- The base would lie above `stem` and below it.
    have hup : t.base.get x ∈ ls := meet.lowest _ hbv hxw (h.base_base x)
    have hdown : stem ∈ lb := way.mem_of_mem_takeWhile wayb hb meet.left (by simp [meet.fixed])
    have heq : t.base.get x = stem := wayb.antisymm ways hdown hup
    simpa [heq, meet.fixed] using List.mem_takeWhile_imp hb

end Tree.Alternating

namespace Tree.Flank

variable {stem v w : Fin n} {lv lw xs : List (Fin n)}

theorem mem_way (f : t.Flank mates stem v lv lw xs) {x : Fin n} (hx : x ∈ xs) : x ∈ lv :=
  f.beginning.subset hx

theorem outer (f : t.Flank mates stem v lv lw xs) (h : t.Alternating neighbors mates root)
    (hv : t.outer.get v = true) {x : Fin n} (hx : x ∈ xs) : t.outer.get x = true :=
  h.outer_of_mem_way hv f.way (f.mem_way hx)

/-- The other way does not pass the vertices of a flank. -/
theorem not_mem_other (f : t.Flank mates stem v lv lw xs) (h : t.Alternating neighbors mates root)
    (hw : t.outer.get w = true) (wayw : Way t.parent mates w lw) {x c : Fin n} (hx : x ∈ xs)
    (hc : t.base.get c = t.base.get x) : c ∉ lw := by
  intro hcw
  obtain ⟨lc, wayc, hs⟩ := wayw.suffix hcw
  exact f.apart hx (hs.subset (hc ▸ h.base_mem_way (h.outer_of_mem_way hw wayw hcw) wayc))

theorem mate_not_mem_other (f : t.Flank mates stem v lv lw xs)
    (h : t.Alternating neighbors mates root) (hv : t.outer.get v = true)
    (hw : t.outer.get w = true) (wayw : Way t.parent mates w lw) {x y : Fin n} (hx : x ∈ xs)
    (mate : mates.get x = some y) : y ∉ lw := by
  intro hy
  have hyo := h.outer_of_mem_way hw wayw hy
  exact f.not_mem_other h hw wayw hx (h.base_eq_of_mates (f.outer h hv hx) hyo mate).symm hy

end Tree.Flank

/-! ## Redirected links -/

/-- Along a list of outer vertices each parent is the vertex before: `child` for the first, and for
each later one the mate of its predecessor. -/
def Redirected (mates : Mates n) (parent : Table (Option (Fin n)) n) :
    (child : Fin n) → List (Fin n) → Prop
  | _, [] => True
  | child, x :: xs =>
    parent.get x = some child ∧ ∃ m, mates.get x = some m ∧ Redirected mates parent m xs

theorem Redirected.congr {parent parent' : Table (Option (Fin n)) n} {child : Fin n}
    {xs : List (Fin n)} (r : Redirected mates parent child xs)
    (same : ∀ x ∈ xs, parent'.get x = parent.get x) : Redirected mates parent' child xs := by
  induction xs generalizing child with
  | nil => trivial
  | cons x xs ih =>
    obtain ⟨hx, m, hm, r⟩ := r
    exact ⟨(same x List.mem_cons_self).trans hx, m, hm,
      ih r fun y hy => same y (List.mem_cons_of_mem _ hy)⟩

/-- What marking a flank does. -/
structure Marked (mates : Mates n) (base : Table (Fin n) n) (child : Fin n) (xs : List (Fin n))
    (before after : Tree.Marks n) : Prop where
  parent_eq : ∀ {c}, c ∉ xs → after.parent.get c = before.parent.get c
  redirected : Redirected mates after.parent child xs
  marked_iff : ∀ b, after.marked.get b = true ↔ before.marked.get b = true ∨
    ∃ x ∈ xs, b = base.get x ∨ ∃ m, mates.get x = some m ∧ b = base.get m

/-- Marking the way from a vertex up to a blossom that lies on it. -/
theorem markSide?_eq {base : Table (Fin n) n} {stem v : Fin n} {l : List (Fin n)} {steps : Nat}
    (child : Fin n) (marks : Tree.Marks n) (way : Way marks.parent mates v l)
    (clear : Clear mates l) (reaches : ∃ c ∈ l, base.get c = stem) (enough : l.length ≤ steps) :
    ∃ marks', Tree.markSide? mates base stem steps v child marks = some marks' ∧
      Marked mates base child (l.takeWhile fun x => base.get x ≠ stem) marks marks' := by
  induction steps generalizing v l child marks with
  | zero =>
    obtain ⟨rest, rfl⟩ := way.eq_cons
    simp at enough
  | succ steps ih =>
    by_cases hv : base.get v = stem
    · -- The blossom of the stem is entered.
      obtain ⟨rest, rfl⟩ := way.eq_cons
      refine ⟨marks, by simp [Tree.markSide?, hv], ?_⟩
      simp only [List.takeWhile_cons, hv, ne_eq, not_true_eq_false, decide_false]
      exact ⟨fun _ => rfl, trivial, fun b => by simp⟩
    · cases way with
      | top exposed => exact absurd (by simpa using reaches) hv
      | @up _ m u l mate link way =>
        have hvl : v ∉ l := (List.nodup_cons.1 clear.1).1
        have hne : ∀ a ∈ v :: l, mates.get a ≠ some v := fun a ha =>
          clear.2 a ha v List.mem_cons_self
        have hvm : v ≠ m := fun h => hne v List.mem_cons_self (h ▸ mate)
        -- The link that is overwritten is below the rest of the way.
        have way' : Way (marks.parent.put v (some child)) mates u l := by
          refine way.congr fun a ha m' hm' => ?_
          have hvm' : v ≠ m' := fun h => hne a (List.mem_cons_of_mem _ ha) (h ▸ hm')
          simp [Table.get_put, hvm']
        have reaches' : ∃ c ∈ l, base.get c = stem := by
          obtain ⟨c, hc, hbc⟩ := reaches
          exact ⟨c, (List.mem_cons.1 hc).resolve_left fun h => hv (h ▸ hbc), hbc⟩
        obtain ⟨marks', hmarks', hmarked⟩ := ih m
          ⟨marks.parent.put v (some child),
            (marks.marked.put (base.get v) true).put (base.get m) true⟩
          way' (clear.sublist (List.sublist_cons_self v l)) reaches' (by simpa using enough)
        refine ⟨marks', ?_, ?_⟩
        · simpa [Tree.markSide?, hv, mate, Table.get_put, hvm, link] using hmarks'
        · rw [List.takeWhile_cons, if_pos (by simpa using hv)]
          have hvt : v ∉ l.takeWhile fun x => base.get x ≠ stem := fun h =>
            hvl ((List.takeWhile_sublist _).subset h)
          refine ⟨fun {c} hc => ?_, ⟨?_, m, mate, hmarked.redirected⟩, fun b => ?_⟩
          · rw [List.mem_cons, not_or] at hc
            rw [hmarked.parent_eq hc.2]
            simp [Table.get_put, Ne.symm hc.1]
          · rw [hmarked.parent_eq hvt]
            simp
          · rw [hmarked.marked_iff]
            simp only [Table.get_put, List.mem_cons, exists_eq_or_imp, mate, Option.some.injEq,
              exists_eq_left']
            grind

end OptimalMatching.Blossom
