import Mathlib.Data.List.Basic
import Mathlib.Data.List.Induction
import Mathlib.Data.List.Nodup
import OptimalMatching.Bags
/-!
# Bags that hold the elements of a list

A bag holds the elements of a list when it counts them as the list does (`Bags.Holds`). Putting an
element in and taking one out keep up with a list to which it is appended and from which it is
erased, so the bag lists the same elements, in some order (`Holds.toList_perm`).

**Order.** The order is that of the list too as long as no element comes twice: a new element goes
to the end (`toList_add`), and one that goes leaves the others in order (`toList_remove`).

**Tallies** have the laws (`Tally.lawful`).
-/

namespace OptimalMatching

theorem count_flatMap_replicate {vs : List Vertex} (nodup : vs.Nodup) (n : Vertex → Nat)
    (v : Vertex) :
    (vs.flatMap fun u => List.replicate (n u) u).count v = if v ∈ vs then n v else 0 := by
  induction vs with
  | nil => rfl
  | cons u vs ih =>
    obtain ⟨hu, hvs⟩ := List.nodup_cons.1 nodup
    rw [List.flatMap_cons, List.count_append, List.count_replicate, ih hvs]
    by_cases huv : u = v
    · subst huv
      simp [hu]
    · simp [huv, Ne.symm huv]

namespace Bags

variable {B : Bags} {b : B.Bag} {vs us : List Vertex} {v : Vertex}

/-- A bag holds the elements of a list, each as often as it is there. -/
def Holds (B : Bags) (b : B.Bag) (vs : List Vertex) : Prop := ∀ v, B.count b v = vs.count v

/-! ## Keeping up with a list -/

namespace Holds

theorem of_perm (h : B.Holds b vs) (perm : vs.Perm us) : B.Holds b us :=
  fun v => (h v).trans (perm.count_eq v)

theorem ofList (lawful : B.Lawful) (vs : List Vertex) : B.Holds (B.ofList vs) vs :=
  lawful.count_ofList vs

theorem count_pos_iff (h : B.Holds b vs) : 0 < B.count b v ↔ v ∈ vs := by
  rw [h, List.count_pos_iff]

theorem add (lawful : B.Lawful) (h : B.Holds b vs) (v : Vertex) :
    B.Holds (B.add b v) (vs ++ [v]) := by
  intro u
  rw [lawful.count_add, h, List.count_append, List.count_singleton]
  simp only [beq_iff_eq]

theorem remove (lawful : B.Lawful) (h : B.Holds b vs) (hv : v ∈ vs) :
    B.Holds (B.remove b v) (vs.erase v) := by
  intro u
  rw [lawful.count_remove b v u (h.count_pos_iff.2 hv), h, List.count_erase]
  simp only [beq_iff_eq]

theorem mem_elements_iff (lawful : B.Lawful) (h : B.Holds b vs) : v ∈ B.elements b ↔ v ∈ vs := by
  rw [lawful.mem_elements, h.count_pos_iff]

theorem toList_perm (lawful : B.Lawful) (h : B.Holds b vs) : (B.toList b).Perm vs := by
  refine List.perm_iff_count.2 fun v => ?_
  rw [lawful.toList_eq, count_flatMap_replicate (lawful.nodup_elements b), ← h v]
  split_ifs with hv
  · rfl
  · exact (Nat.eq_zero_of_not_pos (mt (lawful.mem_elements b v).2 hv)).symm

end Holds

/-! ## Order -/

section Order

variable (lawful : B.Lawful)

include lawful

/-- A new element goes to the end. -/
theorem toList_add (h : B.count b v = 0) : B.toList (B.add b v) = B.toList b ++ [v] := by
  have hv : v ∉ B.elements b := by
    rw [lawful.mem_elements, h]
    exact Nat.lt_irrefl 0
  rw [lawful.toList_eq, lawful.elements_add, if_neg (by omega), List.flatMap_append,
    lawful.toList_eq]
  refine congrArg₂ (· ++ ·) (List.flatMap_congr fun u hu => ?_) ?_
  · have ne : v ≠ u := fun heq => hv (heq ▸ hu)
    rw [lawful.count_add, if_neg ne, Nat.add_zero]
  · rw [List.flatMap_singleton, lawful.count_add, h, if_pos rfl]
    rfl

/-- An element that goes for the last time leaves the others in order. -/
theorem toList_remove (h : B.count b v = 1) :
    B.toList (B.remove b v) = (B.toList b).filter (· ≠ v) := by
  have held : 0 < B.count b v := by omega
  rw [lawful.toList_eq, lawful.elements_remove b v held, if_pos h, lawful.toList_eq]
  induction B.elements b with
  | nil => rfl
  | cons u vs ih =>
    rw [List.flatMap_cons, List.filter_append, ← ih]
    by_cases hu : u = v
    · simp [hu]
    · simp [hu, lawful.count_remove b v u held, Ne.symm hu]

theorem toList_ofList (nodup : vs.Nodup) : B.toList (B.ofList vs) = vs := by
  rw [lawful.toList_eq, lawful.elements_ofList, distinct_eq_self nodup]
  have hone : ∀ v ∈ vs, List.replicate (B.count (B.ofList vs) v) v = [v] := fun v hv => by
    rw [lawful.count_ofList, List.count_eq_one_of_mem nodup hv]
    rfl
  exact (List.flatMap_congr hone).trans ((List.flatMap_pure_eq_map id vs).trans (List.map_id vs))

end Order

end Bags

/-! ## Tallies -/

namespace Tally

variable {t : Tally} {u v : Vertex}

theorem mem_elements : v ∈ t.elements ↔ 0 < t.count v := by
  unfold elements count
  cases h : t.counts.get? v with
  | none => simpa using OrderedMap.get?_eq_none_iff.1 h
  | some n =>
    have hv : v ∈ t.counts.keys := by
      rw [← OrderedMap.contains_iff, OrderedMap.contains, h]
      rfl
    simpa using ⟨fun _ => t.positive h, fun _ => hv⟩

theorem count_set {n : Nat} {pos : 0 < n} :
    (t.set v n pos).count u = if v = u then n else t.count u := by
  unfold count set
  rw [OrderedMap.get?_insert]
  split_ifs <;> rfl

theorem elements_set {n : Nat} {pos : 0 < n} :
    (t.set v n pos).elements = if 0 < t.count v then t.elements else t.elements ++ [v] := by
  simp only [← mem_elements]
  exact OrderedMap.keys_insert t.counts v n

theorem count_add : (t.add v).count u = t.count u + if v = u then 1 else 0 := by
  unfold add
  rw [count_set]
  split_ifs with h
  · rw [h]
  · rfl

theorem elements_add : (t.add v).elements =
    if 0 < t.count v then t.elements else t.elements ++ [v] :=
  elements_set

theorem count_remove : (t.remove v).count u = t.count u - if v = u then 1 else 0 := by
  unfold remove
  split_ifs with h hu hu
  · rw [count_set, if_pos hu, hu]
  · rw [count_set, if_neg hu, Nat.sub_zero]
  · subst hu
    have hdropped : (t.drop v).count v = 0 := by simp [count, drop, OrderedMap.get?_erase]
    omega
  · simp [count, drop, OrderedMap.get?_erase, hu]

theorem elements_remove (held : 0 < t.count v) : (t.remove v).elements =
    if t.count v = 1 then t.elements.filter (· ≠ v) else t.elements := by
  unfold remove
  split_ifs with h h₁ h₁
  · omega
  · rw [elements_set, if_pos held]
  · exact OrderedMap.keys_erase t.counts v
  · omega

theorem ofList_concat (vs : List Vertex) (v : Vertex) :
    ofList (vs ++ [v]) = (ofList vs).add v := by
  simp [ofList]

theorem count_ofList (vs : List Vertex) (v : Vertex) : (ofList vs).count v = vs.count v := by
  induction vs using List.reverseRecOn with
  | nil => rfl
  | append_singleton vs u ih =>
    rw [ofList_concat, count_add, ih, List.count_append, List.count_singleton]
    simp only [beq_iff_eq]

theorem elements_ofList (vs : List Vertex) : (ofList vs).elements = distinct vs := by
  induction vs using List.reverseRecOn with
  | nil => rfl
  | append_singleton vs u ih =>
    have hcount : 0 < (ofList vs).count u ↔ u ∈ vs := by
      rw [count_ofList, List.count_pos_iff]
    rw [ofList_concat, elements_add, ih, distinct_concat]
    simp only [hcount]

theorem toList_eq (t : Tally) :
    bags.toList t = t.elements.flatMap fun v => List.replicate (t.count v) v := by
  unfold elements OrderedMap.keys
  rw [List.flatMap_map]
  refine List.flatMap_congr fun a ha => ?_
  have hcount : t.count a.1 = a.2 := by
    unfold count
    rw [OrderedMap.get?_eq_some_iff.2 ha]
    rfl
  rw [hcount]

theorem lawful : bags.Lawful where
  contains_iff _ _ := OrderedMap.contains_iff.trans mem_elements
  mem_elements _ _ := mem_elements
  nodup_elements t := t.counts.nodup_keys
  toList_eq := toList_eq
  count_ofList := count_ofList
  elements_ofList := elements_ofList
  count_add _ _ _ := count_add
  elements_add _ _ := elements_add
  count_remove _ _ _ _ := count_remove
  elements_remove _ _ := elements_remove

end Tally

end OptimalMatching
