import OptimalMatching.Proofs.Workspace.Reachable
/-!
# Who listens

Listeners are registered and taken back one at a time, and nothing else touches the lists of
listeners. In every workspace that one gets to, only listeners that are there are registered
(`Reachable.knows`), so nobody listens under the number that the next cache will get.
-/

namespace OptimalMatching

namespace Workspace

variable {O : Outside} {w w' : Workspace O} {id : Nat} {l : Listener} {op : Operation}

theorem listeners_eq_nil (h : w.graphs.length ≤ id) : w.listeners id = [] := by
  unfold listeners
  rw [List.getElem?_eq_none h]
  rfl

theorem listeners_addGraph (w : Workspace O) (g : Graph) (id : Nat) :
    (w.addGraph g).1.listeners id = w.listeners id := by
  rcases Nat.lt_trichotomy id w.graphs.length with hid | rfl | hid
  · unfold listeners addGraph
    rw [List.getElem?_append_left hid]
  · rw [listeners_eq_nil (Nat.le_refl _)]
    simp [listeners, addGraph]
  · rw [listeners_eq_nil (Nat.le_of_lt hid), listeners_eq_nil]
    simp [addGraph]
    omega

theorem listeners_register (hid : id < w.graphs.length) (l : Listener) (other : Nat) :
    (w.register id l).listeners other =
      if id = other then w.listeners other ++ [l] else w.listeners other := by
  unfold listeners register
  rw [List.getElem?_modify]
  split_ifs with hother
  · subst hother
    rw [List.getElem?_eq_getElem hid]
    rfl
  · rw [Functor.map]
    cases w.graphs[other]? <;> rfl

theorem listeners_register_of_le (hid : w.graphs.length ≤ id) (l : Listener) (other : Nat) :
    (w.register id l).listeners other = w.listeners other := by
  unfold listeners register
  rw [List.modify_eq_self hid]

theorem listeners_unregister (w : Workspace O) (id : Nat) (l : Listener) (other : Nat) :
    (w.unregister id l).1.listeners other =
      if id = other then (w.listeners other).erase l else w.listeners other := by
  unfold unregister
  split_ifs with hl hother hother
  · subst hother
    unfold listeners
    rw [List.getElem?_modify_eq]
    cases w.graphs[id]? <;> rfl
  · unfold listeners
    rw [List.getElem?_modify_ne _ _ hother]
  · subst hother
    exact (List.erase_of_not_mem hl).symm
  · rfl

theorem listeners_operate (w : Workspace O) (id : Nat) (op : Operation) (other : Nat) :
    (w.operate id op).1.listeners other = w.listeners other := by
  obtain ⟨count, h⟩ := (midway_commitAll w id (op.changes (w.graph id))).1
  rw [operate_fst]
  exact listeners_of_modify h other

/-! ## The listeners are there -/

/-- Listeners do not go while those of each kind only become more. -/
theorem Knows.mono (h : w.Knows l) (caches : w.caches.length ≤ w'.caches.length)
    (recorders : w.recorders.length ≤ w'.recorders.length)
    (guests : w.guests.length ≤ w'.guests.length) : w'.Knows l := by
  cases l with
  | cache c => exact Nat.lt_of_lt_of_le h caches
  | recorder r => exact Nat.lt_of_lt_of_le h recorders
  | guest g => exact Nat.lt_of_lt_of_le h guests

theorem Knows.of_same (h : w.Knows l) (caches : w'.caches = w.caches)
    (recorders : w'.recorders = w.recorders) (guests : w'.guests = w.guests) : w'.Knows l :=
  h.mono (caches ▸ Nat.le_refl _) (recorders ▸ Nat.le_refl _) (guests ▸ Nat.le_refl _)

theorem Knows.consult {α : Type} (h : w.Knows l) (cache : Nat)
    (f : Neighborhoods O.bags → Graph → Neighborhoods O.bags × Except Failure α) :
    (w.withCache cache f).1.Knows l :=
  h.mono (Nat.le_of_eq List.length_set.symm) (Nat.le_refl _) (Nat.le_refl _)

theorem Knows.tell (h : w.Knows l) (event : Event) (called : Listener) :
    (w.tell event called).1.Knows l := by
  cases called with
  | cache c => exact h.consult c _
  | recorder r =>
    exact h.mono (Nat.le_refl _) (Nat.le_of_eq (List.length_modify ..).symm) (Nat.le_refl _)
  | guest g =>
    obtain ⟨guests, hlength, htold⟩ := w.tellGuest_fst g event
    rw [Workspace.tell, htold]
    exact h.mono (Nat.le_refl _) (Nat.le_refl _) (Nat.le_of_eq hlength.symm)

theorem Knows.operate (h : w.Knows l) (id : Nat) (op : Operation) :
    (w.operate id op).1.Knows l := by
  rw [operate_fst]
  exact commitAll_keeps (P := fun w => w.Knows l)
    (fun _ _ h => h.of_same rfl rfl rfl)
    (fun _ h called _ event => h.tell event called) _ h

/-- **Only listeners that are there** are registered. -/
theorem Reachable.knows (h : w.Reachable) {other : Nat} (hl : l ∈ w.listeners other) :
    w.Knows l := by
  induction h with
  | empty => cases hl
  | addGraph _ _ ih | copyGraph _ _ ih =>
    rw [listeners_addGraph] at hl
    exact (ih hl).of_same rfl rfl rfl
  | addCache _ _ ih =>
    exact (ih hl).mono (by simp [Workspace.addCache]) (Nat.le_refl _) (Nat.le_refl _)
  | addRecorder _ ih =>
    exact (ih hl).mono (Nat.le_refl _) (by simp [Workspace.addRecorder]) (Nat.le_refl _)
  | addGuest _ _ ih =>
    exact (ih hl).mono (Nat.le_refl _) (Nat.le_refl _) (by simp [Workspace.addGuest])
  | @register w l' id _ hknown ih =>
    have hmem : l ∈ w.listeners other ∨ l = l' := by
      rcases Nat.lt_or_ge id w.graphs.length with hid | hid
      · rw [listeners_register hid] at hl
        split_ifs at hl
        · simpa using hl
        · exact .inl hl
      · rw [listeners_register_of_le hid] at hl
        exact .inl hl
    have hknows : w.Knows l := hmem.elim ih fun heq => heq ▸ hknown
    exact hknows.of_same rfl rfl rfl
  | @unregister w id l' _ ih =>
    have hmem : l ∈ w.listeners other := by
      rw [listeners_unregister] at hl
      split_ifs at hl
      · exact List.mem_of_mem_erase hl
      · exact hl
    unfold Workspace.unregister
    split_ifs <;> exact (ih hmem).of_same rfl rfl rfl
  | consult cache f _ ih => exact (ih hl).consult cache f
  | operate id op _ ih =>
    rw [listeners_operate] at hl
    exact (ih hl).operate id op

end Workspace

end OptimalMatching
