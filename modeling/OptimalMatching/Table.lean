/-!
# Tables

A value for each of the positions `0` to `n - 1`. A table is known by what it holds at each
position (`Table.ext`), and every operation is described by that (`get_ofFn`, `get_put`).

Filling a table may fail when finding a value may fail: the values are found from the first
position to the last, and the first failure is the outcome. The table is filled exactly when
every value is found (`tabulateM_eq_some_iff`, `tabulateM_eq_ok_iff`).

A square grid is a table of its rows, and is filled row by row.
-/

namespace OptimalMatching

/-- A value for each of `n` positions. -/
structure Table (α : Type) (n : Nat) where
  /-- The values in order. -/
  values : Vector α n
  deriving DecidableEq

namespace Table

variable {α β : Type} {n : Nat}

def get (t : Table α n) (i : Fin n) : α := getElem t.values i.val i.isLt

def ofFn (f : Fin n → α) : Table α n := ⟨Vector.ofFn f⟩

def replicate (n : Nat) (a : α) : Table α n := ⟨Vector.replicate n a⟩

def put (t : Table α n) (i : Fin n) (a : α) : Table α n := ⟨t.values.set i.val a i.isLt⟩

def push (t : Table α n) (a : α) : Table α (n + 1) := ⟨t.values.push a⟩

def map (f : α → β) (t : Table α n) : Table β n := ⟨t.values.map f⟩

def toList (t : Table α n) : List α := t.values.toList

/-- Two tables with the same value at every position are equal. -/
@[ext] theorem ext {t u : Table α n} (h : ∀ i, t.get i = u.get i) : t = u := by
  cases t; cases u
  congr 1
  exact Vector.ext fun i hi => h ⟨i, hi⟩

@[simp] theorem get_ofFn (f : Fin n → α) (i : Fin n) : (ofFn f).get i = f i := by
  simp [get, ofFn]

@[simp] theorem get_replicate (a : α) (i : Fin n) : (replicate n a).get i = a := by
  simp [get, replicate]

@[simp] theorem get_map (f : α → β) (t : Table α n) (i : Fin n) :
    (t.map f).get i = f (t.get i) := by
  simp [get, map]

theorem get_put (t : Table α n) (i j : Fin n) (a : α) :
    (t.put i a).get j = if i = j then a else t.get j := by
  simp [get, put, Vector.getElem_set, Fin.ext_iff]

@[simp] theorem get_put_self (t : Table α n) (i : Fin n) (a : α) : (t.put i a).get i = a := by
  simp [get_put]

theorem toList_eq_map (t : Table α n) : t.toList = (List.finRange n).map t.get := by
  apply List.ext_getElem <;> simp [toList, get]

/-- What is marked after one more position has been marked. -/
theorem get_put_true (t : Table Bool n) (i j : Fin n) :
    (t.put i true).get j = true ↔ i = j ∨ t.get j = true := by
  rw [get_put]
  split <;> simp [*]

@[simp] theorem get_push_castSucc (t : Table α n) (a : α) (i : Fin n) :
    (t.push a).get i.castSucc = t.get i := by
  simp [get, push]

@[simp] theorem get_push_last (t : Table α n) (a : α) : (t.push a).get (Fin.last n) = a := by
  simp [get, push]

/-! ## Filling a table -/

/-- The table of the outcomes of `f`, from the first to the last. -/
def tabulateM {m : Type → Type} [Monad m] {α : Type} : {n : Nat} → (Fin n → m α) → m (Table α n)
  | 0, _ => pure (ofFn fun i => i.elim0)
  | _ + 1, f => do
    let front ← tabulateM fun i => f i.castSucc
    let last ← f (Fin.last _)
    return front.push last

/-- A property of all positions is one of the first ones and of the last. -/
theorem forall_fin_last {P : Fin (n + 1) → Prop} :
    (∀ i, P i) ↔ (∀ i : Fin n, P i.castSucc) ∧ P (Fin.last n) := by
  constructor
  · exact fun h => ⟨fun i => h _, h _⟩
  · rintro ⟨h, hl⟩ i
    by_cases hn : i.val = n
    · have : i = Fin.last n := Fin.ext hn
      exact this ▸ hl
    · exact h ⟨i.val, by omega⟩

/-- A table is the one with given front and last value exactly when it agrees with them. -/
theorem push_eq_iff {front : Table α n} {last : α} {t : Table α (n + 1)} :
    front.push last = t ↔
      (∀ i : Fin n, t.get i.castSucc = front.get i) ∧ t.get (Fin.last n) = last := by
  constructor
  · rintro rfl
    exact ⟨fun i => by simp, by simp⟩
  · rintro ⟨h, hl⟩
    exact ext (forall_fin_last.2 ⟨fun i => by simp [h i], by simp [hl]⟩)

theorem tabulateM_eq_some_iff {f : Fin n → Option α} {t : Table α n} :
    tabulateM f = some t ↔ ∀ i, f i = some (t.get i) := by
  induction n with
  | zero =>
    simp only [tabulateM, Option.pure_def, Option.some.injEq]
    exact ⟨fun _ i => i.elim0, fun _ => ext fun i => i.elim0⟩
  | succ n ih =>
    rw [forall_fin_last]
    simp only [tabulateM, Option.pure_def, Option.bind_eq_bind, Option.bind_eq_some_iff,
      Option.some.injEq, ih]
    constructor
    · rintro ⟨front, hf, last, hl, h⟩
      obtain ⟨hfront, hlast⟩ := push_eq_iff.1 h
      exact ⟨fun i => by rw [hf i, hfront i], by rw [hl, hlast]⟩
    · rintro ⟨hf, hl⟩
      exact ⟨ofFn fun i => t.get i.castSucc, fun i => by simp [hf i], _, hl,
        push_eq_iff.2 ⟨fun i => by simp, rfl⟩⟩

theorem tabulateM_eq_ok_iff {ε : Type} {f : Fin n → Except ε α} {t : Table α n} :
    tabulateM f = .ok t ↔ ∀ i, f i = .ok (t.get i) := by
  induction n with
  | zero =>
    simp only [tabulateM, pure, Except.pure, Except.ok.injEq]
    exact ⟨fun _ i => i.elim0, fun _ => ext fun i => i.elim0⟩
  | succ n ih =>
    rw [forall_fin_last]
    simp only [tabulateM, bind, Except.bind, pure, Except.pure]
    constructor
    · intro h
      cases hf : tabulateM (fun i : Fin n => f i.castSucc) with
      | error e => rw [hf] at h; cases h
      | ok front =>
        rw [hf] at h
        cases hl : f (Fin.last n) with
        | error e => rw [hl] at h; cases h
        | ok last =>
          rw [hl] at h
          obtain ⟨hfront, hlast⟩ := push_eq_iff.1 (Except.ok.inj h)
          exact ⟨fun i => by rw [ih.1 hf i, hfront i], by rw [hlast]⟩
    · rintro ⟨hf, hl⟩
      have front : tabulateM (fun i : Fin n => f i.castSucc)
          = .ok (ofFn fun i => t.get i.castSucc) :=
        ih.2 fun i => by simp [hf i]
      rw [front, hl]
      exact congrArg Except.ok (push_eq_iff.2 ⟨fun i => by simp, rfl⟩)

theorem exists_of_tabulateM_eq_error {ε : Type} {f : Fin n → Except ε α} {x : ε}
    (h : tabulateM f = .error x) : ∃ i, f i = .error x := by
  induction n with
  | zero => cases h
  | succ n ih =>
    simp only [tabulateM, bind, Except.bind, pure, Except.pure] at h
    cases hf : tabulateM (fun i : Fin n => f i.castSucc) with
    | error y =>
      rw [hf] at h
      cases h
      obtain ⟨i, hi⟩ := ih hf
      exact ⟨i.castSucc, hi⟩
    | ok front =>
      rw [hf] at h
      cases hl : f (Fin.last n) with
      | error y =>
        rw [hl] at h
        cases h
        exact ⟨Fin.last n, hl⟩
      | ok last =>
        rw [hl] at h
        cases h

end Table

/-! ## Square grids -/

/-- A square table. -/
abbrev Grid (α : Type) (n : Nat) := Table (Table α n) n

namespace Grid

variable {α : Type} {n : Nat}

def cell (g : Grid α n) (i j : Fin n) : α := (Table.get g i).get j

def ofFn (f : Fin n → Fin n → α) : Grid α n := Table.ofFn fun i => Table.ofFn fun j => f i j

/-- The grid of the outcomes of `f`, row by row. -/
def tabulateM {m : Type → Type} [Monad m] (f : Fin n → Fin n → m α) : m (Grid α n) :=
  Table.tabulateM fun i => Table.tabulateM fun j => f i j

/-- The grid with the given rows, if they are as long as there are rows. -/
def ofRows? (rows : List (List α)) : Option (Grid α rows.length) :=
  if h : ∀ i : Fin rows.length, (rows.get i).length = rows.length then
    some (ofFn fun i j => (rows.get i).get (j.cast (h i).symm))
  else none

/-- The contents of a row. -/
def row (g : Grid α n) (i : Fin n) : List α := (List.finRange n).map fun j => g.cell i j

/-- The contents of a column. -/
def column (g : Grid α n) (j : Fin n) : List α := (List.finRange n).map fun i => g.cell i j

@[simp] theorem cell_ofFn (f : Fin n → Fin n → α) (i j : Fin n) : (ofFn f).cell i j = f i j := by
  simp [cell, ofFn]

theorem tabulateM_eq_some_iff {f : Fin n → Fin n → Option α} {g : Grid α n} :
    Grid.tabulateM f = some g ↔ ∀ i j : Fin n, f i j = some (g.cell i j) := by
  simp only [Grid.tabulateM, Table.tabulateM_eq_some_iff]
  exact Iff.rfl

theorem tabulateM_eq_ok_iff {ε : Type} {f : Fin n → Fin n → Except ε α} {g : Grid α n} :
    Grid.tabulateM f = .ok g ↔ ∀ i j : Fin n, f i j = .ok (g.cell i j) := by
  simp only [Grid.tabulateM, Table.tabulateM_eq_ok_iff]
  exact Iff.rfl

theorem exists_of_tabulateM_eq_error {ε : Type} {f : Fin n → Fin n → Except ε α} {x : ε}
    (h : Grid.tabulateM f = .error x) : ∃ i j : Fin n, f i j = .error x := by
  obtain ⟨i, hi⟩ := Table.exists_of_tabulateM_eq_error h
  exact ⟨i, Table.exists_of_tabulateM_eq_error hi⟩

end Grid

end OptimalMatching
