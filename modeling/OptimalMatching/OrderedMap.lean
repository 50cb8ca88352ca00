/-!
# Ordered maps

A finite map that keeps its entries in the order in which their keys were first inserted. A new
value for a present key leaves the entry where it is; a new key goes to the end; a key that was
erased and comes back goes to the end as well.

Each operation is described by what it does to the keys (`keys_insert`, `keys_modify`,
`keys_erase`) and to look-ups (`get?_insert`, `get?_modify`, `get?_erase`).
-/

namespace OptimalMatching

/-! ## Lists without repetition -/

section Distinct

variable {α : Type} [DecidableEq α] {a : α} {as : List α}

/-- The elements of a list, each once, in order of their first occurrence. -/
def distinct : List α → List α
  | [] => []
  | a :: as => a :: (distinct as).filter (· ≠ a)

@[simp] theorem mem_distinct : a ∈ distinct as ↔ a ∈ as := by
  induction as with
  | nil => simp [distinct]
  | cons b bs ih => by_cases h : a = b <;> simp [distinct, ih, h]

theorem nodup_distinct (as : List α) : (distinct as).Nodup := by
  induction as with
  | nil => simp [distinct]
  | cons b bs ih => exact List.nodup_cons.2 ⟨by simp, ih.filter _⟩

theorem distinct_eq_self (nodup : as.Nodup) : distinct as = as := by
  induction as with
  | nil => rfl
  | cons b bs ih =>
    obtain ⟨hb, hbs⟩ := List.nodup_cons.1 nodup
    rw [distinct, ih hbs, List.filter_eq_self.2]
    intro c hc
    rw [decide_eq_true_eq]
    rintro rfl
    exact hb hc

/-- An element at the end counts only if it is new. -/
theorem distinct_concat (as : List α) (a : α) :
    distinct (as ++ [a]) = if a ∈ as then distinct as else distinct as ++ [a] := by
  induction as with
  | nil => rfl
  | cons b bs ih =>
    rw [List.cons_append, distinct, ih, distinct]
    by_cases hb : a = b
    · subst hb
      split <;> simp
    · by_cases ha : a ∈ bs <;> simp [ha, hb]

end Distinct

/-! ## Lists of entries -/

namespace Entries

variable {α β : Type} [DecidableEq α]

/-- The value of the first entry for a key. -/
def find? (a : α) : List (α × β) → Option β
  | [] => none
  | e :: es => if e.1 = a then some e.2 else find? a es

/-- Replaces the first entry for a key, or adds one at the end. -/
def put (a : α) (b : β) : List (α × β) → List (α × β)
  | [] => [(a, b)]
  | e :: es => if e.1 = a then (a, b) :: es else e :: put a b es

/-- Changes the value of every entry for a key. -/
def modify (a : α) (f : β → β) (es : List (α × β)) : List (α × β) :=
  es.map fun e => (e.1, if e.1 = a then f e.2 else e.2)

/-- Drops the entries for a key. -/
def drop (a : α) (es : List (α × β)) : List (α × β) := es.filter fun e => e.1 ≠ a

theorem find?_eq_none_iff {a : α} {es : List (α × β)} :
    find? a es = none ↔ a ∉ es.map Prod.fst := by
  induction es with
  | nil => simp [find?]
  | cons e es ih => by_cases h : e.1 = a <;> simp_all [find?, eq_comm]

theorem find?_eq_some_iff {a : α} {b : β} {es : List (α × β)} (nodup : (es.map Prod.fst).Nodup) :
    find? a es = some b ↔ (a, b) ∈ es := by
  induction es with
  | nil => simp [find?]
  | cons e es ih =>
    simp only [List.map_cons, List.nodup_cons] at nodup
    by_cases h : e.1 = a
    · subst h
      have hnot : (e.1, b) ∉ es := fun h => nodup.1 (List.mem_map.2 ⟨_, h, rfl⟩)
      simp [find?, hnot, Prod.ext_iff, eq_comm]
    · have hne : ¬ (a, b) = e := fun he => h (by rw [← he])
      simp [find?, h, hne, ih nodup.2]

theorem find?_put (a c : α) (b : β) (es : List (α × β)) :
    find? c (put a b es) = if a = c then some b else find? c es := by
  induction es with
  | nil => simp [put, find?]
  | cons e es ih =>
    by_cases h : e.1 = a
    · by_cases hc : a = c <;> simp [put, find?, h, hc]
    · by_cases hc : e.1 = c
      · have : a ≠ c := fun h' => h (hc.trans h'.symm)
        simp [put, find?, hc, this, Ne.symm this]
      · simp [put, find?, h, hc, ih]

theorem map_fst_put (a : α) (b : β) (es : List (α × β)) :
    (put a b es).map Prod.fst
      = if a ∈ es.map Prod.fst then es.map Prod.fst else es.map Prod.fst ++ [a] := by
  induction es with
  | nil => simp [put]
  | cons e es ih =>
    by_cases h : e.1 = a
    · simp [put, h]
    · have h' : ¬ a = e.1 := fun x => h x.symm
      simp only [put, h, if_false, List.map_cons, ih, List.mem_cons, h', false_or]
      split <;> simp

theorem put_of_notMem {a : α} {b : β} {es : List (α × β)} (h : a ∉ es.map Prod.fst) :
    put a b es = es ++ [(a, b)] := by
  induction es with
  | nil => rfl
  | cons e es ih =>
    rw [List.map_cons, List.mem_cons, not_or] at h
    rw [put, if_neg (Ne.symm h.1), ih h.2]
    rfl

omit [DecidableEq α] in
theorem nodup_concat {a : α} {l : List α} (h : l.Nodup) (ha : a ∉ l) : (l ++ [a]).Nodup := by
  simp only [List.nodup_append, List.mem_singleton]
  exact ⟨h, by simp, fun x hx y hy hxy => ha (hy ▸ hxy ▸ hx)⟩

theorem nodup_put {a : α} {b : β} {es : List (α × β)} (h : (es.map Prod.fst).Nodup) :
    ((put a b es).map Prod.fst).Nodup := by
  rw [map_fst_put]
  split
  · exact h
  · next ha => exact nodup_concat h ha

theorem find?_modify (a c : α) (f : β → β) (es : List (α × β)) :
    find? c (modify a f es) = if a = c then (find? c es).map f else find? c es := by
  induction es with
  | nil => simp [modify, find?]
  | cons e es ih =>
    simp only [modify] at ih
    by_cases h : e.1 = c <;> by_cases hc : a = c <;> simp_all [modify, find?, eq_comm]

theorem map_fst_modify (a : α) (f : β → β) (es : List (α × β)) :
    (modify a f es).map Prod.fst = es.map Prod.fst := by
  simp [modify]

theorem find?_drop (a c : α) (es : List (α × β)) :
    find? c (drop a es) = if a = c then none else find? c es := by
  induction es with
  | nil => simp [drop, find?]
  | cons e es ih =>
    by_cases h : e.1 = a
    · have step : drop a (e :: es) = drop a es := by simp [drop, h]
      rw [step, ih, find?, h]
      split <;> rfl
    · have step : drop a (e :: es) = e :: drop a es := by simp [drop, h]
      rw [step, find?, ih, find?]
      by_cases hc : e.1 = c
      · have : a ≠ c := fun h' => h (hc.trans h'.symm)
        simp [hc, this]
      · simp [hc]

theorem map_fst_drop (a : α) (es : List (α × β)) :
    (drop a es).map Prod.fst = (es.map Prod.fst).filter (· ≠ a) := by
  simp [drop, List.filter_map, Function.comp_def]

end Entries

/-! ## Maps -/

/-- A finite map with its entries in order of first insertion. -/
structure OrderedMap (α β : Type) where
  /-- The entries, each key once. -/
  entries : List (α × β)
  /-- No key occurs twice. -/
  nodup : (entries.map Prod.fst).Nodup

namespace OrderedMap

variable {α β : Type}

/-- Two maps with the same entries in the same order are equal. -/
@[ext] theorem ext {m m' : OrderedMap α β} (h : m.entries = m'.entries) : m = m' := by
  cases m; cases m'; simp_all

def empty : OrderedMap α β where
  entries := []
  nodup := by simp

instance : Inhabited (OrderedMap α β) := ⟨empty⟩

def keys (m : OrderedMap α β) : List α := m.entries.map Prod.fst

/-- The values in the order of their keys. -/
def values (m : OrderedMap α β) : List β := m.entries.map Prod.snd

def size (m : OrderedMap α β) : Nat := m.entries.length

@[simp] theorem keys_empty : (empty : OrderedMap α β).keys = [] := rfl

theorem nodup_keys (m : OrderedMap α β) : m.keys.Nodup := m.nodup

variable [DecidableEq α]

def get? (m : OrderedMap α β) (a : α) : Option β := Entries.find? a m.entries

def contains (m : OrderedMap α β) (a : α) : Bool := (m.get? a).isSome

/-- Gives a key a value, in place if the key is present and at the end otherwise. -/
def insert (m : OrderedMap α β) (a : α) (b : β) : OrderedMap α β where
  entries := Entries.put a b m.entries
  nodup := Entries.nodup_put m.nodup

/-- Changes the value of a key if it is present. -/
def modify (m : OrderedMap α β) (a : α) (f : β → β) : OrderedMap α β where
  entries := Entries.modify a f m.entries
  nodup := by rw [Entries.map_fst_modify]; exact m.nodup

def erase (m : OrderedMap α β) (a : α) : OrderedMap α β where
  entries := Entries.drop a m.entries
  nodup := by rw [Entries.map_fst_drop]; exact m.nodup.filter _

/-- The map with the entries of a list inserted one after the other. -/
def insertAll (m : OrderedMap α β) (entries : List (α × β)) : OrderedMap α β :=
  entries.foldl (fun m e => m.insert e.1 e.2) m

/-- The map of a list of entries, where a later one for the same key wins. -/
def ofList (entries : List (α × β)) : OrderedMap α β := empty.insertAll entries

/-! ## Laws -/

@[simp] theorem get?_empty (a : α) : (empty : OrderedMap α β).get? a = none := rfl

theorem get?_eq_none_iff {m : OrderedMap α β} {a : α} : m.get? a = none ↔ a ∉ m.keys :=
  Entries.find?_eq_none_iff

theorem get?_eq_some_iff {m : OrderedMap α β} {a : α} {b : β} :
    m.get? a = some b ↔ (a, b) ∈ m.entries :=
  Entries.find?_eq_some_iff m.nodup

@[simp] theorem contains_iff {m : OrderedMap α β} {a : α} :
    m.contains a = true ↔ a ∈ m.keys := by
  have h := get?_eq_none_iff (m := m) (a := a)
  unfold contains
  cases hm : m.get? a <;> simp_all

/-- Inserting keeps the keys, and adds a new one at the end. -/
theorem keys_insert (m : OrderedMap α β) (a : α) (b : β) :
    (m.insert a b).keys = if a ∈ m.keys then m.keys else m.keys ++ [a] :=
  Entries.map_fst_put a b m.entries

theorem get?_insert (m : OrderedMap α β) (a c : α) (b : β) :
    (m.insert a b).get? c = if a = c then some b else m.get? c :=
  Entries.find?_put a c b m.entries

/-- Changing a value keeps the keys. -/
@[simp] theorem keys_modify (m : OrderedMap α β) (a : α) (f : β → β) :
    (m.modify a f).keys = m.keys :=
  Entries.map_fst_modify a f m.entries

theorem get?_modify (m : OrderedMap α β) (a c : α) (f : β → β) :
    (m.modify a f).get? c = if a = c then (m.get? c).map f else m.get? c :=
  Entries.find?_modify a c f m.entries

/-- Erasing removes one key and keeps the others in order. -/
theorem keys_erase (m : OrderedMap α β) (a : α) :
    (m.erase a).keys = m.keys.filter (· ≠ a) :=
  Entries.map_fst_drop a m.entries

theorem get?_erase (m : OrderedMap α β) (a c : α) :
    (m.erase a).get? c = if a = c then none else m.get? c :=
  Entries.find?_drop a c m.entries

end OrderedMap

end OptimalMatching
