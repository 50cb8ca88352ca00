import Mathlib.Data.List.Pairwise
import OptimalMatching.Graph.Edit
/-!
# Maps from pairs of vertices

What a graph is to those who store weights in it: a list of pairs with their weights, in order of
insertion. A pair is there once, the way round in which it was inserted, and unless the map is
directed it is named either way round (`PairMap.Same`).

`find?` looks a pair up, `assign` and `remove` change the list, and the operations below are made of
these three. The pair that is found is the only one of that name (`find?_eq_some_iff`), and after a
weight has been assigned to a pair it is the one that is found (`find?_assign`).
-/

namespace OptimalMatching

/-- Pairs of vertices with weights, in order of insertion. -/
@[ext] structure PairMap where
  /-- Whether a pair and its reverse are different pairs. -/
  directed : Bool
  /-- The pairs, each the way round in which it was inserted, with their weights. -/
  entries : List (Edge × Weight)

namespace PairMap

variable {m : PairMap} {e f : Edge} {a : Edge × Weight} {w : Weight}

/-- Two edges are the same pair. -/
def Same (m : PairMap) (e f : Edge) : Prop := e = f ∨ m.directed = false ∧ e = f.reverse

instance : Decidable (m.Same e f) := inferInstanceAs (Decidable (_ ∨ _ ∧ _))

/-- No pair is there twice. -/
def Distinct (m : PairMap) : Prop := m.entries.Pairwise fun a b => ¬ m.Same a.1 b.1

def find? (m : PairMap) (e : Edge) : Option (Edge × Weight) :=
  m.entries.find? fun a => m.Same a.1 e

/-- Gives a pair a weight: where it stands and as it is stored, or else at the end. -/
def assign (m : PairMap) (e : Edge) (w : Weight) : PairMap :=
  if (m.find? e).isSome then
    { m with entries := m.entries.map fun a => if m.Same a.1 e then (a.1, w) else a }
  else { m with entries := m.entries ++ [(e, w)] }

def remove (m : PairMap) (e : Edge) : PairMap :=
  { m with entries := m.entries.filter fun a => ¬ m.Same a.1 e }

/-! ## Operations by key -/

/-- The entry that a key names. -/
def lookup (m : PairMap) (key : Key) : Except Failure (Edge × Weight) :=
  match Edge.ofKey? key with
  | none => .error .malformedKey
  | some e =>
    match m.find? e with
    | none => .error (.absent key)
    | some a => .ok a

def item (m : PairMap) (key : Key) : Except Failure Weight := (m.lookup key).map Prod.snd

def itemOr (m : PairMap) (key : Key) (default : Option Weight) : Except Failure (Option Weight) :=
  match m.lookup key with
  | .ok a => .ok (some a.2)
  | .error (.absent _) => .ok default
  | .error f => .error f

def contains (m : PairMap) (key : Key) : Bool :=
  match m.lookup key with
  | .ok _ => true
  | .error _ => false

/-- Gives the pair that a key names a weight, and gives the pair as it is stored. -/
def put (m : PairMap) (key : Key) (w : Weight) : PairMap × Except Failure Edge :=
  match Edge.ofKey? key with
  | none => (m, .error .malformedKey)
  | some e =>
    match m.find? e with
    | some a => (m.assign e w, .ok a.1)
    | none => if e.source = e.target then (m, .error (.loop e)) else (m.assign e w, .ok e)

def set (m : PairMap) (key : Key) (w : Weight) : PairMap × Except Failure Unit :=
  ((m.put key w).1, (m.put key w).2.map fun _ => ())

def delete (m : PairMap) (key : Key) : PairMap × Except Failure Unit :=
  match m.lookup key with
  | .ok a => (m.remove a.1, .ok ())
  | .error f => (m, .error f)

/-- Takes out the pair that a key names and gives its weight, or a default. -/
def pop (m : PairMap) (key : Key) (default : Option Weight) : PairMap × Except Failure Weight :=
  match m.lookup key, default with
  | .ok a, _ => (m.remove a.1, .ok a.2)
  | .error (.absent _), some w => (m, .ok w)
  | .error f, _ => (m, .error f)

def popFirst (m : PairMap) : PairMap × Except Failure (Edge × Weight) :=
  match m.entries with
  | [] => (m, .error .noEdges)
  | a :: rest => ({ m with entries := rest }, .ok a)

/-- The weight that a key names; if there is none, a default is stored. -/
def setDefault (m : PairMap) (key : Key) (default : Weight) : PairMap × Except Failure Weight :=
  match m.lookup key with
  | .ok a => (m, .ok a.2)
  | .error (.absent _) => ((m.set key default).1, (m.set key default).2.map fun _ => default)
  | .error f => (m, .error f)

/-- Gives weights one after the other, until one is refused. -/
def update (m : PairMap) : List (Key × Weight) → PairMap × Except Failure Unit
  | [] => (m, .ok ())
  | (key, w) :: rest =>
    match m.set key w with
    | (m', .ok ()) => m'.update rest
    | (m', .error f) => (m', .error f)

def clear (m : PairMap) : PairMap × Except Failure Unit := ({ m with entries := [] }, .ok ())

/-! ## Laws -/

theorem Same.symm (h : m.Same e f) : m.Same f e := by
  rcases h with rfl | ⟨undirected, rfl⟩
  · exact .inl rfl
  · exact .inr ⟨undirected, rfl⟩

theorem Same.trans {e' : Edge} (h : m.Same e f) (h' : m.Same f e') : m.Same e e' := by
  rcases h with rfl | ⟨undirected, rfl⟩
  · exact h'
  · rcases h' with rfl | ⟨-, rfl⟩
    · exact .inr ⟨undirected, rfl⟩
    · exact .inl rfl

theorem same_congr {f' : Edge} (h : m.Same f f') : m.Same e f ↔ m.Same e f' :=
  ⟨fun hf => hf.trans h, fun hf => hf.trans h.symm⟩

/-- The names of a pair find the same entry. -/
theorem find?_congr (h : m.Same e f) : m.find? e = m.find? f := by
  unfold find?
  simp only [same_congr h]

/-- Two entries for the same pair are one entry. -/
theorem same_iff_eq {b : Edge × Weight} (distinct : m.Distinct) (ha : a ∈ m.entries)
    (hb : b ∈ m.entries) : m.Same a.1 b.1 ↔ a = b := by
  have : Std.Symm fun a b : Edge × Weight => ¬ m.Same a.1 b.1 := ⟨fun _ _ h h' => h h'.symm⟩
  refine ⟨fun hsame => ?_, fun heq => heq ▸ .inl rfl⟩
  by_contra hne
  exact distinct.forall ha hb hne hsame

theorem find?_eq_some_iff (distinct : m.Distinct) :
    m.find? f = some a ↔ a ∈ m.entries ∧ m.Same a.1 f := by
  constructor
  · intro h
    exact ⟨List.mem_of_find?_eq_some h, by simpa using List.find?_some h⟩
  · rintro ⟨ha, hsame⟩
    obtain ⟨b, hb⟩ : ∃ b, m.find? f = some b :=
      Option.isSome_iff_exists.1 (List.find?_isSome.2 ⟨a, ha, by simpa using hsame⟩)
    have hb' : m.Same b.1 f := by simpa using List.find?_some hb
    rw [hb, (same_iff_eq distinct ha (List.mem_of_find?_eq_some hb)).1 (hsame.trans hb'.symm)]

/-- A name of a stored pair is a name of no other one. -/
theorem same_iff_of_find? {b : Edge × Weight} (distinct : m.Distinct) (hfound : m.find? f = some a)
    (hb : b ∈ m.entries) : m.Same b.1 f ↔ b = a := by
  obtain ⟨ha, hsame⟩ := (find?_eq_some_iff distinct).1 hfound
  rw [← same_congr hsame, same_iff_eq distinct hb ha]

theorem find?_eq_none_iff : m.find? f = none ↔ ∀ a ∈ m.entries, ¬ m.Same a.1 f := by
  simp [find?]

/-- A pair that is there keeps its place and its direction. -/
theorem entries_assign_of_mem (h : m.find? e = some a) :
    (m.assign e w).entries = m.entries.map fun b => if m.Same b.1 e then (b.1, w) else b := by
  rw [assign, if_pos (by simp [h])]

theorem entries_assign_of_new (h : m.find? e = none) :
    (m.assign e w).entries = m.entries ++ [(e, w)] := by
  rw [assign, if_neg (by simp [h])]

theorem directed_assign : (m.assign e w).directed = m.directed := by
  unfold assign
  split <;> rfl

/-- **After an assignment** every name of the pair finds the weight. -/
theorem find?_assign (h : m.Same e f) : ∃ e', (m.assign e w).find? f = some (e', w) := by
  have hsame : ∀ a b, (m.assign e w).Same a b ↔ m.Same a b := by
    simp [Same, directed_assign]
  cases hfound : m.find? e with
  | some a =>
    refine ⟨a.1, ?_⟩
    have ha : m.Same a.1 e := by simpa using List.find?_some hfound
    have hkept : (fun b : Edge × Weight => decide (m.Same b.1 f)) ∘
        (fun b => if m.Same b.1 e then (b.1, w) else b) = fun b => decide (m.Same b.1 f) := by
      funext b
      show decide (m.Same (if m.Same b.1 e then (b.1, w) else b).1 f) = _
      split <;> rfl
    unfold find?
    simp only [hsame]
    rw [entries_assign_of_mem hfound, List.find?_map, hkept]
    show ((m.find? f).map _) = _
    rw [← find?_congr h, hfound, Option.map_some, if_pos ha]
  | none =>
    refine ⟨e, ?_⟩
    have hnone : m.find? f = none := find?_congr h ▸ hfound
    unfold find? at hnone ⊢
    simp only [hsame]
    rw [entries_assign_of_new hfound, List.find?_append, hnone, Option.none_or]
    simp [h]

theorem lookup_toKey (m : PairMap) (e : Edge) : m.lookup e.toKey =
    match m.find? e with
    | none => .error (.absent e.toKey)
    | some a => .ok a := rfl

theorem put_of_ok (h : (m.put e.toKey w).2 = .ok f) : (m.put e.toKey w).1 = m.assign e w := by
  unfold put at h ⊢
  rw [Edge.ofKey?_toKey] at h ⊢
  dsimp only at h ⊢
  cases hfound : m.find? e with
  | some a => rfl
  | none =>
    rw [hfound] at h
    dsimp only at h ⊢
    split at h
    · cases h
    · next hloop => rw [if_neg hloop]

end PairMap

end OptimalMatching
