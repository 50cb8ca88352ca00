import Mathlib.Data.List.Nodup
import Mathlib.Logic.Embedding.Basic
import OptimalMatching.Table
import OptimalMatching.Edge
import OptimalMatching.Matching
import OptimalMatching.OrderedMap
/-!
# Renaming

A renaming of vertices is an embedding: different vertices get different names. It is carried over
to edges, to keys, to failures, and to the containers of the library. A map whose keys are renamed
finds under the new name what it found under the old one, and keeps the order of its entries.

A computation that may fail is renamed by `renameResult`: its result by a function for results, its
failure by the vertices that the failure names. Computations put together from renamed ones are
renamed (`renameResult_bind`, `mapM_rename`, `foldlM_rename`, `Table.tabulateM_rename`).
-/

namespace OptimalMatching

/-! ## Names -/

def Edge.rename (f : Vertex ↪ Vertex) : Edge ↪ Edge where
  toFun e := ⟨f e.source, f e.target⟩
  inj' e e' h := by
    obtain ⟨hs, ht⟩ := Edge.mk.inj h
    exact Edge.ext (f.injective hs) (f.injective ht)

/-- The key of the renamed edge. A key that is not a pair names no vertices. -/
def renameKey (f : Vertex ↪ Vertex) (key : Key) : Key :=
  match Edge.ofKey? key with
  | some e => (Edge.rename f e).toKey
  | none => key

def Unfit.rename (f : Vertex ↪ Vertex) : Unfit → Unfit
  | .missingEdge source target => .missingEdge (f source) (f target)
  | .badWeight edge weight => .badWeight (edge.rename f) weight
  | reason => reason

/-- The failure with the vertices renamed that it names. A name that is absent is taken for that of
a vertex. -/
def Failure.rename (f : Vertex ↪ Vertex) : Failure → Failure
  | .loop edge => .loop (edge.rename f)
  | .absent name => .absent (f name)
  | .notAnEnd vertex edge => .notAnEnd (f vertex) (edge.rename f)
  | .notANeighbor neighbor vertex => .notANeighbor (f neighbor) (f vertex)
  | .unfit reason => .unfit (reason.rename f)
  | failure => failure

section Names

variable (f : Vertex ↪ Vertex)

@[simp] theorem Edge.source_rename (e : Edge) : (e.rename f).source = f e.source := rfl

@[simp] theorem Edge.target_rename (e : Edge) : (e.rename f).target = f e.target := rfl

@[simp] theorem ofKey?_renameKey (key : Key) :
    Edge.ofKey? (renameKey f key) = (Edge.ofKey? key).map (Edge.rename f) := by
  unfold renameKey
  cases h : Edge.ofKey? key with
  | none => exact h
  | some e => rfl

theorem renameKey_injective : Function.Injective (renameKey f) := by
  intro key key' h
  have hnames := congrArg Edge.ofKey? h
  rw [ofKey?_renameKey, ofKey?_renameKey] at hnames
  have heq := Option.map_injective (Edge.rename f).injective hnames
  cases hkey : Edge.ofKey? key with
  | some e =>
    exact (Edge.ofKey?_eq_some_iff.1 hkey).trans
      (Edge.ofKey?_eq_some_iff.1 (heq.symm.trans hkey)).symm
  | none =>
    rwa [renameKey, renameKey, ← heq, hkey] at h

end Names

/-! ## Maps -/

namespace OrderedMap

variable {α α' β β' : Type}

def rename (f : α ↪ α') (k : β → β') (m : OrderedMap α β) : OrderedMap α' β' where
  entries := m.entries.map (Prod.map f k)
  nodup := by
    rw [List.map_map]
    have hcomp : Prod.fst ∘ Prod.map f k = f ∘ Prod.fst (β := β) := rfl
    rw [hcomp, ← List.map_map]
    exact m.nodup.map f.injective

variable (f : α ↪ α') (k : β → β') (m : OrderedMap α β)

@[simp] theorem keys_rename : (m.rename f k).keys = m.keys.map f := by
  simp [keys, rename, Function.comp_def]

variable [DecidableEq α] [DecidableEq α']

theorem find?_rename (a : α) (es : List (α × β)) :
    Entries.find? (f a) (es.map (Prod.map f k)) = (Entries.find? a es).map k := by
  induction es with
  | nil => rfl
  | cons e es ih =>
    by_cases h : e.1 = a <;> simp [Entries.find?, h, ih]

theorem put_rename (a : α) (b : β) (es : List (α × β)) :
    Entries.put (f a) (k b) (es.map (Prod.map f k)) = (Entries.put a b es).map (Prod.map f k) := by
  induction es with
  | nil => rfl
  | cons e es ih =>
    by_cases h : e.1 = a <;> simp [Entries.put, h, ih]

@[simp] theorem get?_rename (a : α) : (m.rename f k).get? (f a) = (m.get? a).map k :=
  find?_rename f k a m.entries

@[simp] theorem contains_rename (a : α) : (m.rename f k).contains (f a) = m.contains a := by
  simp [contains]

theorem insert_rename (a : α) (b : β) :
    (m.insert a b).rename f k = (m.rename f k).insert (f a) (k b) :=
  ext (put_rename f k a b m.entries).symm

theorem modify_rename (a : α) {change : β → β} {change' : β' → β'}
    (h : ∀ b, k (change b) = change' (k b)) :
    (m.modify a change).rename f k = (m.rename f k).modify (f a) change' := by
  refine ext ?_
  simp only [modify, rename, Entries.modify, List.map_map]
  refine List.map_congr_left fun e _ => ?_
  obtain ⟨c, b⟩ := e
  by_cases hc : c = a <;> simp [hc, h]

theorem erase_rename (a : α) : (m.erase a).rename f k = (m.rename f k).erase (f a) := by
  refine ext ?_
  simp only [erase, rename, Entries.drop, List.filter_map]
  congr 1
  exact List.filter_congr fun e _ => by simp

end OrderedMap

theorem distinct_rename {α β : Type} [DecidableEq α] [DecidableEq β] (f : α ↪ β) (l : List α) :
    distinct (l.map f) = (distinct l).map f := by
  induction l with
  | nil => rfl
  | cons a l ih =>
    rw [List.map_cons, distinct, distinct, ih, List.map_cons, List.filter_map]
    congr 2
    exact List.filter_congr fun b _ => by simp

/-! ## Computations -/

/-- A computation with its result and its failure renamed. -/
def renameResult {α β : Type} (f : Vertex ↪ Vertex) (k : α → β) :
    Except Failure α → Except Failure β
  | .ok a => .ok (k a)
  | .error reason => .error (reason.rename f)

section Computations

variable {α α' β β' : Type} (f : Vertex ↪ Vertex)

theorem renameResult_bind {k : α → α'} {l : β → β'} {next : α → Except Failure β}
    {next' : α' → Except Failure β'} (r : Except Failure α)
    (h : ∀ a, r = .ok a → next' (k a) = renameResult f l (next a)) :
    (renameResult f k r).bind next' = renameResult f l (r.bind next) := by
  cases r with
  | error reason => rfl
  | ok a => exact h a rfl

/-- A check with a renamed reason. -/
theorem renameResult_check {k : α → β} {bad bad' : Prop} [Decidable bad] [Decidable bad']
    (same : bad' ↔ bad) {reason reason' : Failure} (hreason : reason' = reason.rename f)
    {next : Except Failure α} {next' : Except Failure β} (h : next' = renameResult f k next) :
    (if bad' then .error reason' else next') =
      renameResult f k (if bad then .error reason else next) := by
  by_cases hbad : bad
  · rw [if_pos hbad, if_pos (same.2 hbad), hreason]
    rfl
  · rw [if_neg hbad, if_neg (mt same.1 hbad), h]

theorem mapM_rename {j : α → α'} {k : β → β'} {c : α → Except Failure β}
    {c' : α' → Except Failure β'} {as : List α} (h : ∀ a ∈ as, c' (j a) = renameResult f k (c a)) :
    (as.map j).mapM c' = renameResult f (List.map k) (as.mapM c) := by
  induction as with
  | nil => rfl
  | cons a as ih =>
    rw [List.map_cons, List.mapM_cons, List.mapM_cons, h a List.mem_cons_self,
      ih fun b hb => h b (List.mem_cons_of_mem _ hb)]
    refine renameResult_bind f (c a) fun b _ => ?_
    exact renameResult_bind f (as.mapM c) fun bs _ => rfl

theorem foldlM_rename {j : α → α'} {k : β → β'} {c : β → α → Except Failure β}
    {c' : β' → α' → Except Failure β'} {as : List α}
    (h : ∀ b, ∀ a ∈ as, c' (k b) (j a) = renameResult f k (c b a)) (b : β) :
    (as.map j).foldlM c' (k b) = renameResult f k (as.foldlM c b) := by
  induction as generalizing b with
  | nil => rfl
  | cons a as ih =>
    rw [List.map_cons, List.foldlM_cons, List.foldlM_cons, h b a List.mem_cons_self]
    exact renameResult_bind f (c b a) fun b' _ =>
      ih (fun b a ha => h b a (List.mem_cons_of_mem _ ha)) b'

theorem Table.map_push {n : Nat} (k : α → β) (t : Table α n) (a : α) :
    (t.push a).map k = (t.map k).push (k a) := by
  simp [Table.map, Table.push]

theorem Table.tabulateM_rename {n : Nat} {k : α → β} {c : Fin n → Except Failure α}
    {c' : Fin n → Except Failure β} (h : ∀ i, c' i = renameResult f k (c i)) :
    Table.tabulateM c' = renameResult f (Table.map k) (Table.tabulateM c) := by
  induction n with
  | zero => exact congrArg Except.ok (Table.ext fun i => i.elim0)
  | succ n ih =>
    simp only [Table.tabulateM]
    rw [ih fun i => h i.castSucc, h (Fin.last n)]
    refine renameResult_bind f (Table.tabulateM fun i => c i.castSucc) fun front _ => ?_
    refine renameResult_bind f (c (Fin.last n)) fun last _ => ?_
    exact congrArg Except.ok (Table.map_push k front last).symm

theorem Grid.tabulateM_rename {n : Nat} {k : α → β} {c : Fin n → Fin n → Except Failure α}
    {c' : Fin n → Fin n → Except Failure β} (h : ∀ i j, c' i j = renameResult f k (c i j)) :
    Grid.tabulateM c' = renameResult f (Table.map (Table.map k)) (Grid.tabulateM c) :=
  Table.tabulateM_rename f fun i => Table.tabulateM_rename f (h i)

end Computations

end OptimalMatching
