import OptimalMatching.Proofs.Assignment.Excess
import OptimalMatching.Proofs.Assignment.Augmenting
/-!
# Searching with a stack

A search for an augmenting path can also be kept on a stack, without recursion.

**The state** (`Trail`). The columns of the path, each with the row from which its trying is to be
resumed, and in a list of its own the rows by which the path leaves them. The last column has not
been left yet, so there is one row less.

**A step.** In the last column the rows are tried until one of them leads on. A row that leads to a
new column puts that column on top. When there is no such row left, the column goes, together with
the row that led to it. An exposed row ends the search: the columns are paired with the rows, in the
order of the two lists.

**The same search.** While the rows of a column are tried, the lists below it stay as they are, and
they stay in step (`Pairing.Tries.carries`). So the stack does what the recursion does: it comes to
the same end with the same pairing, and the same lines have been entered (`Trail.start_ends`).
-/

namespace OptimalMatching

variable {n : Nat} {tight : Tight n} {p q : Pairing n} {e e' : Entered n} {i j k : Fin n}
  {todo : List (Fin n)} {out : Option (AugmentingPath n) × Entered n} {found : Bool}

/-! ## Trying rows -/

/-- What comes of trying rows until one of them leads on. -/
inductive Trial (n : Nat) where
  /-- An exposed row. -/
  | exposed (i : Fin n)
  /-- A row whose column is new. -/
  | leads (i k : Fin n)
  /-- No row leads on. -/
  | spent

/-- Tries the rows of a list in column `j` until one of them leads on. -/
def Pairing.attempt (tight : Tight n) (p : Pairing n) (j : Fin n) :
    List (Fin n) → Entered n → Trial n × Entered n
  | [], e => (.spent, e)
  | i :: rest, e =>
    if !tight i j || e.rows.get i then p.attempt tight j rest e
    else
      match p.columnOf.get i with
      | none => (.exposed i, e)
      | some k =>
        let e := e.enterRow i
        if e.columns.get k then p.attempt tight j rest e else (.leads i k, e.enterColumn k)

namespace Pairing

variable {rest : List (Fin n)}

theorem attempt_of_old (old : tight i j = true → e.rows.get i = true) :
    p.attempt tight j (i :: rest) e = p.attempt tight j rest e := by
  rw [attempt, if_pos]
  cases hij : tight i j <;> simp_all

theorem attempt_of_new (hij : tight i j = true) (new : e.rows.get i ≠ true) :
    p.attempt tight j (i :: rest) e =
      match p.columnOf.get i with
      | none => (.exposed i, e)
      | some k =>
        if e.columns.get k then p.attempt tight j rest (e.enterRow i)
        else (.leads i k, (e.enterRow i).enterColumn k) := by
  rw [attempt, if_neg (by simp [hij, new])]
  rfl

end Pairing

/-! ## The stack -/

/-- A column of the path, and the first of its rows that has not been tried. -/
structure Frame (n : Nat) where
  column : Fin n
  next : Nat

/-- A search under way. -/
structure Trail (n : Nat) where
  /-- The columns of the path, the last one first. -/
  frames : List (Frame n)
  /-- The rows by which the path leaves its columns, the last one first. -/
  rows : List (Fin n)
  pairing : Pairing n
  entered : Entered n

namespace Trail

def start (p : Pairing n) (j : Fin n) (e : Entered n) : Trail n :=
  ⟨[⟨j, 0⟩], [], p, e.enterColumn j⟩

/-- The rows with the columns that they leave, from the first column on. -/
def zipped (frames : List (Frame n)) (rows : List (Fin n)) : List (Fin n × Fin n) :=
  rows.reverse.zip (frames.map Frame.column).reverse

/-- What a step leads to. -/
inductive Step (n : Nat) where
  /-- The search goes on. -/
  | on (t : Trail n)
  /-- The search has come to its end. -/
  | done (found : Bool) (pairing : Pairing n) (entered : Entered n)

def step (tight : Tight n) (t : Trail n) : Step n :=
  match t.frames with
  | [] => .done false t.pairing t.entered
  | ⟨j, next⟩ :: below =>
    match t.pairing.attempt tight j ((List.finRange n).drop next) t.entered with
    | (.exposed i, e) => .done true (t.pairing.linkAll (zipped t.frames (i :: t.rows))) e
    | (.leads i k, e) => .on ⟨⟨k, 0⟩ :: ⟨j, i + 1⟩ :: below, i :: t.rows, t.pairing, e⟩
    | (.spent, e) => .on ⟨below, t.rows.tail, t.pairing, e⟩

/-- A search that comes to its end: whether it has found a path, and the pairing and the entered
lines that it leaves. -/
inductive Ends (tight : Tight n) : Trail n → Bool → Pairing n → Entered n → Prop where
  | now {t : Trail n} {found : Bool} {q : Pairing n} {e : Entered n}
      (stop : t.step tight = .done found q e) : Ends tight t found q e
  | later {t t' : Trail n} {found : Bool} {q : Pairing n} {e : Entered n}
      (go : t.step tight = .on t') (rest : Ends tight t' found q e) : Ends tight t found q e

variable {t t' : Trail n} {below : List (Frame n)} {rows : List (Fin n)} {next : Nat}

theorem Ends.unique (h : t.Ends tight found q e) {found' : Bool} {q' : Pairing n}
    (h' : t.Ends tight found' q' e') : found' = found ∧ q' = q ∧ e' = e := by
  induction h with
  | now stop =>
    cases h' with
    | now stop' =>
      cases stop.symm.trans stop'
      exact ⟨rfl, rfl, rfl⟩
    | later go' _ => cases stop.symm.trans go'
  | later go _ ih =>
    cases h' with
    | now stop' => cases go.symm.trans stop'
    | later go' rest' =>
      cases go.symm.trans go'
      exact ih rest'

theorem Ends.of_step_eq (h : t'.Ends tight found q e) (same : t.step tight = t'.step tight) :
    t.Ends tight found q e := by
  cases h with
  | now stop => exact .now (same.trans stop)
  | later go rest => exact .later (same.trans go) rest

theorem zipped_cons (inStep : rows.length = below.length) (i : Fin n) (frame : Frame n) :
    zipped (frame :: below) (i :: rows) = zipped below rows ++ [(i, frame.column)] := by
  unfold zipped
  rw [List.map_cons, List.reverse_cons, List.reverse_cons, List.zip_append (by simpa using inStep)]
  rfl

theorem step_eq (tight : Tight n) (j : Fin n) (next : Nat) (below : List (Frame n))
    (rows : List (Fin n)) (p : Pairing n) (e : Entered n) :
    step tight ⟨⟨j, next⟩ :: below, rows, p, e⟩ =
      match p.attempt tight j ((List.finRange n).drop next) e with
      | (.exposed i, e) => .done true (p.linkAll (zipped (⟨j, next⟩ :: below) (i :: rows))) e
      | (.leads i k, e) => .on ⟨⟨k, 0⟩ :: ⟨j, i + 1⟩ :: below, i :: rows, p, e⟩
      | (.spent, e) => .on ⟨below, rows.tail, p, e⟩ :=
  rfl

/-- A step depends only on what comes of trying the rows. -/
theorem step_eq_of_attempt {next' : Nat}
    (same : p.attempt tight j ((List.finRange n).drop next) e =
      p.attempt tight j ((List.finRange n).drop next') e') :
    step tight ⟨⟨j, next⟩ :: below, rows, p, e⟩ =
      step tight ⟨⟨j, next'⟩ :: below, rows, p, e'⟩ := by
  unfold step
  dsimp only
  rw [same]
  rfl

end Trail

/-! ## The same search -/

theorem drop_finRange_eq_cons {next : Nat} {rest : List (Fin n)}
    (h : (List.finRange n).drop next = i :: rest) : (List.finRange n).drop (i + 1) = rest := by
  have hlt : next < (List.finRange n).length := by
    by_contra hge
    rw [List.drop_eq_nil_of_le (Nat.le_of_not_lt hge)] at h
    cases h
  rw [List.drop_eq_getElem_cons hlt] at h
  obtain ⟨hi, rfl⟩ := List.cons.inj h
  rw [← hi, List.getElem_finRange]
  rfl

namespace Pairing

open Trail

/-- What a search through rows in the last column of a path means for the search on the stack: with
an augmenting path it ends, and otherwise it goes on without this column. -/
def Carries (tight : Tight n) (p : Pairing n) (t : Trail n) (below : List (Frame n))
    (rows : List (Fin n)) : Option (AugmentingPath n) × Entered n → Prop
  | (some path, e) => t.Ends tight true (p.linkAll (zipped below rows ++ path)) e
  | (none, e) => ∀ found q e', Ends tight ⟨below, rows.tail, p, e⟩ found q e' →
      t.Ends tight found q e'

/-- A row that leads nowhere is passed over within a step. -/
theorem Carries.of_attempt {below : List (Frame n)} {rows rest : List (Fin n)} {next : Nat}
    (h : p.Carries tight ⟨⟨j, i + 1⟩ :: below, rows, p, e'⟩ below rows out)
    (htodo : (List.finRange n).drop next = i :: rest)
    (pass : p.attempt tight j (i :: rest) e = p.attempt tight j rest e') :
    p.Carries tight ⟨⟨j, next⟩ :: below, rows, p, e⟩ below rows out := by
  have same : step tight ⟨⟨j, next⟩ :: below, rows, p, e⟩ =
      step tight ⟨⟨j, i + 1⟩ :: below, rows, p, e'⟩ :=
    step_eq_of_attempt (by rw [htodo, drop_finRange_eq_cons htodo, pass])
  obtain ⟨_ | path, e''⟩ := out
  · exact fun found q e' hend => (h found q e' hend).of_step_eq same
  · exact Ends.of_step_eq h same

/-- A row whose column is new puts that column on top. -/
theorem step_of_leads {below : List (Frame n)} {rows rest : List (Fin n)} {next : Nat}
    (htodo : (List.finRange n).drop next = i :: rest) (hij : tight i j = true)
    (new : e.rows.get i ≠ true) (partner : p.columnOf.get i = some k)
    (newColumn : e.columns.get k ≠ true) :
    step tight ⟨⟨j, next⟩ :: below, rows, p, e⟩ = .on ⟨⟨k, 0⟩ :: ⟨j, i + 1⟩ :: below, i :: rows, p,
      (e.enterRow i).enterColumn k⟩ := by
  rw [step_eq, htodo, attempt_of_new hij new, partner]
  dsimp only
  rw [if_neg newColumn]

/-- **The stack does what the recursion does.** -/
theorem Tries.carries (h : Tries tight p j todo e out) {below : List (Frame n)}
    {rows : List (Fin n)} {next : Nat} (htodo : (List.finRange n).drop next = todo)
    (inStep : rows.length = below.length) :
    p.Carries tight ⟨⟨j, next⟩ :: below, rows, p, e⟩ below rows out := by
  -- Along the search: one step of the stack is made for each cell that is tried, and a call of the
  -- search stands for the steps until its frame is off the stack again.
  induction h generalizing below rows next with
  | nil =>
    intro found q e' hend
    refine .later ?_ hend
    rw [step_eq, htodo]
    rfl
  | skip old _ ih =>
    exact (ih (drop_finRange_eq_cons htodo) inStep).of_attempt htodo (attempt_of_old old)
  | @exposed i j rest e hij new free =>
    refine .now ?_
    rw [step_eq, htodo, attempt_of_new hij new, free, ← zipped_cons inStep i ⟨j, next⟩]
  | entered hij new partner old _ ih =>
    refine (ih (drop_finRange_eq_cons htodo) inStep).of_attempt htodo ?_
    rw [attempt_of_new hij new, partner]
    exact if_pos old
  | @found i j k rest e e' path hij new partner newColumn _ ih =>
    have hdown : p.Carries tight ⟨⟨k, 0⟩ :: ⟨j, i + 1⟩ :: below, i :: rows, p, _⟩
        (⟨j, i + 1⟩ :: below) (i :: rows) _ := ih rfl (congrArg (· + 1) inStep)
    rw [Carries, zipped_cons inStep, List.append_assoc] at hdown
    exact .later (step_of_leads htodo hij new partner newColumn) hdown
  | @vain i j k rest e e' out hij new partner newColumn _ _ ihdown ihlater =>
    have hdown : p.Carries tight ⟨⟨k, 0⟩ :: ⟨j, i + 1⟩ :: below, i :: rows, p, _⟩
        (⟨j, i + 1⟩ :: below) (i :: rows) _ := ihdown rfl (congrArg (· + 1) inStep)
    have hlater : p.Carries tight ⟨⟨j, i + 1⟩ :: below, rows, p, e'⟩ below rows out :=
      ihlater (drop_finRange_eq_cons htodo) inStep
    have hstep : step tight ⟨⟨j, next⟩ :: below, rows, p, e⟩ = _ :=
      step_of_leads htodo hij new partner newColumn
    obtain ⟨_ | path, e''⟩ := out
    · exact fun found q f hend => .later hstep (hdown _ _ _ (hlater found q f hend))
    · exact .later hstep (hdown _ _ _ hlater)

end Pairing

namespace Trail

/-- **A search on the stack** comes to the end of the search without one. -/
theorem start_ends (tight : Tight n) (p : Pairing n) (j : Fin n) (e : Entered n) :
    (start p j e).Ends tight (p.grow? tight j e).1.isSome ((p.grow? tight j e).1.getD p)
      (p.grow? tight j e).2 := by
  have tries : Pairing.Tries tight p j _ _ _ := Pairing.search_tries j e
  have h : p.Carries tight (start p j e) [] [] _ := tries.carries rfl rfl
  unfold Pairing.grow?
  rcases hsearch : p.search tight j e with ⟨_ | path, e'⟩
  · rw [hsearch] at h
    exact h false p e' (.now rfl)
  · rw [hsearch] at h
    exact h

end Trail

/-- **A search for an augmenting path** comes to its end from every unmatched column, whatever has
been entered before, and it has one end only: the one of the search without a stack. If it has found
a path, the new pairing is valid, the column and one row that was exposed are paired in addition,
and no line has become exposed. Otherwise the pairing is the old one. -/
theorem search_ends_soundly (c : Fin n → Fin n → Int) (e : Entered n) (valid : p.Valid (zeros c))
    (exposed : p.rowOf.get j = none) :
    ∃ found q e', (Trail.start p j e).Ends (zeros c) found q e' ∧
      (∀ found' q' f, (Trail.start p j e).Ends (zeros c) found' q' f →
        found' = found ∧ q' = q ∧ f = e') ∧
      p.grow? (Costs.ofInts c).tight j e = (if found then some q else none, e') ∧
      (found = true → q.Valid (zeros c) ∧ ∃ i, p.columnOf.get i = none ∧
        q.rows = insert i p.rows ∧ q.columns = insert j p.columns) ∧
      (found = false → q = p) := by
  rw [Costs.tight_eq_zeros]
  have hends := Trail.start_ends (zeros c) p j e
  have searched : Pairing.Searched (zeros c) p j _ _ _ := Pairing.search_searched j e
  refine ⟨_, _, _, hends, fun found' q' f h => hends.unique h, ?_⟩
  unfold Pairing.grow?
  rcases hsearch : p.search (zeros c) j e with ⟨_ | path, e'⟩
  · exact ⟨rfl, by simp, fun _ => rfl⟩
  · rw [hsearch] at searched
    exact ⟨rfl, fun _ => searched.1.linkAll valid searched.2.1 exposed, by simp⟩

/-- Excesses in which the search from the last column goes a wrong way first: through the columns of
rows 0 and 1, which have no other zeros. -/
def detour (i j : Fin 4) : Int :=
  if [(0, 0), (0, 3), (1, 0), (1, 1), (2, 2), (2, 3), (3, 2)].contains (i.val, j.val) then 0 else 1

/-- The first three rows are paired with the first three columns. -/
def detourPairing : Pairing 4 :=
  Pairing.empty.linkAll (((List.finRange 4).take 3).map fun i => (i, i))

theorem search_ends_soundly_detour : detourPairing.Valid (zeros detour) ∧
    detourPairing.rowOf.get 3 = none ∧
      ∃ q e', (Trail.start detourPairing 3 .nowhere).Ends (zeros detour) true q e' ∧
        e'.columns.get 1 = true ∧ q.Valid (zeros detour) ∧ q.columnOf.get 0 = some 0 ∧
          q.columnOf.get 1 = some 1 ∧ q.columnOf.get 2 = some 3 ∧ q.columnOf.get 3 = some 2 := by
  have valid : detourPairing.Valid (zeros detour) := ⟨by decide, by decide⟩
  have exposed : detourPairing.rowOf.get 3 = none := by decide
  obtain ⟨found, q, e', hends, -, hgrow, hfound, -⟩ :=
    search_ends_soundly detour .nowhere valid exposed
  have hq : detourPairing.grow? (Costs.ofInts detour).tight 3 .nowhere =
      (some ((detourPairing.link 2 3).link 3 2),
        ⟨(Table.replicate 4 true).put 3 false, .replicate 4 true⟩) := by
    decide +kernel
  obtain ⟨hsome, rfl⟩ := Prod.mk.inj (hgrow.symm.trans hq)
  cases found with
  | false => cases hsome
  | true =>
    obtain rfl := Option.some.inj hsome
    exact ⟨valid, exposed, _, _, hends, by decide, (hfound rfl).1, by decide, by decide, by decide,
      by decide⟩

end OptimalMatching
