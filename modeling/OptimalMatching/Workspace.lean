import OptimalMatching.Graph.Edit
import OptimalMatching.Neighborhoods
/-!
# Workspaces

A workspace holds graphs that change over time, and what listens to them: caches of neighborhoods,
each of which reads a graph of the workspace, not necessarily the one it listens to; recorders,
which write down the events they are told; and guests, which come from outside.

**Guests.** What a guest does when it is told of an event is a parameter (`Outside`). It may look
at all graphs, remember whatever it likes, and fail. It does not change a graph, consult a cache or
register a listener while it is told: listeners that do are not covered.

An operation on a graph is carried out change by change. After each change the listeners of
the graph are told, in the order in which they were registered. If one of them fails, the
operation ends there with its failure: the change stays, and nothing after it happens.
-/

namespace OptimalMatching

/-- What comes from outside: the bags of the caches, and what a guest makes of the graphs and an
event that it is told of. -/
structure Outside where
  bags : Bags
  /-- What a guest remembers. -/
  Guest : Type
  hear : Guest → List Graph → Event → Guest × Except Failure Unit

/-- Bags that are tallies, and no guests. -/
def Outside.plain : Outside := ⟨Tally.bags, Empty, fun guest => nomatch guest⟩

/-- What listens to a graph, each with its number among those of its kind. -/
inductive Listener where
  | cache (id : Nat)
  | recorder (id : Nat)
  | guest (id : Nat)
  deriving DecidableEq

/-- A graph with its listeners, in the order in which they were registered. -/
structure Watched where
  graph : Graph
  listeners : List Listener
  deriving Inhabited

/-- A cache of neighborhoods with the number of the graph that it reads. -/
structure Reader (B : Bags) where
  source : Nat
  neighborhoods : Neighborhoods B

/-- Graphs and their listeners. -/
structure Workspace (O : Outside) where
  graphs : List Watched
  caches : List (Reader O.bags)
  /-- What each recorder has been told, in order. -/
  recorders : List (List Event)
  guests : List O.Guest

namespace Workspace

variable {O : Outside}

def empty : Workspace O := ⟨[], [], [], []⟩

def graph (w : Workspace O) (id : Nat) : Graph := (w.graphs[id]?.getD default).graph

def listeners (w : Workspace O) (id : Nat) : List Listener :=
  (w.graphs[id]?.getD default).listeners

def recorded (w : Workspace O) (id : Nat) : List Event := w.recorders[id]?.getD []

/-! ## Adding and registering -/

/-- Adds a graph without listeners and gives its number. -/
def addGraph (w : Workspace O) (g : Graph) : Workspace O × Nat :=
  ({ w with graphs := w.graphs ++ [⟨g, []⟩] }, w.graphs.length)

/-- Adds an empty cache that reads a graph and gives its number. -/
def addCache (w : Workspace O) (source : Nat) : Workspace O × Nat :=
  ({ w with caches := w.caches ++ [⟨source, .empty⟩] }, w.caches.length)

def addRecorder (w : Workspace O) : Workspace O × Nat :=
  ({ w with recorders := w.recorders ++ [[]] }, w.recorders.length)

def addGuest (w : Workspace O) (guest : O.Guest) : Workspace O × Nat :=
  ({ w with guests := w.guests ++ [guest] }, w.guests.length)

/-- Registers a listener after those that are registered. -/
def register (w : Workspace O) (id : Nat) (l : Listener) : Workspace O :=
  { w with graphs := w.graphs.modify id fun g => { g with listeners := g.listeners ++ [l] } }

/-- Takes back the first registration of a listener. -/
def unregister (w : Workspace O) (id : Nat) (l : Listener) : Workspace O × Except Failure Unit :=
  if l ∈ w.listeners id then
    ({ w with graphs := w.graphs.modify id fun g => { g with listeners := g.listeners.erase l } },
      .ok ())
  else (w, .error .notListening)

/-! ## Telling the listeners -/

/-- Lets a cache do something with the graph that it reads. -/
def withCache {α : Type} (w : Workspace O) (id : Nat)
    (f : Neighborhoods O.bags → Graph → Neighborhoods O.bags × Except Failure α) :
    Workspace O × Except Failure α :=
  let reader := w.caches[id]?.getD ⟨0, .empty⟩
  let (neighborhoods, result) := f reader.neighborhoods (w.graph reader.source)
  ({ w with caches := w.caches.set id { reader with neighborhoods } }, result)

def tellGuest (w : Workspace O) (id : Nat) (event : Event) : Workspace O × Except Failure Unit :=
  match w.guests[id]? with
  | none => (w, .ok ())
  | some guest =>
    let (guest, result) := O.hear guest (w.graphs.map Watched.graph) event
    ({ w with guests := w.guests.set id guest }, result)

/-- Tells a listener of an event. -/
def tell (w : Workspace O) (event : Event) : Listener → Workspace O × Except Failure Unit
  | .recorder id => ({ w with recorders := w.recorders.modify id (· ++ [event]) }, .ok ())
  | .cache id => w.withCache id fun c g => c.receive g event
  | .guest id => w.tellGuest id event

/-- Tells listeners of an event, in order, until one of them fails. -/
def tellAll (w : Workspace O) (event : Event) : List Listener → Workspace O × Except Failure Unit
  | [] => (w, .ok ())
  | l :: rest =>
    match w.tell event l with
    | (w, .error f) => (w, .error f)
    | (w, .ok ()) => tellAll w event rest

/-! ## Changing a graph -/

/-- Carries out a change of a graph, without telling anyone. -/
def change (w : Workspace O) (id : Nat) (c : Change) : Workspace O :=
  { w with graphs := w.graphs.modify id fun g => { g with graph := g.graph.apply c } }

/-- Carries out a change of a graph and tells its listeners. -/
def commit (w : Workspace O) (id : Nat) (c : Change) : Workspace O × Except Failure Unit :=
  let changed := w.change id c
  match c.event? with
  | none => (changed, .ok ())
  | some event => changed.tellAll event (changed.listeners id)

/-- Carries out changes of a graph until a listener fails. -/
def commitAll (w : Workspace O) (id : Nat) : List Change → Workspace O × Except Failure Unit
  | [] => (w, .ok ())
  | c :: rest =>
    match w.commit id c with
    | (w, .error f) => (w, .error f)
    | (w, .ok ()) => commitAll w id rest

/-- Carries out an operation on a graph. The failure of a listener takes the place of the
operation's own result. -/
def perform {α : Type} (w : Workspace O) (id : Nat) (operation : Graph → Edit α) :
    Workspace O × Except Failure α :=
  let edit := operation (w.graph id)
  match w.commitAll id edit.changes with
  | (w, .error f) => (w, .error f)
  | (w, .ok ()) => (w, edit.result)

/-- Clears a graph. Edges are taken until one is missing. So a listener that fails because something
is missing ends the operation as well, but not with its failure. -/
def clear (w : Workspace O) (id : Nat) : Workspace O × Except Failure Unit :=
  match w.perform id Graph.clear with
  | (w, .error f) => (w, if f.kind = .missing then .ok () else .error f)
  | (w, .ok ()) => (w, .ok ())

end Workspace

end OptimalMatching
