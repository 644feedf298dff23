import Topics.Types
import Mathlib.Data.List.Sort

/-!
# The router graph

`RouterGraph` (`engine/router.rs`): the router registry and the cycle check that guards it.
The source keeps four maps with the same keys (definition, cursor, total, dest base); here
they are one list of entries.
-/

namespace Topics

/-- A registered router with its forwarding progress. -/
structure RouterEntry where
  router : Router
  cursor : Nat
  forwardedTotal : Nat
  destBase : Nat
  deriving DecidableEq, Repr

/-- `dfs_to`: depth-first search for `target` over `edges`, threading the visited set.  The
first argument bounds the recursion depth. -/
def dfsTo (edges : List (String × String)) (target : String) :
    Nat → List String → String → Bool × List String
  | 0, visited, _ => (false, visited)
  | n + 1, visited, start =>
    if start = target then (true, visited)
    else
      ((edges.filter fun e => e.1 = start).map Prod.snd).foldl
        (fun (found, visited) next =>
          if found then (found, visited)
          else if next ∈ visited then (false, visited)
          else dfsTo edges target n visited next)
        (false, start :: visited)

structure RouterGraph where
  entries : List RouterEntry
  deriving DecidableEq, Repr

namespace RouterGraph

def empty : RouterGraph := ⟨[]⟩

def find (g : RouterGraph) (name : String) : Option RouterEntry :=
  g.entries.find? fun e => e.router.name = name

def get (g : RouterGraph) (name : String) : Option Router := (g.find name).map (·.router)

/-- `would_create_cycle_excluding`: whether `dest` already reaches `source` over the edges of
the routers other than `exclude`.  Every level of the search visits a new dest, so one level
more than there are edges is enough. -/
def wouldCreateCycle (g : RouterGraph) (source dest exclude : String) : Bool :=
  let edges := (g.entries.filter fun e => e.router.name ≠ exclude).map
    fun e => (e.router.source, e.router.dest)
  decide (source = dest) || (dfsTo edges source (edges.length + 1) [] dest).1

/-- Insert or replace the definition of a router, keeping the progress of an existing one. -/
def insert (g : RouterGraph) (r : Router) : RouterGraph :=
  if (g.find r.name).isSome then
    ⟨g.entries.map fun e => if e.router.name = r.name then { e with router := r } else e⟩
  else ⟨g.entries ++ [{ router := r, cursor := 0, forwardedTotal := 0, destBase := 0 }]⟩

/-- `upsert`: `none` is the `router_cycle` rejection, otherwise the graph and whether the
router is new. -/
def upsert (g : RouterGraph) (r : Router) : Option (RouterGraph × Bool) :=
  if !r.allowCycle && g.wouldCreateCycle r.source r.dest r.name then none
  else some (g.insert r, (g.find r.name).isNone)

/-- `note_forwarded` with the count of zero that seeds a new router, and `seed_dest_base`. -/
def seed (g : RouterGraph) (name : String) (cursor destBase : Nat) : RouterGraph :=
  ⟨g.entries.map fun e =>
    if e.router.name = name then
      { e with
        cursor := cursor
        destBase := if e.forwardedTotal = 0 then destBase else e.destBase }
    else e⟩

def noteForwarded (g : RouterGraph) (name : String) (srcHead count : Nat) : RouterGraph :=
  ⟨g.entries.map fun e =>
    if e.router.name = name then
      { e with cursor := srcHead, forwardedTotal := e.forwardedTotal + count }
    else e⟩

def seedDestBase (g : RouterGraph) (name : String) (base : Nat) : RouterGraph :=
  ⟨g.entries.map fun e =>
    if e.router.name = name ∧ e.forwardedTotal = 0 then { e with destBase := base } else e⟩

/-- The no-fan-in rule of `put_router`: another router feeds the dest from another source. -/
def fansIn (g : RouterGraph) (r : Router) : Bool :=
  g.entries.any fun e =>
    e.router.name ≠ r.name ∧ e.router.dest = r.dest ∧ e.router.source ≠ r.source

/-- `put_router` refuses to move an existing router to another source or dest. -/
def repoints (g : RouterGraph) (r : Router) : Bool :=
  (g.get r.name).any fun old => old.source ≠ r.source ∨ old.dest ≠ r.dest

def remove (g : RouterGraph) (name : String) : RouterGraph :=
  ⟨g.entries.filter fun e => e.router.name ≠ name⟩

/-- Whether a router reads from or writes to the topic. -/
def touches (r : Router) (topic : String) : Bool := r.source == topic || r.dest == topic

def routersTouchingTopic (g : RouterGraph) (topic : String) : List String :=
  ((g.entries.filter fun e => touches e.router topic).map (·.router.name)).insertionSort (· ≤ ·)

def removeTouchingTopic (g : RouterGraph) (topic : String) : RouterGraph :=
  ⟨g.entries.filter fun e => !touches e.router topic⟩

/-- `apply_router_create_for_recovery`: a rejected upsert is ignored. -/
def applyCreate (g : RouterGraph) (op : RouterOp) : RouterGraph :=
  match g.upsert op.router with
  | none => g
  | some (g', created) =>
    if created then g'.seed op.router.name op.initialCursor op.initialDestBase else g'

end RouterGraph

end Topics
