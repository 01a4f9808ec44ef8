import WhileExec.Symbolic.Pool

/-!
# Results on demand

A search gives its results one at a time, and nothing behind a result is done before the next one is asked for. A
trace is a search under way: it has ended, it has failed, or it has a result and can be resumed. It is resumed
with the pool of that moment, since whoever uses the result may have changed the pool.
-/

namespace WhileExec.Symbolic

inductive Trace (α : Type) where
  | done (pool : Pool)
  | failed (fault : Fault) (pool : Pool)
  | yield (value : α) (pool : Pool) (resume : Pool → Trace α)

namespace Trace

variable {α β : Type}

/-- Goes on with `next` when the results are used up. -/
def andThen (next : Pool → Trace α) : Trace α → Trace α
  | .done pool => next pool
  | .failed fault pool => .failed fault pool
  | .yield value pool resume => .yield value pool fun pool => (resume pool).andThen next

/-- All results of a search started with each result in turn. -/
def bind (search : α → Pool → Trace β) : Trace α → Trace β
  | .done pool => .done pool
  | .failed fault pool => .failed fault pool
  | .yield value pool resume => (search value pool).andThen fun pool => (resume pool).bind search

/-- The results that were drawn, the cause if drawing failed, and the pool afterwards. -/
structure Drawn (α : Type) where
  values : List α
  fault : Option Fault
  pool : Pool

/-- Draws results until there are none left, or as many as are wanted. -/
def draw (wanted : Option Nat) : Trace α → Drawn α
  | .done pool => ⟨[], none, pool⟩
  | .failed fault pool => ⟨[], some fault, pool⟩
  | .yield value pool resume =>
    match wanted with
    | some 0 => ⟨[], none, pool⟩
    | some 1 => ⟨[value], none, pool⟩
    | some (n + 2) =>
      let rest := (resume pool).draw (some (n + 1))
      ⟨value :: rest.values, rest.fault, rest.pool⟩
    | none =>
      let rest := (resume pool).draw none
      ⟨value :: rest.values, rest.fault, rest.pool⟩

end Trace

/-- A computation with any number of results. -/
def Search (α : Type) := Pool → Trace α

namespace Search

variable {α : Type}

instance : Monad Search where
  pure value := fun pool => .yield value pool .done
  bind search next := fun pool => (search pool).bind next

/-- No result. -/
def none : Search α :=
  .done

/-- The results of one search and then those of another. -/
def also (first second : Search α) : Search α :=
  fun pool => (first pool).andThen second

instance : MonadLift Explore Search where
  monadLift action := fun pool =>
    match action pool with
    | .ok value pool => .yield value pool .done
    | .error fault pool => .failed fault pool

/-- Draws from a search. If no result is wanted it is not even begun. -/
def draw (wanted : Option Nat) (search : Search α) (pool : Pool) : Trace.Drawn α :=
  match wanted with
  | some 0 => ⟨[], .none, pool⟩
  | wanted => (search pool).draw wanted

end Search

end WhileExec.Symbolic
