import HornSaturation.Unit.Store

/-!
# Level saturation

Candidates are issued level by level. When no candidate is left, the next level takes every
combination of a clause with active units that was not possible at the levels before, clause by
clause, the unit of the first body position changing fastest. A unit that is active was active ever
since it was stored, so a combination is new exactly if one of its units has been stored since the
last level began; `Recollecting.issues_alike` shows that a search that remembers all candidates
issues the same ones. A combination whose units are no longer all active when its turn comes is left
out. The search is exhausted when a level has no combination.
-/

namespace HornSaturation

/-- The state of level saturation. -/
structure Saturation where
  /-- The candidates of the current level that have not been issued. -/
  pending : List Candidate := []
  /-- The number of stored units when the current level began. -/
  frontier : Nat := 0
  /-- The number of levels begun so far. -/
  level : Nat := 0

namespace Saturation

/-- All ways to choose an element of each list, the first choice changing fastest. -/
def choices {α : Type} : List (List α) → List (List α)
  | [] => [[]]
  | xs :: rest => (choices rest).flatMap fun tail => xs.map (· :: tail)

/-- The combinations of a clause with active units. -/
def combinations (store : Store) (index : Nat) (c : NormalizedClause) : List Candidate :=
  if c.body.isEmpty then []
  else (choices (c.body.map fun a => store.unitIds a.relation)).map (⟨index, ·⟩)

/-- Begins the next level. -/
def refill (clauses : List NormalizedClause) (store : Store) (s : Saturation) : Saturation where
  pending := (clauses.zipIdx.flatMap fun (c, index) => combinations store index c).filter
    fun candidate => candidate.electrons.any (s.frontier ≤ ·)
  frontier := store.size
  level := s.level + 1

/-- Whether all units of a candidate are active. -/
def isReady (store : Store) (c : Candidate) : Bool := c.electrons.all store.isActive

/-- Issues the next candidate, or none if the search is exhausted. -/
def next (clauses : List NormalizedClause) (store : Store) (s : Saturation) :
    Option Candidate × Saturation :=
  match s.pending.dropWhile fun c => !isReady store c with
  | c :: rest => (some c, { s with pending := rest })
  | [] =>
    let s := s.refill clauses store
    match s.pending with
    | c :: rest => (some c, { s with pending := rest })
    | [] => (none, s)

end Saturation

end HornSaturation
