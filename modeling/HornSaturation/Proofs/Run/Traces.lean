import HornSaturation.Proofs.Run.Journal
import Mathlib.Logic.Relation

/-!
# Runs step by step

Solving goes through states that differ in one of three ways: a unit has been settled, a
contradictory query has been recorded, or the stored units are the same and the oracle has been
asked. This holds for every method and every oracle, so what each such step preserves holds in every
state that a run visits, also where solving fails.
-/

namespace HornSaturation

variable {σ α : Type} {m : Method σ} {p : NormalizedProblem} {r r' : Run σ}

namespace Run

/-- One step of a run. -/
inductive Advance (m : Method σ) (p : NormalizedProblem) (r : Run σ) : Run σ → Prop
  /-- A unit has been settled, with or without success. -/
  | settled {u : UnitClause} {pr : Provenance} (h : Offered m p r.units u pr) :
      Advance m p r ((Running.settle m u pr).run.run r).2
  /-- A clause without body and head has been recorded as a contradiction. -/
  | recorded {c : NormalizedClause} {u : UnitClause} {id : UnitId} {units : Store}
      (hc : c ∈ p.clauses) (hu : UnitClause.ofNormalized c = .ok u)
      (h : r.units.recordRefutation u (.derived c.index []) = .ok (id, units)) :
      Advance m p r { r with units }
  /-- Nothing has happened to the stored units. -/
  | aside {r' : Run σ} (hunits : r'.units = r.units)
      (hl : r.workspace.oracle.Later r'.workspace.oracle) : Advance m p r r'

/-- Any number of steps of a run. -/
def Advances (m : Method σ) (p : NormalizedProblem) : Run σ → Run σ → Prop :=
  Relation.ReflTransGen (Advance m p)

theorem Advances.trans {r'' : Run σ} (h : r.Advances m p r') (h' : r'.Advances m p r'') :
    r.Advances m p r'' := Relation.ReflTransGen.trans h h'

theorem Advance.advances (h : r.Advance m p r') : r.Advances m p r' := .single h

theorem Advances.aside (hunits : r'.units = r.units)
    (hl : r.workspace.oracle.Later r'.workspace.oracle) : r.Advances m p r' :=
  .single (.aside hunits hl)

/-- A step that writes in the journal is one that settles a unit or records a contradictory query
once other things have been done, or one that leaves the stored units alone. -/
theorem Writes.advances {es : List Entry} (h : r.Writes m p es r') : r.Advances m p r' := by
  cases h with
  | @settled r₁ u pr h hunits horacle _ =>
    have hfirst : r.Advances m p r₁ := .aside hunits (horacle ▸ .refl _)
    have hstep : r₁.Advance m p ((Running.settle m u pr).run.run r₁).2 := .settled (hunits ▸ h)
    exact hfirst.trans hstep.advances
  | recorded hc hu h => exact Advance.advances (.recorded hc hu h)
  | aside hunits hl _ => exact .aside hunits hl

theorem Journals.advances {es : List Entry} (h : r.Journals m p es r') : r.Advances m p r' := by
  induction h with
  | refl => exact .refl
  | tail _ hstep ih => exact ih.trans hstep.advances

end Run

/-- A part of a run that writes a journal goes on by steps. -/
theorem Running.Journaling.advances {facts : List Nat} {x : Running σ α}
    (h : Journaling m p facts x) (r : Run σ) : r.Advances m p (x.run.run r).2 := by
  obtain ⟨es, hes⟩ := h.journals r
  exact hes.advances

namespace Run

/-- Whatever solving answers, the run has gone on by steps. -/
theorem advances_solve (m : Method σ) (p : NormalizedProblem) (c : Configuration) (r : Run σ) :
    r.Advances m p ((Running.solve m p c).run.run r).2 :=
  (Running.journaling_solve c).advances r

/-- The states that a run visits: it may start with any oracle, go on step by step, and be given
another oracle and other symbols in between. -/
inductive Visited (m : Method σ) (p : NormalizedProblem) : Run σ → Prop
  | start (search : σ) (oracle : Oracle) : Visited m p (.start search p oracle)
  | advanced {r r' : Run σ} (h : Visited m p r) (hstep : r.Advance m p r') : Visited m p r'
  | exchanged (workspace : Workspace) {r : Run σ} (h : Visited m p r) :
      Visited m p { r with workspace }

theorem Visited.advances (h : r.Visited m p) (h' : r.Advances m p r') : r'.Visited m p := by
  induction h' with
  | refl => exact h
  | tail _ hstep ih => exact .advanced ih hstep

/-- The states in which a problem may be solved are visited. -/
theorem Reachable.visited (h : r.Reachable m p) : r.Visited m p := by
  induction h with
  | start search oracle => exact .start search oracle
  | @solved c r _ ih => exact ih.advances (advances_solve m p c r)
  | exchanged workspace _ ih => exact .exchanged workspace ih

/-- Every step keeps the store sound, whatever the oracle answers and however redundant units are
found. -/
theorem Advance.sound (hp : p.Regular) (hm : m.simplifier = Term.project)
    (hs : r.units.Sound p) (h : r.Advance m p r') : r'.units.Sound p := by
  cases h with
  | settled h =>
    obtain ⟨hw, hj⟩ := h.spec hp hm hs
    exact (Running.ensures_settle_sound hs hw hj).final
  | recorded hc hu h =>
    exact (Store.recordRefutation_ofNormalized_spec hp hs hc hu h).1
  | aside hunits _ => exact hunits ▸ hs

/-- In every state that a run visits the store is sound. -/
theorem Visited.sound (hp : p.Regular) (hm : m.simplifier = Term.project)
    (h : r.Visited m p) : r.units.Sound p := by
  induction h with
  | start search oracle => exact Store.sound_empty p
  | advanced _ hstep ih => exact hstep.sound hp hm ih
  | exchanged workspace _ ih => exact ih

end Run

end HornSaturation
