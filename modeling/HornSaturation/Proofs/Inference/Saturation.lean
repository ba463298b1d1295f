import HornSaturation.Inference.Saturation
import HornSaturation.Proofs.Unit.Store
import Mathlib.Data.List.TakeWhile

/-!
# Level saturation

The candidates of a level are the combinations of clauses with active units of which one has been
stored since the last level began. A call of the search passes over the pending candidates whose
units are no longer all active and issues the first other one; if there is none, it begins the next
level.
-/

namespace HornSaturation

variable {p : NormalizedProblem} {store store' : Store}

/-- A choice of elements picks one of each list. -/
theorem Saturation.mem_choices {α : Type} {lists : List (List α)} {xs : List α} :
    xs ∈ choices lists ↔ List.Forall₂ (fun l x => x ∈ l) lists xs := by
  induction lists generalizing xs with
  | nil => simp [choices]
  | cons l lists ih =>
    simp only [choices, List.mem_flatMap, List.mem_map]
    constructor
    · rintro ⟨tail, htail, x, hx, rfl⟩
      exact .cons hx (ih.mp htail)
    · rintro (_ | ⟨hx, htail⟩)
      exact ⟨_, ih.mpr htail, _, hx, rfl⟩

namespace Store

/-- A candidate names active units for the uses of a clause with a body. -/
def Combines (p : NormalizedProblem) (store : Store) (c : Candidate) : Prop :=
  ∃ clause, p.clauses[c.nucleus]? = some clause ∧ clause.body ≠ [] ∧
    List.Forall₂ (fun (a : Atom) i => i ∈ store.unitIds a.relation) clause.body c.electrons

/-- The candidates among which a level chooses are the combinations of clauses with active units. -/
theorem mem_combinations {c : Candidate} :
    c ∈ (p.clauses.zipIdx.flatMap fun (clause, index) =>
      Saturation.combinations store index clause) ↔ store.Combines p c := by
  simp only [List.mem_flatMap, Prod.exists, List.mem_zipIdx_iff_getElem?, Saturation.combinations]
  constructor
  · rintro ⟨clause, index, hclause, hmem⟩
    split at hmem
    · cases hmem
    next hbody =>
    obtain ⟨ids, hids, rfl⟩ := List.mem_map.mp hmem
    rw [Saturation.mem_choices, List.forall₂_map_left_iff] at hids
    exact ⟨clause, hclause, by simpa using hbody, hids⟩
  · rintro ⟨clause, hclause, hbody, hids⟩
    refine ⟨clause, c.nucleus, hclause, ?_⟩
    rw [if_neg (by simpa using hbody), List.mem_map]
    refine ⟨c.electrons, ?_, rfl⟩
    rwa [Saturation.mem_choices, List.forall₂_map_left_iff]

/-- All units of a combination are active. -/
theorem Combines.isReady {c : Candidate} (hl : store.Listed) (h : store.Combines p c) :
    Saturation.isReady store c = true := by
  obtain ⟨clause, -, -, hids⟩ := h
  refine List.all_eq_true.mpr fun i hi => ?_
  obtain ⟨a, -, hmem⟩ := hids.flip.exists_right hi
  obtain ⟨e, he, hactive, -⟩ := (hl a.relation i).mp hmem
  simp [isActive, he, hactive]

/-- All units of a combination are stored. -/
theorem Combines.lt_size {c : Candidate} (hl : store.Listed) (h : store.Combines p c) {i : UnitId}
    (hi : i ∈ c.electrons) : i < store.size := by
  obtain ⟨_, -, -, hids⟩ := h
  obtain ⟨a, -, hmem⟩ := hids.flip.exists_right hi
  obtain ⟨e, he, -⟩ := (hl a.relation i).mp hmem
  exact lt_size_of_get? he

/-- A combination of units that were stored before was a combination before. -/
theorem Combines.before {c : Candidate} (hl : store.Listed) (hl' : store'.Listed)
    (hev : store.Evolves store') (hold : ∀ i ∈ c.electrons, i < store.size)
    (h : store'.Combines p c) : store.Combines p c := by
  obtain ⟨clause, hclause, hbody, hids⟩ := h
  refine ⟨clause, hclause, hbody, hids.imp_mem fun a _ i hi hmem => ?_⟩
  obtain ⟨e', he', hactive', hhead⟩ := (hl' a.relation i).mp hmem
  obtain ⟨e, he, hactive, hunit⟩ := hev.active (hold i hi) he' hactive'
  exact (hl a.relation i).mpr ⟨e, he, hactive, hunit ▸ hhead⟩

end Store

namespace Saturation

/-- A call either issues the first pending candidate whose units are active, or there is none and it
begins the next level with its first candidate. -/
theorem next_cases (clauses : List NormalizedClause) (store : Store) (s : Saturation) :
    (∃ passed c rest, s.pending = passed ++ c :: rest ∧
      (∀ d ∈ passed, isReady store d = false) ∧ isReady store c = true ∧
      next clauses store s = (some c, { s with pending := rest })) ∨
    (∀ d ∈ s.pending, isReady store d = false) ∧
      next clauses store s = ((s.refill clauses store).pending.head?,
        { s.refill clauses store with pending := (s.refill clauses store).pending.tail }) := by
  unfold next
  cases hdrop : s.pending.dropWhile fun c => !isReady store c with
  | cons c rest =>
    refine .inl ⟨s.pending.takeWhile fun c => !isReady store c, c, rest, ?_, fun d hd => ?_, ?_,
      rfl⟩
    · rw [← hdrop, List.takeWhile_append_dropWhile]
    · simpa using List.mem_takeWhile_imp hd
    · have hhead := List.head?_dropWhile_not (fun c => !isReady store c) s.pending
      rw [hdrop] at hhead
      simpa using hhead
  | nil =>
    refine .inr ⟨fun d hd => by simpa using List.dropWhile_eq_nil_iff.mp hdrop d hd, ?_⟩
    rcases s.refill clauses store with ⟨_ | _, _, _⟩ <;> rfl

/-- A combination of active units is not passed over. -/
theorem not_combines_of_passed (hl : store.Listed) {cs : List Candidate}
    (hcs : ∀ c ∈ cs, isReady store c = false) {c : Candidate} (hc : c ∈ cs) :
    ¬ store.Combines p c := fun h => by
  have hready := h.isReady hl
  rw [hcs c hc] at hready
  cases hready

end Saturation

end HornSaturation
