import HornSaturation.Proofs.Refutation.Questions
import HornSaturation.Refutation.Check

/-!
# Refutations bring in no relations

The questions of a reconstruction and of a check are about the constraints of clauses and of stored
units and about equations between symbols and values. So the oracle is asked only about formulas
that apply no relations but those that these constraints apply.
-/

namespace HornSaturation

variable {S : RelationId → Prop} {o : Oracle}

/-- Since an earlier state, the oracle has been asked only about formulas that apply certain
relations. -/
abbrev Workspace.Confined (S : RelationId → Prop) (o : Oracle) (w : Workspace) : Prop :=
  o.AsksOnly (Term.AppliesOnly S) w.oracle

theorem Workspace.lasting_confined : Workspace.Lasting S (Workspace.Confined S o) :=
  ⟨fun _ _ => id, fun _ _ hts h => h.trans (Oracle.asksOnly_checkWith hts _)⟩

namespace Refutation

variable {p : NormalizedProblem} {clause : NormalizedClause}

theorem appliesOnly_childEquations? {r : Refutation} {children : List Nat} {position : Nat}
    {ts : List Term} (h : childEquations? p r clause position children = .ok (some ts)) :
    ∀ t ∈ ts, t.AppliesOnly S := by
  induction children generalizing position ts with
  | nil =>
    obtain rfl := Option.some.inj (Except.ok.inj h)
    simp
  | cons i children ih =>
    unfold childEquations? at h
    split at h
    · split at h
      · obtain ⟨vars, -, h⟩ := Except.bind_eq_ok.mp h
        obtain ⟨more?, hmore, h⟩ := Except.bind_eq_ok.mp h
        obtain ⟨more, rfl, rfl⟩ := Option.map_eq_some_iff.mp (Except.ok.inj h)
        exact List.forall_mem_append.mpr ⟨appliesOnly_equations _ _, ih hmore⟩
      · cases h
    · cases h

theorem appliesOnly_obligations? {r : Refutation} (hp : p.AppliesOnly S) {node : RefutationNode}
    {ts : List Term} (h : obligations? p r node = .ok (some ts)) : ∀ t ∈ ts, t.AppliesOnly S := by
  unfold obligations? at h
  split at h
  · cases h
  · next clause hclause =>
    split at h
    · obtain ⟨headArguments, -, h⟩ := Except.bind_eq_ok.mp h
      split at h
      · obtain ⟨more?, hmore, h⟩ := Except.bind_eq_ok.mp h
        obtain ⟨more, rfl, rfl⟩ := Option.map_eq_some_iff.mp (Except.ok.inj h)
        refine List.forall_mem_cons.mpr ⟨hp clause (List.mem_of_getElem? hclause), ?_⟩
        exact List.forall_mem_append.mpr
          ⟨appliesOnly_equations _ _, appliesOnly_childEquations? hmore⟩
      · cases h
    · cases h

/-- Checking any refutation. -/
theorem asksOnly_check (hp : p.AppliesOnly S) (r : Refutation) (o : Oracle) :
    o.AsksOnly (Term.AppliesOnly S) (r.check p o).2 := by
  have hnodes (nodes : List RefutationNode) (o : Oracle) :
      o.AsksOnly (Term.AppliesOnly S) (checkNodes p r nodes o).2 := by
    induction nodes generalizing o with
    | nil => exact .refl o
    | cons node nodes ih =>
      unfold checkNodes
      split
      · exact .refl o
      · exact .refl o
      · next formulas hformulas =>
        have hasks := Oracle.asksOnly_checkWith (appliesOnly_obligations? hp hformulas) o
        split
        · next heq =>
          rw [heq] at hasks
          exact hasks.trans (ih _)
        · next heq =>
          rw [heq] at hasks
          exact hasks
  unfold check
  split
  · split
    · exact hnodes _ o
    · exact .refl o
  · exact .refl o

end Refutation

end HornSaturation
