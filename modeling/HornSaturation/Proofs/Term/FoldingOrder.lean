import HornSaturation.Proofs.Term.FoldingDepth
import HornSaturation.Proofs.Term.FoldingVariables

/-!
# Folding keeps the order of variables

A conjunction that is not folded to `false` is folded to what its conjuncts add, one after the
other. So the variables of formulas that stand first come first, and no variable of a folded
conjunct is lost.
-/

namespace HornSaturation.Term

variable {args : List Term} {arith : Op → List Int → Option Int} {env : Var → Option Value}

/-- What is gathered from the folded conjuncts of formulas has only variables of these. -/
private theorem mem_occurrences_of_gathered {ts added : List Term}
    (hfrom : ∀ c ∈ added, ∃ t ∈ (conjunctsList ts).map foldConstants, c ∈ t.addedConjuncts) :
    ∀ v ∈ added.flatMap occurrences, v ∈ ts.flatMap occurrences := by
  intro v hv
  obtain ⟨c, hc, hvc⟩ := List.mem_flatMap.mp hv
  obtain ⟨t, ht, hct⟩ := hfrom c hc
  obtain ⟨d, hd, rfl⟩ := List.mem_map.mp ht
  have hvd := mem_occurrences_addedConjuncts.mp (List.mem_flatMap.mpr ⟨c, hct, hvc⟩)
  rw [← occurrences_conjunctsList]
  exact List.mem_flatMap.mpr ⟨d, hd, mem_occurrences_foldConstants hvd⟩

/-- A folded conjunction that can be true has its variables in the order of the formulas. -/
theorem exists_occurrences_foldConstants_conjoin {ts us : List Term}
    (h : TrueUnder arith env (conjoin (ts ++ us)).foldConstants) :
    ∃ vs ws, (conjoin (ts ++ us)).foldConstants.occurrences = vs ++ ws ∧
      (∀ v ∈ vs, v ∈ ts.flatMap occurrences) ∧ ∀ w ∈ ws, w ∈ us.flatMap occurrences := by
  have hsplit : conjunctsList (ts ++ us) = conjunctsList ts ++ conjunctsList us := by
    simp only [conjunctsList_eq, List.flatMap_append]
  have hone {as : List Term} {t : Term} (has : conjunctsList as = [t]) :
      ∀ v ∈ t.foldConstants.occurrences, v ∈ as.flatMap occurrences := fun v hv => by
    rw [← occurrences_conjunctsList, has, List.flatMap_singleton]
    exact mem_occurrences_foldConstants hv
  unfold conjoin at h ⊢
  split at h
  · exact ⟨[], [], rfl, nofun, nofun⟩
  · next t hsingle =>
    rw [hsplit, List.append_eq_singleton_iff] at hsingle
    rcases hsingle with ⟨-, hus⟩ | ⟨hts, -⟩
    · exact ⟨[], _, rfl, nofun, hone hus⟩
    · exact ⟨_, [], (List.append_nil _).symm, hone hts, nofun⟩
  · rw [foldConstants_op] at h ⊢
    obtain ⟨first, hfirst, hfrom⟩ := exists_addConjuncts ((conjunctsList ts).map foldConstants) []
    obtain ⟨second, hsecond, hfrom'⟩ :=
      exists_addConjuncts ((conjunctsList us).map foldConstants) first
    rw [List.nil_append] at hfirst
    have hshape : foldAnd ((conjunctsList (ts ++ us)).map foldConstants) =
        conjoin (first ++ second) := by
      rw [foldAnd_eq_conjoin h, hsplit, List.map_append, List.foldl_append, hfirst, hsecond]
    refine ⟨first.flatMap occurrences, second.flatMap occurrences, ?_,
      mem_occurrences_of_gathered hfrom, mem_occurrences_of_gathered hfrom'⟩
    change (foldAnd _).occurrences = _
    rw [hshape, occurrences_conjoin, List.flatMap_append]

/-- A folded conjunction that can be true has all variables of its folded conjuncts. -/
theorem mem_occurrences_foldConstants_conjoin
    (h : TrueUnder arith env (conjoin args).foldConstants) {t c : Term} (ht : t ∈ args)
    (hc : c ∈ t.conjuncts) {v : Var} (hv : v ∈ c.foldConstants.occurrences) :
    v ∈ (conjoin args).foldConstants.occurrences := by
  have hflat : c ∈ conjunctsList args := by
    rw [conjunctsList_eq]
    exact List.mem_flatMap.mpr ⟨t, ht, hc⟩
  unfold conjoin at h ⊢
  split at h
  · next hnil => simp [hnil] at hflat
  · next u hone =>
    rw [hone, List.mem_singleton] at hflat
    exact hflat ▸ hv
  · rw [foldConstants_op] at h ⊢
    obtain ⟨d, hd, hvd⟩ := List.mem_flatMap.mp (mem_occurrences_addedConjuncts.mpr hv)
    have hkept : d ∈ ((conjunctsList args).map foldConstants).foldl addConjunct [] :=
      mem_addConjuncts.mpr (.inr ⟨_, List.mem_map_of_mem hflat, hd⟩)
    change v ∈ (foldAnd _).occurrences
    rw [foldAnd_eq_conjoin h, occurrences_conjoin]
    exact List.mem_flatMap.mpr ⟨d, hkept, hvd⟩

end HornSaturation.Term
