import HornSaturation.Proofs.Oracle.Answers

/-!
# Names that are asserted at another sort

The oracle gives values to names. A formula that it is asked about may share a name with what is
asserted, where the name has another sort. Of the two variables only the one that is listed later is
tried, and the formula comes after the assertions. So unless the assertions themselves use the name
at two sorts, the value that it is given fits the formula. The value of a name that is equated with
a term fits in any case, if those of the names in the term do.
-/

namespace HornSaturation

private theorem mem_left_of_mem_eraseDupsBy {v w : Var} :
    ∀ {vs ws : List Var}, v ∈ (vs ++ ws).eraseDupsBy (fun a b => a.name == b.name) → w ∈ vs →
      w.name = v.name → v ∈ vs
  | u :: vs, ws, h, hw, hname => by
    rw [List.cons_append, List.eraseDupsBy_cons, List.filter_append] at h
    rcases List.mem_cons.mp h with rfl | h
    · exact List.mem_cons_self
    · have hne : v.name ≠ u.name := by
        have hmem := mem_of_mem_eraseDupsBy h
        rw [← List.filter_append, List.mem_filter] at hmem
        simpa using hmem.2
      rcases List.mem_cons.mp hw with rfl | hw
      · exact absurd hname.symm hne
      · have hkept : w ∈ vs.filter fun b => (b.name == u.name) = false :=
          List.mem_filter.mpr ⟨hw, by simpa [hname] using hne⟩
        have hv := mem_left_of_mem_eraseDupsBy h hkept hname
        exact List.mem_cons_of_mem u (List.mem_filter.mp hv).1
termination_by vs => vs.length
decreasing_by exact Nat.lt_succ_of_le (List.length_filter_le _ vs)

/-- Of variables with one name, the one that is listed last is tried. -/
theorem mem_right_of_mem_searchOrder {vs ws : List Var} {v w : Var}
    (h : v ∈ searchOrder (vs ++ ws)) (hw : w ∈ ws) (hname : w.name = v.name) : v ∈ ws := by
  rw [searchOrder, List.reverse_append] at h
  exact List.mem_reverse.mp (mem_left_of_mem_eraseDupsBy h (List.mem_reverse.mpr hw) hname)

private theorem mem_eraseDups_removeAll {v : Var} {vs ws : List Var} :
    v ∈ (ws.removeAll vs).eraseDups ↔ v ∈ ws ∧ v ∉ vs := by
  simp [List.removeAll]

namespace Oracle

/-- What is asserted uses each name of some kind at one sort. -/
def OneSortedOn (names : String → Prop) (o : Oracle) : Prop :=
  ∀ v ∈ o.assertions.flatMap Term.occurrences, ∀ w ∈ o.assertions.flatMap Term.occurrences,
    names v.name → v.name = w.name → v = w

theorem oneSortedOn_of_oneSort {o : Oracle} {names : String → Prop}
    (h : OneSort (o.assertions.flatMap Term.occurrences)) : o.OneSortedOn names :=
  fun v hv w hw _ hname => h v hv w hw hname

variable {o : Oracle} {ts us : List Term} {t c s : Term} {v : Var}

/-- A variable of formulas in which its name has one sort has a fitting value, if the name also has
one sort in the formulas before them. -/
theorem fits_of_oneSort (h : o.decide (Term.conjoin (ts ++ us)).foldConstants = .model o.model)
    (ht : t ∈ us) (hc : c ∈ t.conjuncts) (hv : v ∈ c.foldConstants.occurrences)
    (halone : v.Alone (us.flatMap Term.occurrences))
    (hone : ∀ u ∈ ts.flatMap Term.occurrences, v.name = u.name →
      u.Alone (ts.flatMap Term.occurrences)) : o.Fits v := by
  have hread := trueUnder_reading h default
  obtain ⟨vs, ws, hocc, hvs, hws⟩ := Term.exists_occurrences_foldConstants_conjoin hread
  have hmem := Term.mem_occurrences_foldConstants_conjoin hread (List.mem_append_right ts ht) hc hv
  intro x hx
  obtain ⟨u, hu, hname, hs⟩ := exists_mem_searchOrder h hx
  rw [Term.vars, hocc, List.eraseDups_append] at hu
  rw [hocc] at hmem
  have hlate (hu : u ∈ (ws.removeAll vs).eraseDups) : v = u :=
    halone u (hws u (mem_eraseDups_removeAll.mp hu).1) hname.symm
  suffices huv : v = u by rwa [huv]
  by_cases hfirst : v ∈ vs
  · rcases List.mem_append.mp (mem_of_mem_searchOrder hu) with hu | hu
    · have hu := hvs u (List.mem_eraseDups.mp hu)
      exact (hone u hu hname.symm v (hvs v hfirst) hname).symm
    · exact hlate hu
  · -- The variable is only listed for the formulas that come later.
    have hlast : v ∈ (ws.removeAll vs).eraseDups :=
      mem_eraseDups_removeAll.mpr ⟨(List.mem_append.mp hmem).resolve_left hfirst, hfirst⟩
    exact hlate (mem_right_of_mem_searchOrder hu hlast hname.symm)

/-- A variable that is equated with a term has a fitting value if the variables of the term have. -/
theorem fits_of_equation (h : o.decide (Term.conjoin ts).foldConstants = .model o.model)
    (ht : t ∈ ts) (hc : .equation (.var v) s ∈ t.conjuncts) (hsort : s.hasSort v.sort = true)
    (hv : v ∉ s.occurrences)
    (hfits : ∀ w ∈ (Term.equation (.var v) s).foldConstants.occurrences, w ∈ s.occurrences →
      o.Fits w) : o.Fits v := by
  intro x hx
  have htrue := Term.trueUnder_of_foldConstants_conjoin (trueUnder_reading h default) ht hc
  rw [Term.foldConstants_equation hv] at htrue hfits
  obtain ⟨y, hy, hvalue⟩ := Term.trueUnder_equation.mp htrue
  have hmeaning : s.foldConstants.meaning default o.valuation = some y := by
    rw [← hvalue]
    refine Term.evalWith_congr fun w hw => congrArg some (reading_eq ?_).symm
    exact hfits w (by simp [hw]) (Term.mem_occurrences_foldConstants hw)
  obtain ⟨y', hy', hsort'⟩ :=
    Term.exists_value default o.valuation (Term.hasSort_foldConstants hsort)
  obtain rfl : y = y' := Option.some.inj (hmeaning.symm.trans hy')
  have hread : o.reading v = y := Option.some.inj hy
  rw [reading, hx, Option.getD_some] at hread
  rwa [hread]

end Oracle

end HornSaturation
