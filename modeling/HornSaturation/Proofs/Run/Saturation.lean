import HornSaturation.Proofs.Inference.Saturation
import HornSaturation.Proofs.Run.Search

/-!
# Level saturation is complete

Level saturation leaves no combination of a clause with active units out: a combination that has not
been issued is pending, or one of its units has been stored since the last level began. So when it
is exhausted, the active units are closed under the clauses of the problem.
-/

namespace HornSaturation

variable {z : ZeroDivision} {p : NormalizedProblem} {store store' : Store}

namespace Store

/-- What is covered for a candidate of old units stays covered. -/
theorem Closed.after {c : Candidate} (hev : store.Evolves store')
    (hcov : ∀ g, store.Covers z g → store'.Covers z g) (hold : ∀ i ∈ c.electrons, i < store.size)
    (h : store.Closed z p c) : store'.Closed z p c := by
  intro clause hclause body g hinst hbody
  refine hcov g (h clause hclause body g hinst (hbody.imp_mem fun i hi g' _ hasserts => ?_))
  obtain ⟨e', he', hasserts⟩ := hasserts
  obtain ⟨e, he⟩ := exists_get? (hold i hi)
  obtain ⟨e'', he'', hunit, -⟩ := hev.kept i e he
  obtain rfl := Option.some.inj (he'.symm.trans he'')
  exact ⟨e, he, hunit ▸ hev.relations ▸ hasserts⟩

end Store

namespace Saturation

variable {s s' : Saturation} {c d : Candidate}

/-- A combination has had its turn at a state of level saturation. -/
structure Issued (s : Saturation) (c : Candidate) : Prop where
  old : ∀ i ∈ c.electrons, i < s.frontier
  notPending : c ∉ s.pending

/-- A combination of old units that is not pending, as all that is pending is passed over, had its
turn before. -/
private theorem issued_of_refill (hl : store.Listed) (hd : store.Combines p d)
    (hpassed : ∀ d ∈ s.pending, isReady store d = false)
    (h : d ∉ (s.refill p.clauses store).pending) : s.Issued d := by
  refine ⟨fun i hi => ?_, fun hmem => not_combines_of_passed hl hpassed hmem hd⟩
  by_contra hlt
  refine h (List.mem_filter.mpr ⟨Store.mem_combinations.mpr hd, ?_⟩)
  exact List.any_eq_true.mpr ⟨i, hi, by simpa using hlt⟩

/-- A combination that has had its turn after a step had it before or is what has been issued. -/
theorem issued_of_next (hl : store.Listed) (hfrontier : s.frontier ≤ store.size)
    (h : next p.clauses store s = (some c, s')) :
    s'.frontier ≤ store.size ∧ ∀ d, store.Combines p d → s'.Issued d → d = c ∨ s.Issued d := by
  obtain ⟨passed, c', rest, hpending, hpassed, -, hnext⟩ | ⟨hpassed, hnext⟩ :=
    next_cases p.clauses store s
  · obtain ⟨hc, rfl⟩ := Prod.mk.inj (h.symm.trans hnext)
    obtain rfl := Option.some.inj hc
    refine ⟨hfrontier, fun d hd hissued => or_iff_not_imp_left.mpr fun hne => ?_⟩
    refine ⟨hissued.old, fun hmem => ?_⟩
    rw [hpending, List.mem_append, List.mem_cons] at hmem
    obtain hmem | hmem | hmem := hmem
    · exact not_combines_of_passed hl hpassed hmem hd
    · exact hne hmem
    · exact hissued.notPending hmem
  · obtain ⟨hc, rfl⟩ := Prod.mk.inj (h.symm.trans hnext)
    refine ⟨Nat.le_refl _, fun d hd hissued => or_iff_not_imp_left.mpr fun hne => ?_⟩
    refine issued_of_refill hl hd hpassed fun hmem => ?_
    rw [← List.cons_head?_tail hc.symm] at hmem
    exact (List.mem_cons.mp hmem).elim hne hissued.notPending

/-- When the search is exhausted, every combination has had its turn. -/
theorem issued_of_exhausted (hl : store.Listed) (h : (next p.clauses store s).1 = none)
    (hd : store.Combines p d) : s.Issued d := by
  obtain ⟨_, _, _, -, -, -, hnext⟩ | ⟨hpassed, hnext⟩ := next_cases p.clauses store s
  · rw [hnext] at h
    cases h
  · rw [hnext] at h
    refine issued_of_refill hl hd hpassed ?_
    rw [List.head?_eq_none_iff.mp h]
    exact List.not_mem_nil

end Saturation

namespace Running

/-- What has had its turn is closed, as far as the refutations since the start are right. -/
def Saturates (p : NormalizedProblem) (start : Oracle) (s : Saturation) (store : Store)
    (o : Oracle) : Prop :=
  start.Later o ∧ s.frontier ≤ store.size ∧ ∀ z n, start.PlainSince n → o.SoundSince z n →
    ∀ c, store.Combines p c → s.Issued c → store.Closed z p c

/-- An inference that level saturation asks for closes what has its turn. -/
theorem saturates_kept (p : NormalizedProblem) (start : Oracle) :
    KeptBy .standard p (Saturates p start) := by
  rintro s c r r' hs ⟨hl, hfrontier, hclosed⟩ hnext h
  obtain ⟨hfrontier', hturn⟩ := Saturation.issued_of_next hs.listed hfrontier hnext
  have hev := h.steps.evolves
  rw [← h.search] at hfrontier' hturn
  refine ⟨hl.trans h.steps.later, hfrontier'.trans hev.size_le, fun z n ho hn d hd hissued => ?_⟩
  have hold : ∀ i ∈ d.electrons, i < r.units.size := fun i hi =>
    Nat.lt_of_lt_of_le (hissued.old i hi) hfrontier'
  have hbefore := hd.before hs.listed h.steps.sound.listed hev hold
  rcases hturn d hbefore hissued with rfl | hissued'
  · exact h.closed rfl rfl z n (ho.later hl) hn
  · refine (hclosed z n ho (hn.of_later h.steps.later) d hbefore hissued').after hev ?_ hold
    exact h.keeps rfl z n (ho.later hl) hn

end Running

end HornSaturation
