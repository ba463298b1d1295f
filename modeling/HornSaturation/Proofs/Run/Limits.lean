import HornSaturation.Proofs.Run.Closure
import HornSaturation.Proofs.Run.Settling

/-!
# Limits of iterations

A search of `n + k` iterations is a search of `n` iterations which, if it stops there, goes on for
`k` more. So a run that does not stop at its limit is the same run under every greater limit, and a
limit only ever turns an answer into "unknown".
-/

namespace HornSaturation

variable {σ : Type} {m : Method σ} {p : NormalizedProblem} {c : Configuration} {r : Run σ}

/-- The configuration with another limit of iterations. -/
def Configuration.limitedTo (c : Configuration) (limit : Option Nat) : Configuration :=
  { c with limit }

@[simp] theorem Statistics.iterations_settled (s : Statistics) (cls : Classification) :
    (s.settled cls).iterations = s.iterations := by
  cases cls <;> rfl

namespace Running

/-- The limit only says how many iterations there are. -/
theorem saturate_limitedTo (limit : Option Nat) (n : Nat) :
    saturate m p (c.limitedTo limit) n = saturate m p c n := by
  induction n with
  | zero => rfl
  | succ n ih =>
    unfold saturate
    rw [ih]
    rfl

/-- A search that stops at its limit can be taken up again. -/
theorem saturate_add (n k : Nat) : saturate m p c (n + k) = do
    match ← saturate m p c n with
    | .limit => saturate m p c k
    | result => return result := by
  induction n with
  | zero =>
    by_cases hstops : c.stops
    · cases k <;> simp [saturate, hstops]
    · simp [saturate, hstops]
  | succ n ih =>
    rw [Nat.add_right_comm]
    simp only [saturate]
    by_cases hstops : c.stops
    · simp [hstops]
    · simp only [hstops, Bool.false_eq_true, if_false, bind_assoc]
      refine bind_congr fun _ => bind_congr fun candidate => ?_
      cases candidate with
      | none => simp
      | some candidate =>
        simp only [bind_assoc]
        refine bind_congr fun result => ?_
        cases result with
        | none => exact ih
        | some root => simp

/-- More iterations change nothing about a search that does not stop at its limit. -/
theorem saturate_eq_of_le {n n' : Nat} (hle : n ≤ n')
    (h : ((saturate m p c n).run.run r).1 ≠ .ok .limit) :
    (saturate m p c n').run.run r = (saturate m p c n).run.run r := by
  obtain ⟨k, rfl⟩ := Nat.exists_eq_add_of_le hle
  rw [saturate_add, ExceptT.run_bind, StateT.run_bind]
  rcases hrun : (saturate m p c n).run.run r with ⟨_ | _ | _ | _, r'⟩
  · rfl
  · rfl
  · rfl
  · exact absurd (congrArg Prod.fst hrun) h

/-- An inference is no iteration. -/
theorem ensures_infer_iterations (trace : Bool) (candidate : Candidate) :
    Ensures (infer m p trace candidate) r
      (fun _ r' => r'.statistics.iterations = r.statistics.iterations) fun _ _ => True := by
  have hsettle {r₁ : Run σ} (u : UnitClause) (pr : Provenance)
      (h : r₁.statistics.iterations = r.statistics.iterations) :
      Ensures (settle m u pr) r₁
        (fun _ r' => r'.statistics.iterations = r.statistics.iterations) fun _ _ => True := by
    refine (ensures_settle_eq m u pr r₁).mono (fun _ r' hsettles => ?_) fun _ _ _ => trivial
    rw [hsettles.statistics, Statistics.iterations_settled, h]
  unfold infer
  simp only [ensures_bind, ensures_get, ensures_liftM, ensures_work, ensures_allocate,
    ensures_count]
  refine ⟨?_, fun _ _ => trivial⟩
  rintro ⟨nucleus, electrons⟩ -
  refine ensures_run.mono (fun u s _ => ?_) fun _ _ _ => trivial
  split
  · simp only [ensures_bind, ensures_get, ensures_report]
    exact hsettle u _ rfl
  · exact hsettle u _ rfl

/-- A search that stops at its limit has made all its iterations. -/
theorem ensures_saturate_iterations (n : Nat) : Ensures (saturate m p c n) r
    (fun result r' => result = .limit →
      r'.statistics.iterations = r.statistics.iterations + n) fun _ _ => True := by
  induction n generalizing r with
  | zero =>
    unfold saturate
    split
    · trivial
    · exact fun _ => rfl
  | succ n ih =>
    unfold saturate
    split
    · trivial
    simp only [ensures_bind, ensures_count, ensures_nextCandidate]
    rcases m.next p.clauses r.units r.search with ⟨candidate, search⟩
    cases candidate with
    | none => simp
    | some candidate =>
      simp only [ensures_bind]
      refine (ensures_infer_iterations c.trace candidate).mono (fun root r₁ h => ?_)
        fun _ _ _ => trivial
      cases root with
      | some root => simp
      | none =>
        refine ih.mono (fun result r' h' hlimit => ?_) fun _ _ _ => trivial
        rw [h' hlimit, h, Nat.add_right_comm, Nat.add_assoc]

/-- Whether the search for a contradiction ends because the limit has been reached. -/
def StopsAtLimit (m : Method σ) (p : NormalizedProblem) (c : Configuration) (r : Run σ) : Prop :=
  ((search m p c).run.run r).1 = .ok .limit

/-- A greater limit changes nothing about a search that does not stop at its limit. -/
theorem search_eq_of_le {limit limit' : Option Nat}
    (hle : (c.limitedTo limit).maxIterations ≤ (c.limitedTo limit').maxIterations)
    (h : ¬ StopsAtLimit m p (c.limitedTo limit) r) :
    (search m p (c.limitedTo limit')).run.run r = (search m p (c.limitedTo limit)).run.run r := by
  unfold StopsAtLimit at h
  unfold search at h ⊢
  refine run_bind_congr fun _ r₁ h₁ => run_bind_congr fun _ r₂ h₂ => ?_
  rw [run_bind_of_ok h₁, run_bind_of_ok h₂] at h
  simp only [saturate_limitedTo] at h ⊢
  exact saturate_eq_of_le (Nat.sub_le_sub_right hle _) h

/-- A search that stops at its limit has made at least as many iterations. -/
theorem iterations_of_stopsAtLimit (h : StopsAtLimit m p c r) :
    ∃ r', (search m p c).run.run r = (.ok .limit, r') ∧
      c.maxIterations ≤ r'.statistics.iterations := by
  have hsearch : Ensures (search m p c) r (fun result r' => result = .limit →
      c.maxIterations ≤ r'.statistics.iterations) fun _ _ => True := by
    unfold search
    simp only [ensures_bind, ensures_get]
    refine ensures_run.mono (fun _ r₁ _ => ?_) fun _ _ _ => trivial
    refine ensures_run.mono (fun _ r₂ _ => ?_) fun _ _ _ => trivial
    refine (ensures_saturate_iterations _).mono (fun result r' h hlimit => ?_) fun _ _ _ => trivial
    rw [h hlimit]
    omega
  have hrun : (search m p c).run.run r = (.ok .limit, ((search m p c).run.run r).2) :=
    Prod.ext h rfl
  exact ⟨_, hrun, hsearch.of_ok hrun rfl⟩

/-- A limit of iterations only ever turns an answer into "unknown". A run that does not stop at its
limit gives the same result and leaves the same state as every run with a greater limit or none,
and a run that stops there answers "unknown" after as many iterations. So a definite answer never
depends on the limit. -/
theorem solve_limitedTo_eq (m : Method σ) (p : NormalizedProblem) (c : Configuration) (r : Run σ)
    {limit : Nat} {limit' : Option Nat} (hle : limit ≤ limit'.getD Text.indexMax) :
    let result := (solve m p (c.limitedTo (some limit))).run.run r
    let result' := (solve m p (c.limitedTo limit')).run.run r
    (¬ StopsAtLimit m p (c.limitedTo (some limit)) r → result' = result) ∧
      (StopsAtLimit m p (c.limitedTo (some limit)) r →
        result.1 = .ok .unknown ∧ limit ≤ result.2.statistics.iterations) ∧
      (result.1 ≠ .ok .unknown → result' = result) := by
  intro result result'
  have hsame (h : ¬ StopsAtLimit m p (c.limitedTo (some limit)) r) : result' = result := by
    have hmax : (c.limitedTo (some limit)).maxIterations ≤ (c.limitedTo limit').maxIterations := hle
    simp only [result', result, solve]
    rw [ExceptT.run_bind, ExceptT.run_bind, StateT.run_bind, StateT.run_bind,
      search_eq_of_le hmax h]
  have hstop (h : StopsAtLimit m p (c.limitedTo (some limit)) r) :
      result.1 = .ok .unknown ∧ limit ≤ result.2.statistics.iterations := by
    obtain ⟨r', hrun, hiterations⟩ := iterations_of_stopsAtLimit h
    have hresult : result = (.ok .unknown, r') := by
      exact run_bind_of_ok hrun
    rw [hresult]
    exact ⟨rfl, hiterations⟩
  exact ⟨hsame, hstop, fun h => hsame fun hstops => h (hstop hstops).1⟩

/-- Three iterations are enough for the problem, and one is not. -/
theorem solve_threeIsPositive_limitedTo :
    let start : Run Saturation := .start {} .threeIsPositive { window := ⟨-4, 4⟩, cap := 100 }
    StopsAtLimit .standard .threeIsPositive (.limitedTo {} (some 1)) start ∧
      ¬ StopsAtLimit .standard .threeIsPositive (.limitedTo {} (some 3)) start ∧
      3 ≤ (none : Option Nat).getD Text.indexMax ∧
      (solve .standard .threeIsPositive (.limitedTo {} none)).run.run start =
        (solve .standard .threeIsPositive (.limitedTo {} (some 3))).run.run start := by
  intro start
  have hone : StopsAtLimit .standard .threeIsPositive (.limitedTo {} (some 1)) start := by
    unfold StopsAtLimit
    cbv
  have hthree : ¬ StopsAtLimit .standard .threeIsPositive (.limitedTo {} (some 3)) start := by
    have hend : ((search .standard .threeIsPositive (.limitedTo {} (some 3))).run.run start).1 =
        .ok .exhausted := by
      cbv
    unfold StopsAtLimit
    rw [hend]
    intro h
    cases h
  have hle : 3 ≤ (none : Option Nat).getD Text.indexMax := by decide
  exact ⟨hone, hthree, hle, (solve_limitedTo_eq .standard .threeIsPositive {} start hle).1 hthree⟩

end Running

end HornSaturation
