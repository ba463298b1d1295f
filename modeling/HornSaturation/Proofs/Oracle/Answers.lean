import HornSaturation.Proofs.Oracle.Models

/-!
# What the answers of the oracle mean

A check leaves the assertions and the scopes as they were and logs what it refutes. The answer that
formulas have a common model is always right for formulas in which every name has one sort. The
answer that they have none says something about the searched windows only; where the log is right,
refuted formulas have no model at all, and a formula that is confirmed to be valid is true under
every valuation.
-/

namespace HornSaturation.Oracle

/-- An oracle after some checks: scopes are as before, and the log may have grown. -/
structure Later (o o' : Oracle) : Prop where
  assertions : o'.assertions = o.assertions
  frames : o'.frames = o.frames
  refuted : o.refuted <+: o'.refuted

namespace Later

variable {o o' o'' : Oracle}

theorem refl (o : Oracle) : o.Later o := ⟨rfl, rfl, List.prefix_rfl⟩

theorem trans (h : o.Later o') (h' : o'.Later o'') : o.Later o'' :=
  ⟨h'.assertions.trans h.assertions, h'.frames.trans h.frames, h.refuted.trans h'.refuted⟩

end Later

/-- What has been refuted since some point of the log has no model. -/
def SoundSince (z : ZeroDivision) (n : Nat) (o : Oracle) : Prop :=
  ∀ ts ∈ o.refuted.drop n, ∀ ρ : Valuation, ¬ ∀ t ∈ ts, t.Holds z ρ

/-- Nothing is asserted, and the log has reached some point. -/
structure PlainSince (n : Nat) (o : Oracle) : Prop where
  assertions : o.assertions = []
  refuted : n ≤ o.refuted.length

variable {z : ZeroDivision} {n : Nat} {o o' : Oracle} {ts : List Term} {answer : Answer}

theorem SoundSince.of_later (h : o'.SoundSince z n) (hl : o.Later o') : o.SoundSince z n :=
  fun ts hts => h ts ((hl.refuted.sublist.drop n).subset hts)

theorem PlainSince.later (h : o.PlainSince n) (hl : o.Later o') : o'.PlainSince n :=
  ⟨hl.assertions.trans h.assertions, Nat.le_trans h.refuted hl.refuted.length_le⟩

theorem foldl_assert (ts : List Term) (o : Oracle) :
    ts.foldl assert o = { o with assertions := o.assertions ++ ts } := by
  induction ts generalizing o with
  | nil => simp
  | cons t ts ih => simp [ih, assert]

/-- What a check decides and what it changes. -/
private theorem checkWith_eq (o : Oracle) (ts : List Term) : o.checkWith ts =
    let o' := { o with checks := o.checks + 1, asked := o.asked ++ [o.assertions ++ ts] }
    match o.decide (Term.conjoin (o.assertions ++ ts)).foldConstants with
    | .model m => (.sat, { o' with model := m })
    | .refuted => (.unsat, { o' with refuted := o.refuted ++ [o.assertions ++ ts] })
    | .undefined => (.unknown, o') := by
  have hdecide (t : Term) : Oracle.decide { o with
      assertions := o.assertions ++ ts
      frames := o.assertions.length :: o.frames
      checks := o.checks + 1
      asked := o.asked ++ [o.assertions ++ ts] } t = o.decide t := decide_congr rfl rfl t
  unfold checkWith
  rw [foldl_assert]
  unfold check
  dsimp only [push, goal]
  rw [hdecide]
  cases o.decide (Term.conjoin (o.assertions ++ ts)).foldConstants <;> simp [pop]

/-- A check is logged with all that is asserted in it. -/
theorem asked_checkWith (o : Oracle) (ts : List Term) :
    (o.checkWith ts).2.asked = o.asked ++ [o.assertions ++ ts] := by
  rw [checkWith_eq]
  dsimp only
  split <;> rfl

/-- What a check in a scope of its own leaves behind. -/
theorem checkWith_spec (h : o.checkWith ts = (answer, o')) :
    o.Later o' ∧
      (answer = .unsat → o'.refuted = o.refuted ++ [o.assertions ++ ts]) ∧
      (answer = .sat →
        o'.decide (Term.conjoin (o.assertions ++ ts)).foldConstants = .model o'.model) := by
  rw [checkWith_eq] at h
  split at h
  · next m hm =>
    obtain ⟨rfl, rfl⟩ := Prod.mk.inj h
    exact ⟨⟨rfl, rfl, List.prefix_rfl⟩, nofun, fun _ => (decide_congr rfl rfl _).trans hm⟩
  · obtain ⟨rfl, rfl⟩ := Prod.mk.inj h
    exact ⟨⟨rfl, rfl, List.prefix_append _ _⟩, fun _ => rfl, nofun⟩
  · obtain ⟨rfl, rfl⟩ := Prod.mk.inj h
    exact ⟨⟨rfl, rfl, List.prefix_rfl⟩, nofun, nofun⟩

/-- An oracle after some questions: it is later, and it searches the same window under the same cap.
-/
structure Asked (o o' : Oracle) : Prop extends o.Later o' where
  window : o'.window = o.window
  cap : o'.cap = o.cap

namespace Asked

variable {o'' : Oracle}

theorem refl (o : Oracle) : o.Asked o := ⟨.refl o, rfl, rfl⟩

theorem trans (h : o.Asked o') (h' : o'.Asked o'') : o.Asked o'' :=
  ⟨h.toLater.trans h'.toLater, h'.window.trans h.window, h'.cap.trans h.cap⟩

end Asked

/-- A check is a question. -/
theorem checkWith_asked (o : Oracle) (ts : List Term) : o.Asked (o.checkWith ts).2 := by
  refine ⟨(checkWith_spec rfl).1, ?_, ?_⟩
  · rw [checkWith_eq]
    split <;> rfl
  · rw [checkWith_eq]
    split <;> rfl

/-- Asking before does not change an answer. -/
theorem Asked.checkWith_fst (h : o.Asked o') (ts : List Term) :
    (o'.checkWith ts).1 = (o.checkWith ts).1 := by
  rw [checkWith_eq, checkWith_eq, h.assertions, decide_congr h.window h.cap]
  cases o.decide (Term.conjoin (o.assertions ++ ts)).foldConstants <;> rfl

/-- The last thing that the oracle did was to answer a question. -/
def HasAnswered (o : Oracle) (ts : List Term) (answer : Answer) : Prop :=
  ∃ o₀ : Oracle, o₀.checkWith ts = (answer, o)

/-- A question that the oracle finds a model of is true under the valuation that it amounts to, if
each of its names has one sort. -/
theorem holds_of_sat_of_alone (h : o.checkWith ts = (.sat, o')) (z : ZeroDivision) {t : Term}
    (ht : t ∈ ts)
    (halone : ∀ v ∈ t.occurrences, v.Alone ((o.assertions ++ ts).flatMap Term.occurrences))
    (hq : t.IsQuestion) : t.Holds z o'.valuation := by
  obtain ⟨-, -, hmodel⟩ := checkWith_spec h
  exact holds_of_decide (hmodel rfl) z (List.mem_append_right _ ht) halone hq

/-- Questions that the oracle finds a model of are true under the valuation that it amounts to. -/
theorem holds_of_sat {vs : List Var} (h : o.checkWith ts = (.sat, o'))
    (hone : OneSort ((o.assertions ++ ts).flatMap Term.occurrences ++ vs)) (z : ZeroDivision) :
    ∀ t ∈ ts, t.IsQuestion → t.Holds z o'.valuation := by
  intro t ht hq
  refine holds_of_sat_of_alone h z ht (fun v hv w hw => ?_) hq
  have hv' := List.mem_flatMap.mpr ⟨t, List.mem_append_right o.assertions ht, hv⟩
  exact hone v (List.mem_append_left vs hv') w (List.mem_append_left vs hw)

/-- Formulas that a sound oracle without assertions refutes have no model. -/
theorem not_holds_of_unsat (h : o.checkWith ts = (.unsat, o')) (ho : o.PlainSince n)
    (hs : o'.SoundSince z n) (ρ : Valuation) :
    ¬ ∀ t ∈ ts, t.Holds z ρ := by
  obtain ⟨-, hlog, -⟩ := checkWith_spec h
  refine hs ts ?_ ρ
  rw [hlog rfl, ho.assertions, List.drop_append_of_le_length ho.refuted]
  simp

/-- The answer about a formula that an answer about its negation amounts to. -/
def validityOf : Answer → Validity
  | .sat => .invalid
  | .unsat => .valid
  | .unknown => .unknown

theorem checkValid_eq (o : Oracle) (t : Term) : o.checkValid t =
    (validityOf (o.checkWith [t.negate]).1, (o.checkWith [t.negate]).2) := by
  unfold checkValid
  split <;> next heq => rw [heq]; rfl

/-- A check for validity is a question. -/
theorem checkValid_asked (o : Oracle) (t : Term) : o.Asked (o.checkValid t).2 := by
  rw [checkValid_eq]
  exact checkWith_asked o [t.negate]

/-- Asking before does not change what is found valid. -/
theorem Asked.checkValid_fst (h : o.Asked o') (t : Term) :
    (o'.checkValid t).1 = (o.checkValid t).1 := by
  rw [checkValid_eq, checkValid_eq, h.checkWith_fst]

/-- A formula that an oracle without assertions finds invalid is false under some valuation. -/
theorem exists_not_holds_of_invalid {t : Term} (h : (o.checkValid t).1 = .invalid)
    (ho : o.assertions = []) (hone : OneSort t.occurrences) (ht : t.hasSort .bool = true)
    (z : ZeroDivision) : ∃ ρ : Valuation, ¬ t.Holds z ρ := by
  rw [checkValid_eq] at h
  rcases hasked : o.checkWith [t.negate] with ⟨_ | _ | _, o₁⟩ <;> rw [hasked] at h
  · have hgoal : OneSort ((o.assertions ++ [t.negate]).flatMap Term.occurrences ++ []) := by
      simpa [ho] using hone
    have hholds := holds_of_sat hasked hgoal z t.negate List.mem_cons_self
      (.inl (Term.hasSort_negate ht))
    exact ⟨o₁.valuation, (Term.holds_negate ht).mp hholds⟩
  · cases h
  · cases h

/-- What a check for validity leaves behind. -/
theorem checkValid_later {t : Term} {v : Validity} (h : o.checkValid t = (v, o')) :
    o.Later o' := by
  have hasked := checkValid_asked o t
  rw [h] at hasked
  exact hasked.toLater

/-- A formula that a sound oracle without assertions confirms to be valid is true. -/
theorem holds_of_valid {t : Term} (h : o.checkValid t = (.valid, o')) (ho : o.PlainSince n)
    (hs : o'.SoundSince z n) (ht : t.hasSort .bool = true)
    (ρ : Valuation) : t.Holds z ρ := by
  unfold checkValid at h
  split at h
  · next o₁ heq =>
    obtain ⟨-, rfl⟩ := Prod.mk.inj h
    have hnot := not_holds_of_unsat heq ho hs ρ
    rw [List.forall_mem_singleton, Term.holds_negate ht] at hnot
    exact not_not.mp hnot
  · cases h
  · cases h

/-- What a check of an implication leaves behind. -/
theorem implies_later {premise conclusion : Term} {b : Bool}
    (h : o.implies premise conclusion = (b, o')) : o.Later o' := by
  unfold implies at h
  dsimp only at h
  split at h
  all_goals
    next heq =>
    obtain ⟨rfl, rfl⟩ := Prod.mk.inj h
    have hl := checkValid_later heq
    exact ⟨hl.assertions, hl.frames, hl.refuted⟩

/-- An implication that a sound oracle without assertions confirms is true. -/
theorem holds_of_implies {premise conclusion : Term}
    (h : o.implies premise conclusion = (true, o')) (ho : o.PlainSince n)
    (hs : o'.SoundSince z n) (hp : premise.hasSort .bool = true)
    (hc : conclusion.hasSort .bool = true) {ρ : Valuation} (hρ : premise.Holds z ρ) :
    conclusion.Holds z ρ := by
  unfold implies at h
  dsimp only at h
  split at h
  · next heq =>
    obtain ⟨-, rfl⟩ := Prod.mk.inj h
    have hvalid :=
      holds_of_valid heq ⟨ho.assertions, ho.refuted⟩ hs (Term.hasSort_implication hp hc) ρ
    exact (Term.holds_implication hp).mp hvalid hρ
  · cases h

end HornSaturation.Oracle
