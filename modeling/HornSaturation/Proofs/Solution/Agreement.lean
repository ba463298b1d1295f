import HornSaturation.Proofs.Solution.Normalized
import HornSaturation.Proofs.Solution.Stated
import Mathlib.Logic.Relation

/-!
# The two checks agree

A solution can be checked against the stated clauses or against their normal forms. The formulas
that the two checks ask about are different, but clause by clause they are missing together and
valid together. So the checks come to the same result, whatever the oracles are that they use, if
these decide the validity of the formulas.
-/

namespace HornSaturation

/-- A formula is valid if it is true for all values of its variables, whatever division by zero
gives. -/
def Term.Valid (t : Term) : Prop := ∀ z ρ, t.Holds z ρ

/-- Two formulas are true for all values of their variables under the same readings of division by
zero. -/
structure Term.ValidTogether (t u : Term) : Prop where
  left : t.hasSort .bool = true
  right : u.hasSort .bool = true
  iff : ∀ z, (∀ ρ, t.Holds z ρ) ↔ ∀ ρ, u.Holds z ρ

theorem Term.ValidTogether.valid_iff {t u : Term} (h : t.ValidTogether u) : t.Valid ↔ u.Valid :=
  forall_congr' h.iff

namespace Solution

section Checks

variable {σ α : Type} {ask : σ → Term → Validity × σ} {formula? : α → Except Error (Option Term)}

/-- Checks formulas for validity, one after the other, with an oracle of any kind. -/
def checkAllBy (ask : σ → Term → Validity × σ) (formula? : α → Except Error (Option Term)) :
    List α → σ → Except Error Bool × σ
  | [], o => (.ok true, o)
  | a :: rest, o =>
    match formula? a with
    | .error e => (.error e, o)
    | .ok none => checkAllBy ask formula? rest o
    | .ok (some t) =>
      match ask o t with
      | (.valid, o) => checkAllBy ask formula? rest o
      | (_, o) => (.ok false, o)

theorem checkAll_eq (as : List α) (o : Oracle) :
    checkAll formula? as o = checkAllBy Oracle.checkValid formula? as o := by
  induction as generalizing o with
  | nil => rfl
  | cons a as ih =>
    rw [checkAll, checkAllBy]
    cases formula? a with
    | error e => rfl
    | ok t? =>
      cases t? with
      | none => exact ih o
      | some t =>
        dsimp only
        rcases o.checkValid t with ⟨_ | _ | _, o₁⟩
        · exact ih o₁
        · rfl
        · rfl

/-- In all states that an oracle comes to by answering questions it decides the validity of certain
formulas. -/
def DecidesFrom (ask : σ → Term → Validity × σ) (o : σ) (T : Term → Prop) : Prop :=
  ∀ o', Relation.ReflTransGen (fun o₁ o₂ => ∃ t, o₂ = (ask o₁ t).2) o o' →
    ∀ t, T t → ((ask o' t).1 = .valid ↔ t.Valid)

theorem DecidesFrom.mono {o : σ} {T T' : Term → Prop} (h : DecidesFrom ask o T)
    (hT : ∀ t, T' t → T t) : DecidesFrom ask o T' :=
  fun o' hreach t ht => h o' hreach t (hT t ht)

theorem DecidesFrom.next {o : σ} {T : Term → Prop} (h : DecidesFrom ask o T) (t : Term) :
    DecidesFrom ask (ask o t).2 T := fun o' hreach => h o' (.head ⟨t, rfl⟩ hreach)

/-- The answers of an oracle for a window do not depend on what it has been asked. -/
theorem decidesFrom_checkValid {o : Oracle} {T : Term → Prop}
    (h : ∀ t, T t → ((o.checkValid t).1 = .valid ↔ t.Valid)) :
    DecidesFrom Oracle.checkValid o T := by
  intro o' hreach t ht
  have hasked : o.Asked o' := by
    induction hreach with
    | refl => exact .refl o
    | tail _ hstep ih =>
      obtain ⟨u, rfl⟩ := hstep
      exact ih.trans (Oracle.checkValid_asked _ u)
  rw [hasked.checkValid_fst]
  exact h t ht

/-- If an oracle decides the validity of the formulas, the check finds out whether all of them are
valid. -/
theorem checkAllBy_spec {as : List α} {o : σ} (hall : ∀ a ∈ as, ∃ t?, formula? a = .ok t?)
    (h : DecidesFrom ask o fun t => ∃ a ∈ as, formula? a = .ok (some t)) :
    ∃ b, (checkAllBy ask formula? as o).1 = .ok b ∧
      (b = true ↔ ∀ a ∈ as, ∀ t, formula? a = .ok (some t) → t.Valid) := by
  induction as generalizing o with
  | nil => exact ⟨true, rfl, by simp⟩
  | cons a as ih =>
    obtain ⟨⟨t?, ht⟩, hall⟩ := List.forall_mem_cons.mp hall
    have hrest : DecidesFrom ask o fun t => ∃ a ∈ as, formula? a = .ok (some t) :=
      h.mono fun t ⟨b, hb, hbt⟩ => ⟨b, List.mem_cons_of_mem a hb, hbt⟩
    rw [checkAllBy, ht]
    simp only [List.forall_mem_cons, ht]
    cases t? with
    | none => simpa using ih hall hrest
    | some t =>
      have hanswer := h o .refl t ⟨a, List.mem_cons_self, ht⟩
      have hfirst : (∀ u, Except.ok (some t) = (.ok (some u) : Except Error (Option Term)) →
          u.Valid) ↔ t.Valid := by simp
      dsimp only
      rw [hfirst]
      split
      · next o₁ hvalid =>
        obtain ⟨b, hb, hiff⟩ := ih hall (hvalid ▸ hrest.next t)
        rw [hvalid] at hanswer
        exact ⟨b, hb, hiff.trans (and_iff_right (hanswer.mp rfl)).symm⟩
      · next hopen heq =>
        refine ⟨false, rfl, iff_of_false Bool.false_ne_true fun hvalid => hopen ?_⟩
        rw [← hanswer.mpr hvalid.1, heq]

end Checks

variable {σ : Type} {p : Problem} {np : NormalizedProblem} {s : Solution}

/-- Checks a solution against a problem as it was stated, with an oracle of any kind. -/
def checkBy (ask : σ → Term → Validity × σ) (p : Problem) (s : Solution) (o : σ) :
    Except Error Bool × σ :=
  checkAllBy ask (fun (c, index) => s.clauseFormula? index c) p.clauses.zipIdx o

/-- Checks a solution against a problem in normalized form, with an oracle of any kind. -/
def checkNormalizedBy (ask : σ → Term → Validity × σ) (np : NormalizedProblem) (s : Solution)
    (o : σ) : Except Error Bool × σ :=
  checkAllBy ask (s.normalizedFormula? np.relations) np.clauses o

/-- The formulas that the check of a stated problem asks about. -/
def StatedFormula (s : Solution) (p : Problem) (t : Term) : Prop :=
  ∃ i c, p.clauses[i]? = some c ∧ s.clauseFormula? i c = .ok (some t)

/-- The formulas that the check of a normalized problem asks about. -/
def NormalizedFormula (s : Solution) (np : NormalizedProblem) (t : Term) : Prop :=
  ∃ nc ∈ np.clauses, s.normalizedFormula? np.relations nc = .ok (some t)

/-- For a stated clause and its normal form the checks ask about no formula or about two formulas
that are valid together. -/
theorem formulas_agree (hw : p.WellSorted) (hn : p.normalize = .ok np)
    (hs : s.Interprets np.relations) {i : Nat} {c : Clause} {nc : NormalizedClause}
    (hc : p.clauses[i]? = some c) (hnc : np.clauses[i]? = some nc) :
    ∃ t? u?, s.clauseFormula? i c = .ok t? ∧ s.normalizedFormula? np.relations nc = .ok u? ∧
      Option.Rel Term.ValidTogether t? u? := by
  have hform := p.normalForm_of_normalize hw hn
  have hs' : s.Interprets p.relations := hform.relations ▸ hs
  have hmem := List.mem_of_getElem? hc
  have hsorted := hw.clauses c hmem
  obtain ⟨nc', hnc', hnf⟩ := hform.getElem? hc
  obtain rfl := Option.some.inj (hnc.symm.trans hnc')
  have hregular := ((hform.regular hw).clause i nc hnc).2
  obtain ⟨t?, ht⟩ := hs'.exists_clauseFormula? hw.relations hsorted i
  obtain ⟨u?, hu⟩ := hs.exists_normalizedFormula? hregular
  obtain ⟨hnone, hstated⟩ :=
    hs'.clauseFormula?_spec hw.relations hsorted (Problem.plain_of_normalize hn hmem) ht
  obtain ⟨hnone', hnormalized⟩ := hs.normalizedFormula?_spec hregular hu
  have hsame : t? = none ↔ u? = none :=
    hnone.trans ((passesOver_spelled hnf).symm.trans hnone'.symm)
  refine ⟨t?, u?, ht, hu, ?_⟩
  cases t? with
  | none =>
    rw [hsame.mp rfl]
    exact .none
  | some t =>
    obtain ⟨u, rfl⟩ := Option.ne_none_iff_exists'.mp (mt hsame.mpr nofun)
    obtain ⟨hsort, -, hholds⟩ := hstated t rfl
    obtain ⟨hsort', hholds'⟩ := hnormalized u rfl
    exact .some ⟨hsort, hsort', fun z =>
      (hholds z).trans (hnf.satisfiedBy.symm.trans (hholds' z).symm)⟩

/-- All formulas of one check are valid exactly if those of the other are. -/
theorem allValid_iff (hw : p.WellSorted) (hn : p.normalize = .ok np)
    (hs : s.Interprets np.relations) :
    (∀ t, s.StatedFormula p t → t.Valid) ↔ ∀ t, s.NormalizedFormula np t → t.Valid := by
  have hform := p.normalForm_of_normalize hw hn
  constructor
  · rintro hall u ⟨nc, hmem, hu⟩
    obtain ⟨i, hnc⟩ := List.getElem?_of_mem hmem
    obtain ⟨-, c, hc, -⟩ := hform.clause i nc hnc
    obtain ⟨t?, u?, ht, hu', hagree⟩ := formulas_agree hw hn hs hc hnc
    obtain rfl := Except.ok.inj (hu.symm.trans hu')
    cases hagree with
    | some htogether => exact htogether.valid_iff.mp (hall _ ⟨i, c, hc, ht⟩)
  · rintro hall t ⟨i, c, hc, ht⟩
    obtain ⟨nc, hnc, -⟩ := hform.getElem? hc
    obtain ⟨t?, u?, ht', hu, hagree⟩ := formulas_agree hw hn hs hc hnc
    obtain rfl := Except.ok.inj (ht.symm.trans ht')
    cases hagree with
    | some htogether =>
      exact htogether.valid_iff.mpr (hall _ ⟨nc, List.mem_of_getElem? hnc, hu⟩)

/-- With oracles that decide the validity of the formulas, the checks come to the same result. -/
theorem checkBy_agree {σ' : Type} (hw : p.WellSorted) (hn : p.normalize = .ok np)
    (hs : s.Interprets np.relations) {ask : σ → Term → Validity × σ}
    {ask' : σ' → Term → Validity × σ'} {o : σ} {o' : σ'}
    (h : DecidesFrom ask o (s.StatedFormula p)) (h' : DecidesFrom ask' o' (s.NormalizedFormula np)) :
    ∃ b, (checkBy ask p s o).1 = .ok b ∧ (checkNormalizedBy ask' np s o').1 = .ok b := by
  have hform := p.normalForm_of_normalize hw hn
  have hstated (t : Term) : (∃ entry ∈ p.clauses.zipIdx,
      s.clauseFormula? entry.2 entry.1 = .ok (some t)) ↔ s.StatedFormula p t := by
    refine ⟨fun ⟨⟨c, i⟩, hmem, ht⟩ => ⟨i, c, List.mk_mem_zipIdx_iff_getElem?.mp hmem, ht⟩,
      fun ⟨i, c, hc, ht⟩ => ⟨(c, i), List.mk_mem_zipIdx_iff_getElem?.mpr hc, ht⟩⟩
  have hmade : ∀ entry ∈ p.clauses.zipIdx, ∃ t?, s.clauseFormula? entry.2 entry.1 = .ok t? := by
    rintro ⟨c, i⟩ hmem
    have hc := List.mk_mem_zipIdx_iff_getElem?.mp hmem
    obtain ⟨nc, hnc, -⟩ := hform.getElem? hc
    obtain ⟨t?, -, ht, -⟩ := formulas_agree hw hn hs hc hnc
    exact ⟨t?, ht⟩
  have hmade' (nc : NormalizedClause) (hmem : nc ∈ np.clauses) :=
    hs.exists_normalizedFormula? ((hform.regular hw).of_mem hmem).2
  obtain ⟨b, hb, hiff⟩ := checkAllBy_spec hmade (h.mono fun t ht => (hstated t).mp ht)
  obtain ⟨b', hb', hiff'⟩ := checkAllBy_spec hmade' h'
  have hall : (b = true) ↔ ∀ t, s.StatedFormula p t → t.Valid :=
    hiff.trans ⟨fun hv t ht => by
      obtain ⟨entry, hmem, hentry⟩ := (hstated t).mpr ht
      exact hv entry hmem t hentry, fun hv entry hmem t ht => hv t ((hstated t).mp ⟨entry, hmem, ht⟩)⟩
  have hall' : (b' = true) ↔ ∀ t, s.NormalizedFormula np t → t.Valid :=
    hiff'.trans ⟨fun hv t ⟨nc, hmem, ht⟩ => hv nc hmem t ht,
      fun hv nc hmem t ht => hv t ⟨nc, hmem, ht⟩⟩
  obtain rfl : b = b' := Bool.eq_iff_iff.mpr (hall.trans ((allValid_iff hw hn hs).trans hall'.symm))
  exact ⟨b, hb, hb'⟩

/-- The check of a solution against the stated clauses and the check against their normal forms mean
the same: clause by clause they ask about no formula or about formulas that are valid together, and
with oracles that decide the validity of these formulas they come to the same result. This also
holds of oracles for a window, if they decide them. -/
theorem checks_agree (hw : p.WellSorted) (hn : p.normalize = .ok np)
    (hs : s.Interprets np.relations) :
    (np.clauses.length = p.clauses.length ∧
      ∀ (i : Nat) (c : Clause) (nc : NormalizedClause), p.clauses[i]? = some c →
        np.clauses[i]? = some nc → ∃ t? u?, s.clauseFormula? i c = .ok t? ∧
          s.normalizedFormula? np.relations nc = .ok u? ∧ Option.Rel Term.ValidTogether t? u?) ∧
    (∀ (σ σ' : Type) (ask : σ → Term → Validity × σ) (ask' : σ' → Term → Validity × σ') (o : σ)
      (o' : σ'), DecidesFrom ask o (s.StatedFormula p) →
        DecidesFrom ask' o' (s.NormalizedFormula np) →
        ∃ b, (checkBy ask p s o).1 = .ok b ∧ (checkNormalizedBy ask' np s o').1 = .ok b) ∧
    ∀ o o' : Oracle, (∀ t, s.StatedFormula p t → ((o.checkValid t).1 = .valid ↔ t.Valid)) →
      (∀ t, s.NormalizedFormula np t → ((o'.checkValid t).1 = .valid ↔ t.Valid)) →
      ∃ b, (s.check p o).1 = .ok b ∧ (s.checkNormalized np o').1 = .ok b := by
  refine ⟨⟨(p.normalForm_of_normalize hw hn).length, fun i c nc => formulas_agree hw hn hs⟩,
    fun _ _ _ _ _ _ => checkBy_agree hw hn hs, fun o o' h h' => ?_⟩
  rw [check, checkNormalized, checkAll_eq, checkAll_eq]
  exact checkBy_agree hw hn hs (decidesFrom_checkValid h) (decidesFrom_checkValid h')

open Classical in
/-- The oracle that decides validity. -/
noncomputable def exactOracle (o : Unit) (t : Term) : Validity × Unit :=
  (if t.Valid then .valid else .invalid, o)

theorem decidesFrom_exactOracle (T : Term → Prop) : DecidesFrom exactOracle () T := by
  intro o _ t _
  unfold exactOracle
  split
  · next hvalid => exact iff_of_true rfl hvalid
  · next hvalid => exact iff_of_false nofun hvalid

end Solution

/-- A fact about the multiples of three, and a query for two that follow each other. -/
def Problem.threes : Problem where
  relations := [⟨0, "R", [.int]⟩]
  clauses := [
    ⟨[], none, some ⟨0, [.op .mul [.int 3, .var ⟨"x0", .int⟩]]⟩⟩,
    ⟨[⟨0, [.var ⟨"e0", .int⟩]⟩, ⟨0, [.op .add [.var ⟨"e0", .int⟩, .int 1]]⟩], none, none⟩]

/-- The normalized form of this problem. -/
def NormalizedProblem.threes : NormalizedProblem where
  relations := [⟨0, "R", [.int]⟩]
  clauses := [
    ⟨0, [], some ⟨0, 0⟩, .op .eq [.var ⟨"R@0_0", .int⟩, .op .mul [.int 3, .var ⟨"x0", .int⟩]]⟩,
    ⟨1, [⟨0, 0⟩, ⟨0, 1⟩], none, .op .and [.op .eq [.var ⟨"R@0_0", .int⟩, .var ⟨"e0", .int⟩],
      .op .eq [.var ⟨"R@1_0", .int⟩, .op .add [.var ⟨"e0", .int⟩, .int 1]]]⟩]

/-- The interpretation by multiples of three. -/
def Solution.threes : Solution := ⟨[(0, ⟨[⟨"x0", .int⟩], [⟨"e0", .int⟩],
  .op .eq [.var ⟨"x0", .int⟩, .op .mul [.int 3, .var ⟨"e0", .int⟩]]⟩)]⟩

theorem Solution.interprets_threes :
    Solution.threes.Interprets NormalizedProblem.threes.relations := by
  intro id r hr
  obtain ⟨hget, rfl⟩ := relation?_eq_some.mp hr
  obtain rfl := List.mem_singleton.mp (List.mem_of_getElem? hget)
  exact ⟨_, rfl, rfl, ⟨[⟨"x0", .int⟩], rfl⟩, rfl, by decide⟩

/-- The formulas for the query have one variable of the clause besides two copies, and two argument
symbols more in normalized form; they are valid together. -/
theorem Solution.checks_agree_threes :
    (∃ t u, Solution.threes.clauseFormula? 1 ⟨[⟨0, [.var ⟨"e0", .int⟩]⟩,
        ⟨0, [.op .add [.var ⟨"e0", .int⟩, .int 1]]⟩], none, none⟩ = .ok (some t) ∧
      (t.vars.map (·.name)) = ["e0", "e0!1_0", "e0!1_1"] ∧
      (u.vars.map (·.name)) = ["R@0_0", "e0", "R@1_0", "e0!b0", "e0!b1"] ∧ t.ValidTogether u) ∧
    ∃ b, (checkBy exactOracle .threes Solution.threes ()).1 = .ok b ∧
      (checkNormalizedBy exactOracle .threes Solution.threes ()).1 = .ok b := by
  have hw : Problem.threes.WellSorted := by decide
  have hn : Problem.threes.normalize = .ok .threes := by rfl
  obtain ⟨⟨-, hformulas⟩, hchecks, -⟩ := checks_agree hw hn Solution.interprets_threes
  obtain ⟨t?, u?, ht, hu, hagree⟩ := hformulas 1 _ _ rfl rfl
  refine ⟨?_, hchecks _ _ _ _ _ _ (decidesFrom_exactOracle _) (decidesFrom_exactOracle _)⟩
  cases hagree with
  | none => cases ht
  | some htogether =>
    refine ⟨_, _, ht, ?_, ?_, htogether⟩
    · obtain rfl := Option.some.inj (Except.ok.inj ht)
      rfl
    · obtain rfl := Option.some.inj (Except.ok.inj hu)
      rfl

end HornSaturation
