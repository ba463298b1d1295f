import HornSaturation.Proofs.Run.Closure
import HornSaturation.Proofs.Run.Settling
import HornSaturation.Proofs.Run.Traces

/-!
# What is covered stays covered

With subsumption by implication, settling a unit never fails. A unit that is no contradiction is
covered afterwards, by itself or by the units that made it redundant, and units are only retired for
one that covers them. As far as the refutations of the oracle are right, nothing that was covered at
some point of a run is lost later on, however many units come to replace each other.
-/

namespace HornSaturation

variable {σ : Type} {m : Method σ} {z : ZeroDivision} {u : UnitClause} {pr : Provenance}

section Steps

variable {p : NormalizedProblem} {r r' : Run σ}

/-- A step of a run loses nothing that active units assert. -/
theorem Run.Advance.keeps (hp : p.Regular) (hsimplifier : m.simplifier = Term.project)
    (hm : m.subsumption = .byImplication) (hs : r.units.Sound p) (h : r.Advance m p r') :
    r.Steps p r' ∧ r.Keeps m r' := by
  cases h with
  | @settled u pr h =>
    obtain ⟨hw, hj⟩ := h.spec hp hsimplifier hs
    have hasks : m.subsumption.OnlyAsks := hm ▸ Subsumption.byImplication_onlyAsks
    have hsettle := Running.ensures_settle hasks hs hw hj
    -- If settling could fail, retired units might be left without the one that covers them.
    have hnever := Running.ensures_settle_succeeds hm hs.listed u pr
    have hboth : Ensures (Running.settle m u pr) r (fun _ r' => r.Steps p r' ∧ r.Keeps m r')
        fun _ r' => r.Steps p r' ∧ r.Keeps m r' :=
      (hsettle.and hnever).mono (fun _ _ h => ⟨h.1.steps, h.1.keeps⟩) fun _ _ h => h.2.elim
    exact hboth.final
  | recorded hc hu h =>
    obtain ⟨hsound, hev, -, hcov⟩ := Store.recordRefutation_ofNormalized_spec hp hs hc hu h
    exact ⟨⟨hsound, hev, .refl _⟩, fun _ z _ _ _ => hcov z⟩
  | aside hunits hl =>
    exact ⟨⟨hunits ▸ hs, hunits ▸ .refl _, hl⟩, fun _ z _ _ _ g hg => hunits ▸ hg⟩

/-- However many steps a run takes, it loses nothing that active units assert. -/
theorem Run.Advances.keeps (hp : p.Regular) (hsimplifier : m.simplifier = Term.project)
    (hm : m.subsumption = .byImplication) (hs : r.units.Sound p) (h : r.Advances m p r') :
    r.Steps p r' ∧ r.Keeps m r' := by
  induction h with
  | refl => exact ⟨.refl hs, fun _ _ _ _ _ _ hg => hg⟩
  | tail _ hstep ih =>
    obtain ⟨hsteps, hkeeps⟩ := ih
    obtain ⟨hsteps', hkeeps'⟩ := hstep.keeps hp hsimplifier hm hsteps.sound
    exact ⟨hsteps.trans hsteps', hkeeps.trans hkeeps' hsteps hsteps'⟩

end Steps

variable {p : Problem} {np : NormalizedProblem} {r₀ r r' r'' : Run σ}

/-- When a run settles a unit that is no contradiction, it succeeds. As far as what the oracle
refutes in the course of the run has no model, active units then assert what the unit asserts and
what they asserted before, and they do so for the rest of the run. -/
theorem Run.covers_of_settle {result : Except Error (Option UnitId)} (hw : p.WellSorted)
    (hn : p.normalize = .ok np) (hsimplifier : m.simplifier = Term.project)
    (hm : m.subsumption = .byImplication) (h₀ : r₀.Visited m np)
    (ho : r₀.workspace.oracle.assertions = []) (hbefore : r₀.Advances m np r)
    (hu : Offered m np r.units u pr) (href : u.isRefutation = false)
    (h : (Running.settle m u pr).run.run r = (result, r')) (hafter : r'.Advances m np r'')
    (hsound : r''.workspace.oracle.SoundSince z r₀.workspace.oracle.refuted.length) :
    result = .ok none ∧ (∀ g, u.Asserts z np.relations g → r'.units.Covers z g) ∧
      (∀ g, r.units.Covers z g → r'.units.Covers z g) ∧
      ∀ g, r'.units.Covers z g → r''.units.Covers z g := by
  have hreg := (p.normalForm_of_normalize hw hn).regular hw
  have hplain : r₀.workspace.oracle.PlainSince r₀.workspace.oracle.refuted.length :=
    ⟨ho, Nat.le_refl _⟩
  obtain ⟨hsteps, -⟩ := hbefore.keeps hreg hsimplifier hm (h₀.sound hreg hsimplifier)
  obtain ⟨hwell, hj⟩ := hu.spec hreg hsimplifier hsteps.sound
  have hasks : m.subsumption.OnlyAsks := hm ▸ Subsumption.byImplication_onlyAsks
  have hsettle := Running.ensures_settle hasks hsteps.sound hwell hj
  have hnever := Running.ensures_settle_succeeds hm hsteps.sound.listed u pr
  cases result with
  | error e =>
    unfold Ensures at hnever
    rw [h] at hnever
    exact hnever.elim
  | ok root =>
    have hsettled := hsettle.of_ok h
    obtain rfl : root = none := Option.eq_none_iff_forall_ne_some.mpr fun id hroot => by
      simpa [href] using (hsettled.recorded id hroot).1
    obtain ⟨hsteps', hkeeps⟩ := hafter.keeps hreg hsimplifier hm hsettled.steps.sound
    have hplain₁ := hplain.later hsteps.later
    have hsound₁ := hsound.of_later hsteps'.later
    exact ⟨rfl, hsettled.covers rfl hm z _ hplain₁ hsound₁, hsettled.keeps hm z _ hplain₁ hsound₁,
      hkeeps hm z _ (hplain₁.later hsettled.steps.later) hsound⟩

/-- A fact about one, and rules that lead from it to the numbers from one on and to those from zero
on. -/
def Problem.widening : Problem where
  relations := [⟨0, "P", [.int]⟩]
  clauses := [
    ⟨[], none, some ⟨0, [.int 1]⟩⟩,
    ⟨[⟨0, [.int 1]⟩], some (.op .ge [.var ⟨"y", .int⟩, .int 1]), some ⟨0, [.var ⟨"y", .int⟩]⟩⟩,
    ⟨[⟨0, [.int 1]⟩], some (.op .ge [.var ⟨"y", .int⟩, .int 0]), some ⟨0, [.var ⟨"y", .int⟩]⟩⟩]

/-- The normalized form of such a rule. -/
def NormalizedClause.widening (index : Nat) (bound : Int) : NormalizedClause :=
  ⟨index, [⟨0, 0⟩], some ⟨0, 1⟩, .op .and [.op .eq [.var ⟨"P@0_0", .int⟩, .int 1],
    .op .eq [.var ⟨"P@1_0", .int⟩, .var ⟨"y", .int⟩],
    .op .ge [.var ⟨"y", .int⟩, .int bound]]⟩

/-- The normalized form of this problem. -/
def NormalizedProblem.widening : NormalizedProblem where
  relations := [⟨0, "P", [.int]⟩]
  clauses := [
    ⟨0, [], some ⟨0, 0⟩, .op .eq [.var ⟨"P@0_0", .int⟩, .int 1]⟩, .widening 1 1, .widening 2 0]

/-- The unit that asserts the numbers from a bound on. -/
def UnitClause.atLeast (bound : Int) : UnitClause :=
  ⟨some 0, .positive, 1, .op .ge [.var ⟨"P@1_0", .int⟩, .int bound]⟩

namespace Run

/-- The start of a run for this problem. -/
def wideningStart : Run Saturation := .start {} .widening { window := ⟨0, 0⟩, cap := 100 }

/-- The problem is known and its fact stored. -/
def wideningSeeded : Run Saturation :=
  ((do
    Running.announce .widening
    Running.seed .standard .widening NormalizedProblem.widening.clauses :
      Running Saturation Unit).run.run wideningStart).2

/-- The numbers from one on have replaced the one. -/
def wideningOne : Run Saturation :=
  ((Running.settle .standard (.atLeast 1) (.derived 1 [0])).run.run wideningSeeded).2

/-- The numbers from zero on have replaced those from one on. -/
def wideningZero : Run Saturation :=
  ((Running.settle .standard (.atLeast 0) (.derived 2 [1])).run.run wideningOne).2

/-- The numbers from one on, derived once more, have been dropped. -/
def wideningDone : Run Saturation :=
  ((Running.settle .standard (.atLeast 1) (.derived 1 [2])).run.run wideningZero).2

/-- The valuation that makes booleans false and integers a given number. -/
private def always (n : Int) : Valuation where
  value v := match v.sort with
    | .bool => .bool false
    | .int => .int n
  sorted v := by cases h : v.sort <;> rfl

/-- What it means that a variable is not below a number. -/
private theorem holds_bound {v : Var} {ρ : Valuation} {n b : Int} (hv : ρ.value v = .int n) :
    (Term.op .ge [.var v, .int b]).Holds z ρ ↔ b ≤ n := by
  simp [Term.Holds, Term.meaning_op, Term.meaning_var, hv, Op.value, Op.value.compared,
    Value.toInt?, Op.compareInts]

/-- What the oracle refutes has no model. -/
theorem soundSince_widening (z : ZeroDivision) :
    wideningDone.workspace.oracle.SoundSince z 0 := by
  have hlog : wideningDone.workspace.oracle.refuted = [
      [.op .not [.op .implies [.op .eq [.var ⟨"P@0_0", .int⟩, .int 1],
        .op .ge [.var ⟨"P@0_0", .int⟩, .int 1]]]],
      [.op .not [.op .implies [.op .ge [.var ⟨"P@0_0", .int⟩, .int 1],
        .op .ge [.var ⟨"P@0_0", .int⟩, .int 0]]]],
      [.op .not [.op .implies [.op .ge [.var ⟨"P@0_0", .int⟩, .int 1],
        .op .ge [.var ⟨"P@0_0", .int⟩, .int 0]]]]] := by decide +kernel
  intro ts hts ρ hall
  rw [hlog] at hts
  simp only [List.drop_zero, List.mem_cons, List.not_mem_nil, or_false, or_self] at hts
  obtain ⟨n, hn⟩ := Value.exists_int (ρ.sorted ⟨"P@0_0", .int⟩)
  obtain rfl | rfl := hts <;>
    refine (Term.holds_not (by decide)).mp (hall _ List.mem_cons_self)
      ((Term.holds_implication (by decide)).mpr fun h => ?_)
  · exact (holds_bound (Option.some.inj (Term.holds_equation_var.mp h)).symm).mpr le_rfl
  · have hle := (holds_bound hn).mp h
    exact (holds_bound hn).mpr (by omega)

/-- The numbers from a bound on are offered where their rule can be resolved with a unit. -/
private theorem offered_atLeast {store : Store} {index id : Nat} {bound : Int}
    (electron : UnitClause)
    (hpremises : Running.premises .widening store ⟨index, [id]⟩ =
      .ok (.widening index bound, [electron]))
    (hu : ((resolve .project NormalizedProblem.widening.relations (.widening index bound)
      [electron]).run.run wideningSeeded.workspace.symbols).1 = .ok (.atLeast bound)) :
    Offered .standard .widening store (.atLeast bound) (.derived index [id]) :=
  .resolvent (c := ⟨index, [id]⟩) hpremises (Prod.ext hu rfl)

/-- One unit is retired, then the unit that replaced it, and a third is dropped when it comes again;
all numbers from zero on are covered in the end. -/
theorem covers_widening :
    Problem.widening.WellSorted ∧ Problem.widening.normalize = .ok .widening ∧
    wideningSeeded.units.active = [0] ∧ wideningOne.units.active = [1] ∧
    wideningZero.units.active = [2] ∧ wideningDone.units.active = [2] ∧
    wideningOne.workspace.oracle.refuted.length = 1 ∧
    wideningZero.workspace.oracle.refuted.length = 2 ∧
    wideningDone.workspace.oracle.refuted.length = 3 ∧
    ((Running.settle .standard (.atLeast 0) (.derived 2 [1])).run.run wideningOne).1 = .ok none ∧
    (∀ z g, wideningOne.units.Covers z g → wideningDone.units.Covers z g) ∧
    ∀ z n, 0 ≤ n → wideningDone.units.Covers z ⟨some 0, [.int n]⟩ := by
  have hw : Problem.widening.WellSorted := by decide
  have hn : Problem.widening.normalize = .ok .widening := by rfl
  let isOne : UnitClause := ⟨some 0, .positive, 0, .op .eq [.var ⟨"P@0_0", .int⟩, .int 1]⟩
  have hseeded : wideningStart.Advances .standard .widening wideningSeeded :=
    (Running.journaling_announce.bind_left fun _ =>
      Running.journaling_seed fun _ hc => hc).advances _
  have hone : wideningSeeded.Advances .standard .widening wideningOne :=
    (Advance.settled (offered_atLeast isOne (by decide +kernel) (by cbv))).advances
  have hzero : Offered .standard .widening wideningOne.units (.atLeast 0) (.derived 2 [1]) :=
    offered_atLeast (.atLeast 1) (by decide +kernel) (by cbv)
  have hdone : wideningZero.Advances .standard .widening wideningDone :=
    (Advance.settled (offered_atLeast (.atLeast 0) (by decide +kernel) (by cbv))).advances
  have hcovers (z : ZeroDivision) := covers_of_settle hw hn rfl rfl (.start _ _) rfl
    (hseeded.trans hone) hzero rfl rfl hdone (soundSince_widening z)
  refine ⟨hw, hn, by decide +kernel, by decide +kernel, by decide +kernel, by decide +kernel,
    by decide +kernel, by decide +kernel, by decide +kernel, (hcovers ⟨fun _ => 0, fun _ => 0⟩).1,
    fun z g hg => ?_, fun z n hle => ?_⟩
  · obtain ⟨-, -, hkept, hlater⟩ := hcovers z
    exact hlater g (hkept g hg)
  · obtain ⟨-, hasserted, -, hlater⟩ := hcovers z
    exact hlater _ (hasserted _ ⟨rfl, [⟨"P@1_0", .int⟩], rfl, always n, rfl,
      (holds_bound rfl).mpr hle⟩)

end Run

end HornSaturation
