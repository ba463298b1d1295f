import HornSaturation.Proofs.Data.Ensures
import HornSaturation.Proofs.Inference.Redundancy
import HornSaturation.Run.Step

/-!
# Steps keep the store sound

Whatever a strategy asks for, a step of a run keeps the store sound, also when it fails. As far as
the refutations of the oracle are right, a step loses none of the ground atoms that active units
assert, and a unit that is settled without contradiction has all that it asserts covered.
-/

namespace HornSaturation

variable {σ : Type} {p : NormalizedProblem} {r r' r'' : Run σ} {m : Method σ} {u : UnitClause}
  {pr : Provenance}

namespace Run

/-- What holds after some steps. -/
structure Steps (p : NormalizedProblem) (r r' : Run σ) : Prop where
  sound : r'.units.Sound p
  evolves : r.units.Evolves r'.units
  later : r.workspace.oracle.Later r'.workspace.oracle

/-- What holds after some steps with subsumption by implication, if the refutations on the way are
right. -/
def Trusts (m : Method σ) (r r' : Run σ) (holds : ZeroDivision → Prop) : Prop :=
  m.subsumption = .byImplication →
    ∀ z n, r.workspace.oracle.PlainSince n → r'.workspace.oracle.SoundSince z n → holds z

/-- No ground atom that active units assert is lost, as far as refutations are right. -/
def Keeps (m : Method σ) (r r' : Run σ) : Prop :=
  r.Trusts m r' fun z => ∀ g, r.units.Covers z g → r'.units.Covers z g

theorem Steps.refl (h : r.units.Sound p) : r.Steps p r := ⟨h, .refl _, .refl _⟩

theorem Steps.trans (h : r.Steps p r') (h' : r'.Steps p r'') : r.Steps p r'' :=
  ⟨h'.sound, h.evolves.trans h'.evolves, h.later.trans h'.later⟩

theorem Trusts.right {holds : ZeroDivision → Prop} (h : r'.Trusts m r'' holds)
    (hl : r.workspace.oracle.Later r'.workspace.oracle) : r.Trusts m r'' holds :=
  fun hm z n ho hs => h hm z n (ho.later hl) hs

theorem Trusts.left {holds : ZeroDivision → Prop} (h : r.Trusts m r' holds)
    (hl : r'.workspace.oracle.Later r''.workspace.oracle) : r.Trusts m r'' holds :=
  fun hm z n ho hs => h hm z n ho (hs.of_later hl)

theorem Keeps.trans (h : r.Keeps m r') (h' : r'.Keeps m r'') (hs : r.Steps p r')
    (hs' : r'.Steps p r'') : r.Keeps m r'' :=
  fun hm z n ho hn g hg => h'.right hs.later hm z n ho hn g (h.left hs'.later hm z n ho hn g hg)

end Run

namespace Running

/-- Retiring units keeps the store sound and touches no other unit. It only fails for a unit that is
not stored. -/
theorem ensures_retireAll (ids : List UnitId) (r : Run σ) (hs : r.units.Sound p) :
    Ensures (retireAll ids) r
      (fun _ r' => ∃ units, r' = { r with units } ∧ units.Sound p ∧ r.units.Evolves units ∧
        ∀ i, i ∉ ids → units.get? i = r.units.get? i)
      fun _ r' => r.Steps p r' ∧ ∃ i ∈ ids, r.units.get? i = none := by
  induction ids generalizing r with
  | nil => exact ⟨r.units, rfl, hs, .refl _, fun _ _ => rfl⟩
  | cons id ids ih =>
    unfold retireAll
    simp only [List.forM_eq_forM, List.forM_cons, ensures_bind, ensures_changeStore]
    refine ⟨fun a units heq => ?_, fun e heq => ⟨.refl hs, id, List.mem_cons_self, ?_⟩⟩
    · obtain ⟨store, hstore, heq⟩ := Except.bind_eq_ok.mp heq
      obtain ⟨-, rfl⟩ := Prod.mk.inj (Except.ok.inj heq)
      obtain ⟨hsound, hev, hsame⟩ := Store.retire_spec hs hstore
      refine (ih { r with units := store } hsound).mono ?_ ?_
      · rintro - r' ⟨units, rfl, hsound', hev', hsame'⟩
        refine ⟨units, rfl, hsound', hev.trans hev', fun i hi => ?_⟩
        rw [List.mem_cons, not_or] at hi
        exact (hsame' i hi.2).trans (hsame i hi.1)
      · rintro - r' ⟨hsteps, i, hi, hnone⟩
        refine ⟨⟨hsteps.sound, hev.trans hsteps.evolves, hsteps.later⟩, i,
          List.mem_cons_of_mem _ hi, hev.get?_eq_none hnone⟩
    · cases hstored : r.units.get? id with
      | none => rfl
      | some entry =>
        obtain ⟨store, hstore⟩ := Store.exists_retire hstored
        rw [hstore] at heq
        cases heq

/-- Settling a unit keeps the store sound, whatever the search for redundant units does. -/
theorem ensures_settle_sound (hs : r.units.Sound p) (hu : u.WellFormed p.relations)
    (hj : r.units.Justifies p r.units.size u pr) :
    Ensures (settle m u pr) r (fun _ r' => r'.units.Sound p) fun _ r' => r'.units.Sound p := by
  unfold settle
  simp only [ensures_bind, ensures_get, ensures_ask]
  rcases classify m.subsumption r.units u r.workspace.oracle with ⟨cls, o⟩
  cases cls with
  | contradiction =>
    simp only [ensures_bind, ensures_pure, ensures_changeStore]
    exact ⟨fun root units heq => (Store.recordRefutation_spec hs hu hj heq).1, fun _ _ => hs⟩
  | infeasible => exact hs
  | forwardSubsumed => exact hs
  | new removed =>
    simp only [ensures_bind]
    refine (ensures_retireAll removed { r with
      workspace := { r.workspace with oracle := o } } hs).mono ?_ fun _ _ h => h.1.sound
    rintro - r' ⟨units, rfl, hsound, hev, -⟩
    have hinsert (id : UnitId) (store : Store) (heq : units.insert u pr = .ok (id, store)) :
        store.Sound p :=
      (Store.insert_spec hsound hu (hev.justifies (hj.mono hev.size_le)) heq).1
    split <;>
    · simp only [ensures_bind, ensures_changeStore, ensures_report, ensures_count]
      refine ⟨fun id store heq => ?_, fun _ _ => hsound⟩
      split <;> exact hinsert id store heq

/-- What settling a unit leaves behind. -/
structure Settled (m : Method σ) (p : NormalizedProblem) (u : UnitClause) (r : Run σ)
    (result : Option UnitId) (r' : Run σ) : Prop where
  steps : r.Steps p r'
  search : r'.search = r.search
  recorded : ∀ root, result = some root →
    u.isRefutation = true ∧ ∃ e, r'.units.get? root = some e ∧ e.unit = u
  answered : ∀ root, result = some root →
    ∃ answer, r'.workspace.oracle.HasAnswered [u.constraint] answer ∧ answer ≠ .unsat
  keeps : r.Keeps m r'
  covers : result = none →
    r.Trusts m r' fun z => ∀ g, u.Asserts z p.relations g → r'.units.Covers z g

/-- A unit that is dropped leaves the store as it is. -/
private theorem settled_of_dropped (hs : r.units.Sound p) (hunits : r'.units = r.units)
    (hsearch : r'.search = r.search) (hl : r.workspace.oracle.Later r'.workspace.oracle)
    (hcov : r.Trusts m r' fun z => ∀ g, u.Asserts z p.relations g → r.units.Covers z g) :
    Settled m p u r none r' := by
  refine ⟨⟨hunits ▸ hs, hunits ▸ .refl _, hl⟩, hsearch, by simp, by simp, ?_,
    fun _ => ?_⟩
  · exact fun _ z n _ _ g hg => hunits ▸ hg
  · exact fun hm z n ho hn g hg => hunits ▸ hcov hm z n ho hn g hg

/-- A unit that is stored in place of others that it covers loses nothing. -/
private theorem covers_of_replaced {z : ZeroDivision} {store units store' : Store}
    {removed : List UnitId} (hs : store.Sound p) (hev : store.Evolves units)
    (hsame : ∀ i, i ∉ removed → units.get? i = store.get? i)
    (hright : (Classification.new removed).Right z p store u)
    (hcov : ∀ g, units.Covers z g ∨ u.Asserts z p.relations g → store'.Covers z g)
    {g : GroundAtom} (hg : store.Covers z g) : store'.Covers z g := by
  obtain ⟨i, e, he, hactive, hasserts⟩ := hg
  refine hcov g ?_
  by_cases hi : i ∈ removed
  · exact .inr (hright i hi e he g (hs.relations ▸ hasserts))
  · exact .inl ⟨i, e, by rw [hsame i hi, he], hactive, hev.relations ▸ hasserts⟩

/-- Storing a unit after others have been retired. -/
private theorem ensures_store {removed : List UnitId} (hu : u.WellFormed p.relations)
    (hs : r.units.Sound p) (hsound : r'.units.Sound p) (hev : r.units.Evolves r'.units)
    (hsame : ∀ i, i ∉ removed → r'.units.get? i = r.units.get? i)
    (hl : r.workspace.oracle.Later r'.workspace.oracle) (hsearch : r'.search = r.search)
    (hj : r.units.Justifies p r.units.size u pr)
    (hright : r.Trusts m r' fun z => (Classification.new removed).Right z p r.units u) :
    Ensures (do
      let id ← changeStore (·.insert u pr)
      count fun s => { s with inserted := s.inserted + 1 }
      if m.subsumption.reported then report (.reported id)
      report (.inserted id u)
      return none) r' (Settled m p u r) fun _ r'' => r.Steps p r'' := by
  simp only [ensures_bind, ensures_changeStore]
  refine ⟨fun id units heq => ?_, fun e _ => ⟨hsound, hev, hl⟩⟩
  obtain ⟨hsound', hev', hcov⟩ :=
    Store.insert_spec hsound hu (hev.justifies (hj.mono hev.size_le)) heq
  have hsettled {r'' : Run σ} (hunits : r''.units = units) (hsearch' : r''.search = r'.search)
      (ho : r''.workspace = r'.workspace) : Settled m p u r none r'' := by
    have hl' : r.workspace.oracle.Later r''.workspace.oracle := ho ▸ hl
    refine ⟨⟨hunits ▸ hsound', hunits ▸ hev.trans hev', hl'⟩, hsearch'.trans hsearch, by simp,
      by simp, fun hm z n hplain hn g hg => ?_, fun _ _ z _ _ _ g hg => hunits ▸ hcov z g (.inr hg)⟩
    rw [ho] at hn
    exact hunits ▸ covers_of_replaced hs hev hsame (hright hm z n hplain hn) (hcov z) hg
  split
  · exact hsettled rfl rfl rfl
  · exact hsettled rfl rfl rfl

/-- Settling a unit. -/
theorem ensures_settle (hasks : m.subsumption.OnlyAsks) (hs : r.units.Sound p)
    (hu : u.WellFormed p.relations) (hj : r.units.Justifies p r.units.size u pr) :
    Ensures (settle m u pr) r (Settled m p u r) fun _ r' => r.Steps p r' := by
  unfold settle
  simp only [ensures_bind, ensures_get, ensures_ask]
  rcases hcls : classify m.subsumption r.units u r.workspace.oracle with ⟨cls, o⟩
  obtain ⟨hl, hcontra, hright⟩ := classify_spec hs hu hasks hcls
  cases cls with
  | contradiction =>
    simp only [ensures_bind, ensures_pure, ensures_changeStore]
    refine ⟨fun root units heq => ?_, fun e _ => ⟨hs, .refl _, hl⟩⟩
    obtain ⟨hsound, hev, hget, hcov⟩ := Store.recordRefutation_spec hs hu hj heq
    refine ⟨⟨hsound, hev, hl⟩, rfl, fun root' hroot => ?_,
      fun _ _ => hasAnswered_of_classify hcls, fun _ z _ _ _ => hcov z, by simp⟩
    obtain rfl := Option.some.inj hroot
    exact ⟨hcontra rfl, _, hget, rfl⟩
  | infeasible =>
    simp only [ensures_bind, ensures_pure, ensures_count, ensures_report]
    refine settled_of_dropped hs rfl rfl hl fun hm z n ho hn g hg => ?_
    exact absurd hg (not_asserts_of_not_holds (hright hm z n ho hn) g)
  | forwardSubsumed =>
    simp only [ensures_bind, ensures_pure, ensures_count, ensures_report]
    exact settled_of_dropped hs rfl rfl hl hright
  | new removed =>
    simp only [ensures_bind]
    refine (ensures_retireAll removed { r with
      workspace := { r.workspace with oracle := o } } hs).mono ?_ ?_
    · rintro - r₁ ⟨units, rfl, hsound, hev, hsame⟩
      split
      · exact ensures_store hu hs hsound hev hsame hl rfl hj hright
      · exact ensures_store hu hs hsound hev hsame hl rfl hj hright
    · rintro e r' ⟨hsteps, -⟩
      exact ⟨hsteps.sound, hsteps.evolves, hl.trans hsteps.later⟩

end Running

end HornSaturation
