import HornSaturation.Proofs.Inference.Saturation
import Mathlib.Data.List.Induction
import Mathlib.Data.List.Nodup

/-!
# Level saturation enumerates exactly and fairly

Between the calls of a search its store may change in any way. Still no candidate is issued twice, a
combination of units that are active when a level begins is issued before the next one begins unless
one of its units is retired while it waits, and an exhausted search has issued every combination of
active units. All this rests on one invariant: the candidates that have been issued or are pending
are different, their units were stored before the level began, and they include all combinations of
such units that are active.
-/

namespace HornSaturation

variable {p : NormalizedProblem}

section Combinations

variable {store : Store} {c : Candidate}

/-- A candidate names a clause with a body and active units of the relations that the body uses. -/
def Store.Supports (p : NormalizedProblem) (store : Store) (c : Candidate) : Prop :=
  ∃ clause, p.clauses[c.nucleus]? = some clause ∧ clause.body ≠ [] ∧
    List.Forall₂ (fun (a : Atom) i => ∃ e, store.get? i = some e ∧ e.active = true ∧
      e.unit.head = some a.relation) clause.body c.electrons

theorem Store.Supports.combines (hl : store.Listed) (h : store.Supports p c) :
    store.Combines p c := by
  obtain ⟨clause, hclause, hbody, hids⟩ := h
  exact ⟨clause, hclause, hbody, hids.imp fun (a : Atom) i => (hl a.relation i).mpr⟩

namespace Saturation

/-- Choosing from lists without repetition gives no choice twice. -/
theorem nodup_choices {α : Type} {lists : List (List α)} (h : ∀ l ∈ lists, l.Nodup) :
    (choices lists).Nodup := by
  induction lists with
  | nil => exact List.nodup_singleton _
  | cons l lists ih =>
    obtain ⟨hl, hrest⟩ := List.forall_mem_cons.mp h
    refine List.nodup_flatMap.mpr ⟨fun tail _ => hl.map fun x y hxy => (List.cons.inj hxy).1, ?_⟩
    refine (ih hrest).imp fun {tail tail'} hne xs hxs hxs' => hne ?_
    obtain ⟨x, -, rfl⟩ := List.mem_map.mp hxs
    obtain ⟨y, -, hxy⟩ := List.mem_map.mp hxs'
    exact (List.cons.inj hxy).2.symm

/-- No combination is listed twice among the candidates of a level. -/
theorem nodup_combinations (ho : store.Ordered) (clauses : List NormalizedClause) :
    (clauses.zipIdx.flatMap fun (c, index) => combinations store index c).Nodup := by
  -- Candidates for one clause differ in their units, those for two clauses in the nucleus.
  refine List.nodup_flatMap.mpr ⟨fun (clause, index) _ => ?_, ?_⟩
  · dsimp only [combinations]
    split
    · exact List.nodup_nil
    · refine (nodup_choices ?_).map fun xs ys hxy => (Candidate.mk.inj hxy).2
      exact List.forall_mem_map.mpr fun a _ => (ho a.relation).imp Nat.ne_of_lt
  · have hindex : (clauses.zipIdx.map Prod.snd).Nodup := by
      rw [List.zipIdx_map_snd]
      exact List.nodup_range'
    refine (List.pairwise_map.mp hindex).imp fun {x y} hne d hx hy => hne ?_
    have hnucleus {x : NormalizedClause × Nat} (hx : d ∈ combinations store x.2 x.1) :
        d.nucleus = x.2 := by
      unfold combinations at hx
      split at hx
      · cases hx
      · obtain ⟨ids, -, rfl⟩ := List.mem_map.mp hx
        rfl
    exact (hnucleus hx).symm.trans (hnucleus hy)

end Saturation

end Combinations

/-- A search with the store that it reads and with what it has issued. -/
structure Enumeration where
  units : Store
  search : Saturation := {}
  /-- The candidates that have been issued, oldest first. -/
  issued : List Candidate := []

namespace Enumeration

/-- What can happen between and in the calls of a search. -/
inductive Action where
  | insert (u : UnitClause) (pr : Provenance)
  | retire (id : UnitId)
  | recordRefutation (u : UnitClause) (pr : Provenance)
  /-- The search is asked for the next candidate. -/
  | next

/-- A change of the store, which stays as it is if the change fails. -/
def change (e : Enumeration) : Except Error Store → Enumeration
  | .ok units => { e with units }
  | .error _ => e

/-- What an action makes of a search for the clauses of a problem. -/
def step (p : NormalizedProblem) (e : Enumeration) : Action → Enumeration
  | .insert u pr => e.change ((e.units.insert u pr).map (·.2))
  | .retire id => e.change (e.units.retire id)
  | .recordRefutation u pr => e.change ((e.units.recordRefutation u pr).map (·.2))
  | .next =>
    let (c, search) := Saturation.next p.clauses e.units e.search
    { e with search, issued := e.issued ++ c.toList }

/-- A fresh search with an empty store. -/
def start (p : NormalizedProblem) : Enumeration where
  units := { relations := p.relations }

/-- What actions make of a fresh search. -/
def run (p : NormalizedProblem) (as : List Action) : Enumeration := as.foldl (step p) (start p)

/-- The next call of the search begins a level. -/
def BeginsLevel (p : NormalizedProblem) (e : Enumeration) : Prop :=
  (e.step p .next).search.level = e.search.level + 1

/-- What holds of a search after any actions. -/
structure Exact (p : NormalizedProblem) (e : Enumeration) : Prop where
  listed : e.units.Listed
  ordered : e.units.Ordered
  frontier : e.search.frontier ≤ e.units.size
  nodup : (e.issued ++ e.search.pending).Nodup
  old : ∀ c ∈ e.issued ++ e.search.pending, ∀ i ∈ c.electrons, i < e.search.frontier
  complete : ∀ c, e.units.Combines p c → (∀ i ∈ c.electrons, i < e.search.frontier) →
    c ∈ e.issued ++ e.search.pending

variable {e : Enumeration} {c : Candidate}

/-- Changes of the store keep the invariant if units that are inactive stay so. -/
theorem Exact.change {result : Except Error Store} (h : e.Exact p)
    (hresult : ∀ units, result = .ok units →
      e.units.Evolves units ∧ units.Listed ∧ units.Ordered) : (e.change result).Exact p := by
  cases result with
  | error _ => exact h
  | ok units =>
    obtain ⟨hev, hl, ho⟩ := hresult units rfl
    -- Units below the frontier were stored before, so their combinations are no news.
    refine ⟨hl, ho, h.frontier.trans hev.size_le, h.nodup, h.old, fun c hc hold => ?_⟩
    exact h.complete c (hc.before h.listed hl hev fun i hi =>
      Nat.lt_of_lt_of_le (hold i hi) h.frontier) hold

/-- When a level begins, every combination has been issued before or is among its candidates. -/
theorem Exact.issued_or_refilled (h : e.Exact p)
    (hpassed : ∀ d ∈ e.search.pending, Saturation.isReady e.units d = false)
    (hc : e.units.Combines p c) :
    c ∈ e.issued ∨ c ∈ (e.search.refill p.clauses e.units).pending := by
  by_cases hold : ∀ i ∈ c.electrons, i < e.search.frontier
  -- A combination of old units is not pending any more, as no pending candidate is ready.
  · refine .inl ((List.mem_append.mp (h.complete c hc hold)).resolve_right fun hmem => ?_)
    exact Saturation.not_combines_of_passed h.listed hpassed hmem hc
  · push Not at hold
    refine .inr (List.mem_filter.mpr ⟨Store.mem_combinations.mpr hc, ?_⟩)
    simpa using hold

/-- The candidates of a new level have not been issued before, and their units are stored. -/
theorem Exact.refilled (h : e.Exact p) :
    (e.issued ++ (e.search.refill p.clauses e.units).pending).Nodup ∧
      ∀ c ∈ e.issued ++ (e.search.refill p.clauses e.units).pending,
        ∀ i ∈ c.electrons, i < e.units.size := by
  refine ⟨List.nodup_append'.mpr ⟨h.nodup.of_append_left,
    (Saturation.nodup_combinations h.ordered _).filter _, fun c hc hmem => ?_⟩, fun c hc i hi => ?_⟩
  · obtain ⟨i, hi, hnew⟩ := List.any_eq_true.mp (List.mem_filter.mp hmem).2
    have hlt := h.old c (List.mem_append_left _ hc) i hi
    exact absurd hlt (Nat.not_lt.mpr (of_decide_eq_true hnew))
  · rcases List.mem_append.mp hc with hc | hc
    · exact Nat.lt_of_lt_of_le (h.old c (List.mem_append_left _ hc) i hi) h.frontier
    · exact (Store.mem_combinations.mp (List.mem_filter.mp hc).1).lt_size h.listed hi

/-- Issuing the first candidate of a level, if there is one, moves it from one list to the other. -/
theorem issue_first (issued pending : List Candidate) :
    issued ++ pending.head?.toList ++ pending.tail = issued ++ pending := by
  rw [List.append_assoc]
  cases pending <;> rfl

/-- Calls of the search keep the invariant. -/
theorem Exact.next (h : e.Exact p) : (e.step p .next).Exact p := by
  dsimp only [step]
  obtain ⟨passed, c, rest, hpending, hpassed, -, hnext⟩ | ⟨hpassed, hnext⟩ :=
    Saturation.next_cases p.clauses e.units e.search
  · rw [hnext]
    have hsub : (e.issued ++ [c] ++ rest).Sublist (e.issued ++ e.search.pending) := by
      rw [hpending, List.append_assoc]
      exact (List.Sublist.refl _).append (List.sublist_append_right passed _)
    refine ⟨h.listed, h.ordered, h.frontier, h.nodup.sublist hsub,
      fun d hd => h.old d (hsub.subset hd), fun d hd hold => ?_⟩
    have hmem := h.complete d hd hold
    rw [hpending, List.mem_append, List.mem_append] at hmem
    rcases hmem with hmem | hmem | hmem
    · simp [hmem]
    · exact absurd hd (Saturation.not_combines_of_passed h.listed hpassed hmem)
    · simpa using .inr (List.mem_cons.mp hmem)
  · rw [hnext]
    obtain ⟨hnodup, hold⟩ := h.refilled
    have hsplit := issue_first e.issued (e.search.refill p.clauses e.units).pending
    refine ⟨h.listed, h.ordered, Nat.le_refl _, hsplit ▸ hnodup, hsplit ▸ hold, fun d hd _ => ?_⟩
    exact hsplit ▸ List.mem_append.mpr (h.issued_or_refilled hpassed hd)

/-- Every action keeps the invariant. -/
theorem Exact.step (h : e.Exact p) (a : Action) : (e.step p a).Exact p := by
  have hadds {entry : StoredUnit} {units : Store} (hadds : e.units.Adds entry units) :
      e.units.Evolves units ∧ units.Listed ∧ units.Ordered :=
    ⟨hadds.evolves, hadds.listed h.listed, hadds.ordered h.listed h.ordered⟩
  cases a with
  | insert u pr =>
    refine h.change fun units heq => ?_
    obtain ⟨⟨id, _⟩, hinsert, rfl⟩ := Except.map_eq_ok.mp heq
    exact hadds (Store.adds_of_insert hinsert).1
  | retire id =>
    refine h.change fun units heq => ?_
    have hretires := Store.retires_of_retire h.listed heq
    exact ⟨hretires.evolves, hretires.listed h.listed, hretires.ordered h.ordered⟩
  | recordRefutation u pr =>
    refine h.change fun units heq => ?_
    obtain ⟨⟨id, _⟩, hrecord, rfl⟩ := Except.map_eq_ok.mp heq
    exact hadds (Store.adds_of_recordRefutation hrecord).1
  | next => exact h.next

/-- A fresh search has issued nothing, and no unit is active. -/
theorem exact_start (p : NormalizedProblem) : (start p).Exact p := by
  refine ⟨(Store.sound_empty p).listed, fun _ => .nil, Nat.le_refl _, .nil, nofun,
    fun c ⟨clause, _, hbody, hids⟩ _ => ?_⟩
  obtain ⟨a, ha⟩ := List.exists_mem_of_ne_nil _ hbody
  obtain ⟨i, -, hi⟩ := hids.exists_right ha
  cases hi

theorem run_append (as bs : List Action) :
    run p (as ++ bs) = bs.foldl (Enumeration.step p) (run p as) := List.foldl_append

/-- After any actions the invariant holds. -/
theorem exact_run (p : NormalizedProblem) (as : List Action) : (run p as).Exact p := by
  induction as using List.reverseRecOn with
  | nil => exact exact_start p
  | append_singleton as a ih => exact run_append as [a] ▸ ih.step a

/-- Only a call of the search begins a level. -/
theorem level_step (p : NormalizedProblem) (e : Enumeration) (a : Action) :
    (e.step p a).search.level = e.search.level ∨
      (e.step p a).search.level = e.search.level + 1 := by
  have hchange (result : Except Error Store) : (e.change result).search = e.search := by
    cases result <;> rfl
  cases a with
  | insert u pr => exact .inl (congrArg _ (hchange _))
  | retire id => exact .inl (congrArg _ (hchange _))
  | recordRefutation u pr => exact .inl (congrArg _ (hchange _))
  | next =>
    dsimp only [Enumeration.step]
    obtain ⟨_, _, _, -, -, -, hnext⟩ | ⟨-, hnext⟩ :=
      Saturation.next_cases p.clauses e.units e.search
    · exact .inl (hnext ▸ rfl)
    · exact .inr (hnext ▸ rfl)

/-- When a call begins a level, no pending candidate is ready, and all stored units are old then. -/
theorem BeginsLevel.spec (h : e.BeginsLevel p) :
    (∀ d ∈ e.search.pending, Saturation.isReady e.units d = false) ∧
      (e.step p .next).search.frontier = e.units.size := by
  dsimp only [BeginsLevel, Enumeration.step] at h ⊢
  obtain ⟨_, _, _, -, -, -, hnext⟩ | ⟨hpassed, hnext⟩ :=
    Saturation.next_cases p.clauses e.units e.search
  · rw [hnext] at h
    exact absurd h (Nat.ne_of_lt (Nat.lt_succ_self _))
  · exact ⟨hpassed, hnext ▸ rfl⟩

/-- When a call begins a level, every combination has been issued afterwards, or is pending. -/
theorem Exact.issued_or_pending (h : e.Exact p) (hbegin : e.BeginsLevel p)
    (hc : e.units.Supports p c) :
    c ∈ (e.step p .next).issued ++ (e.step p .next).search.pending := by
  refine h.next.complete c (hc.combines h.listed) fun i hi => ?_
  obtain ⟨_, -, -, hids⟩ := hc
  obtain ⟨a, -, e', he', -⟩ := hids.flip.exists_right hi
  exact Nat.lt_of_lt_of_eq (Store.lt_size_of_get? he') hbegin.spec.2.symm

/-- As long as no level begins, a pending candidate stays so, or is issued, or one of its units is
inactive. -/
private theorem issued_or_waiting_step {a : Action}
    (hlevel : (e.step p a).search.level = e.search.level)
    (hc : c ∈ e.issued ++ e.search.pending) :
    c ∈ (e.step p a).issued ++ (e.step p a).search.pending ∨
      c ∈ e.search.pending ∧ Saturation.isReady e.units c = false := by
  have hchange (result : Except Error Store) :
      c ∈ (e.change result).issued ++ (e.change result).search.pending := by
    cases result <;> exact hc
  cases a with
  | insert u pr => exact .inl (hchange _)
  | retire id => exact .inl (hchange _)
  | recordRefutation u pr => exact .inl (hchange _)
  | next =>
    dsimp only [Enumeration.step] at hlevel ⊢
    obtain ⟨passed, c', rest, hpending, hpassed, -, hnext⟩ | ⟨-, hnext⟩ :=
      Saturation.next_cases p.clauses e.units e.search
    · rw [hnext]
      rw [hpending, List.mem_append, List.mem_append] at hc
      rcases hc with hc | hc | hc
      · simp [hc]
      · refine .inr ⟨?_, hpassed c hc⟩
        rw [hpending]
        exact List.mem_append_left _ hc
      · simpa using .inl (.inr (List.mem_cons.mp hc))
    · rw [hnext] at hlevel
      simp [Saturation.refill] at hlevel

/-- Levels are counted upwards. -/
theorem level_le (p : NormalizedProblem) (e : Enumeration) (as : List Action) :
    e.search.level ≤ (as.foldl (step p) e).search.level := by
  induction as generalizing e with
  | nil => exact Nat.le_refl _
  | cons a as ih =>
    refine Nat.le_trans ?_ (ih (e.step p a))
    rcases level_step p e a with h | h <;> omega

/-- As long as no level begins, a candidate that is pending is issued in the end, unless one of its
units becomes inactive while it is pending. -/
theorem issued_or_waiting {as : List Action}
    (hlevel : (as.foldl (step p) e).search.level = e.search.level)
    (hc : c ∈ e.issued ++ e.search.pending) :
    c ∈ (as.foldl (step p) e).issued ++ (as.foldl (step p) e).search.pending ∨
      ∃ bs, bs <+: as ∧ c ∈ (bs.foldl (step p) e).search.pending ∧
        Saturation.isReady (bs.foldl (step p) e).units c = false := by
  induction as generalizing e with
  | nil => exact .inl hc
  | cons a as ih =>
    have hfirst : (e.step p a).search.level = e.search.level := by
      have hle := level_le p (e.step p a) as
      rw [List.foldl_cons] at hlevel
      rcases level_step p e a with h | h <;> omega
    rcases issued_or_waiting_step hfirst hc with hc | hwaiting
    · refine (ih (hlevel.trans hfirst.symm) hc).imp_right ?_
      rintro ⟨bs, hbs, hwaiting⟩
      exact ⟨a :: bs, List.cons_prefix_cons.mpr ⟨rfl, hbs⟩, hwaiting⟩
    · exact .inr ⟨[], List.nil_prefix, hwaiting⟩

end Enumeration

/-- Whatever actions there have been, no candidate has been issued twice. A combination of units
that were active when a level began has been issued by the time when the next level begins, unless
one of its units was inactive while it was pending. If a call of the search now gives none, all
combinations of active units have been issued. -/
theorem Enumeration.exact_and_fair (p : NormalizedProblem) (as : List Action) :
    (run p as).issued.Nodup ∧
    (∀ bs cs, as = bs ++ .next :: cs → (run p bs).BeginsLevel p → (run p as).BeginsLevel p →
      (run p as).search.level = (run p bs).search.level + 1 →
      ∀ c, (run p bs).units.Supports p c → c ∈ (run p as).issued ∨
        ∃ ds, ds <+: cs ∧ c ∈ (run p (bs ++ .next :: ds)).search.pending ∧
          ∃ i ∈ c.electrons, (run p (bs ++ .next :: ds)).units.isActive i = false) ∧
    ((Saturation.next p.clauses (run p as).units (run p as).search).1 = none →
      ∀ c, (run p as).units.Supports p c → c ∈ (run p as).issued) := by
  have hexact := exact_run p as
  refine ⟨hexact.nodup.of_append_left, ?_, fun hnone c hc => ?_⟩
  · rintro bs cs rfl hbegin hnext hlevel c hc
    have hbs := exact_run p bs
    have hrun (ds : List Action) :
        run p (bs ++ .next :: ds) = ds.foldl (step p) ((run p bs).step p .next) := by
      rw [run_append, List.foldl_cons]
    have hpending := hbs.issued_or_pending hbegin hc
    have hwaiting {ds : List Action}
        (hready : Saturation.isReady (run p (bs ++ .next :: ds)).units c = false) :
        ∃ i ∈ c.electrons, (run p (bs ++ .next :: ds)).units.isActive i = false := by
      simpa [Saturation.isReady] using hready
    rw [hrun, ← hbegin] at hlevel
    rcases issued_or_waiting hlevel hpending with hmem | ⟨ds, hds, hmem, hready⟩
    · rw [← hrun] at hmem
      refine (List.mem_append.mp hmem).imp_right fun hmem => ⟨cs, List.prefix_rfl, hmem, ?_⟩
      exact hwaiting (hnext.spec.1 c hmem)
    · rw [← hrun] at hmem hready
      exact .inr ⟨ds, hds, hmem, hwaiting hready⟩
  · obtain ⟨_, _, _, -, -, -, hnext⟩ | ⟨hpassed, hnext⟩ :=
      Saturation.next_cases p.clauses (run p as).units (run p as).search
    · rw [hnext] at hnone
      cases hnone
    · rw [hnext] at hnone
      refine (hexact.issued_or_refilled hpassed (hc.combines hexact.listed)).resolve_right ?_
      rw [List.head?_eq_none_iff.mp hnone]
      exact List.not_mem_nil

/-- Two queries that use a relation without arguments once and twice. -/
def NormalizedProblem.onceAndTwice : NormalizedProblem where
  relations := [⟨0, "P", []⟩]
  clauses := [⟨0, [⟨0, 0⟩], none, .bool true⟩, ⟨1, [⟨0, 0⟩, ⟨0, 1⟩], none, .bool true⟩]

theorem Enumeration.issued_pair : Candidate.mk 1 [0, 0] ∈ (run .onceAndTwice
    [.insert ⟨some 0, .positive, 0, .bool true⟩ (.fact 0), .next, .next]).issued := by
  have hsupports : (run .onceAndTwice
      [.insert ⟨some 0, .positive, 0, .bool true⟩ (.fact 0), .next, .next]).units.Supports
        .onceAndTwice ⟨1, [0, 0]⟩ :=
    ⟨_, rfl, nofun, .cons ⟨_, rfl, rfl, rfl⟩ (.cons ⟨_, rfl, rfl, rfl⟩ .nil)⟩
  exact (exact_and_fair _ _).2.2 rfl _ hsupports

end HornSaturation
