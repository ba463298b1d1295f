import HornSaturation.Oracle.Basic
import HornSaturation.Proofs.Clause.Stated
import HornSaturation.Proofs.Term.Folding

/-!
# Models that the oracle finds

A model that a search finds gives values of the right sorts to names of the formula, and makes the
formula true in 64-bit arithmetic. Where every name has one sort it extends to a valuation, and what
is true in 64-bit arithmetic stays true over the unbounded integers. So a model is a model of all
that was asserted. A formula of which each name has one sort is true whatever the others are.

What is searched has been folded and may have lost variables, which get default values when a
formula is evaluated. Under the completed model an assertion is true, or it is not defined in 64-bit
arithmetic; that it is false is ruled out for whatever has been asserted.
-/

namespace HornSaturation

section Search

variable {formula : Term} {integers : List Int} {vs : List Var} {m m' : Model}

private theorem firstModel_eq_model {α : Type} {search : α → SearchResult} {sofar : SearchResult}
    {as : List α} (hsofar : ∀ m, sofar ≠ .model m) (h : firstModel search sofar as = .model m) :
    ∃ a ∈ as, search a = .model m := by
  induction as generalizing sofar with
  | nil => exact absurd h (hsofar m)
  | cons a as ih =>
    unfold firstModel at h
    split at h
    · next m' ha => exact ⟨a, List.mem_cons_self, ha.trans h⟩
    · obtain ⟨b, hb, hsearch⟩ := ih hsofar h
      exact ⟨b, List.mem_cons_of_mem a hb, hsearch⟩
    · obtain ⟨b, hb, hsearch⟩ := ih (by simp) h
      exact ⟨b, List.mem_cons_of_mem a hb, hsearch⟩

private theorem testModel_eq_model (h : testModel formula m = .model m') :
    m' = m ∧ formula.eval (fun name => m.lookup name) = some (.bool true) := by
  unfold testModel at h
  split at h
  · next heval => exact ⟨(SearchResult.model.inj h).symm, heval⟩
  · cases h
  · cases h

/-- A model that is found gives values of their sorts to the variables tried, beside the values
given before, and makes the formula true. -/
theorem searchFrom_eq_model (h : searchFrom formula integers vs m = .model m') :
    (∀ p ∈ m', p ∈ m ∨ ∃ v ∈ vs, v.name = p.1 ∧ p.2.sort = v.sort) ∧
      formula.eval (fun name => m'.lookup name) = some (.bool true) := by
  induction vs generalizing m with
  | nil =>
    obtain ⟨rfl, heval⟩ := testModel_eq_model h
    exact ⟨fun p hp => .inl hp, heval⟩
  | cons v vs ih =>
    have next {x : Value} (hx : x.sort = v.sort)
        (h : searchFrom formula integers vs ((v.name, x) :: m) = .model m') :
        (∀ p ∈ m', p ∈ m ∨ ∃ w ∈ v :: vs, w.name = p.1 ∧ p.2.sort = w.sort) ∧
          formula.eval (fun name => m'.lookup name) = some (.bool true) := by
      obtain ⟨hentries, heval⟩ := ih h
      refine ⟨fun p hp => ?_, heval⟩
      rcases hentries p hp with hp | ⟨w, hw, hname⟩
      · rcases List.mem_cons.mp hp with rfl | hp
        · exact .inr ⟨v, List.mem_cons_self, rfl, hx⟩
        · exact .inl hp
      · exact .inr ⟨w, List.mem_cons_of_mem v hw, hname⟩
    unfold searchFrom at h
    split at h
    · next hs =>
      obtain ⟨b, -, hb⟩ := firstModel_eq_model (by simp) h
      exact next (x := .bool b) hs.symm hb
    · next hs =>
      obtain ⟨n, -, hn⟩ := firstModel_eq_model (by simp) h
      exact next (x := .int n) hs.symm hn

theorem mem_of_mem_eraseDupsBy {α : Type} {r : α → α → Bool} {a : α} :
    ∀ {as : List α}, a ∈ as.eraseDupsBy r → a ∈ as
  | [], h => h
  | b :: as, h => by
    rw [List.eraseDupsBy_cons] at h
    rcases List.mem_cons.mp h with rfl | h
    · exact List.mem_cons_self
    · exact List.mem_cons_of_mem b (List.mem_filter.mp (mem_of_mem_eraseDupsBy h)).1
termination_by as => as.length
decreasing_by exact Nat.lt_succ_of_le (List.length_filter_le _ as)

theorem mem_of_mem_searchOrder {v : Var} (h : v ∈ searchOrder vs) : v ∈ vs :=
  List.mem_reverse.mp (mem_of_mem_eraseDupsBy h)

theorem searchWindow_eq_model {w : Window} (h : searchWindow formula vs w = .model m) :
    (∀ p ∈ m, ∃ v ∈ searchOrder vs, v.name = p.1 ∧ p.2.sort = v.sort) ∧
      formula.eval (fun name => m.lookup name) = some (.bool true) := by
  obtain ⟨hentries, heval⟩ := searchFrom_eq_model h
  exact ⟨fun p hp => (hentries p hp).resolve_left List.not_mem_nil, heval⟩

end Search

namespace Oracle

variable {o : Oracle} {m : Model}

/-- What is decided depends on the window and the cap only. -/
theorem decide_congr {o' : Oracle} (hwindow : o'.window = o.window) (hcap : o'.cap = o.cap)
    (t : Term) : o'.decide t = o.decide t := by
  unfold decide search
  rw [hwindow, hcap]

theorem search_eq_model {formula : Term} {vs : List Var} {w : Window}
    (h : o.search formula vs w = .model m) : searchWindow formula vs w = .model m := by
  unfold search at h
  split at h
  · exact h
  · cases h

/-- A model that decides a formula gives values of their sorts to the variables of the formula that
are tried, whichever window it comes from, and makes the formula true. -/
theorem decide_eq_model {formula : Term} (h : o.decide formula = .model m) :
    (∀ p ∈ m, ∃ v ∈ searchOrder formula.vars, v.name = p.1 ∧ p.2.sort = v.sort) ∧
      formula.eval (fun name => m.lookup name) = some (.bool true) := by
  unfold decide at h
  dsimp only at h
  split at h
  · split at h
    · split at h
      · exact searchWindow_eq_model (search_eq_model h)
      · cases h
    · cases h
  · exact searchWindow_eq_model (search_eq_model h)

/-- The valuation that a model amounts to, where names that it does not give a value of the sort of
a variable to are given the default value. -/
def valuation (o : Oracle) : Valuation where
  value v := match o.model.lookup v.name with
    | some x => if x.sort = v.sort then x else o.defaultValue v.sort
    | none => o.defaultValue v.sort
  sorted v := by
    have hdefault : (o.defaultValue v.sort).sort = v.sort := by
      cases v.sort <;> rfl
    split
    · split
      · next h => exact h
      · exact hdefault
    · exact hdefault

theorem valuation_of_lookup {v : Var} {x : Value} (h : o.model.lookup v.name = some x)
    (hs : x.sort = v.sort) : o.valuation.value v = x := by
  simp [valuation, h, hs]

/-- The value that a model gives to the name of a variable, of whatever sort. -/
def reading (o : Oracle) (v : Var) : Value :=
  (o.model.lookup v.name).getD (o.defaultValue v.sort)

/-- The model gives the name of a variable no value of another sort. -/
def Fits (o : Oracle) (v : Var) : Prop := ∀ x, o.model.lookup v.name = some x → x.sort = v.sort

theorem reading_eq {v : Var} (h : o.Fits v) : o.reading v = o.valuation.value v := by
  unfold reading
  cases hlookup : o.model.lookup v.name with
  | none => simp [valuation, hlookup]
  | some x => exact (valuation_of_lookup hlookup (h x hlookup)).symm

/-- A value that the model gives to a name has the sort of a variable that is tried. -/
theorem exists_mem_searchOrder {formula : Term} (h : o.decide formula = .model o.model)
    {name : String} {x : Value} (hx : o.model.lookup name = some x) :
    ∃ v ∈ searchOrder formula.vars, v.name = name ∧ x.sort = v.sort := by
  obtain ⟨hm, -⟩ := decide_eq_model h
  obtain ⟨l₁, l₂, hmodel, -⟩ := List.lookup_eq_some_iff.mp hx
  exact hm (name, x) (by simp [hmodel])

variable {ts : List Term}

theorem fits_of_alone (h : o.decide (Term.conjoin ts).foldConstants = .model o.model) {v : Var}
    (halone : v.Alone (ts.flatMap Term.occurrences)) : o.Fits v := by
  intro x hx
  obtain ⟨w, hw, hname, hs⟩ := exists_mem_searchOrder h hx
  obtain ⟨t, ht, hwt⟩ := Term.mem_occurrences_conjoin
    (Term.mem_occurrences_foldConstants (Term.mem_vars.mp (mem_of_mem_searchOrder hw)))
  rwa [halone w (List.mem_flatMap.mpr ⟨t, ht, hwt⟩) hname.symm]

/-- A model of the conjunction of formulas makes it true with the values that it gives to names, of
whatever sorts. -/
theorem trueUnder_reading (h : o.decide (Term.conjoin ts).foldConstants = .model o.model)
    (z : ZeroDivision) : Term.TrueUnder z.arithmetic (fun v => some (o.reading v))
      (Term.conjoin ts).foldConstants := by
  obtain ⟨-, heval⟩ := decide_eq_model h
  refine Term.evalWith_kept z.exactArithmetic.checked (fun v _ x hx => ?_) _ heval
  have hlookup : o.model.lookup v.name = some x := hx
  rw [reading, hlookup, Option.getD_some]

/-- A model of the conjunction of formulas makes every question among them true in which it gives
the names values of the right sorts. -/
theorem holds_of_fits (h : o.decide (Term.conjoin ts).foldConstants = .model o.model)
    (z : ZeroDivision) {t : Term} (ht : t ∈ ts)
    (hfits : ∀ c ∈ t.conjuncts, ∀ v ∈ c.foldConstants.occurrences, o.Fits v) (hq : t.IsQuestion) :
    t.Holds z o.valuation :=
  Term.holds_of_foldConstants_conjoin (trueUnder_reading h z) ht
    (fun c hc v hv => congrArg some (reading_eq (hfits c hc v hv))) hq

/-- A model of the conjunction of formulas makes every question among them true whose names have one
sort. -/
theorem holds_of_decide (h : o.decide (Term.conjoin ts).foldConstants = .model o.model)
    (z : ZeroDivision) {t : Term} (ht : t ∈ ts)
    (halone : ∀ v ∈ t.occurrences, v.Alone (ts.flatMap Term.occurrences)) (hq : t.IsQuestion) :
    t.Holds z o.valuation := by
  refine holds_of_fits h z ht (fun c hc v hv => fits_of_alone h (halone v ?_)) hq
  exact Term.mem_occurrences_of_conjunct hc (Term.mem_occurrences_foldConstants hv)

theorem completed_of_lookup {t : Term} {name : String} {x : Value}
    (h : o.model.lookup name = some x) : o.completed t name = some x := by
  rw [completed, h]

/-- Every variable has a value under the last model, whatever that is. -/
theorem exists_eval_var (o : Oracle) (v : Var) : ∃ x, o.eval (.var v) = some x := by
  have hfind : (Term.var v).vars.find? (·.name = v.name) = some v := by
    simp [Term.vars, List.eraseDups_cons]
  cases hlookup : o.model.lookup v.name with
  | some x => exact ⟨x, completed_of_lookup hlookup⟩
  | none =>
    have hdefault : o.completed (.var v) v.name = some (o.defaultValue v.sort) := by
      rw [completed, hlookup, hfind]
      rfl
    exact ⟨_, hdefault⟩

/-- The completed model gives a variable of a term the value that the valuation gives it, if the
name has one sort in the term and the model has no value of another. -/
theorem completed_eq {t : Term} {v : Var} (hv : v ∈ t.occurrences) (ht : v.Alone t.occurrences)
    (hfits : o.Fits v) : o.completed t v.name = some (o.valuation.value v) := by
  cases hlookup : o.model.lookup v.name with
  | some x =>
    rw [completed_of_lookup hlookup, valuation_of_lookup hlookup (hfits x hlookup)]
  | none =>
    have hfind : t.vars.find? (·.name = v.name) = some v := by
      cases hf : t.vars.find? (·.name = v.name) with
      | none => exact absurd hv (by simpa using List.find?_eq_none.mp hf v)
      | some u =>
        have hname : u.name = v.name := by simpa using List.find?_some hf
        rw [ht u (Term.mem_vars.mp (List.mem_of_find?_eq_some hf)) hname.symm]
    simp [completed, hlookup, hfind, valuation]

/-- Values are read off the model as the valuation has them. -/
theorem eval_var {v : Var} (h : o.Fits v) : o.eval (.var v) = some (o.valuation.value v) :=
  completed_eq (by simp) (by simp [Var.Alone]) h

/-- What has been asserted is true under a completed model, or it has no value there. -/
theorem eval_of_decide (h : o.decide (Term.conjoin ts).foldConstants = .model o.model) {t : Term}
    (ht : t ∈ ts) : o.eval t = some (.bool true) ∨ o.eval t = none := by
  obtain ⟨-, heval⟩ := decide_eq_model h
  have hgoal : Term.TrueUnder (arithmetic some) (fun v => o.completed t v.name)
      (Term.conjoin ts).foldConstants :=
    Term.evalWith_kept kept_checkedArithmetic (fun _ _ _ => completed_of_lookup) _ heval
  cases hx : o.eval t with
  | none => right; rfl
  | some x =>
    left
    have hexact := Term.kept_exactEval (o.completed t) t x hx
    rw [Term.eq_true_of_foldConstants_conjoin exactArithmetic_integers hgoal ht hexact]

section Sat

variable {o' : Oracle}

theorem decide_of_sat (h : o.check = (.sat, o')) : o'.decide o.goal = .model o'.model := by
  unfold check at h
  dsimp only at h
  split at h
  · next m hm =>
    obtain ⟨-, rfl⟩ := Prod.mk.inj h
    exact (decide_congr rfl rfl o.goal).trans hm
  · cases h
  · cases h

/-- The model that is kept with the answer that there is one, completed with default values, makes
every well-sorted assertion true over the unbounded integers in which each name has one sort. No
assertion whatever has another value than `true` under it. -/
theorem completed_holds_of_sat (h : o.check = (.sat, o')) :
    (∃ ρ : Valuation, ∀ t ∈ o.assertions, t.hasSort .bool = true →
      (∀ v ∈ t.occurrences, v.Alone (o.assertions.flatMap Term.occurrences)) →
        (∀ v ∈ t.occurrences, o'.completed t v.name = some (ρ.value v)) ∧ ∀ z, t.Holds z ρ) ∧
      ∀ t ∈ o.assertions, o'.eval t = some (.bool true) ∨ o'.eval t = none := by
  have hdecide := decide_of_sat h
  constructor
  · use o'.valuation
    intro t ht hsort halone
    constructor
    · intro v hv
      refine completed_eq hv (fun w hw => ?_) (fits_of_alone hdecide (halone v hv))
      exact halone v hv w (List.mem_flatMap.mpr ⟨t, ht, hw⟩)
    · intro z
      exact holds_of_decide hdecide z ht halone (.inl hsort)
  · intro t ht
    exact eval_of_decide hdecide ht

/-- An oracle with assertions one of which has a model only beyond the window, and two of which lose
their variables when they are folded. -/
def lostVariables : Oracle where
  window := ⟨1, 2⟩
  cap := defaultCap
  assertions :=
    let x : Term := .var ⟨"x", .int⟩
    let y : Term := .var ⟨"y", .int⟩
    let byZero : Term := .op .div [y, .int 0]
    [.equation (.op .mul [x, x]) (.int 16), .implication (.bool false) (.op .lt [y, .int 0]),
      .equation byZero byZero]

theorem completed_holds_lostVariables :
    lostVariables.check.1 = .sat ∧
      (∃ ρ : Valuation, ρ.value ⟨"x", .int⟩ = .int 4 ∧ ρ.value ⟨"y", .int⟩ = .int 1 ∧
        ∀ t ∈ lostVariables.assertions, ∀ z, t.Holds z ρ) ∧
      ∀ t ∈ lostVariables.assertions, lostVariables.check.2.eval t = some (.bool true) ∨
        lostVariables.check.2.eval t = none := by
  have hsat : lostVariables.check.1 = .sat := by decide +kernel
  have hone : OneSort (lostVariables.assertions.flatMap Term.occurrences) := by decide +kernel
  have hsorts : ∀ t ∈ lostVariables.assertions, t.hasSort .bool = true := by decide +kernel
  obtain ⟨⟨ρ, hρ⟩, heval⟩ := completed_holds_of_sat (Prod.ext hsat rfl)
  have hmodel (t : Term) (ht : t ∈ lostVariables.assertions) :=
    hρ t ht (hsorts t ht) fun v hv => hone v (List.mem_flatMap.mpr ⟨t, ht, hv⟩)
  refine ⟨hsat, ⟨ρ, ?_, ?_, fun t ht => (hmodel t ht).2⟩, heval⟩
  · have hx := (hmodel _ List.mem_cons_self).1 ⟨"x", .int⟩ (by decide)
    exact Option.some.inj (hx.symm.trans (by decide +kernel))
  · have hy := (hmodel _ (List.mem_cons_of_mem _ List.mem_cons_self)).1 ⟨"y", .int⟩ (by decide)
    exact Option.some.inj (hy.symm.trans (by decide +kernel))

end Sat

end Oracle

end HornSaturation
