import HornSaturation.Proofs.Clause.Stated

/-!
# Formulas in an interpretation of the relations

Formulas as they are stated apply relations, also below connectives and inside arguments. Under a
valuation and in an interpretation of the relations an application has a truth value, and putting
these truth values in the places of the applications leaves a term whose value is known. A clause is
true under a valuation if the applications of its body and its constraint together imply its head.
-/

namespace HornSaturation

variable {z : ZeroDivision} {I : RelationId → List Value → Prop} {ρ : Valuation}
  {relations : List Relation} {t : Term} {ts : List Term}

namespace Term

open Classical in
mutual
/-- The term with the truth values of its relation applications in their places. -/
noncomputable def decided (z : ZeroDivision) (I : RelationId → List Value → Prop)
    (ρ : Valuation) : Term → Term
  | .bool b => .bool b
  | .int n => .int n
  | .var v => .var v
  | .op o args => .op o (decidedList z I ρ args)
  | .app _ r args => .bool <| decide <|
    ∃ xs, (decidedList z I ρ args).map (meaning z ρ) = xs.map some ∧ I r xs
/-- The terms of a list with the truth values of their relation applications in their places. -/
noncomputable def decidedList (z : ZeroDivision) (I : RelationId → List Value → Prop)
    (ρ : Valuation) : List Term → List Term
  | [] => []
  | t :: ts => decided z I ρ t :: decidedList z I ρ ts
end

/-- The value of a term in an interpretation of the relations. -/
noncomputable def meaningIn (z : ZeroDivision) (I : RelationId → List Value → Prop)
    (ρ : Valuation) (t : Term) : Option Value := (t.decided z I ρ).meaning z ρ

/-- A formula is true in an interpretation of the relations. -/
def HoldsIn (z : ZeroDivision) (I : RelationId → List Value → Prop) (ρ : Valuation) (t : Term) :
    Prop := (t.decided z I ρ).Holds z ρ

mutual
/-- Whether a term is well sorted and has a sort, where declared relations may be applied to terms
of their sorts. -/
def hasSortIn (relations : List Relation) : Term → BaseSort → Bool
  | .bool _, s => s = .bool
  | .int _, s => s = .int
  | .var v, s => v.sort = s
  | .op o args, s =>
    (o.argumentSorts s args.length).any fun sorts => haveSortsIn relations args sorts
  | .app _ r args, s => s = .bool &&
    (relations[r]?).any fun relation => haveSortsIn relations args relation.sorts
/-- Whether the terms of a list are well sorted and have the sorts of a list. -/
def haveSortsIn (relations : List Relation) : List Term → List BaseSort → Bool
  | [], [] => true
  | t :: ts, s :: sorts => hasSortIn relations t s && haveSortsIn relations ts sorts
  | _, _ => false
end

end Term

/-- An application is true if the interpretation holds of the values of its arguments. -/
def Application.HoldsIn (z : ZeroDivision) (I : RelationId → List Value → Prop) (ρ : Valuation)
    (a : Application) : Prop :=
  ∃ xs : List Value, a.args.map (Term.meaningIn z I ρ) = xs.map some ∧ I a.relation xs

/-- A clause is true if the applications of its body and its constraint imply its head, which is
false without an application. -/
def Clause.HoldsIn (z : ZeroDivision) (I : RelationId → List Value → Prop) (ρ : Valuation)
    (c : Clause) : Prop :=
  (∀ a ∈ c.body, a.HoldsIn z I ρ) → c.condition.HoldsIn z I ρ →
    ∃ a, c.head = some a ∧ a.HoldsIn z I ρ

namespace Term

theorem decidedList_eq (ts : List Term) : decidedList z I ρ ts = ts.map (decided z I ρ) := by
  induction ts with
  | nil => rfl
  | cons t ts ih => rw [decidedList, ih, List.map_cons]

@[simp] theorem decided_op (o : Op) (args : List Term) :
    (Term.op o args).decided z I ρ = .op o (args.map (decided z I ρ)) := by
  rw [decided, decidedList_eq]

theorem haveSortsIn_iff {sorts : List BaseSort} : haveSortsIn relations ts sorts = true ↔
    List.Forall₂ (fun t s => t.hasSortIn relations s = true) ts sorts := by
  induction ts generalizing sorts with
  | nil => cases sorts <;> simp [haveSortsIn]
  | cons t ts ih => cases sorts <;> simp [haveSortsIn, ih]

/-- With truth values for its applications a well-sorted term has the same sort. -/
theorem hasSort_decided {s : BaseSort} (h : t.hasSortIn relations s = true) :
    (t.decided z I ρ).hasSort s = true := by
  induction t using structural generalizing s with
  | bool b => simpa [hasSortIn, decided] using h
  | int n => simpa [hasSortIn, decided] using h
  | var v => simpa [hasSortIn, decided] using h
  | op o args ih =>
    rw [hasSortIn, List.any_eq_true] at h
    obtain ⟨sorts, hs, ha⟩ := h
    rw [decided_op, hasSort_op_iff]
    refine ⟨sorts, by rwa [List.length_map], ?_⟩
    rw [haveSorts_iff, List.forall₂_map_left_iff]
    exact (haveSortsIn_iff.mp ha).imp_mem fun t ht s _ hts => ih t ht hts
  | app name r args ih =>
    rw [hasSortIn, Bool.and_eq_true, decide_eq_true_eq] at h
    exact hasSort_bool.mpr h.1

@[simp] theorem holdsIn_bool {b : Bool} : HoldsIn z I ρ (.bool b) ↔ b = true := holds_bool

theorem holdsIn_app {name : String} {r : RelationId} {args : List Term} :
    HoldsIn z I ρ (.app name r args) ↔ (⟨r, args⟩ : Application).HoldsIn z I ρ := by
  classical
  rw [HoldsIn, decided, holds_bool, decide_eq_true_eq, decidedList_eq, List.map_map]
  rfl

theorem holdsIn_and : HoldsIn z I ρ (.op .and ts) ↔ ∀ t ∈ ts, HoldsIn z I ρ t := by
  rw [HoldsIn, decided_op, holds_and, List.forall_mem_map]
  rfl

theorem holdsIn_conjoin : HoldsIn z I ρ (conjoin ts) ↔ ∀ t ∈ ts, HoldsIn z I ρ t :=
  conjoin_iff (holdsIn_bool.mpr rfl) holdsIn_and

/-- A formula is false in an interpretation exactly if it is not true. -/
theorem meaningIn_eq_false (h : (t.decided z I ρ).hasSort .bool = true) :
    t.meaningIn z I ρ = some (.bool false) ↔ ¬ t.HoldsIn z I ρ := by
  refine ⟨fun hfalse htrue => ?_, meaning_of_not_holds h⟩
  cases hfalse.symm.trans htrue

/-- The negation of a formula is true exactly if the formula is false, whatever the formula is. -/
theorem holdsIn_negate : HoldsIn z I ρ t.negate ↔ t.meaningIn z I ρ = some (.bool false) := by
  rcases negate_cases t with ht | ht
  · have hnot : t.decided z I ρ = .op .not [t.negate.decided z I ρ] := by
      conv_lhs => rw [ht, decided_op]
      rfl
    rw [meaningIn, hnot]
    exact (evalWith_not (b := false)).symm
  · rw [ht, HoldsIn, decided_op]
    exact evalWith_not

end Term

/-- A term without relation applications is the same in every interpretation. -/
theorem Term.decided_of_hasSort {s : BaseSort} (h : t.hasSort s = true) :
    t.decided z I ρ = t := by
  induction t using structural generalizing s with
  | bool b => rfl
  | int n => rfl
  | var v => rfl
  | app name r args ih => cases h
  | op o args ih =>
    obtain ⟨sorts, -, ha⟩ := hasSort_op_iff.mp h
    have hargs : args.map (decided z I ρ) = args.map id := by
      refine List.map_congr_left fun t ht => ?_
      obtain ⟨s, -, hts⟩ := (haveSorts_iff.mp ha).exists_right ht
      exact ih t ht hts
    rw [decided_op, hargs, List.map_id]

/-- An application to terms without applications is true exactly if its ground atom is. -/
theorem Application.Denotes.holdsIn_iff {a : Application} {g : GroundAtom}
    (h : a.Denotes z ρ g) {sorts : List BaseSort} (ha : Term.haveSorts a.args sorts = true) :
    a.HoldsIn z I ρ ↔ g.TrueIn I := by
  obtain ⟨hrelation, hvalues⟩ := h
  have hargs : a.args.map (Term.meaningIn z I ρ) = a.args.map (Term.meaning z ρ) := by
    refine List.map_congr_left fun t ht => ?_
    obtain ⟨s, -, hts⟩ := (Term.haveSorts_iff.mp ha).exists_right ht
    rw [Term.meaningIn, Term.decided_of_hasSort hts]
  rw [HoldsIn, hargs, hvalues, GroundAtom.TrueIn, hrelation]
  constructor
  · rintro ⟨xs, hxs, hI⟩
    obtain rfl := List.map_injective_iff.mpr (fun _ _ => Option.some.inj) hxs
    exact ⟨_, rfl, hI⟩
  · rintro ⟨r, hr, hI⟩
    obtain rfl := Option.some.inj hr
    exact ⟨_, rfl, hI⟩

/-- A well-sorted clause is satisfied by an interpretation exactly if it is true in it under every
valuation. -/
theorem Clause.satisfiedBy_iff {c : Clause} (h : c.WellSorted relations) :
    c.SatisfiedBy z I ↔ ∀ ρ, c.HoldsIn z I ρ := by
  have happlication {a : Application} (ha : a ∈ c.applications) {ρ : Valuation} {g : GroundAtom}
      (hg : a.Denotes z ρ g) : a.HoldsIn z I ρ ↔ g.TrueIn I := by
    obtain ⟨r, -, hsorts⟩ := h.applications a ha
    exact hg.holdsIn_iff hsorts
  have hcondition (ρ : Valuation) : c.condition.HoldsIn z I ρ ↔ c.condition.Holds z ρ := by
    rw [Term.HoldsIn, Term.decided_of_hasSort h.condition]
  have hbody {ρ : Valuation} {body : List GroundAtom}
      (hb : List.Forall₂ (Application.Denotes z ρ) c.body body) :
      (∀ a ∈ c.body, a.HoldsIn z I ρ) ↔ ∀ g ∈ body, g.TrueIn I := by
    have hiff := hb.imp_mem fun a ha g _ hg => happlication (List.mem_append_left _ ha) hg
    exact hiff.forall_mem_iff
  have hhead {ρ : Valuation} {head : GroundAtom} (hd : HeadDenotes z ρ c.head head) :
      (∃ a, c.head = some a ∧ a.HoldsIn z I ρ) ↔ head.TrueIn I := by
    cases hhead : c.head with
    | none =>
      rw [hhead] at hd
      obtain rfl : head = .falsum := hd
      simp [GroundAtom.TrueIn, GroundAtom.falsum]
    | some a =>
      rw [hhead] at hd
      have ha : a ∈ c.applications := List.mem_append_right _ (by simp [hhead])
      simpa using happlication ha hd
  constructor
  · intro hsat ρ htrue hc
    obtain ⟨body, head, hb, hd⟩ := h.exists_denotes z ρ
    exact (hhead hd).mpr (hsat body head ⟨ρ, (hcondition ρ).mp hc, hb, hd⟩ ((hbody hb).mp htrue))
  · rintro hholds body head ⟨ρ, hc, hb, hd⟩ htrue
    exact (hhead hd).mp (hholds ρ ((hbody hb).mpr htrue) ((hcondition ρ).mpr hc))

end HornSaturation
