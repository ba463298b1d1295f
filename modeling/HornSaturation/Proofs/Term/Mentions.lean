import HornSaturation.Proofs.Data.Lists
import HornSaturation.Proofs.Term.Structure

/-!
# What a term mentions

A term mentions the variables that occur in it and the relations that are applied in it. What the
parts of a term do not mention, building a term from them does not bring in, so one argument serves
for the variables that a formula may have and for the relations that it may apply.
-/

namespace HornSaturation.Term

mutual
/-- Whether a term has a variable of some kind or applies a relation of some kind. -/
def Mentions (V : Var → Prop) (R : RelationId → Prop) : Term → Prop
  | .bool _ | .int _ => False
  | .var v => V v
  | .op _ args => MentionsList V R args
  | .app _ r args => R r ∨ MentionsList V R args
/-- Whether a term of a list does. -/
def MentionsList (V : Var → Prop) (R : RelationId → Prop) : List Term → Prop
  | [] => False
  | t :: ts => Mentions V R t ∨ MentionsList V R ts
end

/-- Whether a relation is applied anywhere in a term. -/
def Applies (r : RelationId) (t : Term) : Prop := t.Mentions (fun _ => False) (· = r)

variable {V V' : Var → Prop} {R : RelationId → Prop} {t a b : Term} {ts args : List Term}

theorem mentionsList_iff : MentionsList V R ts ↔ ∃ t ∈ ts, t.Mentions V R := by
  induction ts with
  | nil => simp [MentionsList]
  | cons t ts ih => simp [MentionsList, ih]

@[simp] theorem not_mentions_bool (b : Bool) : ¬ (Term.bool b).Mentions V R := id

@[simp] theorem not_mentions_int (n : Int) : ¬ (Term.int n).Mentions V R := id

@[simp] theorem mentions_var (v : Var) : (Term.var v).Mentions V R ↔ V v := .rfl

@[simp] theorem mentions_op (o : Op) (args : List Term) :
    (Term.op o args).Mentions V R ↔ ∃ t ∈ args, t.Mentions V R := mentionsList_iff

@[simp] theorem mentions_app (name : String) (r : RelationId) (args : List Term) :
    (Term.app name r args).Mentions V R ↔ R r ∨ ∃ t ∈ args, t.Mentions V R :=
  or_congr_right mentionsList_iff

theorem Mentions.mono (hV : ∀ v, V v → V' v) (h : t.Mentions V R) : t.Mentions V' R := by
  induction t using structural with
  | bool b => exact h
  | int n => exact h
  | var v => exact hV v h
  | op o args ih =>
    obtain ⟨t, ht, hm⟩ := (mentions_op o args).mp h
    exact (mentions_op o args).mpr ⟨t, ht, ih t ht hm⟩
  | app name r args ih =>
    refine (mentions_app name r args).mpr (((mentions_app name r args).mp h).imp_right ?_)
    rintro ⟨t, ht, hm⟩
    exact ⟨t, ht, ih t ht hm⟩

/-- The variables that a term mentions are those that occur in it. -/
theorem mentions_iff_mem_occurrences {v : Var} :
    t.Mentions (· = v) (fun _ => False) ↔ v ∈ t.occurrences := by
  induction t using structural with
  | bool b => simp
  | int n => simp
  | var w => simp [eq_comm]
  | op o args ih =>
    rw [mentions_op, occurrences_op, List.mem_flatMap]
    exact exists_congr fun t => and_congr_right fun ht => ih t ht
  | app name r args ih =>
    rw [mentions_app, occurrences_app, List.mem_flatMap, false_or]
    exact exists_congr fun t => and_congr_right fun ht => ih t ht

theorem containsAppList_iff : containsAppList ts = true ↔ ∃ t ∈ ts, t.containsApp = true := by
  induction ts with
  | nil => simp [containsAppList]
  | cons t ts ih => simp [containsAppList, ih]

/-- What a term mentions after a replacement, it or an image mentions. -/
theorem mentions_bind {f : Var → Term} :
    (t.bind f).Mentions V R ↔ t.Mentions (fun v => (f v).Mentions V R) R := by
  have hargs {args : List Term}
      (ih : ∀ t ∈ args, (t.bind f).Mentions V R ↔ t.Mentions (fun v => (f v).Mentions V R) R) :
      (∃ t ∈ args.map (bind f), t.Mentions V R) ↔
        ∃ t ∈ args, t.Mentions (fun v => (f v).Mentions V R) R := by
    constructor
    · rintro ⟨_, hu, hm⟩
      obtain ⟨t, ht, rfl⟩ := List.mem_map.mp hu
      exact ⟨t, ht, (ih t ht).mp hm⟩
    · rintro ⟨t, ht, hm⟩
      exact ⟨t.bind f, List.mem_map_of_mem ht, (ih t ht).mpr hm⟩
  induction t using structural with
  | bool b => exact .rfl
  | int n => exact .rfl
  | var v => exact .rfl
  | op o args ih => rw [bind, bindList_eq, mentions_op, mentions_op, hargs ih]
  | app name r args ih => rw [bind, bindList_eq, mentions_app, mentions_app, hargs ih]

@[simp] theorem mentions_negate : t.negate.Mentions V R ↔ t.Mentions V R := by
  unfold negate
  split <;> simp

@[simp] theorem mentions_equation :
    (equation a b).Mentions V R ↔ a.Mentions V R ∨ b.Mentions V R := by
  simp [equation]

@[simp] theorem mentions_implication :
    (implication a b).Mentions V R ↔ a.Mentions V R ∨ b.Mentions V R := by
  simp [implication]

/-- A formula mentions what its conjuncts mention. -/
theorem exists_conjunct_mentions :
    (∃ c ∈ t.conjuncts, c.Mentions V R) ↔ t.Mentions V R := by
  induction t using structural with
  | bool b => cases b <;> simp [conjuncts]
  | int n => simp [conjuncts]
  | var v => simp [conjuncts]
  | app name r args ih => simp [conjuncts]
  | op o args ih =>
    by_cases ho : o = .and
    · subst ho
      rw [conjuncts, conjunctsList_eq, mentions_op, List.exists_mem_flatMap]
      exact exists_congr fun t => and_congr_right fun ht => ih t ht
    · simp [conjuncts_op ho]

/-- A flattened conjunction mentions what the formulas of the list mention. -/
theorem mentions_conjoin : (conjoin ts).Mentions V R ↔ ∃ t ∈ ts, t.Mentions V R := by
  have hflat : (∃ c ∈ conjunctsList ts, c.Mentions V R) ↔ ∃ t ∈ ts, t.Mentions V R := by
    rw [conjunctsList_eq, List.exists_mem_flatMap]
    exact exists_congr fun t => and_congr_right fun _ => exists_conjunct_mentions
  rw [← hflat, conjoin]
  split
  · next h => simp [h]
  · next t h => simp [h]
  · rw [mentions_op]

theorem mem_disjuncts_or {c : Term} (hc : c ∈ t.disjuncts) :
    c = t ∨ ∃ args, t = .op .or args ∧ c ∈ args := by
  unfold disjuncts at hc
  split at hc
  · cases hc
  · next args => exact .inr ⟨args, rfl, hc⟩
  · exact .inl (List.mem_singleton.mp hc)

/-- A flattened disjunction mentions nothing but what the formulas of the list mention. -/
theorem exists_of_mentions_disjoin (h : (disjoin ts).Mentions V R) :
    ∃ t ∈ ts, t.Mentions V R := by
  have hflat : ∀ c ∈ ts.flatMap disjuncts, c.Mentions V R → ∃ t ∈ ts, t.Mentions V R := by
    intro c hc hm
    obtain ⟨t, ht, c, hct, hm⟩ := List.exists_mem_flatMap.mp ⟨c, hc, hm⟩
    refine ⟨t, ht, ?_⟩
    rcases mem_disjuncts_or hct with rfl | ⟨args, rfl, ha⟩
    · exact hm
    · exact (mentions_op .or args).mpr ⟨c, ha, hm⟩
  unfold disjoin at h
  split at h
  · exact absurd h (not_mentions_bool false)
  · next t ht => exact hflat t (by simp [ht]) h
  · obtain ⟨c, hc, hm⟩ := (mentions_op .or _).mp h
    exact hflat c hc hm

section Relations

variable {S : RelationId → Prop}

/-- All relations that a term applies, at any depth, are of some kind. -/
def AppliesOnly (S : RelationId → Prop) (t : Term) : Prop := ∀ r, t.Applies r → S r

@[simp] theorem appliesOnly_bool (b : Bool) : (Term.bool b).AppliesOnly S := fun _ => False.elim

@[simp] theorem appliesOnly_int (n : Int) : (Term.int n).AppliesOnly S := fun _ => False.elim

@[simp] theorem appliesOnly_var (v : Var) : (Term.var v).AppliesOnly S := fun _ => False.elim

@[simp] theorem appliesOnly_op (o : Op) (args : List Term) :
    (Term.op o args).AppliesOnly S ↔ ∀ t ∈ args, t.AppliesOnly S := by
  simp only [AppliesOnly, Applies, mentions_op]
  exact ⟨fun h t ht r hr => h r ⟨t, ht, hr⟩, fun h r ⟨t, ht, hr⟩ => h t ht r hr⟩

@[simp] theorem appliesOnly_app (name : String) (r : RelationId) (args : List Term) :
    (Term.app name r args).AppliesOnly S ↔ S r ∧ ∀ t ∈ args, t.AppliesOnly S := by
  simp only [AppliesOnly, Applies, mentions_app]
  constructor
  · exact fun h => ⟨h r (.inl rfl), fun t ht r' hr => h r' (.inr ⟨t, ht, hr⟩)⟩
  · rintro ⟨hr, hargs⟩ r' (rfl | ⟨t, ht, hm⟩)
    · exact hr
    · exact hargs t ht r' hm

/-- A term contains a relation application exactly if it applies a relation. -/
theorem containsApp_iff : t.containsApp = true ↔ ∃ r, t.Applies r := by
  induction t using structural with
  | bool b => simp [containsApp, Applies]
  | int n => simp [containsApp, Applies]
  | var v => simp [containsApp, Applies]
  | app name r args ih => simp [containsApp, Applies]
  | op o args ih =>
    rw [containsApp, containsAppList_iff]
    simp only [Applies, mentions_op]
    constructor
    · rintro ⟨t, ht, happ⟩
      obtain ⟨r, hr⟩ := (ih t ht).mp happ
      exact ⟨r, t, ht, hr⟩
    · rintro ⟨r, t, ht, hr⟩
      exact ⟨t, ht, (ih t ht).mpr ⟨r, hr⟩⟩

/-- A term contains no relation application exactly if it applies no relation. -/
theorem containsApp_eq_false : t.containsApp = false ↔ t.AppliesOnly fun _ => False := by
  rw [← Bool.not_eq_true, containsApp_iff, not_exists]
  rfl

@[simp] theorem appliesOnly_negate : t.negate.AppliesOnly S ↔ t.AppliesOnly S := by
  simp only [AppliesOnly, Applies, mentions_negate]

@[simp] theorem appliesOnly_equation :
    (equation a b).AppliesOnly S ↔ a.AppliesOnly S ∧ b.AppliesOnly S := by
  simp [equation]

@[simp] theorem appliesOnly_implication :
    (implication a b).AppliesOnly S ↔ a.AppliesOnly S ∧ b.AppliesOnly S := by
  simp [implication]

theorem AppliesOnly.of_mem_conjuncts (h : t.AppliesOnly S) {c : Term} (hc : c ∈ t.conjuncts) :
    c.AppliesOnly S := fun r hr => h r (exists_conjunct_mentions.mp ⟨c, hc, hr⟩)

theorem appliesOnly_conjoin : (conjoin ts).AppliesOnly S ↔ ∀ t ∈ ts, t.AppliesOnly S := by
  simp only [AppliesOnly, Applies, mentions_conjoin]
  exact ⟨fun h t ht r hr => h r ⟨t, ht, hr⟩, fun h r ⟨t, ht, hr⟩ => h t ht r hr⟩

theorem appliesOnly_disjoin (h : ∀ t ∈ ts, t.AppliesOnly S) : (disjoin ts).AppliesOnly S := by
  intro r hr
  obtain ⟨t, ht, hm⟩ := exists_of_mentions_disjoin hr
  exact h t ht r hm

end Relations

end HornSaturation.Term
