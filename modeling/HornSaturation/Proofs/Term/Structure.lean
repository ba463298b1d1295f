import HornSaturation.Term.Connectives
import HornSaturation.Term.Equality
import HornSaturation.Term.Folding
import HornSaturation.Term.Variables

/-!
# Terms by structure

Functions on terms come with twins for argument lists. The twins are the usual list operations, so
that one induction over terms, with a hypothesis for every argument, serves all of them.
-/

namespace HornSaturation.Term

/-- Induction over terms, with the property for all arguments of an application. -/
@[elab_as_elim]
theorem structural {P : Term → Prop} (bool : ∀ b, P (.bool b)) (int : ∀ n, P (.int n))
    (var : ∀ v, P (.var v)) (op : ∀ o args, (∀ t ∈ args, P t) → P (.op o args))
    (app : ∀ name r args, (∀ t ∈ args, P t) → P (.app name r args)) (t : Term) : P t :=
  Term.rec (motive_1 := P) (motive_2 := fun ts => ∀ t ∈ ts, P t) bool int var
    (fun o args h => op o args h) (fun name r args h => app name r args h)
    (fun _ h => absurd h List.not_mem_nil)
    (fun _ _ ht hts s hs => (List.mem_cons.mp hs).elim (fun e => e ▸ ht) (hts s)) t

theorem occurrencesList_eq (ts : List Term) : occurrencesList ts = ts.flatMap occurrences := by
  induction ts with
  | nil => rfl
  | cons t ts ih => rw [occurrencesList, ih, List.flatMap_cons]

theorem bindList_eq (f : Var → Term) (ts : List Term) : bindList f ts = ts.map (bind f) := by
  induction ts with
  | nil => rfl
  | cons t ts ih => rw [bindList, ih, List.map_cons]

theorem foldListWith_eq (again : Term → Term) (ts : List Term) :
    foldListWith again ts = ts.map (foldWith again) := by
  induction ts with
  | nil => rfl
  | cons t ts ih => rw [foldListWith, ih, List.map_cons]

theorem conjunctsList_eq (ts : List Term) : conjunctsList ts = ts.flatMap conjuncts := by
  induction ts with
  | nil => rfl
  | cons t ts ih => rw [conjunctsList, ih, List.flatMap_cons]

/-- A formula that is no conjunction is its only conjunct. -/
theorem conjuncts_op {o : Op} {args : List Term} (ho : o ≠ .and) :
    (Term.op o args).conjuncts = [.op o args] := by
  cases o <;> first | exact absurd rfl ho | rfl

@[simp] theorem occurrences_bool (b : Bool) : (Term.bool b).occurrences = [] := rfl

@[simp] theorem occurrences_int (n : Int) : (Term.int n).occurrences = [] := rfl

@[simp] theorem occurrences_var (v : Var) : (Term.var v).occurrences = [v] := rfl

@[simp] theorem occurrences_op (o : Op) (args : List Term) :
    (Term.op o args).occurrences = args.flatMap occurrences := occurrencesList_eq args

@[simp] theorem occurrences_app (name : String) (r : RelationId) (args : List Term) :
    (Term.app name r args).occurrences = args.flatMap occurrences := occurrencesList_eq args

/-- A variable is listed among the variables of a term exactly if it occurs in the term. -/
@[simp] theorem mem_vars {t : Term} {v : Var} : v ∈ t.vars ↔ v ∈ t.occurrences :=
  List.mem_eraseDups

theorem containsVar_iff {t : Term} {v : Var} : t.containsVar v = true ↔ v ∈ t.occurrences := by
  rw [containsVar, List.contains_iff_mem]

/-- A constant has no variables. -/
@[simp] theorem occurrences_toTerm (x : Value) : x.toTerm.occurrences = [] := by
  cases x <;> rfl

/-- Replacing every variable by itself changes nothing. -/
theorem bind_var (t : Term) : t.bind .var = t := by
  induction t using structural with
  | bool b => rfl
  | int n => rfl
  | var v => rfl
  | op o args ih => rw [bind, bindList_eq, List.map_congr_left ih, List.map_id']
  | app name r args ih => rw [bind, bindList_eq, List.map_congr_left ih, List.map_id']

/-- The variables of a term after a replacement are those of the images. -/
theorem mem_occurrences_bind {f : Var → Term} {t : Term} {w : Var} :
    w ∈ (t.bind f).occurrences ↔ ∃ v ∈ t.occurrences, w ∈ (f v).occurrences := by
  induction t using structural with
  | bool b => simp [bind]
  | int n => simp [bind]
  | var v => simp [bind]
  | op o args ih | app name r args ih =>
    simp only [bind, bindList_eq, occurrences_op, occurrences_app, List.flatMap_map,
      List.mem_flatMap]
    constructor
    · rintro ⟨t, ht, hw⟩
      obtain ⟨v, hv, hvw⟩ := (ih t ht).mp hw
      exact ⟨v, ⟨t, ht, hv⟩, hvw⟩
    · rintro ⟨v, ⟨t, ht, hv⟩, hvw⟩
      exact ⟨t, ht, (ih t ht).mpr ⟨v, hv, hvw⟩⟩

end HornSaturation.Term
