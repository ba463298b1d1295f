import HornSaturation.Clause.Normalization
import HornSaturation.Unit.Instance
import Mathlib.Data.List.Nodup

/-!
# Names

Argument symbols, local symbols and the variables of clauses never meet: a name of the first kind
contains an at sign, a name of the second kind an exclamation mark but no at sign, and a name of the
third kind neither. The name of an argument symbol determines the relation, the occurrence and the
position, because what stands behind its last at sign are two numbers; and the name of a local
symbol determines its number.
-/

namespace HornSaturation

/-- Whether a variable is named like an argument symbol. -/
def Var.IsMarked (v : Var) : Prop := '@' ∈ v.name.toList

section Digits

theorem toList_toString (n : Nat) : (toString n).toList = Nat.toDigits 10 n := Nat.toList_repr

theorem notMem_toString {c : Char} (hc : c.isDigit = false) (n : Nat) :
    c ∉ (toString n).toList := fun h => by
  rw [toList_toString] at h
  rw [Nat.isDigit_of_mem_toDigits (by decide) (by decide) h] at hc
  cases hc

theorem toString_injective {m n : Nat} (h : toString m = toString n) : m = n := by
  have hdigits := congrArg (fun s : String => Nat.ofDigitChars 10 s.toList 0) h
  simpa [toList_toString] using hdigits

/-- The digits of a number denote it. -/
theorem decimal?_toString (n : Nat) : Text.decimal? (toString n).toList = some n := by
  have hempty : (Nat.toDigits 10 n).isEmpty = false := by simp [Nat.toDigits_ne_nil]
  have hdigits : (Nat.toDigits 10 n).all Char.isDigit = true :=
    List.all_eq_true.mpr fun c hc => Nat.isDigit_of_mem_toDigits (by decide) (by decide) hc
  rw [toList_toString, Text.decimal?, hempty, hdigits]
  exact congrArg some Nat.ofDigitChars_ten_toDigits

end Digits

section Separators

variable {α : Type} {c : α} {xs ys us vs : List α}

/-- A list is determined by what stands before and after the first occurrence of a separator. -/
theorem eq_of_first (hx : c ∉ xs) (hy : c ∉ ys) (h : xs ++ c :: us = ys ++ c :: vs) :
    xs = ys ∧ us = vs := by
  induction xs generalizing ys with
  | nil =>
    cases ys with
    | nil => exact ⟨rfl, (List.cons.inj h).2⟩
    | cons y ys => exact absurd (List.cons.inj h).1 fun hc => hy (hc ▸ List.mem_cons_self)
  | cons x xs ih =>
    cases ys with
    | nil => exact absurd (List.cons.inj h).1 fun hc => hx (hc ▸ List.mem_cons_self)
    | cons y ys =>
      obtain ⟨rfl, htail⟩ := List.cons.inj h
      obtain ⟨rfl, rfl⟩ := ih (fun hc => hx (List.mem_cons_of_mem x hc))
        (fun hc => hy (List.mem_cons_of_mem x hc)) htail
      exact ⟨rfl, rfl⟩

/-- A list is determined by what stands before and after the last occurrence of a separator. -/
private theorem eq_of_last (hu : c ∉ us) (hv : c ∉ vs) (h : xs ++ c :: us = ys ++ c :: vs) :
    xs = ys ∧ us = vs := by
  have hrev := congrArg List.reverse h
  simp only [List.reverse_append, List.reverse_cons, List.append_assoc, List.singleton_append]
    at hrev
  obtain ⟨huv, hxy⟩ := eq_of_first (by simpa using hu) (by simpa using hv) hrev
  exact ⟨List.reverse_injective hxy, List.reverse_injective huv⟩

end Separators

namespace Relation

variable {r r' : Relation}

theorem argument_toList (r : Relation) (o p : Nat) : (r.argument o p).name.toList =
    r.name.toList ++ '@' :: ((toString o).toList ++ '_' :: (toString p).toList) := by
  simp [argument, String.toList_append]

theorem argument_isMarked (r : Relation) (o p : Nat) : (r.argument o p).IsMarked := by
  rw [Var.IsMarked, argument_toList]
  simp

/-- The name of an argument symbol determines what it is the symbol of. -/
theorem argument_inj {o o' p p' : Nat} (h : (r.argument o p).name = (r'.argument o' p').name) :
    r.name = r'.name ∧ o = o' ∧ p = p' := by
  have hlist := congrArg String.toList h
  rw [argument_toList, argument_toList] at hlist
  have notMem (m n : Nat) : '@' ∉ (toString m).toList ++ '_' :: (toString n).toList := by
    simp only [List.mem_append, List.mem_cons, not_or]
    exact ⟨notMem_toString rfl m, by decide, notMem_toString rfl n⟩
  obtain ⟨hname, hrest⟩ := eq_of_last (notMem o p) (notMem o' p') hlist
  obtain ⟨ho, hp⟩ := eq_of_first (notMem_toString rfl o) (notMem_toString rfl o') hrest
  exact ⟨String.toList_injective hname, toString_injective (String.toList_injective ho),
    toString_injective (String.toList_injective hp)⟩

theorem mem_arguments {o : Nat} {v : Var} :
    v ∈ r.arguments o ↔ ∃ p < r.arity, r.argument o p = v := by
  simp [arguments]

theorem arguments_length (r : Relation) (o : Nat) : (r.arguments o).length = r.arity := by
  simp [arguments]

/-- The argument symbols of an occurrence differ from each other. -/
theorem arguments_nodup (r : Relation) (o : Nat) : (r.arguments o).Nodup :=
  List.nodup_range.map_on fun _ _ _ _ h => (argument_inj (congrArg Var.name h)).2.2

/-- The argument symbols have the declared sorts. -/
theorem arguments_sort (r : Relation) (o : Nat) : (r.arguments o).map Var.sort = r.sorts := by
  refine List.ext_getElem (by simp [arguments_length, arity]) fun i hi hi' => ?_
  simp [arguments, argument, List.getD_eq_getElem?_getD, List.getElem?_eq_getElem hi']

end Relation

/-- Relations carry their positions as identifiers and have different names. -/
structure WellDeclared (relations : List Relation) : Prop where
  positions : ∀ (i : Nat) (r : Relation), relations[i]? = some r → r.id = i
  names : (relations.map (·.name)).Nodup

theorem WellDeclared.map_id {relations : List Relation} (h : WellDeclared relations) :
    relations.map (·.id) = List.range relations.length :=
  List.ext_getElem (by simp) fun i hi _ => by
    simpa using h.positions i _ (List.getElem?_eq_getElem (by simpa using hi))

theorem WellDeclared.nodup_ids {relations : List Relation} (h : WellDeclared relations) :
    (relations.map (·.id)).Nodup := h.map_id ▸ List.nodup_range

instance (relations : List Relation) : Decidable (WellDeclared relations) :=
  decidable_of_iff (relations.map (·.id) = List.range relations.length ∧
      (relations.map (·.name)).Nodup) <| by
    refine ⟨fun ⟨hids, hnames⟩ => ⟨fun i r hr => ?_, hnames⟩, fun h => ⟨h.map_id, h.names⟩⟩
    have hid : (relations.map (·.id))[i]? = some r.id := by simp [hr]
    rw [hids, List.getElem?_eq_some_iff] at hid
    simpa [eq_comm] using hid.2

theorem relation?_eq_some {relations : List Relation} {id : RelationId} {r : Relation} :
    relation? relations id = some r ↔ relations[id]? = some r ∧ r.id = id := by
  simp [relation?, Option.filter_eq_some_iff]

/-- Where relations have different names, relations with one name are one relation. -/
theorem eq_of_relation?_name {relations : List Relation} (h : (relations.map (·.name)).Nodup)
    {i j : RelationId} {r r' : Relation} (hi : relation? relations i = some r)
    (hj : relation? relations j = some r') (hname : r.name = r'.name) : i = j := by
  obtain ⟨hi, -⟩ := relation?_eq_some.mp hi
  obtain ⟨hj, -⟩ := relation?_eq_some.mp hj
  obtain ⟨hil, hi⟩ := List.getElem?_eq_some_iff.mp hi
  obtain ⟨hjl, hj⟩ := List.getElem?_eq_some_iff.mp hj
  have hget : (relations.map (·.name)).get ⟨i, by simpa⟩ =
      (relations.map (·.name)).get ⟨j, by simpa⟩ := by
    simp [hi, hj, hname]
  exact Fin.val_eq_of_eq (List.nodup_iff_injective_get.mp h hget)

namespace Atom

variable {relations : List Relation} {a b : Atom} {vs ws : List Var}

theorem arguments_eq_ok :
    a.arguments relations = .ok vs ↔
      ∃ r, relation? relations a.relation = some r ∧ vs = r.arguments a.occurrence := by
  unfold arguments
  cases relation? relations a.relation <;> simp [eq_comm]

theorem arguments_nodup (h : a.arguments relations = .ok vs) : vs.Nodup := by
  obtain ⟨r, -, rfl⟩ := arguments_eq_ok.mp h
  exact r.arguments_nodup a.occurrence

theorem arguments_isMarked (h : a.arguments relations = .ok vs) {v : Var} (hv : v ∈ vs) :
    v.IsMarked := by
  obtain ⟨r, -, rfl⟩ := arguments_eq_ok.mp h
  obtain ⟨p, -, rfl⟩ := Relation.mem_arguments.mp hv
  exact r.argument_isMarked _ p

/-- Argument symbols of one name are one symbol, of one use. -/
theorem arguments_inj (hr : (relations.map (·.name)).Nodup)
    (ha : a.arguments relations = .ok vs) (hb : b.arguments relations = .ok ws) {v w : Var}
    (hv : v ∈ vs) (hw : w ∈ ws) (h : v.name = w.name) : a = b ∧ v = w := by
  obtain ⟨r, hra, rfl⟩ := arguments_eq_ok.mp ha
  obtain ⟨r', hrb, rfl⟩ := arguments_eq_ok.mp hb
  obtain ⟨p, -, rfl⟩ := Relation.mem_arguments.mp hv
  obtain ⟨p', -, rfl⟩ := Relation.mem_arguments.mp hw
  obtain ⟨hname, ho, rfl⟩ := Relation.argument_inj h
  have hrel := eq_of_relation?_name hr hra hrb hname
  have hab : a = b := by
    cases a
    cases b
    simp_all
  subst hab
  exact ⟨rfl, by rw [Option.some.inj (hra.symm.trans hrb)]⟩

end Atom

section Unmarked

theorem not_isReserved {name : String} (h : isReserved name = false) :
    '@' ∉ name.toList ∧ '!' ∉ name.toList := by
  rw [isReserved, List.any_eq_false] at h
  exact ⟨fun hc => h _ hc (by decide), fun hc => h _ hc (by decide)⟩

/-- The local symbol with a number. -/
def localSymbol (n : Nat) (s : BaseSort) : Var := ⟨"l" ++ "!" ++ toString n, s⟩

theorem localSymbol_not_isMarked (n : Nat) (s : BaseSort) : ¬ (localSymbol n s).IsMarked := by
  simp only [Var.IsMarked, localSymbol, String.toList_append, List.mem_append, not_or]
  exact ⟨by decide, notMem_toString rfl n⟩

theorem localSymbol_name_inj {m n : Nat} {s s' : BaseSort}
    (h : (localSymbol m s).name = (localSymbol n s').name) : m = n :=
  toString_injective ((String.append_right_inj _).mp h)

theorem localSymbol_isReserved (n : Nat) (s : BaseSort) :
    isReserved (localSymbol n s).name = true := by
  simp [isReserved, localSymbol, String.toList_append]

theorem canonicalLocal_not_isMarked (i : Nat) (v : Var) :
    ¬ (UnitClause.canonicalLocal i v).IsMarked := by
  simp only [Var.IsMarked, UnitClause.canonicalLocal, String.toList_append, List.mem_append, not_or]
  exact ⟨by decide, notMem_toString rfl i⟩

theorem canonicalLocal_inj {i j : Nat} {v w : Var}
    (h : UnitClause.canonicalLocal i v = UnitClause.canonicalLocal j w) : i = j :=
  toString_injective ((String.append_right_inj _).mp (congrArg Var.name h))

end Unmarked

end HornSaturation
