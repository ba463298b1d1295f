import HornSaturation.Proofs.Vocabulary.Names
import HornSaturation.Vocabulary.Symbols
import Mathlib.Data.List.TakeWhile

/-!
# Recovery of argument symbols

What an argument symbol is the symbol of is read back from its name. Within one relation the name is
read from the left: the name of the relation is taken off, and the first underscore behind the at
sign separates the two numbers. Among the declared relations it is read from the right: the name of
the relation is what stands before the last at sign. Nothing is escaped, and nothing has to be,
because the digits of a number contain neither separator. The canonical order therefore tells apart
all symbols that a run works with.
-/

namespace HornSaturation

/-- A character that is no digit is passed over by no scan of the digits of a number. -/
private theorem digits_ne {c : Char} (hc : c.isDigit = false) (n : Nat) :
    ∀ d ∈ (toString n).toList, decide (d ≠ c) = true := fun d hd => by
  rw [decide_eq_true_eq]
  rintro rfl
  exact notMem_toString hc n hd

/-- The digits of a machine index are read back as that index. -/
theorem index?_toString {n : Nat} (h : n ≤ Text.indexMax) :
    Text.index? (toString n).toList = some n := by
  have hsign : ∀ ds, (toString n).toList ≠ '+' :: ds := fun ds hds =>
    notMem_toString (c := '+') rfl n (hds ▸ List.mem_cons_self)
  simp only [Text.index?, decimal?_toString]
  simp [Option.filter, h]

namespace Relation

variable {r : Relation} {o p : Nat}

/-- A relation recognizes its argument symbols: the occurrence and the position are read back. -/
theorem locate?_argument (ho : o ≤ Text.indexMax) (hp : p ≤ Text.indexMax) (h : p < r.arity) :
    r.locate? (r.argument o p) = some (o, p) := by
  have hname : r.name.toList.isPrefixOf? (r.argument o p).name.toList =
      some ('@' :: ((toString o).toList ++ '_' :: (toString p).toList)) :=
    List.isPrefixOf?_eq_some_iff_append_eq.mpr (argument_toList r o p).symm
  have hsort : r.sorts[p]? = some (r.argument o p).sort := by
    have hlen : p < r.sorts.length := h
    simp [argument, hlen]
  -- The first underscore behind the at sign is the separator, since the occurrence has none.
  have ho' := digits_ne (c := '_') rfl o
  simp only [locate?, hname, Option.bind_eq_bind, Option.bind_some, List.isPrefixOf?,
    beq_self_eq_true, if_true, List.takeWhile_append_of_pos ho', List.dropWhile_append_of_pos ho']
  simp only [List.takeWhile, List.dropWhile, ne_eq, not_true_eq_false, decide_false,
    List.append_nil, beq_self_eq_true, if_true, Option.bind_some, index?_toString ho,
    index?_toString hp, hsort, List.isPrefixOf?]

end Relation

namespace Symbols

variable {s : Symbols} {r : Relation} {o p : Nat}

theorem relationName?_argument (r : Relation) (o p : Nat) :
    relationName? (r.argument o p).name = some r.name := by
  have hdigits : ∀ c ∈ ((toString o).toList ++ '_' :: (toString p).toList).reverse,
      decide (c ≠ '@') = true := fun c hc => by
    simp only [List.mem_reverse, List.mem_append, List.mem_cons] at hc
    obtain hc | rfl | hc := hc
    · exact digits_ne rfl o c hc
    · rfl
    · exact digits_ne rfl p c hc
  rw [relationName?, Relation.argument_toList, List.reverse_append, List.reverse_cons,
    List.append_assoc, List.dropWhile_append_of_pos hdigits]
  simp

/-- Only a marked name has the form of an argument symbol's. -/
theorem relationName?_eq_none {v : Var} (h : ¬ v.IsMarked) : relationName? v.name = none := by
  have hplain : v.name.toList.reverse.dropWhile (· ≠ '@') = [] := by
    simp only [List.dropWhile_eq_nil_iff, List.mem_reverse, decide_eq_true_eq]
    rintro c hc rfl
    exact h hc
  rw [relationName?, hplain]

theorem argumentOf?_eq_none {v : Var} (h : ¬ v.IsMarked) : s.argumentOf? v = none := by
  rw [argumentOf?, relationName?_eq_none h]
  rfl

/-- The relation that a name stands for is the one that was declared with the name. -/
private theorem find?_name (h : WellDeclared s.relations) (hr : r ∈ s.relations) :
    s.relations.reverse.find? (·.name = r.name) = some r := by
  cases hfind : s.relations.reverse.find? (·.name = r.name) with
  | none =>
    simpa using List.find?_eq_none.mp hfind r (List.mem_reverse.mpr hr)
  | some named =>
    have hmem : named ∈ s.relations := List.mem_reverse.mp (List.mem_of_find?_eq_some hfind)
    have hname : named.name = r.name := by simpa using List.find?_some hfind
    rw [List.inj_on_of_nodup_map h.names hmem hr hname]

/-- The argument symbols of the declared relations are recognized. -/
theorem argumentOf?_argument (h : WellDeclared s.relations) (hr : r ∈ s.relations)
    (ho : o ≤ Text.indexMax) (hp : p ≤ Text.indexMax) (harity : p < r.arity) :
    s.argumentOf? (r.argument o p) = some (r.id, o, p) := by
  obtain ⟨i, hi⟩ := List.mem_iff_getElem?.mp hr
  have hget : s.relations[r.id]? = some r := h.positions i r hi ▸ hi
  simp [argumentOf?, relationName?_argument, find?_name h hr, hget,
    Relation.locate?_argument ho hp harity]

/-- The symbols that a run works with: the argument symbols of the declared relations, and the fresh
symbols, whatever was taken before them. Occurrences and positions are machine indices. -/
inductive Issues (s : Symbols) : Var → Prop where
  | argument {r : Relation} {o p : Nat} (hr : r ∈ s.relations) (ho : o ≤ Text.indexMax)
      (hp : p ≤ Text.indexMax) (harity : p < r.arity) : Issues s (r.argument o p)
  | fresh (taken : Symbols) (sort : BaseSort) : Issues s (taken.fresh "l" sort).1

theorem fresh_not_isMarked (s : Symbols) (sort : BaseSort) : ¬ (s.fresh "l" sort).1.IsMarked :=
  localSymbol_not_isMarked s.allocated sort

theorem compare_sort_eq_eq {a b : BaseSort} : a.compare b = .eq ↔ a = b := by
  cases a <;> cases b <;> decide

/-- Variables that are no argument symbols are compared as they are written. -/
theorem compare_eq_eq_of_unmarked {a b : Var} (ha : ¬ a.IsMarked) (hb : ¬ b.IsMarked) :
    s.compare a b = .eq ↔ a = b := by
  rw [compare, argumentOf?_eq_none ha, argumentOf?_eq_none hb]
  cases a
  cases b
  simp only [Ordering.then_eq_eq, Std.compare_eq_iff_eq, compare_sort_eq_eq, Var.mk.injEq]

/-- The canonical order takes two symbols of a run for one only if they are one. -/
theorem compare_eq_eq (h : WellDeclared s.relations) {a b : Var} (ha : s.Issues a)
    (hb : s.Issues b) : s.compare a b = .eq ↔ a = b := by
  have hmarked : ∀ {v w : Var}, v.IsMarked → ¬ w.IsMarked → v ≠ w := fun hv hw hvw => hw (hvw ▸ hv)
  cases ha with
  | @argument r o p hr ho hp harity =>
    have hleft := argumentOf?_argument h hr ho hp harity
    cases hb with
    | @argument r' o' p' hr' ho' hp' harity' =>
      rw [compare, hleft, argumentOf?_argument h hr' ho' hp' harity']
      simp only [Ordering.then_eq_eq, Std.compare_eq_iff_eq]
      refine ⟨fun ⟨hid, ho, hp⟩ => ?_, fun heq => ?_⟩
      · rw [List.inj_on_of_nodup_map h.nodup_ids hr hr' hid, ho, hp]
      · obtain ⟨hname, ho, hp⟩ := Relation.argument_inj (congrArg Var.name heq)
        exact ⟨congrArg Relation.id (List.inj_on_of_nodup_map h.names hr hr' hname), ho, hp⟩
    | fresh taken sort =>
      rw [compare, hleft, argumentOf?_eq_none (taken.fresh_not_isMarked sort)]
      simpa using hmarked (r.argument_isMarked o p) (taken.fresh_not_isMarked sort)
  | fresh taken sort =>
    have hleft := taken.fresh_not_isMarked sort
    cases hb with
    | @argument r o p hr ho hp harity =>
      rw [compare, argumentOf?_eq_none hleft, argumentOf?_argument h hr ho hp harity]
      simpa using (hmarked (r.argument_isMarked o p) hleft).symm
    | fresh taken' sort' =>
      exact compare_eq_eq_of_unmarked hleft (taken'.fresh_not_isMarked sort')

/-- Argument symbols are injective and recoverable, whatever the names of the relations are. The
name of an argument symbol is shared by no other one of the declared relations; the relation finds
the occurrence and the position in it, and the stock of symbols also the relation; no fresh symbol
has such a name; and the canonical order takes different symbols of a run for different ones. -/
theorem arguments_recoverable (h : WellDeclared s.relations) :
    (∀ r ∈ s.relations, ∀ r' ∈ s.relations, ∀ o o' : Nat, ∀ p < r.arity, ∀ p' < r'.arity,
      (r.argument o p).name = (r'.argument o' p').name → r = r' ∧ o = o' ∧ p = p') ∧
    (∀ r ∈ s.relations, ∀ o ≤ Text.indexMax, ∀ p ≤ Text.indexMax, p < r.arity →
      r.locate? (r.argument o p) = some (o, p) ∧
        s.argumentOf? (r.argument o p) = some (r.id, o, p)) ∧
    (∀ r ∈ s.relations, ∀ o p : Nat, ∀ (taken : Symbols) (sort : BaseSort),
      (taken.fresh "l" sort).1.name ≠ (r.argument o p).name) ∧
    ∀ a b, s.Issues a → s.Issues b → (s.compare a b = .eq ↔ a = b) := by
  refine ⟨fun r hr r' hr' o o' p _ p' _ heq => ?_, fun r hr o ho p hp harity => ⟨?_, ?_⟩,
    fun r _ o p taken sort heq => ?_, fun a b ha hb => compare_eq_eq h ha hb⟩
  · obtain ⟨hname, ho, hp⟩ := Relation.argument_inj heq
    exact ⟨List.inj_on_of_nodup_map h.names hr hr' hname, ho, hp⟩
  · exact Relation.locate?_argument ho hp harity
  · exact argumentOf?_argument h hr ho hp harity
  · refine taken.fresh_not_isMarked sort ?_
    rw [Var.IsMarked, heq]
    exact r.argument_isMarked o p

/-- One of two relations is named like an argument symbol of the other. -/
theorem arguments_recoverable_nested :
    let s : Symbols := { relations := [⟨0, "P", [.int, .int]⟩, ⟨1, "P@0_1", [.bool]⟩] }
    WellDeclared s.relations ∧ s.argumentOf? ⟨"P@0_1", .int⟩ = some (0, 0, 1) ∧
      s.argumentOf? ⟨"P@0_1@12_0", .bool⟩ = some (1, 12, 0) ∧
      s.compare ⟨"P@0_1@12_0", .bool⟩ ⟨"l!0", .bool⟩ ≠ .eq := by
  intro s
  have h : WellDeclared s.relations := by decide
  obtain ⟨-, hrecovered, -, hcompare⟩ := arguments_recoverable h
  refine ⟨h, ?_, ?_, ?_⟩
  · exact (hrecovered ⟨0, "P", [.int, .int]⟩ (by decide) 0 (by decide) 1 (by decide)
      (by decide)).2
  · exact (hrecovered ⟨1, "P@0_1", [.bool]⟩ (by decide) 12 (by decide) 0 (by decide)
      (by decide)).2
  · exact (hcompare _ _ (.argument (r := ⟨1, "P@0_1", [.bool]⟩) (o := 12) (p := 0) (by decide)
      (by decide) (by decide) (by decide)) (.fresh {} .bool)).not.mpr (by decide)

end Symbols

end HornSaturation
