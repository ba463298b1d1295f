import HornSaturation.Proofs.Term.Sorting

/-!
# Truth over the integers

Division by zero has no value of its own; every fixed reading of it is admitted. Under a valuation,
which gives every variable a value of its sort, a well-sorted term has a value of its sort, so a
well-sorted formula is either true or false, and connectives have their usual meaning.
-/

namespace HornSaturation

/-- A reading of division by zero. -/
structure ZeroDivision where
  /-- The quotient of a number by zero. -/
  quotient : Int → Int
  /-- The remainder of a number by zero. -/
  remainder : Int → Int

instance : Inhabited ZeroDivision := ⟨⟨fun _ => 0, fun _ => 0⟩⟩

/-- The arithmetic of the unbounded integers, with a reading of division by zero. -/
def ZeroDivision.arithmetic (z : ZeroDivision) : Op → List Int → Option Int
  | .div, [a, b] => some (if b = 0 then z.quotient a else a / b)
  | .mod, [a, b] => some (if b = 0 then z.remainder a else a % b)
  | o, ns => HornSaturation.arithmetic some o ns

/-- A value for every variable, of its sort. -/
structure Valuation where
  /-- The value of a variable. -/
  value : Var → Value
  /-- Values have the sorts of their variables. -/
  sorted : ∀ v, (value v).sort = v.sort

/-- The valuation that makes booleans false and integers zero. -/
def Valuation.default : Valuation where
  value v := match v.sort with
    | .bool => .bool false
    | .int => .int 0
  sorted v := by cases h : v.sort <;> rfl

namespace Term

/-- The value of a term over the unbounded integers. -/
def meaning (z : ZeroDivision) (ρ : Valuation) (t : Term) : Option Value :=
  t.evalWith z.arithmetic fun v => some (ρ.value v)

/-- A formula is true under a valuation. -/
def Holds (z : ZeroDivision) (ρ : Valuation) (t : Term) : Prop :=
  t.meaning z ρ = some (.bool true)

end Term

theorem Value.exists_bool {x : Value} (h : x.sort = .bool) : ∃ b, x = .bool b := by
  cases x with
  | bool b => exact ⟨b, rfl⟩
  | int n => cases h

theorem Value.exists_int {x : Value} (h : x.sort = .int) : ∃ n, x = .int n := by
  cases x with
  | bool b => cases h
  | int n => exact ⟨n, rfl⟩

theorem allTrue_bools (bs : List Bool) :
    allTrue (bs.map fun b => some (.bool b)) = some (bs.all id) := by
  induction bs with
  | nil => rfl
  | cons b bs ih => cases b <;> simp [allTrue, Value.toBool?, ih]

theorem anyTrue_bools (bs : List Bool) :
    anyTrue (bs.map fun b => some (.bool b)) = some (bs.any id) := by
  induction bs with
  | nil => rfl
  | cons b bs ih => cases b <;> simp [anyTrue, Value.toBool?, ih]

theorem allInts_ints (ns : List Int) : allInts (ns.map fun n => some (.int n)) = some ns := by
  induction ns with
  | nil => rfl
  | cons n ns ih => simp [allInts, Value.toInt?, ih]

private theorem foldlM_some (f : Int → Int → Int) (ns : List Int) (a : Int) :
    ns.foldlM (fun acc n => some (f acc n)) a = some (ns.foldl f a) := by
  induction ns generalizing a with
  | nil => rfl
  | cons n ns ih => exact ih (f a n)

namespace ZeroDivision

variable (z : ZeroDivision)

theorem arithmetic_add (ns : List Int) : z.arithmetic .add ns = some (ns.foldl (· + ·) 0) :=
  foldlM_some (· + ·) ns 0

theorem arithmetic_mul (ns : List Int) : z.arithmetic .mul ns = some (ns.foldl (· * ·) 1) :=
  foldlM_some (· * ·) ns 1

theorem arithmetic_sub (a : Int) (ns : List Int) :
    ∃ n, z.arithmetic .sub (a :: ns) = some n := by
  cases ns with
  | nil => exact ⟨_, rfl⟩
  | cons b ns => exact ⟨_, foldlM_some (· - ·) (b :: ns) a⟩

end ZeroDivision

namespace Term

variable {z : ZeroDivision} {ρ : Valuation}

/-- A term that has a value of the boolean sort has a boolean value. -/
private theorem exists_boolean {t : Term} (h : ∃ x, t.meaning z ρ = some x ∧ x.sort = .bool) :
    ∃ b, t.meaning z ρ = some (.bool b) := by
  obtain ⟨x, hx, hs⟩ := h
  obtain ⟨b, rfl⟩ := Value.exists_bool hs
  exact ⟨b, hx⟩

/-- A term that has a value of the integer sort has an integer value. -/
private theorem exists_integer {t : Term} (h : ∃ x, t.meaning z ρ = some x ∧ x.sort = .int) :
    ∃ n, t.meaning z ρ = some (.int n) := by
  obtain ⟨x, hx, hs⟩ := h
  obtain ⟨n, rfl⟩ := Value.exists_int hs
  exact ⟨n, hx⟩

/-- The terms of a list that have boolean values have a list of booleans. -/
private theorem exists_bools {ts : List Term}
    (h : ∀ t ∈ ts, ∃ x, t.meaning z ρ = some x ∧ x.sort = .bool) :
    ∃ bs : List Bool, ts.map (meaning z ρ) = bs.map fun b => some (.bool b) := by
  induction ts with
  | nil => exact ⟨[], rfl⟩
  | cons t ts ih =>
    obtain ⟨b, hx⟩ := exists_boolean (h t List.mem_cons_self)
    obtain ⟨bs, hbs⟩ := ih fun u hu => h u (List.mem_cons_of_mem t hu)
    exact ⟨b :: bs, by rw [List.map_cons, hx, hbs, List.map_cons]⟩

/-- The terms of a list that have integer values have a list of integers. -/
private theorem exists_ints {ts : List Term}
    (h : ∀ t ∈ ts, ∃ x, t.meaning z ρ = some x ∧ x.sort = .int) :
    ∃ ns : List Int, ts.map (meaning z ρ) = ns.map fun n => some (.int n) := by
  induction ts with
  | nil => exact ⟨[], rfl⟩
  | cons t ts ih =>
    obtain ⟨n, hx⟩ := exists_integer (h t List.mem_cons_self)
    obtain ⟨ns, hns⟩ := ih fun u hu => h u (List.mem_cons_of_mem t hu)
    exact ⟨n :: ns, by rw [List.map_cons, hx, hns, List.map_cons]⟩

theorem meaning_op (o : Op) (args : List Term) :
    (Term.op o args).meaning z ρ = o.value z.arithmetic (args.map (meaning z ρ)) :=
  evalWith_op o args

/-- An arithmetic operator that is defined on integers gives an integer. -/
theorem meaning_arithmetic (ns : List Int) {o : Op} {args : List Term} {n : Int}
    (ho : o = .add ∨ o = .sub ∨ o = .mul ∨ o = .div ∨ o = .mod ∨ o = .neg)
    (hargs : args.map (meaning z ρ) = ns.map fun n => some (.int n))
    (hn : z.arithmetic o ns = some n) : (Term.op o args).meaning z ρ = some (.int n) := by
  rw [meaning_op, hargs]
  rcases ho with rfl | rfl | rfl | rfl | rfl | rfl <;>
    simp only [Op.value, allInts_ints, Option.bind_eq_bind, Option.bind_some, hn] <;> rfl

/-- A well-sorted term has a value of its sort under every valuation. -/
theorem exists_value (z : ZeroDivision) (ρ : Valuation) {t : Term} {s : BaseSort}
    (h : t.hasSort s = true) : ∃ x, t.meaning z ρ = some x ∧ x.sort = s := by
  induction t using structural generalizing s with
  | bool b => exact ⟨.bool b, rfl, (hasSort_bool.mp h).symm⟩
  | int n => exact ⟨.int n, rfl, (hasSort_int.mp h).symm⟩
  | var v => exact ⟨ρ.value v, rfl, (ρ.sorted v).trans (hasSort_var.mp h)⟩
  | app name r args ih => cases h
  | op o args ih =>
    cases o with
    | and =>
      obtain ⟨rfl, hb⟩ := hasSort_and.mp h
      obtain ⟨bs, hbs⟩ := exists_bools fun t ht => ih t ht (hb t ht)
      exact ⟨.bool (bs.all id), by rw [meaning_op, hbs, Op.value, allTrue_bools]; rfl, rfl⟩
    | or =>
      obtain ⟨rfl, hb⟩ := hasSort_or.mp h
      obtain ⟨bs, hbs⟩ := exists_bools fun t ht => ih t ht (hb t ht)
      exact ⟨.bool (bs.any id), by rw [meaning_op, hbs, Op.value, anyTrue_bools]; rfl, rfl⟩
    | not =>
      obtain ⟨rfl, a, rfl, ha⟩ := hasSort_not.mp h
      obtain ⟨b, hx⟩ := exists_boolean (ih a (by simp) ha)
      exact ⟨.bool !b, by simp [meaning_op, Op.value, hx, Value.toBool?], rfl⟩
    | implies =>
      obtain ⟨rfl, a, b, rfl, ha, hb⟩ := (hasSort_connective (.inl rfl)).mp h
      obtain ⟨p, hx⟩ := exists_boolean (ih a (by simp) ha)
      obtain ⟨q, hy⟩ := exists_boolean (ih b (by simp) hb)
      refine ⟨.bool (!p || q), ?_, rfl⟩
      cases p <;> simp [meaning_op, Op.value, hx, hy, Value.toBool?]
    | iff =>
      obtain ⟨rfl, a, b, rfl, ha, hb⟩ := (hasSort_connective (.inr rfl)).mp h
      obtain ⟨x, hx, -⟩ := ih a (by simp) ha
      obtain ⟨y, hy, -⟩ := ih b (by simp) hb
      exact ⟨.bool (x == y), by simp [meaning_op, Op.value, hx, hy], rfl⟩
    | eq =>
      obtain ⟨rfl, a, b, s', rfl, ha, hb⟩ := (hasSort_equality (.inl rfl)).mp h
      obtain ⟨x, hx, -⟩ := ih a (by simp) ha
      obtain ⟨y, hy, -⟩ := ih b (by simp) hb
      exact ⟨.bool (x == y), by simp [meaning_op, Op.value, hx, hy], rfl⟩
    | ne =>
      obtain ⟨rfl, a, b, s', rfl, ha, hb⟩ := (hasSort_equality (.inr rfl)).mp h
      obtain ⟨x, hx, -⟩ := ih a (by simp) ha
      obtain ⟨y, hy, -⟩ := ih b (by simp) hb
      exact ⟨.bool (x != y), by simp [meaning_op, Op.value, hx, hy], rfl⟩
    | lt | le | gt | ge =>
      obtain ⟨rfl, a, b, rfl, ha, hb⟩ := (hasSort_comparison (by simp)).mp h
      obtain ⟨m, hx⟩ := exists_integer (ih a (by simp) ha)
      obtain ⟨n, hy⟩ := exists_integer (ih b (by simp) hb)
      exact ⟨.bool (Op.compareInts _ m n), by
        simp [meaning_op, Op.value, Op.value.compared, hx, hy, Value.toInt?]; rfl, rfl⟩
    | add | mul =>
      obtain ⟨rfl, hi⟩ := (hasSort_sum (by simp)).mp h
      obtain ⟨ns, hns⟩ := exists_ints fun t ht => ih t ht (hi t ht)
      exact ⟨.int _, meaning_arithmetic ns (by simp) hns
        (by first | exact z.arithmetic_add ns | exact z.arithmetic_mul ns), rfl⟩
    | sub =>
      obtain ⟨rfl, hne, hi⟩ := hasSort_sub.mp h
      obtain ⟨ns, hns⟩ := exists_ints fun t ht => ih t ht (hi t ht)
      cases ns with
      | nil => exact absurd (List.map_eq_nil_iff.mp hns) hne
      | cons n ns =>
        obtain ⟨d, hd⟩ := z.arithmetic_sub n ns
        exact ⟨.int d, meaning_arithmetic (n :: ns) (by simp) hns hd, rfl⟩
    | div | mod =>
      obtain ⟨rfl, a, b, rfl, ha, hb⟩ := (hasSort_division (by simp)).mp h
      obtain ⟨m, hx⟩ := exists_integer (ih a (by simp) ha)
      obtain ⟨n, hy⟩ := exists_integer (ih b (by simp) hb)
      exact ⟨.int _, meaning_arithmetic [m, n] (by simp) (by simp [hx, hy]) rfl, rfl⟩
    | neg =>
      obtain ⟨rfl, a, rfl, ha⟩ := hasSort_neg.mp h
      obtain ⟨m, hx⟩ := exists_integer (ih a (by simp) ha)
      exact ⟨.int (-m), meaning_arithmetic [m] (by simp) (by simp [hx]) rfl, rfl⟩
    | ite =>
      obtain ⟨c, t, e, rfl, hc, ht, he⟩ := hasSort_ite.mp h
      obtain ⟨b, hx⟩ := exists_boolean (ih c (by simp) hc)
      cases b with
      | true =>
        obtain ⟨y, hy, hys⟩ := ih t (by simp) ht
        exact ⟨y, by simp [meaning_op, Op.value, hx, hy, Value.toBool?], hys⟩
      | false =>
        obtain ⟨y, hy, hys⟩ := ih e (by simp) he
        exact ⟨y, by simp [meaning_op, Op.value, hx, hy, Value.toBool?], hys⟩

end Term

end HornSaturation
