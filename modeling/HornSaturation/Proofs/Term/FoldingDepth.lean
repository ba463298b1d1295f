import HornSaturation.Proofs.Term.Gathering

/-!
# The depth of folding

Folding never makes a term larger. The negation that a rule builds and folds once more has fewer
nodes than the implication it comes from, so second rounds that nest as deep as a term has nodes are
second rounds without a limit: folding a conjunction, say, is folding its parts and then the
conjunction of what they become.
-/

namespace HornSaturation.Term

variable {t : Term} {ts args : List Term} {again again' : Term → Term}

section Sizes

@[simp] theorem sizeList_nil : sizeList [] = 0 := rfl

@[simp] theorem sizeList_cons (t : Term) (ts : List Term) :
    sizeList (t :: ts) = t.size + sizeList ts := rfl

@[simp] theorem sizeList_append (ts us : List Term) :
    sizeList (ts ++ us) = sizeList ts + sizeList us := by
  induction ts with
  | nil => simp
  | cons t ts ih => rw [List.cons_append, sizeList_cons, sizeList_cons, ih, Nat.add_assoc]

@[simp] theorem size_bool (b : Bool) : (Term.bool b).size = 1 := rfl

@[simp] theorem size_int (n : Int) : (Term.int n).size = 1 := rfl

@[simp] theorem size_var (v : Var) : (Term.var v).size = 1 := rfl

@[simp] theorem size_op (o : Op) (args : List Term) : (Term.op o args).size = sizeList args + 1 :=
  rfl

@[simp] theorem size_app (name : String) (r : RelationId) (args : List Term) :
    (Term.app name r args).size = sizeList args + 1 := rfl

theorem size_pos (t : Term) : 0 < t.size := by
  cases t <;> simp

theorem size_le_of_mem (h : t ∈ ts) : t.size ≤ sizeList ts := by
  induction ts with
  | nil => cases h
  | cons u ts ih =>
    rw [sizeList_cons]
    rcases List.mem_cons.mp h with rfl | h
    · omega
    · have ih := ih h
      omega

/-- Terms that are replaced by lists no larger make a list no larger. -/
theorem sizeList_flatMap_le {f : Term → List Term} (h : ∀ t ∈ ts, sizeList (f t) ≤ t.size) :
    sizeList (ts.flatMap f) ≤ sizeList ts := by
  induction ts with
  | nil => exact Nat.le_refl _
  | cons t ts ih =>
    rw [List.flatMap_cons, sizeList_append, sizeList_cons]
    exact Nat.add_le_add (h t List.mem_cons_self) (ih fun u hu => h u (List.mem_cons_of_mem t hu))

theorem sizeList_map_le {f : Term → Term} (h : ∀ t ∈ ts, (f t).size ≤ t.size) :
    sizeList (ts.map f) ≤ sizeList ts := by
  rw [List.map_eq_flatMap]
  exact sizeList_flatMap_le fun t ht => by simpa using h t ht

end Sizes

section Connectives

theorem sizeList_conjuncts_le (t : Term) : sizeList t.conjuncts ≤ t.size := by
  induction t using structural with
  | bool b => cases b <;> simp [conjuncts]
  | int n => simp [conjuncts]
  | var v => simp [conjuncts]
  | app name r args ih => simp [conjuncts]
  | op o args ih =>
    by_cases ho : o = .and
    · subst ho
      rw [conjuncts, conjunctsList_eq, size_op]
      exact Nat.le_succ_of_le (sizeList_flatMap_le ih)
    · simp [conjuncts_op ho]

theorem size_conjoin_le (ts : List Term) : (conjoin ts).size ≤ sizeList ts + 1 := by
  have hflat : sizeList (conjunctsList ts) ≤ sizeList ts := by
    rw [conjunctsList_eq]
    exact sizeList_flatMap_le fun t _ => sizeList_conjuncts_le t
  unfold conjoin
  split
  · simp
  · next t h =>
    rw [h, sizeList_cons, sizeList_nil] at hflat
    omega
  · exact Nat.succ_le_succ hflat

theorem size_disjoin_le (ts : List Term) : (disjoin ts).size ≤ sizeList ts + 1 := by
  have hflat : sizeList (ts.flatMap disjuncts) ≤ sizeList ts := by
    refine sizeList_flatMap_le fun t _ => ?_
    unfold disjuncts
    split <;> simp
  unfold disjoin
  split
  · simp
  · next t h =>
    rw [h, sizeList_cons, sizeList_nil] at hflat
    omega
  · exact Nat.succ_le_succ hflat

theorem size_negate_le (t : Term) : t.negate.size ≤ t.size + 1 := by
  unfold negate
  split
  · simp
    omega
  · simp

/-- Gathering makes nothing larger, if adding one formula does not. -/
private theorem sizeList_foldl_le {add : List Term → Term → List Term}
    (hadd : ∀ kept t, sizeList (add kept t) ≤ sizeList kept + t.size) (kept : List Term) :
    sizeList (args.foldl add kept) ≤ sizeList kept + sizeList args := by
  induction args generalizing kept with
  | nil => simp
  | cons t args ih =>
    have hstep := hadd kept t
    have hrest := ih (add kept t)
    rw [List.foldl_cons, sizeList_cons]
    omega

theorem size_foldAnd_le (args : List Term) : (foldAnd args).size ≤ sizeList args + 1 := by
  have hkept : sizeList (args.foldl addConjunct []) ≤ sizeList [] + sizeList args := by
    refine sizeList_foldl_le (fun kept t => ?_) []
    unfold addConjunct
    split
    · simp
    · simp
    · split <;> simp
  have hjoin := size_conjoin_le (args.foldl addConjunct [])
  rw [sizeList_nil] at hkept
  unfold foldAnd
  split
  · simp
  · dsimp only
    split
    · simp
    · omega

theorem size_foldOr_le (args : List Term) : (foldOr args).size ≤ sizeList args + 1 := by
  have hkept : sizeList (args.foldl addDisjunct []) ≤ sizeList [] + sizeList args := by
    refine sizeList_foldl_le (fun kept t => ?_) []
    unfold addDisjunct
    split
    · simp
    · split <;> simp
  have hjoin := size_disjoin_le (args.foldl addDisjunct [])
  rw [sizeList_nil] at hkept
  unfold foldOr
  split
  · simp
  · omega

end Connectives

section Arithmetic

/-- A constant that a sum gathers takes the place of one that was split off. -/
private theorem sizeList_splitSum_le (c : Int) (args : List Term) :
    sizeList (splitSum c args).2 + (if (splitSum c args).1 = c then 0 else 1) ≤ sizeList args := by
  induction args generalizing c with
  | nil => simp [splitSum]
  | cons t args ih =>
    rcases splitSum_cons c t args with ⟨n, rfl, hs⟩ | hs
    · have ih := ih (c + n)
      rw [hs, sizeList_cons, size_int]
      split <;> omega
    · have ih := ih c
      rw [hs, sizeList_cons, sizeList_cons]
      dsimp only
      omega

theorem size_foldSum_le (args : List Term) : (foldSum args).size ≤ sizeList args + 1 := by
  have hgathered : sizeList (gathered args) ≤ sizeList args := by
    have hsplit := sizeList_splitSum_le 0 args
    unfold gathered
    split
    · omega
    · rw [if_neg ‹_›] at hsplit
      simpa using hsplit
  rw [foldSum_eq]
  unfold joinSum
  split
  · simp
  · next t h =>
    rw [h, sizeList_cons, sizeList_nil] at hgathered
    omega
  · exact Nat.succ_le_succ hgathered

theorem size_foldArithmetic_le (o : Op) (args : List Term) :
    (foldArithmetic o args).size ≤ sizeList args + 1 := by
  unfold foldArithmetic
  split
  · simp
  unfold foldIdentities
  split
  · exact size_foldSum_le _
  · unfold foldProduct
    split
    · repeat' split
      all_goals simp
      all_goals omega
    · simp
  · split
    · simp
      omega
    · simp
  · simp

end Arithmetic

/-- Folding an operator makes nothing larger, if folding a rebuilt term once more does not. -/
theorem size_foldOp_le (hagain : ∀ t, (again t).size ≤ t.size) (o : Op) (args : List Term) :
    (foldOp again o args).size ≤ sizeList args + 1 := by
  unfold foldOp
  split
  · exact size_foldAnd_le _
  · exact size_foldOr_le _
  · simp
  · next t _ => simpa using size_negate_le t
  · next a b =>
    have hpos := b.size_pos
    have hnegate := Nat.le_trans (hagain a.negate) a.size_negate_le
    split
    · simp
    split
    · simp
      omega
    split
    · simp
      omega
    · simp
  · split
    · simp
      omega
    split
    · simp
      omega
    split
    · simp
      omega
    · simp
  all_goals first
    | exact size_foldArithmetic_le _ _
    | (unfold foldEquality; repeat' split) <;> simp
    | (unfold foldComparison; repeat' split) <;> simp
    | simp

theorem size_foldWith_le (hagain : ∀ t, (again t).size ≤ t.size) (t : Term) :
    (t.foldWith again).size ≤ t.size := by
  induction t using structural with
  | bool b => exact Nat.le_refl _
  | int n => exact Nat.le_refl _
  | var v => exact Nat.le_refl _
  | op o args ih =>
    rw [foldWith, foldListWith_eq, size_op]
    exact Nat.le_trans (size_foldOp_le hagain o _) (Nat.succ_le_succ (sizeList_map_le ih))
  | app name r args ih =>
    rw [foldWith, foldListWith_eq, size_app, size_app]
    exact Nat.succ_le_succ (sizeList_map_le ih)

/-- Folding never makes a term larger. -/
theorem size_foldToDepth_le (n : Nat) (t : Term) : (foldToDepth n t).size ≤ t.size := by
  induction n generalizing t with
  | zero => exact Nat.le_refl _
  | succ n ih => exact size_foldWith_le ih t

/-- Only the negation of a premise is folded once more. -/
private theorem foldOp_congr {o : Op}
    (h : ∀ a b, args = [a, b] → again a.negate = again' a.negate) :
    foldOp again o args = foldOp again' o args := by
  unfold foldOp
  split
  all_goals try rfl
  next a b => rw [h a b rfl]

/-- Second rounds on smaller terms are all that folding a term asks for. -/
private theorem foldWith_congr {k : Nat} (hsize : ∀ t, (again t).size ≤ t.size)
    (h : ∀ t, t.size ≤ k → again t = again' t) {t : Term} (ht : t.size ≤ k + 1) :
    t.foldWith again = t.foldWith again' := by
  have hargs {args : List Term} (hk : sizeList args ≤ k)
      (ih : ∀ u ∈ args, u.size ≤ k + 1 → u.foldWith again = u.foldWith again') :
      args.map (foldWith again) = args.map (foldWith again') :=
    List.map_congr_left fun u hu =>
      ih u hu (Nat.le_succ_of_le (Nat.le_trans (size_le_of_mem hu) hk))
  induction t using structural with
  | bool b => rfl
  | int n => rfl
  | var v => rfl
  | op o args ih =>
    have hk : sizeList args ≤ k := Nat.le_of_succ_le_succ ht
    rw [foldWith, foldWith, foldListWith_eq, foldListWith_eq, ← hargs hk ih]
    refine foldOp_congr fun a b hab => h _ ?_
    -- The conclusion `b` has a node, which makes up for the sign of the negation.
    have hfolded : sizeList (args.map (foldWith again)) ≤ sizeList args :=
      sizeList_map_le fun u _ => size_foldWith_le hsize u
    have hnegate := a.size_negate_le
    have hb := b.size_pos
    rw [hab, sizeList_cons, sizeList_cons, sizeList_nil] at hfolded
    omega
  | app name r args ih =>
    have hk : sizeList args ≤ k := Nat.le_of_succ_le_succ ht
    rw [foldWith, foldWith, foldListWith_eq, foldListWith_eq, hargs hk ih]

/-- Depths beyond the size of a term make no difference. -/
theorem foldToDepth_eq {n m : Nat} (hn : t.size ≤ n) (hm : t.size ≤ m) :
    foldToDepth n t = foldToDepth m t := by
  induction n generalizing m t with
  | zero => exact absurd t.size_pos (by omega)
  | succ n ih =>
    cases m with
    | zero => exact absurd t.size_pos (by omega)
    | succ m =>
      refine foldWith_congr (k := min n m) (size_foldToDepth_le n) (fun u hu => ?_) (by omega)
      exact ih (by omega) (by omega)

/-- The depth that a term allows is enough for its arguments. -/
private theorem map_foldWith (args : List Term) :
    args.map (foldWith (foldToDepth (sizeList args))) = args.map foldConstants :=
  List.map_congr_left fun _ hu => foldToDepth_eq (n := sizeList args + 1)
    (Nat.le_succ_of_le (size_le_of_mem hu)) (Nat.le_refl _)

/-- Folding an operation is folding its arguments and then the operation on what they become. -/
theorem foldConstants_op (o : Op) (args : List Term) :
    (Term.op o args).foldConstants =
      foldOp (foldToDepth (sizeList args)) o (args.map foldConstants) := by
  rw [← map_foldWith, ← foldListWith_eq]
  rfl

theorem foldConstants_app (name : String) (r : RelationId) (args : List Term) :
    (Term.app name r args).foldConstants = .app name r (args.map foldConstants) := by
  rw [← map_foldWith, ← foldListWith_eq]
  rfl

theorem size_foldConstants_le (t : Term) : t.foldConstants.size ≤ t.size :=
  size_foldToDepth_le t.size t

theorem sizeList_map_foldConstants_le (args : List Term) :
    sizeList (args.map foldConstants) ≤ sizeList args :=
  sizeList_map_le fun _ _ => size_foldConstants_le _

end HornSaturation.Term
