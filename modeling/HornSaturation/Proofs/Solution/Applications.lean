import HornSaturation.Proofs.Clause.Stated
import HornSaturation.Proofs.Solution.Check
import HornSaturation.Proofs.Solution.Interpretations

/-!
# Formulas for clauses

Applying an interpretation puts the arguments in the place of its variables and marks its
existential variables. The result holds only if the values of the arguments are admitted, and if
they are, it holds for some values of the marked variables. Applications at different positions have
different marks, so the interpretations of a whole body are true together if each admits the values
of its arguments. The formula of a clause is therefore valid exactly if the interpretations satisfy
the clause, as long as no variable of the clause is a marked one.
-/

namespace HornSaturation

namespace Interpretation

/-- The copy of an existential variable for a tag. -/
def mark (tag : String) (v : Var) : Var := ⟨v.name ++ "!" ++ tag, v.sort⟩

/-- The copies of the existential variables for a tag. -/
def marks (i : Interpretation) (tag : String) : List Var := i.existentials.map (mark tag)

variable {sorts : List BaseSort} {i : Interpretation} {tag tag' : String} {args : List Term}

private theorem mark_toList (k : Nat) (v : Var) :
    (mark tag (Solution.existential k v)).name.toList =
      ('e' :: (toString k).toList) ++ '!' :: tag.toList := by
  simp [mark, Solution.existential, String.toList_append]

theorem mark_injective (tag : String) : Function.Injective (mark tag) := by
  intro v w h
  obtain ⟨name, sort⟩ := v
  obtain ⟨name', sort'⟩ := w
  obtain ⟨hname, hsort⟩ := Var.mk.inj h
  exact Var.mk.injEq .. ▸ ⟨by simpa using hname, hsort⟩

/-- The copies of existential variables for a tag. -/
def IsCopy (tag : String) (v : Var) : Prop := ∃ k w, v = mark tag (Solution.existential k w)

theorem WellFormed.isCopy (h : i.WellFormed sorts) {v : Var} (hv : v ∈ i.marks tag) :
    IsCopy tag v := by
  obtain ⟨u, hu, rfl⟩ := List.mem_map.mp hv
  obtain ⟨locals, hlocals⟩ := h.existentials
  rw [hlocals] at hu
  obtain ⟨k, hk, rfl⟩ := List.mem_mapIdx.mp hu
  exact ⟨k, _, rfl⟩

/-- Copies of one name for one tag are one variable. -/
theorem WellFormed.eq_of_name (h : i.WellFormed sorts) {v w : Var} (hv : v ∈ i.marks tag)
    (hw : w ∈ i.marks tag) (hname : v.name = w.name) : v = w := by
  obtain ⟨u, hu, rfl⟩ := List.mem_map.mp hv
  obtain ⟨u', hu', rfl⟩ := List.mem_map.mp hw
  obtain ⟨locals, hlocals⟩ := h.existentials
  rw [hlocals] at hu hu'
  obtain ⟨j, hj, rfl⟩ := List.mem_mapIdx.mp hu
  obtain ⟨k, hk, rfl⟩ := List.mem_mapIdx.mp hu'
  have hsame : (Solution.existential j locals[j]).name = (Solution.existential k locals[k]).name :=
    (String.append_left_inj _).mp ((String.append_left_inj _).mp hname)
  obtain rfl : j = k := toString_injective ((String.append_right_inj _).mp hsame)
  rfl

namespace IsCopy

variable {v : Var}

theorem not_isMarked (h : IsCopy tag v) (htag : '@' ∉ tag.toList) : ¬ v.IsMarked := by
  obtain ⟨k, w, rfl⟩ := h
  rw [Var.IsMarked, mark_toList]
  simp only [List.mem_append, List.mem_cons, not_or]
  exact ⟨⟨by decide, notMem_toString rfl k⟩, by decide, htag⟩

/-- The tag of a copy can be read off its name. -/
theorem tag_inj {w : Var} (h : IsCopy tag v) (h' : IsCopy tag' w) (hname : v.name = w.name) :
    tag = tag' := by
  obtain ⟨j, u, rfl⟩ := h
  obtain ⟨k, u', rfl⟩ := h'
  have hlist := congrArg String.toList hname
  simp only [mark_toList] at hlist
  have notMem (n : Nat) : '!' ∉ 'e' :: (toString n).toList := by
    rw [List.mem_cons, not_or]
    exact ⟨by decide, notMem_toString rfl n⟩
  exact String.toList_injective (eq_of_first (notMem j) (notMem k) hlist).2

theorem isReserved (h : IsCopy tag v) : isReserved v.name = true := by
  obtain ⟨k, w, rfl⟩ := h
  rw [HornSaturation.isReserved, mark_toList]
  simp

end IsCopy

/-- Applying an interpretation puts the arguments and the copies in the places of its variables. -/
theorem WellFormed.exists_bind (h : i.WellFormed sorts)
    (hargs : Term.haveSorts args sorts = true) (tag : String) :
    ∃ f : Var → Term, i.apply args tag = i.formula.bind f ∧
      (∀ v, (f v).hasSort v.sort = true) ∧ i.vars.map f = args ∧
      ∀ v ∈ i.existentials, f v = .var (mark tag v) := by
  have hpairs : List.Forall₂ (fun v t => t.hasSort v.sort = true) i.vars args := by
    have hflip := (Term.haveSorts_iff.mp hargs).flip
    rwa [← h.vars_sort, List.forall₂_map_left_iff] at hflip
  have hcopies : List.Forall₂ (fun v t => t.hasSort v.sort = true) i.existentials
      ((i.marks tag).map Term.var) := by
    rw [marks, List.map_map, List.forall₂_map_right_iff, List.forall₂_same]
    exact fun v _ => Term.hasSort_var.mpr rfl
  have hall := List.rel_append hpairs hcopies
  have happly : i.apply args tag = i.formula.bind (Substitution.image
      ((i.vars ++ i.existentials).zip (args ++ (i.marks tag).map .var))) := by
    rw [← Term.substitute_eq_bind, List.zip_append hpairs.length_eq]
    rfl
  obtain ⟨hvars, hmarks⟩ := List.append_inj ((List.map_append ..).symm.trans
    (Substitution.map_image_zip h.nodup hall.length_eq)) (by simpa using hpairs.length_eq)
  exact ⟨_, happly, Substitution.image_sorted fun p hp => (List.forall₂_iff_zip.mp hall).2 hp,
    hvars, List.map_inj_left.mp (hmarks.trans List.map_map)⟩

/-- What applying an interpretation to terms says: the values of the terms are admitted, and
admitted values make it true for some values of the marked variables. -/
theorem apply_spec (h : i.WellFormed sorts) (hargs : Term.haveSorts args sorts = true)
    (tag : String) :
    (i.apply args tag).hasSort .bool = true ∧
      (∀ v ∈ (i.apply args tag).occurrences,
        (∃ t ∈ args, v ∈ t.occurrences) ∨ v ∈ i.marks tag) ∧
      ∀ (z : ZeroDivision) (ρ : Valuation) (values : List Value),
        args.map (Term.meaning z ρ) = values.map some →
        ((i.apply args tag).Holds z ρ → i.Admits z values) ∧
        ((∀ t ∈ args, ∀ v ∈ t.occurrences, v ∉ i.marks tag) → i.Admits z values →
          (i.apply args tag).HoldsFor z (i.marks tag) ρ) := by
  obtain ⟨f, happly, hsorted, hvars, hmarks⟩ := h.exists_bind hargs tag
  rw [happly]
  -- Under the composed valuation the variables have the values of the arguments.
  have hvia {z : ZeroDivision} {ρ : Valuation} {values : List Value}
      (hvalues : args.map (Term.meaning z ρ) = values.map some) :
      i.vars.map (ρ.via z f hsorted).value = values := by
    refine List.map_injective_iff.mpr (fun _ _ => Option.some.inj) ?_
    rw [← hvalues, ← hvars, List.map_map, List.map_map]
    exact List.map_congr_left fun v _ => (ρ.meaning_image hsorted v).symm
  refine ⟨Term.hasSort_bind hsorted h.sorted, fun w hw => ?_, fun z ρ values hvalues =>
    ⟨fun hρ => ⟨_, hvia hvalues, (Term.holds_bind hsorted).mp hρ⟩, fun hclear hadmits => ?_⟩⟩
  · obtain ⟨v, hv, hwv⟩ := Term.mem_occurrences_bind.mp hw
    rcases h.occurrences v hv with hv | hv
    · exact .inl ⟨f v, hvars ▸ List.mem_map_of_mem hv, hwv⟩
    · rw [hmarks v hv, Term.occurrences_var, List.mem_singleton] at hwv
      exact .inr (hwv ▸ List.mem_map_of_mem hv)
  · obtain ⟨ρ₀, hvalues₀, hρ₀⟩ := hadmits
    obtain ⟨ρ', hin, hout⟩ := Valuation.exists_glue ρ ρ₀ (S := i.existentials) (g := mark tag)
      (fun _ _ => rfl) fun v _ w _ heq => mark_injective tag heq
    have hoff : Valuation.AgreeOff (i.marks tag) ρ ρ' := fun w hw =>
      hout w fun v hv hvw => hw (hvw ▸ List.mem_map_of_mem hv)
    have hvalues' : args.map (Term.meaning z ρ') = values.map some :=
      (List.map_congr_left fun t ht => Term.evalWith_congr fun v hv =>
        congrArg some (hoff v (hclear t ht v hv))).trans hvalues
    refine ⟨ρ', hoff, (Term.holds_bind hsorted).mpr ((Term.holds_congr fun v hv => ?_).mp hρ₀)⟩
    rcases h.occurrences v hv with hv | hv
    · exact List.map_inj_left.mp (hvalues₀.trans (hvia hvalues').symm) v hv
    · have hvalue := ρ'.meaning_of_image (z := z) hsorted (hmarks v hv)
      rw [Term.meaning_var, hin v hv] at hvalue
      exact Option.some.inj hvalue

end Interpretation

/-- A clause whose condition is a formula and whose relations are declared and applied to terms of
the declared sorts. -/
structure Clause.Fits (relations : List Relation) (c : Clause) : Prop where
  condition : c.condition.hasSort .bool = true
  applications : ∀ a ∈ c.applications, ∃ r, relation? relations a.relation = some r ∧
    Term.haveSorts a.args r.sorts = true

theorem Clause.WellSorted.fits {relations : List Relation} {c : Clause}
    (hc : c.WellSorted relations) (hr : WellDeclared relations) : c.Fits relations :=
  ⟨hc.condition, fun a ha => (hc.applications a ha).imp fun r ⟨hget, hsorts⟩ =>
    ⟨relation?_eq_some.mpr ⟨hget, hr.positions _ r hget⟩, hsorts⟩⟩

theorem Clause.Fits.wellSorted {relations : List Relation} {c : Clause} (hc : c.Fits relations) :
    c.WellSorted relations :=
  ⟨hc.condition, fun a ha => (hc.applications a ha).imp fun _ ⟨hr, hsorts⟩ =>
    ⟨(relation?_eq_some.mp hr).1, hsorts⟩⟩

/-- What an application stands for only depends on the values of its variables. -/
theorem Application.Denotes.congr {z : ZeroDivision} {ρ ρ' : Valuation} {a : Application}
    {g : GroundAtom} (h : ∀ t ∈ a.args, ∀ v ∈ t.occurrences, ρ'.value v = ρ.value v)
    (hg : a.Denotes z ρ g) : a.Denotes z ρ' g :=
  ⟨hg.1, (List.map_congr_left fun t ht =>
    Term.evalWith_congr fun v hv => congrArg some (h t ht v hv)).trans hg.2⟩

/-- What the head of a clause stands for only depends on the values of the clause's variables. -/
theorem Clause.HeadDenotes.congr {z : ZeroDivision} {ρ ρ' : Valuation} {c : Clause}
    {g : GroundAtom} (h : ∀ v ∈ c.occurrences, ρ'.value v = ρ.value v)
    (hg : Clause.HeadDenotes z ρ c.head g) : Clause.HeadDenotes z ρ' c.head g := by
  cases hhead : c.head with
  | none =>
    rw [hhead] at hg
    exact hg
  | some a =>
    rw [hhead] at hg
    exact Application.Denotes.congr (fun t ht v hv => h v (Clause.mem_occurrences_of_argument
      (List.mem_append_right _ (by simp [hhead])) ht hv)) hg

namespace Solution

variable {z : ZeroDivision} {relations : List Relation} {s : Solution} {c : Clause}

theorem get_eq_ok {id : RelationId} {i : Interpretation} :
    s.get id = .ok i ↔ s.get? id = some i := by
  unfold get
  cases s.get? id <;> simp

/-- The check passes over a clause because its head is interpreted with existential variables. -/
def PassesOver (s : Solution) (c : Clause) : Prop :=
  ∃ a i, c.head = some a ∧ s.get? a.relation = some i ∧ i.existentials ≠ []

/-- A solution that interprets the declared relations has well-formed interpretations of them. -/
theorem Interprets.wellFormed (hs : s.Interprets relations) {id : RelationId} {r : Relation}
    (hr : relation? relations id = some r) {i : Interpretation} (hi : s.get? id = some i) :
    i.WellFormed r.sorts := by
  obtain ⟨j, hj, hwell⟩ := hs id r hr
  obtain rfl : i = j := Option.some.inj (hi.symm.trans hj)
  exact hwell

/-- The ground atom of an application is true if the interpretation admits its values. -/
theorem trueIn_iff {a : Application} {i : Interpretation} (hi : s.get? a.relation = some i)
    {ρ : Valuation} {g : GroundAtom} (hg : a.Denotes z ρ g) :
    g.TrueIn (s.Admits z) ↔ i.Admits z g.args := by
  constructor
  · rintro ⟨id, hid, k, hk, hadmits⟩
    obtain rfl := Option.some.inj (hg.1.symm.trans hid)
    obtain rfl := Option.some.inj (hi.symm.trans hk)
    exact hadmits
  · exact fun hadmits => ⟨a.relation, hg.1, i, hi, hadmits⟩

/-- The formula for an application at a position: the interpretation of the relation, applied to the
arguments, with the tag of the position. -/
def FormulaAt (s : Solution) (tag : Nat → String) (use : Application × Nat) (t : Term) : Prop :=
  ∃ i, s.get? use.1.relation = some i ∧ t = i.apply use.1.args (tag use.2)

/-- The formula for a head: `false`, or an interpretation without existential variables, applied to
the arguments. -/
def IsHeadFormula (s : Solution) : (head : Option Application) → Term → Prop
  | none, u => u = .bool false
  | some a, u => ∃ i, s.get? a.relation = some i ∧ i.existentials = [] ∧ u = i.apply a.args "h"

/-- The formula for a clause, with a tag for each position of its body. -/
def IsFormulaOf (s : Solution) (tag : Nat → String) (c : Clause) (t : Term) : Prop :=
  ∃ ts u, List.Forall₂ (s.FormulaAt tag) c.body.zipIdx ts ∧ s.IsHeadFormula c.head u ∧
    t = .implication (.conjoin (c.condition :: ts)) u

/-- What the check has to ask about a clause: nothing, if it passes over the clause, and else its
formula. -/
def Asks (s : Solution) (tag : Nat → String) (c : Clause) : Option Term → Prop
  | none => s.PassesOver c
  | some t => s.IsFormulaOf tag c t

theorem Asks.eq_none_iff {tag : Nat → String} {t? : Option Term} (h : s.Asks tag c t?) :
    t? = none ↔ s.PassesOver c := by
  cases t? with
  | none => exact iff_of_true rfl h
  | some t =>
    refine iff_of_false nofun fun ⟨a, i, ha, hi, hne⟩ => ?_
    obtain ⟨ts, u, -, hu, -⟩ := h
    rw [ha] at hu
    obtain ⟨j, hj, hnone, -⟩ := hu
    obtain rfl := Option.some.inj (hi.symm.trans hj)
    exact hne hnone

/-- Whether the check passes over a clause only depends on the relation of the head. -/
theorem passesOver_congr {c' : Clause}
    (h : c.head.map (·.relation) = c'.head.map (·.relation)) :
    s.PassesOver c ↔ s.PassesOver c' := by
  have hone {c c' : Clause} (h : c.head.map (·.relation) = c'.head.map (·.relation)) :
      s.PassesOver c → s.PassesOver c' := by
    rintro ⟨a, i, ha, hi, hne⟩
    rw [ha, Option.map_some, eq_comm, Option.map_eq_some_iff] at h
    obtain ⟨b, hb, hrelation⟩ := h
    exact ⟨b, i, hb, hrelation ▸ hi, hne⟩
  exact ⟨hone h, hone h.symm⟩

/-- A copy at a position of a clause, of an existential variable of the relation that is applied
there. -/
def IsCopyAt (s : Solution) (tag : Nat → String) (c : Clause) (v : Var) : Prop :=
  ∃ n a i, c.body[n]? = some a ∧ s.get? a.relation = some i ∧ v ∈ i.marks (tag n)

namespace Interprets

variable {tag : Nat → String}

/-- The formulas of a body can be set up. -/
theorem exists_formulas (hs : s.Interprets relations) (tag : Nat → String)
    {body : List Application} (hsorted : ∀ a ∈ body, ∃ r,
      relation? relations a.relation = some r ∧ Term.haveSorts a.args r.sorts = true)
    (position : Nat) :
    ∃ ts, List.Forall₂ (s.FormulaAt tag) (body.zipIdx position) ts := by
  induction body generalizing position with
  | nil => exact ⟨[], .nil⟩
  | cons a body ih =>
    obtain ⟨⟨r, hid, -⟩, hsorted⟩ := List.forall_mem_cons.mp hsorted
    obtain ⟨i, hi, -⟩ := hs a.relation r hid
    obtain ⟨ts, hts⟩ := ih hsorted (position + 1)
    exact ⟨_, .cons ⟨i, hi, rfl⟩ hts⟩

/-- The formulas of a body are well sorted, and they hold only where the ground atoms of the body
are true. -/
theorem body_spec (hs : s.Interprets relations) (hc : c.Fits relations) {ts : List Term}
    (hall : List.Forall₂ (s.FormulaAt tag) c.body.zipIdx ts) :
    (∀ t ∈ ts, t.hasSort .bool = true ∧
      ∀ v ∈ t.occurrences, v ∈ c.occurrences ∨ s.IsCopyAt tag c v) ∧
    ∀ (z : ZeroDivision) (ρ : Valuation) (body : List GroundAtom),
      List.Forall₂ (Application.Denotes z ρ) c.body body → (∀ t ∈ ts, t.Holds z ρ) →
      ∀ g ∈ body, g.TrueIn (s.Admits z) := by
  refine ⟨fun t ht => ?_, fun z ρ body hbody htrue g hg => ?_⟩
  · obtain ⟨⟨a, n⟩, hmem, i, hi, rfl⟩ := hall.flip.exists_right ht
    have hget : c.body[n]? = some a := List.mk_mem_zipIdx_iff_getElem?.mp hmem
    have ha : a ∈ c.applications := List.mem_append_left _ (List.mem_of_getElem? hget)
    obtain ⟨r, hid, hsorts⟩ := hc.applications a ha
    obtain ⟨hsort, hocc, -⟩ := Interpretation.apply_spec (hs.wellFormed hid hi) hsorts _
    refine ⟨hsort, fun v hv => ?_⟩
    rcases hocc v hv with ⟨u, hu, hvu⟩ | hv
    · exact .inl (Clause.mem_occurrences_of_argument ha hu hvu)
    · exact .inr ⟨n, a, i, hget, hi, hv⟩
  · have hpositions : List.Forall₂ (fun use g => Application.Denotes z ρ use.1 g) c.body.zipIdx
        body := by
      rwa [← List.zipIdx_map_fst 0 c.body, List.forall₂_map_left_iff] at hbody
    have hmatch := hall.imp_mem fun use huse u hu heq => And.intro huse (And.intro hu heq)
    have htruth : List.Forall₂ (fun t g => t ∈ ts ∧ (t.Holds z ρ → g.TrueIn (s.Admits z))) ts
        body := by
      refine hmatch.of_common hpositions ?_
      rintro ⟨a, n⟩ t g ⟨huse, ht, i, hi, rfl⟩ hdenotes
      have hget : c.body[n]? = some a := List.mk_mem_zipIdx_iff_getElem?.mp huse
      obtain ⟨r, hid, hsorts⟩ :=
        hc.applications a (List.mem_append_left _ (List.mem_of_getElem? hget))
      obtain ⟨-, -, hholds⟩ := Interpretation.apply_spec (hs.wellFormed hid hi) hsorts _
      exact ⟨ht, fun hρ => (trueIn_iff hi hdenotes).mpr ((hholds z ρ g.args hdenotes.2).1 hρ)⟩
    obtain ⟨t, -, ht, himp⟩ := htruth.flip.exists_right hg
    exact himp (htrue t ht)

/-- The formulas of a body are true together, for some values of their own marked variables, if the
ground atoms of the body are. -/
theorem allHoldFor_body (hs : s.Interprets relations) (htag : Function.Injective tag)
    {body : List Application} (hsorted : ∀ a ∈ body, ∃ r, relation? relations a.relation = some r ∧
      Term.haveSorts a.args r.sorts = true)
    (hplain : ∀ a ∈ body, ∀ t ∈ a.args, ∀ v ∈ t.occurrences, ∀ n,
      ¬ Interpretation.IsCopy (tag n) v)
    {position : Nat} {ts : List Term}
    (h : List.Forall₂ (s.FormulaAt tag) (body.zipIdx position) ts) :
    ∃ marks : List Var, (∀ v ∈ marks, ∃ n, position ≤ n ∧ Interpretation.IsCopy (tag n) v) ∧
      ∀ z ρ gs, List.Forall₂ (Application.Denotes z ρ) body gs →
        (∀ g ∈ gs, g.TrueIn (s.Admits z)) → Term.AllHoldFor z marks ρ ts := by
  induction body generalizing position ts with
  | nil =>
    obtain rfl := List.forall₂_nil_left_iff.mp h
    exact ⟨[], nofun, fun z ρ _ _ _ => ⟨ρ, .refl [] ρ, nofun⟩⟩
  | cons a body ih =>
    rw [List.zipIdx_cons, List.forall₂_cons_left_iff] at h
    obtain ⟨_, ts', ⟨i, hi, rfl⟩, hts', rfl⟩ := h
    obtain ⟨⟨r, hid, hsorts⟩, hsorted⟩ := List.forall_mem_cons.mp hsorted
    obtain ⟨hfirst, hplain⟩ := List.forall_mem_cons.mp hplain
    have hwell := hs.wellFormed hid hi
    obtain ⟨-, hocc, hholds⟩ := Interpretation.apply_spec hwell hsorts (tag position)
    obtain ⟨marks, hcopy, hrest⟩ := ih hsorted hplain hts'
    refine ⟨i.marks (tag position) ++ marks, fun v hv => ?_, fun z ρ gs hgs htrue => ?_⟩
    · rcases List.mem_append.mp hv with hv | hv
      · exact ⟨position, Nat.le_refl _, hwell.isCopy hv⟩
      · obtain ⟨n, hn, hc⟩ := hcopy v hv
        exact ⟨n, Nat.le_of_succ_le hn, hc⟩
    · cases hgs with
      | @cons _ g _ gs hg hgs =>
        obtain ⟨hgtrue, htrue⟩ := List.forall_mem_cons.mp htrue
        refine .cons ((hholds z ρ g.args hg.2).2 (fun t ht v hv hmark => ?_)
          ((trueIn_iff hi hg).mp hgtrue)) (fun v hv hv' => ?_) fun ρ' hoff => hrest z ρ' gs ?_ htrue
        · exact hfirst t ht v hv position (hwell.isCopy hmark)
        · obtain ⟨n, hn, hc⟩ := hcopy v hv'
          rcases hocc v hv with ⟨t, ht, hvt⟩ | hv
          · exact hfirst t ht v hvt n hc
          · have hpos : position = n := htag ((hwell.isCopy hv).tag_inj hc rfl)
            omega
        · refine hgs.imp_mem fun b hb g' _ hdenotes => hdenotes.congr fun t ht v hv => hoff v ?_
          exact fun hmark => hplain b hb t ht v hv position (hwell.isCopy hmark)

/-- The formula of a head is well sorted, and it holds where the ground atom of the head is true. -/
theorem head_spec (hs : s.Interprets relations) (hc : c.Fits relations) {u : Term}
    (h : s.IsHeadFormula c.head u) :
    u.hasSort .bool = true ∧ (∀ v ∈ u.occurrences, v ∈ c.occurrences) ∧
    ∀ (z : ZeroDivision) (ρ : Valuation) (g : GroundAtom), Clause.HeadDenotes z ρ c.head g →
      (u.Holds z ρ ↔ g.TrueIn (s.Admits z)) := by
  cases hhead : c.head with
  | none =>
    rw [hhead] at h
    obtain rfl : u = .bool false := h
    refine ⟨Term.hasSort_bool.mpr rfl, nofun, fun z ρ g hg => ⟨by simp, fun htrue => ?_⟩⟩
    obtain rfl : g = .falsum := hg
    obtain ⟨id, hid, -⟩ := htrue
    cases hid
  | some a =>
    rw [hhead] at h
    obtain ⟨i, hi, hnone, rfl⟩ := h
    have ha : a ∈ c.applications := List.mem_append_right _ (by simp [hhead])
    obtain ⟨r, hid, hsorts⟩ := hc.applications a ha
    obtain ⟨hsort, hocc, hholds⟩ :=
      Interpretation.apply_spec (hs.wellFormed hid hi) hsorts "h"
    have hmarks : i.marks "h" = [] := by rw [Interpretation.marks, hnone, List.map_nil]
    rw [hmarks] at hocc hholds
    refine ⟨hsort, fun v hv => ?_, fun z ρ g hg => ?_⟩
    · obtain ⟨u, hu, hvu⟩ := (hocc v hv).resolve_right List.not_mem_nil
      exact Clause.mem_occurrences_of_argument ha hu hvu
    · obtain ⟨hsound, hcomplete⟩ := hholds z ρ g.args hg.2
      rw [trueIn_iff hi hg]
      exact ⟨hsound, fun hadmits => Term.holdsFor_nil.mp (hcomplete (by simp) hadmits)⟩

/-- Where no variable of a clause is a copy, an instance whose body is true makes the condition and
the formulas of the body true under a valuation that gives the same head. -/
theorem exists_holds_premise (hs : s.Interprets relations) (hc : c.Fits relations)
    (htag : Function.Injective tag)
    (hplain : ∀ v ∈ c.occurrences, ∀ n, ¬ Interpretation.IsCopy (tag n) v) {ts : List Term}
    (hts : List.Forall₂ (s.FormulaAt tag) c.body.zipIdx ts) {body : List GroundAtom}
    {head : GroundAtom} (hinst : c.HasInstance z body head)
    (htrue : ∀ g ∈ body, g.TrueIn (s.Admits z)) :
    ∃ ρ, (Term.conjoin (c.condition :: ts)).Holds z ρ ∧ Clause.HeadDenotes z ρ c.head head := by
  obtain ⟨ρ, hρ, hatoms, hhead⟩ := hinst
  obtain ⟨marks, hcopy, hholds⟩ := hs.allHoldFor_body htag
    (fun a ha => hc.applications a (List.mem_append_left _ ha))
    (fun a ha t ht v hv => hplain v
      (Clause.mem_occurrences_of_argument (List.mem_append_left _ ha) ht hv)) hts
  obtain ⟨ρ', hoff, hρ'⟩ := hholds z ρ body hatoms htrue
  -- No copy occurs in the clause, so its condition and its head keep their meaning.
  have hsame : ∀ v ∈ c.occurrences, ρ'.value v = ρ.value v := fun v hv => hoff v fun hmark => by
    obtain ⟨n, -, hv'⟩ := hcopy v hmark
    exact hplain v hv n hv'
  have hcondition : c.condition.Holds z ρ' := (Term.holds_congr fun v hv =>
    (hsame v (Clause.mem_occurrences_of_condition hv)).symm).mp hρ
  exact ⟨ρ', Term.holds_conjoin.mpr (List.forall_mem_cons.mpr ⟨hcondition, hρ'⟩), hhead.congr hsame⟩

/-- The formula of a clause is well sorted. It is true under every valuation if the interpretations
satisfy the clause, and only then if no variable of the clause is a copy. -/
theorem formula_spec (hs : s.Interprets relations) (hc : c.Fits relations)
    (htag : Function.Injective tag) {t : Term} (h : s.IsFormulaOf tag c t) :
    t.hasSort .bool = true ∧
    (∀ v ∈ t.occurrences, v ∈ c.occurrences ∨ s.IsCopyAt tag c v) ∧
    ∀ z, (c.SatisfiedBy z (s.Admits z) → ∀ ρ, t.Holds z ρ) ∧
      ((∀ v ∈ c.occurrences, ∀ n, ¬ Interpretation.IsCopy (tag n) v) → (∀ ρ, t.Holds z ρ) →
        c.SatisfiedBy z (s.Admits z)) := by
  obtain ⟨ts, u, hts, hu, rfl⟩ := h
  obtain ⟨hterms, hbody⟩ := hs.body_spec hc hts
  obtain ⟨husort, huocc, hhead⟩ := hs.head_spec hc hu
  have hpremise : (Term.conjoin (c.condition :: ts)).hasSort .bool = true :=
    Term.hasSort_conjoin (List.forall_mem_cons.mpr ⟨hc.condition, fun t ht => (hterms t ht).1⟩)
  refine ⟨Term.hasSort_implication hpremise husort, fun v hv => ?_,
    fun z => ⟨fun hsatisfied ρ => (Term.holds_implication hpremise).mpr fun hρ => ?_,
      fun hplain hvalid body head hinst htrue => ?_⟩⟩
  · rw [Term.occurrences_implication] at hv
    rcases List.mem_append.mp hv with hv | hv
    · obtain ⟨t, ht, hvt⟩ := Term.mem_occurrences_conjoin hv
      rcases List.mem_cons.mp ht with rfl | ht
      · exact .inl (Clause.mem_occurrences_of_condition hvt)
      · exact (hterms t ht).2 v hvt
    · exact .inl (huocc v hv)
  · obtain ⟨hcondition, hall⟩ := List.forall_mem_cons.mp (Term.holds_conjoin.mp hρ)
    obtain ⟨body, head, hatoms, hheadAtom⟩ := hc.wellSorted.exists_denotes z ρ
    refine (hhead z ρ head hheadAtom).mpr (hsatisfied body head ⟨ρ, hcondition, hatoms, hheadAtom⟩ ?_)
    exact hbody z ρ body hatoms hall
  · obtain ⟨ρ, hρ, hheadAtom⟩ := hs.exists_holds_premise hc htag hplain hts hinst htrue
    exact (hhead z ρ head hheadAtom).mp ((Term.holds_implication hpremise).mp (hvalid ρ) hρ)

end Interprets

end Solution

end HornSaturation
