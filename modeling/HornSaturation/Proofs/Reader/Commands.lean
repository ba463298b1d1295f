import HornSaturation.Proofs.Clause.Extraction
import HornSaturation.Proofs.Reader.Terms
import HornSaturation.Reader.Commands

/-!
# Problems as they are read

While a problem is read, relations keep their positions and clauses keep their relations, also where
a name is declared again. All names of a clause are resolved in one state of the problem, so no
clause that is read applies two relations of one name.
-/

namespace HornSaturation

/-- No two applications of a clause apply different relations of one name. -/
def Clause.Unambiguous (relations : List Relation) (c : Clause) : Prop :=
  ∀ a ∈ c.applications, ∀ b ∈ c.applications, ∀ r r', relations[a.relation]? = some r →
    relations[b.relation]? = some r' → r.name = r'.name → a.relation = b.relation

/-- Relations carry their positions, and clauses apply declared relations and are unambiguous. -/
structure Problem.Unambiguous (p : Problem) : Prop where
  positions : ∀ (i : Nat) (r : Relation), p.relations[i]? = some r → r.id = i
  declared : ∀ c ∈ p.clauses, ∀ a ∈ c.applications, a.relation < p.relations.length
  clauses : ∀ c ∈ p.clauses, c.Unambiguous p.relations

namespace Problem

variable {p : Problem} {c : Clause} {id : RelationId}

theorem Names.getElem? (h : p.Names id)
    (hp : ∀ (i : Nat) (r : Relation), p.relations[i]? = some r → r.id = i) :
    ∃ r, p.relations[id]? = some r ∧ p.named? r.name = some r := by
  obtain ⟨r, hr, rfl⟩ := h
  obtain ⟨i, hi⟩ := List.mem_iff_getElem?.mp
    (List.mem_reverse.mp (List.mem_of_find?_eq_some hr))
  obtain rfl := hp i r hi
  exact ⟨r, hi, hr⟩

/-- A clause whose relations are those that their names stand for is unambiguous. -/
theorem Unambiguous.addClause (h : p.Unambiguous) (hc : ∀ a ∈ c.applications, p.Names a.relation) :
    (p.addClause c).Unambiguous := by
  refine ⟨h.positions, ?_, ?_⟩
  · refine List.forall_mem_append.mpr ⟨h.declared, List.forall_mem_singleton.mpr fun a ha => ?_⟩
    obtain ⟨r, hr, -⟩ := (hc a ha).getElem? h.positions
    exact (List.getElem?_eq_some_iff.mp hr).1
  · refine List.forall_mem_append.mpr ⟨h.clauses, List.forall_mem_singleton.mpr ?_⟩
    intro a ha b hb r r' hr hr' hname
    obtain ⟨r₁, hr₁, hnamed⟩ := (hc a ha).getElem? h.positions
    obtain ⟨r₂, hr₂, hnamed'⟩ := (hc b hb).getElem? h.positions
    obtain rfl := Option.some.inj (hr.symm.trans hr₁)
    obtain rfl := Option.some.inj (hr'.symm.trans hr₂)
    rw [hname, hnamed'] at hnamed
    rw [← h.positions _ _ hr, ← h.positions _ _ hr', Option.some.inj hnamed]

/-- Another declaration changes nothing about the clauses before it. -/
theorem Unambiguous.declare (h : p.Unambiguous) (name : String) (sorts : List BaseSort) :
    (p.declare name sorts).Unambiguous := by
  have hold {a : Application} {c : Clause} (hc : c ∈ p.clauses) (ha : a ∈ c.applications) :
      (p.declare name sorts).relations[a.relation]? = p.relations[a.relation]? :=
    List.getElem?_append_left (h.declared c hc a ha)
  refine ⟨fun i r hr => ?_, fun c hc a ha => ?_, fun c hc a ha b hb r r' hr hr' => ?_⟩
  · rw [Problem.declare, List.getElem?_append] at hr
    split at hr
    · exact h.positions i r hr
    · next hi =>
      obtain ⟨hlt, rfl⟩ := List.getElem?_eq_some_iff.mp hr
      have hzero : i - p.relations.length = 0 := Nat.lt_one_iff.mp hlt
      have hlast : p.relations.length = i := by omega
      rw [List.getElem_singleton]
      exact hlast
  · have hlt := h.declared c hc a ha
    exact Nat.lt_of_lt_of_le hlt (by simp [Problem.declare])
  · rw [hold hc ha] at hr
    rw [hold hc hb] at hr'
    exact h.clauses c hc a ha b hb r r' hr hr'

end Problem

namespace Term

variable {t : Term}

/-- The applications among the conjuncts of a formula are applied in it. -/
theorem applies_of_mem_applications {a : Application} (ha : a ∈ t.applications) :
    t.Applies a.relation := by
  induction t using structural with
  | bool b => cases ha
  | int n => cases ha
  | var v => cases ha
  | app name r args ih =>
    obtain rfl := List.mem_singleton.mp ha
    exact (mentions_app name r args).mpr (.inl rfl)
  | op o args ih =>
    by_cases ho : o = .and
    · subst ho
      rw [applications, applicationsList_eq] at ha
      obtain ⟨t, ht, ha⟩ := List.mem_flatMap.mp ha
      exact (mentions_op .and args).mpr ⟨t, ht, ih t ht ha⟩
    · rw [(parts_op ho args).1] at ha
      cases ha

end Term

theorem Clause.applies_of_ofBody {body : Term} {a : Application}
    (ha : a ∈ (ofBody body).applications) : body.Applies a.relation := by
  rw [applications, ofBody, Option.toList_none, List.append_nil] at ha
  exact Term.applies_of_mem_applications ha

/-- The relations that the clause of a formula applies are applied in the formula. -/
theorem Clause.applies_of_ofFormula? {t : Term} {c : Clause} (hc : c ∈ ofFormula? t)
    {a : Application} (ha : a ∈ c.applications) : t.Applies a.relation := by
  have himplication {body head : Term} (hc : c ∈ ofImplication? body head) :
      body.Applies a.relation ∨ head.Applies a.relation := by
    unfold ofImplication? at hc
    split at hc
    · cases hc
    · obtain rfl := Option.some.inj hc
      exact .inl (applies_of_ofBody ha)
    · obtain rfl := Option.some.inj hc
      rcases List.mem_append.mp ha with ha | ha
      · exact .inl (Term.applies_of_mem_applications ha)
      · obtain rfl := List.mem_singleton.mp ha
        exact .inr ((Term.mentions_app _ _ _).mpr (.inl rfl))
    · obtain rfl := Option.some.inj hc
      exact .inl (applies_of_ofBody ha)
  unfold ofFormula? at hc
  split at hc
  · rcases himplication hc with h | h
    · exact (Term.mentions_op _ _).mpr ⟨_, by simp, h⟩
    · exact (Term.mentions_op _ _).mpr ⟨_, by simp, h⟩
  · obtain rfl := Option.some.inj hc
    exact (Term.mentions_op _ _).mpr ⟨_, by simp, applies_of_ofBody ha⟩
  · rcases himplication hc with h | h
    · exact h.elim
    · exact h

namespace Reader

variable {pre : Problem → Prop}

theorem leads_modifyProblem {f : Problem → Problem} {post : Problem → Prop}
    (h : ∀ p, pre p → post (f p)) : Leads pre (modifyProblem f) fun _ => post := by
  intro s a s' hs hrun
  obtain ⟨-, rfl⟩ := Prod.mk.inj (Except.ok.inj hrun)
  exact h _ hs

/-- A rule adds a clause whose relations are those that their names stand for. -/
theorem leads_readRule : Leads Problem.Unambiguous readRule fun _ => Problem.Unambiguous := by
  refine (Yields.leads fun _ => yields_readTerm).bind fun t => ?_
  split
  · next c hc =>
    refine leads_modifyProblem fun p hp => hp.1.addClause fun a ha => ?_
    exact hp.2 a.relation (Clause.applies_of_ofFormula? hc ha)
  · exact .pure fun _ hp => hp.1

theorem leads_readQuery : Leads Problem.Unambiguous readQuery fun _ => Problem.Unambiguous := by
  refine (Yields.leads' fun _ => yields_peek?).bind fun next => ?_
  split
  · refine (Yields.leads fun _ => yields_readTerm).bind fun t => ?_
    exact leads_modifyProblem fun p hp => hp.1.addClause fun a ha =>
      hp.2 a.relation (Clause.applies_of_ofBody ha)
  · refine (Yields.leads' fun _ => yields_readSymbol).bind fun name => ?_
    refine (Yields.leads fun _ => .get).bind fun s => ?_
    split
    · next r hr =>
      refine leads_modifyProblem fun p hp => hp.1.addClause fun a ha => ?_
      obtain rfl := List.mem_singleton.mp ha
      exact Problem.names_of_named? (hp.2 ▸ hr)
    · exact .fail

theorem yields_readSortsWithin {p : Problem} (n : Nat) :
    Yields p (fun _ => True) (readSortsWithin n) := by
  induction n with
  | zero => exact .fail
  | succ n ih =>
    rw [readSortsWithin]
    refine yields_skipBlanks.bind fun _ _ => yields_peek?.bind fun next _ => ?_
    split
    · exact .pure trivial
    · exact yields_readSort.bind fun _ _ => ih.bind fun _ _ => .pure trivial

theorem leads_readRelation (isFunction : Bool) :
    Leads Problem.Unambiguous (readRelation isFunction) fun _ => Problem.Unambiguous := by
  have hdeclare (name : String) (sorts : List BaseSort) :
      Leads Problem.Unambiguous (modifyProblem (·.declare name sorts))
        fun _ => Problem.Unambiguous := leads_modifyProblem fun _ hp => hp.declare name sorts
  refine (Yields.leads' fun _ => yields_readSymbol).bind fun name => ?_
  refine (Yields.leads' fun _ => yields_skipBlanks).bind fun _ => ?_
  refine (Yields.leads' fun _ => yields_expect _).bind fun _ => ?_
  refine (Yields.leads' fun _ => Yields.get.mono fun _ _ => trivial).bind fun s => ?_
  refine (Yields.leads' fun _ => yields_readSortsWithin _).bind fun sorts => ?_
  refine (Yields.leads' fun _ => yields_expect _).bind fun _ => ?_
  split
  · refine (Yields.leads' fun _ => yields_readSort).bind fun sort => ?_
    split
    · exact Leads.fail.bind fun _ => hdeclare name sorts
    · exact hdeclare name sorts
  · exact hdeclare name sorts

theorem leads_readCommand : Leads Problem.Unambiguous readCommand fun _ => Problem.Unambiguous := by
  have hfinish : Leads Problem.Unambiguous finishCommand fun _ => Problem.Unambiguous :=
    Yields.leads' fun _ => yields_skipBlanks.bind fun _ _ => yields_expect _
  have hvariable : Leads Problem.Unambiguous readVariable fun _ => Problem.Unambiguous :=
    Yields.leads' fun _ => yields_readSymbol.bind fun _ _ => yields_readSort.bind fun _ _ =>
      yields_setSort _ _
  refine (Yields.leads' fun _ => yields_expect _).bind fun _ => ?_
  refine (Yields.leads' fun _ => yields_skipBlanks).bind fun _ => ?_
  refine (Yields.leads' fun _ => yields_readSymbol).bind fun name => ?_
  refine (Yields.leads' fun _ => yields_skipBlanks).bind fun _ => ?_
  split
  · exact (Yields.leads' fun _ => yields_readSymbol).bind fun _ => hfinish
  · exact (leads_readRelation false).bind fun _ => hfinish
  · exact (leads_readRelation true).bind fun _ => hfinish
  · exact hvariable.bind fun _ => hfinish
  · exact hvariable.bind fun _ => hfinish
  · exact leads_readRule.bind fun _ => hfinish
  · exact leads_readRule.bind fun _ => hfinish
  · exact leads_readQuery.bind fun _ => hfinish
  · exact Yields.leads' fun _ => yields_move _

theorem leads_readCommandsWithin (n : Nat) :
    Leads Problem.Unambiguous (readCommandsWithin n) fun _ => Problem.Unambiguous := by
  induction n with
  | zero => exact .pure fun _ hp => hp
  | succ n ih =>
    rw [readCommandsWithin]
    refine (Yields.leads' fun _ => yields_skipBlanks).bind fun _ => ?_
    refine (Yields.leads' fun _ => yields_peek?).bind fun next => ?_
    split
    · exact leads_readCommand.bind fun _ => ih
    · exact .pure fun _ hp => hp

end Reader

/-- In a problem that has been read no clause applies two relations of one name, even if the name
has been declared more than once. -/
theorem Problem.unambiguous_of_read {text : String} {p : Problem} (h : Problem.read text = .ok p) :
    p.Unambiguous := by
  obtain ⟨⟨u, s⟩, hrun, hp⟩ := Except.bind_eq_ok.mp h
  obtain rfl := Except.ok.inj hp
  exact Reader.leads_readCommandsWithin _ _ u s ⟨by simp, by simp, by simp⟩ hrun

end HornSaturation
