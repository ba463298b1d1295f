import HornSaturation.Proofs.Reader.Steps
import HornSaturation.Proofs.Term.Substitution
import HornSaturation.Reader.Terms

/-!
# Terms as they are read

A name is read as the relation of that name that was declared last. A problem stays as it is while a
term is read, so all applications in a term resolve names alike, and applications of different
relations in one term have different names.
-/

namespace HornSaturation

namespace Problem

variable {p : Problem} {name : String} {r r' : Relation}

/-- A relation is the one that its name stands for. -/
def Names (p : Problem) (id : RelationId) : Prop := ∃ r, p.named? r.name = some r ∧ r.id = id

theorem names_of_named? (h : p.named? name = some r) : p.Names r.id := by
  have hname : r.name = name := by simpa using List.find?_some h
  exact ⟨r, hname ▸ h, rfl⟩

end Problem

namespace Reader

variable {p : Problem} {name : String}

theorem appliesOnly_applyName {args : List Term} {t : Term} (h : applyName p name args = .ok t)
    (hargs : ∀ t ∈ args, t.AppliesOnly p.Names) : t.AppliesOnly p.Names := by
  unfold applyName at h
  split at h
  · obtain rfl := Except.ok.inj h
    exact Term.appliesOnly_conjoin.mpr hargs
  · obtain rfl := Except.ok.inj h
    exact Term.appliesOnly_disjoin hargs
  split at h
  · split at h
    · split at h
      · obtain rfl := Except.ok.inj h
        exact (Term.appliesOnly_op _ _).mpr hargs
      · cases h
    · split at h
      · cases h
      · obtain rfl := Except.ok.inj h
        exact (Term.appliesOnly_op _ _).mpr hargs
  · split at h
    · next r hr =>
      split at h
      · obtain rfl := Except.ok.inj h
        exact (Term.appliesOnly_app _ _ _).mpr ⟨Problem.names_of_named? hr, hargs⟩
      · cases h
    · cases h

theorem appliesOnly_nameTerm (sort : Option BaseSort) :
    (nameTerm p sort name).AppliesOnly p.Names := by
  unfold nameTerm
  split
  · exact Term.appliesOnly_bool true
  · exact Term.appliesOnly_bool false
  · split
    · next hr => exact (Term.appliesOnly_app _ _ _).mpr ⟨Problem.names_of_named? hr, by simp⟩
    · exact Term.appliesOnly_var _

theorem yields_readName : Yields p (Term.AppliesOnly p.Names) readName := by
  refine yields_readSymbol.bind fun name _ => (yields_sortOf? name).bind fun sort _ => ?_
  refine Yields.get.bind fun s hs => .pure ?_
  exact hs ▸ appliesOnly_nameTerm sort

theorem yields_enterScope (bindings : List (String × Term)) :
    Yields p (fun _ => True) (enterScope bindings) := by
  induction bindings with
  | nil => exact .pure trivial
  | cons b bindings ih =>
    exact (yields_sortOf? b.1).bind fun _ _ => (yields_setSort b.1 _).bind fun _ _ =>
      ih.bind fun _ _ => .pure trivial

theorem yields_leaveScope (old : List (String × Option BaseSort)) :
    Yields p (fun _ => True) (leaveScope old) := by
  induction old with
  | nil => exact .pure trivial
  | cons b old ih => exact (yields_setSort b.1 b.2).bind fun _ _ => ih

/-- What the readers of terms, arguments, bindings and quantified variables give back with a number
of characters left. -/
structure Resolving (p : Problem) (n : Nat) : Prop where
  term : Yields p (Term.AppliesOnly p.Names) (readTermWithin n)
  arguments : Yields p (fun ts => ∀ t ∈ ts, t.AppliesOnly p.Names) (readArgsWithin n)
  bindings : Yields p (fun bs => ∀ b ∈ bs, b.2.AppliesOnly p.Names) (readBindingsWithin n)
  bound : Yields p (fun _ => True) (readBoundWithin n)

namespace Resolving

variable {n : Nat}

theorem zero : Resolving p 0 := ⟨.fail, .fail, .fail, .fail⟩

/-- A quantifier leaves its body behind. -/
theorem quantified (h : Resolving p n) : Yields p (Term.AppliesOnly p.Names) (do
    expect '('
    readBoundWithin n
    expect ')'
    let body ← readTermWithin n
    expect ')'
    return body) :=
  (yields_expect _).bind fun _ _ => h.bound.bind fun _ _ => (yields_expect _).bind fun _ _ =>
    h.term.bind fun _ hbody => (yields_expect _).bind fun _ _ => .pure hbody

theorem readTerm (h : Resolving p n) :
    Yields p (Term.AppliesOnly p.Names) (readTermWithin (n + 1)) := by
  rw [readTermWithin]
  refine yields_skipBlanks.bind fun _ _ => yields_peek?.bind fun next _ => ?_
  split
  · refine (yields_expect _).bind fun _ _ => yields_readSymbol.bind fun name _ =>
      yields_skipBlanks.bind fun _ _ => ?_
    split
    · -- The values of a `let` come before its body, which they are put into.
      refine (yields_expect _).bind fun _ _ => h.bindings.bind fun bindings hbindings =>
        (yields_expect _).bind fun _ _ => (yields_enterScope _).bind fun old _ =>
        h.term.bind fun body hbody => (yields_expect _).bind fun _ _ =>
        (yields_leaveScope _).bind fun _ _ => .pure ?_
      refine hbody.substitute ?_
      simp only [bindingSubstitution, List.forall_mem_map]
      exact hbindings
    · exact h.quantified
    · exact h.quantified
    · refine h.arguments.bind fun args hargs => (yields_expect _).bind fun _ _ =>
        Yields.get.bind fun s hs => .liftExcept fun t ht => ?_
      exact appliesOnly_applyName (hs ▸ ht) hargs
  · split
    · exact yields_readNumeral.bind fun n _ => .pure (Term.appliesOnly_int n)
    · exact yields_readName
  · exact .fail

theorem readArgs (h : Resolving p n) :
    Yields p (fun ts => ∀ t ∈ ts, t.AppliesOnly p.Names) (readArgsWithin (n + 1)) := by
  rw [readArgsWithin]
  refine yields_skipBlanks.bind fun _ _ => yields_peek?.bind fun next _ => ?_
  split
  · exact .pure (by simp)
  · refine h.term.bind fun t ht => h.arguments.bind fun ts hts => .pure ?_
    exact List.forall_mem_cons.mpr ⟨ht, hts⟩

theorem readBindings (h : Resolving p n) :
    Yields p (fun bs => ∀ b ∈ bs, b.2.AppliesOnly p.Names) (readBindingsWithin (n + 1)) := by
  rw [readBindingsWithin]
  refine yields_skipBlanks.bind fun _ _ => yields_peek?.bind fun next _ => ?_
  split
  · exact .pure (by simp)
  · refine (yields_expect _).bind fun _ _ => yields_readSymbol.bind fun name _ =>
      h.term.bind fun t ht => (yields_expect _).bind fun _ _ =>
      h.bindings.bind fun bs hbs => .pure ?_
    exact List.forall_mem_cons.mpr ⟨ht, hbs⟩

theorem readBound (h : Resolving p n) : Yields p (fun _ => True) (readBoundWithin (n + 1)) := by
  rw [readBoundWithin]
  refine yields_skipBlanks.bind fun _ _ => yields_peek?.bind fun next _ => ?_
  split
  · exact .pure trivial
  · exact (yields_expect _).bind fun _ _ => yields_readSymbol.bind fun _ _ =>
      yields_readSort.bind fun _ _ => (yields_expect _).bind fun _ _ =>
      (yields_setSort _ _).bind fun _ _ => h.bound

end Resolving

/-- By induction on the number of characters left, which bounds the depth of terms. -/
theorem resolving (p : Problem) (n : Nat) : Resolving p n := by
  induction n with
  | zero => exact .zero
  | succ n ih => exact ⟨ih.readTerm, ih.readArgs, ih.readBindings, ih.readBound⟩

/-- Reading a term leaves the problem as it is, and all applications in the term resolve names as
the problem does. -/
theorem yields_readTerm : Yields p (Term.AppliesOnly p.Names) readTerm :=
  Yields.get.bind fun _ _ => (resolving p _).term

end Reader

end HornSaturation
