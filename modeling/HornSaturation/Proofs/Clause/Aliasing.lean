import HornSaturation.Proofs.Clause.Normalization
import HornSaturation.Proofs.Reader.Commands
import Mathlib

/-!
# Uses of a clause kept apart

The argument symbols of a use are named after its relation. Normalization counts the uses of each
relation and does not look at names, so it keeps uses of one relation apart, and also uses of
relations with different names; but uses of two relations of one name share their argument symbols
where they have the same occurrence. A name can be declared twice, but a clause that is read applies
only the relation of the name that was declared last.
-/

namespace HornSaturation

namespace Atom

variable {relations : List Relation} {a b : Atom}

/-- Two uses have argument symbols of one name. -/
def Aliases (relations : List Relation) (a b : Atom) : Prop :=
  ∃ v w, a.HasArgument relations v ∧ b.HasArgument relations w ∧ v.name = w.name

/-- Two identifiers stand for relations of one name, each with arguments. -/
def Homonyms (relations : List Relation) (i j : RelationId) : Prop :=
  ∃ r r', relation? relations i = some r ∧ relation? relations j = some r' ∧ r.name = r'.name ∧
    0 < r.arity ∧ 0 < r'.arity

/-- The name of an argument symbol tells the name of the relation, not the relation. -/
theorem aliases_iff : a.Aliases relations b ↔
    a.occurrence = b.occurrence ∧ Homonyms relations a.relation b.relation := by
  constructor
  · rintro ⟨v, w, ⟨vars, hvars, hv⟩, ⟨vars', hvars', hw⟩, hname⟩
    obtain ⟨r, hr, rfl⟩ := arguments_eq_ok.mp hvars
    obtain ⟨r', hr', rfl⟩ := arguments_eq_ok.mp hvars'
    obtain ⟨p, hp, rfl⟩ := Relation.mem_arguments.mp hv
    obtain ⟨p', hp', rfl⟩ := Relation.mem_arguments.mp hw
    obtain ⟨hrelation, hoccurrence, -⟩ := Relation.argument_inj hname
    exact ⟨hoccurrence, r, r', hr, hr', hrelation, Nat.zero_lt_of_lt hp, Nat.zero_lt_of_lt hp'⟩
  · rintro ⟨hoccurrence, r, r', hr, hr', hrelation, hpos, hpos'⟩
    refine ⟨r.argument a.occurrence 0, r'.argument b.occurrence 0,
      ⟨_, arguments_eq_ok.mpr ⟨r, hr, rfl⟩, Relation.mem_arguments.mpr ⟨0, hpos, rfl⟩⟩,
      ⟨_, arguments_eq_ok.mpr ⟨r', hr', rfl⟩, Relation.mem_arguments.mpr ⟨0, hpos', rfl⟩⟩, ?_⟩
    simp [Relation.argument, hoccurrence, hrelation]

/-- Different uses with argument symbols of one name are uses of different relations. -/
theorem Aliases.relation_ne (h : a.Aliases relations b) (hne : a ≠ b) :
    a.relation ≠ b.relation := by
  intro hrelation
  have hoccurrence := (aliases_iff.mp h).1
  cases a
  cases b
  simp_all

end Atom

namespace Clause

variable {relations : List Relation} {index : Nat} {c : Clause} {nc : NormalizedClause}

/-- No use of a normalized clause has an argument symbol named like a variable of the clause. -/
theorem argument_name_ne (hplain : ∀ v ∈ c.occurrences, isReserved v.name = false) {a : Atom}
    {v w : Var} (hv : a.HasArgument relations v) (hw : w ∈ c.occurrences) : v.name ≠ w.name := by
  obtain ⟨vars, hvars, hmem⟩ := hv
  intro hname
  have hmarked := Atom.arguments_isMarked hvars hmem
  rw [Var.IsMarked, hname] at hmarked
  exact (not_isReserved (hplain w hw)).1 hmarked

/-- The uses of a normalized clause are uses of relations that the clause applies. -/
theorem exists_application_of_uses (h : c.normalize relations index = .ok nc) {a : Atom}
    (ha : a ∈ nc.uses) : ∃ b ∈ c.applications, a.relation = b.relation := by
  rw [uses_of_normalize h] at ha
  obtain ⟨use, huse, rfl⟩ := List.mem_map.mp ha
  obtain ⟨b, hb, hrelation, -⟩ := exists_application huse
  exact ⟨b, hb, hrelation⟩

theorem uses_nodup (h : c.normalize relations index = .ok nc) : nc.uses.Nodup :=
  uses_of_normalize h ▸ c.numbered_nodup

/-- If no two relations that a clause applies have one name, its uses are kept apart. -/
theorem Unambiguous.uses_apart (hc : c.Unambiguous relations)
    (h : c.normalize relations index = .ok nc) :
    nc.uses.Pairwise fun a b => ¬ a.Aliases relations b := by
  refine (uses_nodup h).imp_of_mem fun {a b} ha hb hne halias => halias.relation_ne hne ?_
  obtain ⟨-, r, r', hr, hr', hname, -⟩ := Atom.aliases_iff.mp halias
  obtain ⟨a', ha', hrelation⟩ := exists_application_of_uses h ha
  obtain ⟨b', hb', hrelation'⟩ := exists_application_of_uses h hb
  have hget := (relation?_eq_some.mp hr).1
  have hget' := (relation?_eq_some.mp hr').1
  rw [hrelation] at hget
  rw [hrelation'] at hget'
  rw [hrelation, hrelation', hc a' ha' b' hb' r r' hget hget' hname]

end Clause

/-- What normalization keeps apart in the clause at an index. No argument symbol is named like a
variable of the clause. Two uses at different places of a clause, in the body or the head, have
argument symbols of one name exactly if they are uses of two relations of one name at the same
occurrence. So all uses are kept apart in a clause that does not apply two relations of one name,
and in every clause that has been read. -/
theorem Problem.uses_apart_of_normalize {p : Problem} {np : NormalizedProblem}
    (h : p.normalize = .ok np) : np.relations = p.relations ∧
      np.clauses.length = p.clauses.length ∧
      ∀ (i : Nat) (c : Clause), p.clauses[i]? = some c → ∃ nc, np.clauses[i]? = some nc ∧
        (∀ a ∈ nc.uses, ∀ v, a.HasArgument np.relations v →
          ∀ w ∈ c.occurrences, v.name ≠ w.name) ∧
        (nc.uses.Pairwise fun a b => a.Aliases np.relations b ↔
          a.occurrence = b.occurrence ∧ a.relation ≠ b.relation ∧
            Atom.Homonyms np.relations a.relation b.relation) ∧
        ((c.Unambiguous p.relations ∨ ∃ text, Problem.read text = .ok p) →
          nc.uses.Pairwise fun a b => ¬ a.Aliases np.relations b) := by
  obtain ⟨-, hrelations, hlength, hclauses⟩ := normalize_spec h
  refine ⟨hrelations, hlength, fun i c hc => ?_⟩
  have hmem := List.mem_of_getElem? hc
  obtain ⟨nc, hnc, hone⟩ := hclauses i c hc
  refine ⟨nc, hnc, fun a _ v hv w hw => Clause.argument_name_ne (plain_of_normalize h hmem) hv hw,
    (Clause.uses_nodup hone).imp fun {a b} hne => ?_, ?_⟩
  · constructor
    · intro halias
      obtain ⟨hoccurrence, hhomonyms⟩ := Atom.aliases_iff.mp halias
      exact ⟨hoccurrence, halias.relation_ne hne, hhomonyms⟩
    · rintro ⟨hoccurrence, -, hhomonyms⟩
      exact Atom.aliases_iff.mpr ⟨hoccurrence, hhomonyms⟩
  · rw [hrelations]
    rintro (hc | ⟨text, hread⟩)
    · exact hc.uses_apart hone
    · exact ((Problem.unambiguous_of_read hread).clauses c hmem).uses_apart hone

/-- A text that declares a relation again before it is used twice. -/
def Problem.declaredAgain : String :=
  "(declare-rel P(Int))(declare-rel P(Int))(rule(=>(P 1)(P 2)))"

theorem uses_apart_declaredAgain : ∃ p np nc, Problem.read Problem.declaredAgain = .ok p ∧
    p.normalize = .ok np ∧ np.clauses[0]? = some nc ∧ nc.uses = [⟨1, 0⟩, ⟨1, 1⟩] ∧
    nc.uses.Pairwise fun a b => ¬ a.Aliases np.relations b := by
  let c : Clause := ⟨[⟨1, [.int 1]⟩], none, some ⟨1, [.int 2]⟩⟩
  let p : Problem := ⟨[⟨0, "P", [.int]⟩, ⟨1, "P", [.int]⟩], [c]⟩
  have hread : Problem.read Problem.declaredAgain = .ok p := by cbv
  obtain ⟨np, hn⟩ : ∃ np, p.normalize = .ok np := ⟨_, rfl⟩
  obtain ⟨-, -, hclauses⟩ := Problem.uses_apart_of_normalize hn
  obtain ⟨nc, hnc, -, -, hapart⟩ := hclauses 0 c rfl
  refine ⟨p, np, nc, hread, hn, hnc, ?_, hapart (.inr ⟨_, hread⟩)⟩
  obtain rfl := Except.ok.inj hn
  obtain rfl := Option.some.inj hnc
  rfl

/-- A clause that applies two relations of one name. -/
def Problem.homonyms : Problem where
  relations := [⟨0, "P", [.int]⟩, ⟨1, "P", [.int]⟩]
  clauses := [{
    body := [⟨0, [.var ⟨"x", .int⟩]⟩]
    constraint := none
    head := some ⟨1, [.op .add [.var ⟨"x", .int⟩, .int 1]]⟩ }]

/-- The head of the clause has the argument symbol of its body. -/
theorem aliased_homonyms : ∃ np nc a b v, Problem.homonyms.normalize = .ok np ∧
    np.clauses = [nc] ∧ nc.body = [a] ∧ nc.head = some b ∧ a.HasArgument np.relations v ∧
    b.HasArgument np.relations v :=
  ⟨_, _, _, _, ⟨"P@0_0", .int⟩, rfl, rfl, rfl, rfl, ⟨_, rfl, by decide⟩, ⟨_, rfl, by decide⟩⟩

end HornSaturation
