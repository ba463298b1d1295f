import HornSaturation.Term.Basic

/-!
# Variables and substitution

The variables of a term are listed in the order of their first occurrences. A substitution replaces
variables simultaneously, and replaces only those whose name and sort both agree.
-/

namespace HornSaturation

namespace Term

mutual
/-- All variable occurrences of a term, from left to right. -/
def occurrences : Term → List Var
  | .bool _ | .int _ => []
  | .var v => [v]
  | .op _ args | .app _ _ args => occurrencesList args
/-- All variable occurrences of the terms of a list. -/
def occurrencesList : List Term → List Var
  | [] => []
  | t :: ts => occurrences t ++ occurrencesList ts
end

/-- The variables of a term, each listed at its first occurrence. -/
def vars (t : Term) : List Var := t.occurrences.eraseDups

/-- Whether a variable occurs in a term. -/
def containsVar (v : Var) (t : Term) : Bool := t.occurrences.contains v

mutual
/-- Whether a relation application occurs in a term. -/
def containsApp : Term → Bool
  | .bool _ | .int _ | .var _ => false
  | .op _ args => containsAppList args
  | .app .. => true
/-- Whether a relation application occurs in a term of a list. -/
def containsAppList : List Term → Bool
  | [] => false
  | t :: ts => containsApp t || containsAppList ts
end

mutual
/-- The term with every variable replaced by its image. -/
def bind (f : Var → Term) : Term → Term
  | .bool b => .bool b
  | .int n => .int n
  | .var v => f v
  | .op o args => .op o (bindList f args)
  | .app name r args => .app name r (bindList f args)
/-- The terms of a list with every variable replaced by its image. -/
def bindList (f : Var → Term) : List Term → List Term
  | [] => []
  | t :: ts => bind f t :: bindList f ts
end

end Term

/-- A substitution lists variables with their images; the last image of a variable counts. -/
abbrev Substitution := List (Var × Term)

/-- The renaming that sends each variable of the first list to the one beside it in the second. -/
def Substitution.ofVars (sources targets : List Var) : Substitution :=
  sources.zip (targets.map Term.var)

/-- The term with the variables of a substitution replaced by their images, all at once. -/
def Term.substitute (s : Substitution) (t : Term) : Term :=
  match s.reverse with
  | [] => t
  | table => t.bind fun v => (table.lookup v).getD (.var v)

end HornSaturation
