/-!
# Sorts, values, variables and terms

Constraints are SMT-LIB terms over booleans and integers. A term keeps its operators with any number
of arguments, so a malformed application is still a term: it has no value, but it can be printed,
renamed and compared. Relation applications occur only in clauses as they are read; a normalized
constraint has none.
-/

namespace HornSaturation

/-- The sorts of the constraint language. -/
inductive BaseSort where
  | bool
  | int
  deriving DecidableEq

/-- The SMT-LIB spelling of a sort. -/
def BaseSort.render : BaseSort → String
  | .bool => "Bool"
  | .int => "Int"

/-- Sorts are ordered with booleans first. -/
def BaseSort.compare : BaseSort → BaseSort → Ordering
  | .bool, .bool => .eq
  | .bool, .int => .lt
  | .int, .bool => .gt
  | .int, .int => .eq

/-- A variable is identified by its name together with its sort. -/
structure Var where
  /-- The name as it is written. -/
  name : String
  /-- The sort of the values that the variable takes. -/
  sort : BaseSort
  deriving DecidableEq

/-- A value of one of the two sorts. -/
inductive Value where
  | bool (b : Bool)
  | int (n : Int)
  deriving DecidableEq

namespace Value

/-- The sort that a value belongs to. -/
def sort : Value → BaseSort
  | bool _ => .bool
  | int _ => .int

/-- The truth value, if the value is one. -/
def toBool? : Value → Option Bool
  | bool b => some b
  | int _ => none

/-- The integer, if the value is one. -/
def toInt? : Value → Option Int
  | bool _ => none
  | int n => some n

/-- Values are written plainly: a negative integer keeps its sign in front. -/
def render : Value → String
  | bool true => "true"
  | bool false => "false"
  | int n => toString n

end Value

/-- The operators of the constraint language. -/
inductive Op where
  | not | and | or | implies | iff
  | add | sub | mul | div | mod | neg
  | eq | ne | lt | le | gt | ge
  | ite
  deriving DecidableEq

/-- The SMT-LIB spelling of an operator. Subtraction and negation share one spelling, and so do
equality and equivalence. -/
def Op.render : Op → String
  | .not => "not"
  | .and => "and"
  | .or => "or"
  | .implies => "=>"
  | .iff => "="
  | .add => "+"
  | .sub => "-"
  | .mul => "*"
  | .div => "div"
  | .mod => "mod"
  | .neg => "-"
  | .eq => "="
  | .ne => "distinct"
  | .lt => "<"
  | .le => "<="
  | .gt => ">"
  | .ge => ">="
  | .ite => "ite"

/-- Relations are identified by their position in the list of declarations. -/
abbrev RelationId := Nat

/-- Terms of the constraint language, with relation applications as they occur in raw clauses. -/
inductive Term where
  /-- A boolean constant. -/
  | bool (b : Bool)
  /-- An integer constant. -/
  | int (n : Int)
  /-- A variable. -/
  | var (v : Var)
  /-- An operator applied to any number of arguments. -/
  | op (o : Op) (args : List Term)
  /-- A relation, given by name and identifier, applied to arguments. -/
  | app (name : String) (relation : RelationId) (args : List Term)
  deriving Inhabited

/-- The constant term that denotes a value. -/
def Value.toTerm : Value → Term
  | .bool b => .bool b
  | .int n => .int n

namespace Term

/-- Whether the term is the constant `true`. -/
def isTrue : Term → Bool
  | .bool true => true
  | _ => false

/-- Whether the term is the constant `false`. -/
def isFalse : Term → Bool
  | .bool false => true
  | _ => false

mutual
/-- The number of nodes of a term. -/
def size : Term → Nat
  | .bool _ | .int _ | .var _ => 1
  | .op _ args | .app _ _ args => sizeList args + 1
/-- The number of nodes of the terms of a list. -/
def sizeList : List Term → Nat
  | [] => 0
  | t :: ts => size t + sizeList ts
end

/-- The sort that a term has by its outermost symbol. A conditional has the sort of its second
argument. -/
def sort : Term → BaseSort
  | .bool _ => .bool
  | .int _ => .int
  | .var v => v.sort
  | .app .. => .bool
  | .op .add _ | .op .sub _ | .op .mul _ | .op .div _ | .op .mod _ | .op .neg _ => .int
  | .op .ite (_ :: t :: _) => sort t
  | .op _ _ => .bool

end Term

end HornSaturation
