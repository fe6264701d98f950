import SpatialStore.Geometry.Contains
import SpatialStore.Geometry.Intersects
import SpatialStore.Geometry.Segments
import SpatialStore.Value.Text

/-!
# Expressions

An expression computes a value from the columns of a row. The columns are named by a type of one's
choice: an expression as it is written names fields (`FieldName`), a bound one names positions.
`Expr.traverse` goes from the one to the other.

Evaluation follows three-valued logic, with null for the unknown: a comparison with a null is
unknown, and a conjunction is false as soon as one member is, whatever the others are.
-/

namespace SpatialStore

/-- The name of a field, qualified by a table or alias or not. -/
structure FieldName where
  table : Option String
  name : String
  deriving DecidableEq, Repr

/-- Text of a field name. -/
def FieldName.text (f : FieldName) : String :=
  match f.table with
  | some t => t ++ "." ++ f.name
  | none => f.name

/-- Comparison operators. -/
inductive Comparison where
  | eq
  | ne
  | lt
  | le
  | gt
  | ge
  deriving DecidableEq, Repr

/-- Sign of a comparison. -/
def Comparison.symbol : Comparison → String
  | .eq => "="
  | .ne => "<>"
  | .lt => "<"
  | .le => "<="
  | .gt => ">"
  | .ge => ">="

/-- Spatial predicates. -/
inductive SpatialTest where
  | intersects
  /-- The left geometry contains the right one. -/
  | contains
  deriving DecidableEq, Repr

/-- Name of a spatial predicate. -/
def SpatialTest.name : SpatialTest → String
  | .intersects => "Intersects"
  | .contains => "Contains"

/-- Functions of a geometry. -/
inductive SpatialFunction where
  /-- The topological dimension, -1 for an empty geometry. -/
  | dimension
  /-- The name of the shape. -/
  | geometryType
  /-- The segments, each once, as a multi line string. -/
  | toMultiSegments
  deriving DecidableEq, Repr

/-- Name of a function. -/
def SpatialFunction.name : SpatialFunction → String
  | .dimension => "Dimension"
  | .geometryType => "GeometryType"
  | .toMultiSegments => "ToMultiSegments"

/-- An expression over columns named by `κ`. -/
inductive Expr (κ : Type) where
  | column (c : κ)
  | literal (v : Value)
  | compare (op : Comparison) (l r : Expr κ)
  | spatial (op : SpatialTest) (l r : Expr κ)
  | conj (items : List (Expr κ))
  | disj (items : List (Expr κ))
  | negate (e : Expr κ)
  | call (f : SpatialFunction) (args : List (Expr κ))

/-- An expression as it is written. -/
abbrev Predicate := Expr FieldName

/-- An expression over the positions of a row. -/
abbrev RowExpr := Expr Nat

namespace Expr

variable {κ : Type}

mutual

/-- The columns of an expression, from left to right. -/
def columns : Expr κ → List κ
  | .column c => [c]
  | .literal _ => []
  | .compare _ l r | .spatial _ l r => l.columns ++ r.columns
  | .conj items | .disj items | .call _ items => columnsOfAll items
  | .negate e => e.columns

/-- The columns of a list of expressions. -/
def columnsOfAll : List (Expr κ) → List κ
  | [] => []
  | e :: es => e.columns ++ columnsOfAll es

end

mutual

/-- The members of nested conjunctions; any other expression is its only member. -/
def conjuncts : Expr κ → List (Expr κ)
  | .conj items => conjunctsOfAll items
  | e => [e]

/-- The conjuncts of a list of expressions. -/
def conjunctsOfAll : List (Expr κ) → List (Expr κ)
  | [] => []
  | e :: es => e.conjuncts ++ conjunctsOfAll es

end

mutual

/-- The expression with every column replaced, unless the replacement of one fails. -/
def traverse {ε ι : Type} (f : κ → Except ε ι) : Expr κ → Except ε (Expr ι)
  | .column c => do return .column (← f c)
  | .literal v => return .literal v
  | .compare op l r => do return .compare op (← l.traverse f) (← r.traverse f)
  | .spatial op l r => do return .spatial op (← l.traverse f) (← r.traverse f)
  | .conj items => do return .conj (← traverseAll f items)
  | .disj items => do return .disj (← traverseAll f items)
  | .negate e => do return .negate (← e.traverse f)
  | .call g args => do return .call g (← traverseAll f args)

/-- A list of expressions with every column replaced. -/
def traverseAll {ε ι : Type} (f : κ → Except ε ι) : List (Expr κ) → Except ε (List (Expr ι))
  | [] => return []
  | e :: es => do return (← e.traverse f) :: (← traverseAll f es)

end

/-! ### Text -/

mutual

/-- Text of an expression. -/
def text : Expr FieldName → String
  | .column f => f.text
  | .literal v => v.text
  | .compare op l r => l.text ++ " " ++ op.symbol ++ " " ++ r.text
  | .spatial op l r => op.name ++ "(" ++ l.text ++ ", " ++ r.text ++ ")"
  | .conj items => "(" ++ " AND ".intercalate (textOfAll items) ++ ")"
  | .disj items => "(" ++ " OR ".intercalate (textOfAll items) ++ ")"
  | .negate e => "NOT (" ++ e.text ++ ")"
  | .call f args => f.name ++ "(" ++ ", ".intercalate (textOfAll args) ++ ")"

/-- Texts of a list of expressions. -/
def textOfAll : List (Expr FieldName) → List String
  | [] => []
  | e :: es => e.text :: textOfAll es

end

end Expr

/-! ### Evaluation -/

namespace Comparison

/-- Whether an order of two values satisfies the comparison. -/
def holds (op : Comparison) (o : Ordering) : Bool :=
  match op with
  | .eq => o == .eq
  | .ne => o != .eq
  | .lt => o == .lt
  | .le => o != .gt
  | .gt => o == .gt
  | .ge => o != .lt

/-- The truth value of a comparison. Equality is defined for all values but nulls, the other
comparisons only for values that have an order. -/
def apply (op : Comparison) (a b : Value) : Value :=
  if a.isNull || b.isNull then .null
  else
    match op with
    | .eq => .bool (a.queryEq b)
    | .ne => .bool (!a.queryEq b)
    | op =>
      match a.compare? b with
      | some o => .bool (op.holds o)
      | none => .null

end Comparison

/-- The truth value of a spatial predicate, unknown unless both values are geometries. -/
def SpatialTest.apply (op : SpatialTest) (a b : Value) : Value :=
  match a, b with
  | .geometry g, .geometry h =>
    match op with
    | .intersects => .bool (g.intersects h)
    | .contains => .bool (g.contains h)
  | _, _ => .null

/-- The value of a function; of anything but a geometry it is null. -/
def SpatialFunction.apply (f : SpatialFunction) (v : Value) : Value :=
  match v with
  | .geometry g =>
    match f with
    | .dimension =>
      match g.dimension? with
      | some d => .int (Int64.ofNat d)
      | none => .int (-1)
    | .geometryType => .string g.typeName
    | .toMultiSegments => .geometry g.distinctSegments
  | _ => .null

namespace Value

/-- Whether a value is the truth value `b`. -/
def isBool (b : Bool) : Value → Bool
  | .bool c => b == c
  | _ => false

/-- Three-valued conjunction: false if a member is, true if all are, otherwise unknown. -/
def conj (vs : List Value) : Value :=
  if vs.any (isBool false) then .bool false
  else if vs.all (isBool true) then .bool true
  else .null

/-- Three-valued disjunction: true if a member is, false if all are, otherwise unknown. -/
def disj (vs : List Value) : Value :=
  if vs.any (isBool true) then .bool true
  else if vs.all (isBool false) then .bool false
  else .null

/-- Three-valued negation. -/
def negate : Value → Value
  | .bool b => .bool !b
  | _ => .null

end Value

namespace Expr

mutual

/-- The value of a bound expression on a row. A position beyond the row holds a null, and a
function without arguments is applied to one. -/
def evaluate (row : Row) : Expr Nat → Value
  | .column i => (row[i]?).getD .null
  | .literal v => v
  | .compare op l r => op.apply (evaluate row l) (evaluate row r)
  | .spatial op l r => op.apply (evaluate row l) (evaluate row r)
  | .conj items => Value.conj (evaluateAll row items)
  | .disj items => Value.disj (evaluateAll row items)
  | .negate e => (evaluate row e).negate
  | .call f args => f.apply ((evaluateAll row args).headD .null)

/-- The values of a list of bound expressions on a row. -/
def evaluateAll (row : Row) : List (Expr Nat) → List Value
  | [] => []
  | e :: es => evaluate row e :: evaluateAll row es

end

/-- Whether an expression is true on a row, neither false nor unknown. -/
def isTrue (row : Row) (e : Expr Nat) : Bool := (e.evaluate row).isBool true

end Expr

end SpatialStore
