import Toolpath.Document.Value

/-! Tables under construction. Each remembers how it came to be, which says who may add to it. -/
namespace Toolpath.Toml

/-- How a table came to be: on the way to another one, by a header, or by a dotted key. -/
inductive Origin where
  | implied | header | dotted
  deriving Repr, DecidableEq

inductive Node where
  /-- A finished value, arrays and inline tables included. -/
  | value (v : Value)
  | table (origin : Origin) (members : List (String × Node))
  /-- The tables that a repeated header adds, the last one first. -/
  | tables (members : List (List (String × Node)))
  deriving Repr, Inhabited

abbrev Members := List (String × Node)

/-- Replaces the node of a key, or adds one at the end. -/
def alter (key : String) (f : Option Node → Option Node) : Members → Option Members
  | [] => (f none).map fun n => [(key, n)]
  | (k, n) :: r =>
    if k = key then (f (some n)).map fun n => (k, n) :: r
    else (alter key f r).map ((k, n) :: ·)

/-- Adds a node where its key is still free. -/
def insert (key : String) (node : Node) : Members → Option Members := alter key fun
  | none => some node
  | some _ => none

/-- Adds a value under a dotted key, given the table that its parts so far lead to and whether a
dotted key made that table. The parts may lead through any table without a header of its own and
through the last of repeated tables, but only a table made by a dotted key takes the value. -/
def assignBelow (node : Node) : (key : List String) → (dotted : Bool) → Members → Option Members
  | [], _, _ => none
  | [k], dotted, m => if dotted then insert k node m else none
  | k :: rest, _, m => alter k (fun
    | none => (assignBelow node rest true []).map (.table .dotted)
    | some (.table .header _) => none
    | some (.table origin inner) =>
      (assignBelow node rest (origin == .dotted) inner).map (.table origin)
    | some (.tables (inner :: others)) =>
      (assignBelow node rest false inner).map fun inner => .tables (inner :: others)
    | some _ => none) m

/-- Adds a value to a table that is open, under a plain or a dotted key. -/
def assign (node : Node) (key : List String) (m : Members) : Option Members :=
  match key with
  | [k] => insert k node m
  | key => assignBelow node key false m

/-- Changes the table at a path, of repeated tables the last one. -/
def within (f : Members → Option Members) : (path : List String) → Members → Option Members
  | [], m => f m
  | k :: rest, m => alter k (fun
    | none => (within f rest []).map (.table .implied)
    | some (.table origin inner) => (within f rest inner).map (.table origin)
    | some (.tables (inner :: others)) =>
      (within f rest inner).map fun inner => .tables (inner :: others)
    | some _ => none) m

/-- Opens the table of a header, which may have been implied but not opened before. It is the last
one of the tables around it, wherever it was implied. -/
def openTable (key : String) (m : Members) : Option Members :=
  let opened (inner : Members) := m.filter (·.1 != key) ++ [(key, Node.table .header inner)]
  match m.lookup key with
  | none => some (opened [])
  | some (.table .implied inner) => some (opened inner)
  | some _ => none

/-- Opens one more of the tables of a repeated header. -/
def openElement (key : String) : Members → Option Members := alter key fun
  | none => some (.tables [[]])
  | some (.tables others) => some (.tables ([] :: others))
  | some _ => none

mutual
def Node.toValue : Node → Value
  | .value v => v
  | .table _ members => .obj (membersToValue members)
  | .tables members => .tables (tablesToValue members).reverse

def membersToValue : List (String × Node) → List (String × Value)
  | [] => []
  | (k, n) :: r => (k, n.toValue) :: membersToValue r

def tablesToValue : List (List (String × Node)) → List Value
  | [] => []
  | m :: r => .obj (membersToValue m) :: tablesToValue r
end

end Toolpath.Toml
