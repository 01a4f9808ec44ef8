import WhileExec.Program

/-!
# Sharing equal expressions

A cell is an expression whose every node has an identity. Sharing goes through cells from the leaves up and
replaces each by the first one met with the same key: a constant's value, a variable's name, or an operator
together with the identities of its operands. The key of a constant is a number, so a truth constant and an
integer of the same value are shared, and the form of an application is not part of its key.
-/

namespace WhileExec

inductive Cell where
  | int (id : Nat) (n : Int)
  | truth (id : Nat) (v : Value)
  | var (id : Nat) (name : String)
  | app (id : Nat) (form : Form) (op : String) (args : List Cell)
  deriving Inhabited, Repr

namespace Cell

def id : Cell → Nat
  | .int id _ => id
  | .truth id _ => id
  | .var id _ => id
  | .app id _ _ _ => id

inductive Key where
  | value (n : Int)
  | name (s : String)
  | app (op : String) (args : List Nat)
  deriving DecidableEq, Repr, Inhabited

/-- The cells met first, by key. -/
abbrev Table := List (Key × Cell)

/-- The cell met first with this key, which is `c` if there is none yet. -/
def intern (key : Key) (c : Cell) : StateM Table Cell := do
  match (← get).lookup key with
  | some first => return first
  | none =>
    modify ((key, c) :: ·)
    return c

mutual

/-- The shared cell that stands for a cell. -/
def share : Cell → StateM Table Cell
  | .int id n => intern (.value n) (.int id n)
  | .truth id v => intern (.value v.toInt) (.truth id v)
  | .var id name => intern (.name name) (.var id name)
  | .app id form op args => do
    let args ← shareAll args
    intern (.app op (args.map Cell.id)) (.app id form op args)

def shareAll : List Cell → StateM Table (List Cell)
  | [] => return []
  | c :: cs => do
    let c ← c.share
    return c :: (← shareAll cs)

end

mutual

/-- The expression that a cell stands for. -/
def expr : Cell → Expr
  | .int _ n => .int n
  | .truth _ v => .truth v
  | .var _ name => .var name
  | .app _ form op args => .app form op (exprs args)

def exprs : List Cell → List Expr
  | [] => []
  | c :: cs => c.expr :: exprs cs

end

mutual

/-- Gives every node of an expression an identity of its own, from `next` on. -/
def ofExpr (e : Expr) : StateM Nat Cell := do
  let id ← modifyGet fun next => (next, next + 1)
  match e with
  | .int n => return .int id n
  | .truth v => return .truth id v
  | .var name => return .var id name
  | .app form op args => return .app id form op (← ofExprs args)

def ofExprs : List Expr → StateM Nat (List Cell)
  | [] => return []
  | e :: es => do
    let c ← ofExpr e
    return c :: (← ofExprs es)

end

mutual

/-- The cells below a cell and itself, each before those below it. -/
def preorder : Cell → List Cell
  | .app id form op args => .app id form op args :: preorderAll args
  | leaf => [leaf]

def preorderAll : List Cell → List Cell
  | [] => []
  | c :: cs => c.preorder ++ preorderAll cs

end

end Cell

/-- What can be given to be shared: a cell, or a statement, which is left as it is. -/
inductive Item where
  | cell (c : Cell)
  | stmt (id : Nat) (s : Stmt)
  deriving Inhabited, Repr

namespace Item

def id : Item → Nat
  | .cell c => c.id
  | .stmt id _ => id

def ofNode : Node → StateM Nat Item
  | .expr e => .cell <$> Cell.ofExpr e
  | .stmt s => do
    let id ← modifyGet fun next => (next, next + 1)
    return .stmt id s

def share : Item → StateM Cell.Table Item
  | .cell c => .cell <$> c.share
  | .stmt id s => return .stmt id s

/-- Shares all items with one table. -/
def shareAll (items : List Item) : List Item :=
  (items.mapM share |>.run []).1

/-- Shares every item with a table of its own. -/
def shareEach (items : List Item) : List Item :=
  items.map fun item => (item.share.run []).1

def preorder : Item → List Item
  | .cell c => c.preorder.map .cell
  | item => [item]

end Item

/-- The outcome of sharing: the distinct items reachable from the results, numbered in preorder, the number of
each result, and whether it is the very item that was given. -/
structure SharingReport where
  nodes : List Item
  roots : List Nat
  same : List Bool

/-- Items with different identities, each at its first place. -/
def distinctItems (items : List Item) : List Item :=
  items.foldl (fun seen item => if seen.any (·.id == item.id) then seen else seen ++ [item]) []

/-- The number of the item with an identity. -/
def numberIn (items : List Item) (id : Nat) : Nat :=
  (items.findIdx? (·.id == id)).getD 0

def SharingReport.number (report : SharingReport) (id : Nat) : Nat :=
  numberIn report.nodes id

def sharingReport (nodes : List Node) (separate : Bool) : SharingReport :=
  let given := (nodes.mapM Item.ofNode |>.run 0).1
  let results := if separate then Item.shareEach given else Item.shareAll given
  let distinct := distinctItems (results.flatMap Item.preorder)
  { nodes := distinct
    roots := results.map fun item => numberIn distinct item.id
    same := (given.zip results).map fun pair => pair.1.id == pair.2.id }

end WhileExec
