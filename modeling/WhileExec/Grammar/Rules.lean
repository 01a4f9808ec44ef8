import WhileExec.Grammar.Peg

/-!
# The grammar of programs

The rules with their names, their bodies and the fields they always have. Reading starts from any rule, and
there is no check that the text has been read to its end.
-/

namespace WhileExec.Grammar

namespace Rule

def all : List Rule :=
  [start, stmtList, stmt, asgnStmt, blockStmt, skipStmt, printStateStmt, ifStmt, whileStmt, assertStmt,
  assumeStmt, havocStmt, varList, bexp, bterm, bfactor, batom, boolConst, rexp, rop, aexp, addition,
  subtraction, term, mult, division, factor, negNumber, atom, name, number, integerText, nameText,
  newlineText]

def text : Rule → String
  | start => "start"
  | stmtList => "stmt_list"
  | stmt => "stmt"
  | asgnStmt => "asgn_stmt"
  | blockStmt => "block_stmt"
  | skipStmt => "skip_stmt"
  | printStateStmt => "print_state_stmt"
  | ifStmt => "if_stmt"
  | whileStmt => "while_stmt"
  | assertStmt => "assert_stmt"
  | assumeStmt => "assume_stmt"
  | havocStmt => "havoc_stmt"
  | varList => "var_list"
  | bexp => "bexp"
  | bterm => "bterm"
  | bfactor => "bfactor"
  | batom => "batom"
  | boolConst => "bool_const"
  | rexp => "rexp"
  | rop => "rop"
  | aexp => "aexp"
  | addition => "addition"
  | subtraction => "subtraction"
  | term => "term"
  | mult => "mult"
  | division => "division"
  | factor => "factor"
  | negNumber => "neg_number"
  | atom => "atom"
  | name => "name"
  | number => "number"
  | integerText => "INT"
  | nameText => "NAME"
  | newlineText => "NEWLINE"

def ofText? (text : String) : Option Rule :=
  all.find? (·.text == text)

/-- Layout is skipped on entering a rule, except for the three that read single characters. -/
def skips : Rule → Bool
  | integerText => false
  | nameText => false
  | newlineText => false
  | _ => true

/-- The fields that a rule has even if they were not set. -/
def fields : Rule → List String
  | asgnStmt => ["lhs", "rhs"]
  | ifStmt => ["cond", "else_stmt", "then_stmt"]
  | whileStmt => ["body", "cond", "inv"]
  | assertStmt => ["cond"]
  | assumeStmt => ["cond"]
  | havocStmt => ["vars"]
  | bexp => ["args"]
  | bterm => ["args"]
  | bfactor => ["arg", "op"]
  | rexp => ["lhs", "op", "rhs"]
  | addition => ["lhs", "op", "rhs"]
  | subtraction => ["lhs", "op", "rhs"]
  | mult => ["lhs", "op", "rhs"]
  | division => ["lhs", "op", "rhs"]
  | _ => []

/-- An operation with its right operand behind a cut. -/
def operation (left : Rule) (op : String) (right : Rule) : Peg :=
  .all [.named "lhs" (.call left), .named "op" (.token op), .cut, .named "rhs" (.call right)]

def body : Rule → Peg
  | start => .call stmtList
  | stmtList => .gather (.token ";") (.call stmt)
  | stmt =>
    .firstOf "no available options" [.call skipStmt, .call asgnStmt, .call blockStmt, .call ifStmt,
      .call whileStmt, .call assertStmt, .call assumeStmt, .call havocStmt, .call printStateStmt]
  | asgnStmt => .all [.named "lhs" (.call name), .token ":=", .named "rhs" (.call aexp)]
  | blockStmt => .all [.token "\x7b", .keep (.call stmtList), .token "\x7d"]
  | skipStmt => .token "skip"
  | printStateStmt => .token "print_state"
  | ifStmt =>
    .all [.token "if", .cut, .named "cond" (.call bexp), .token "then", .named "then_stmt" (.call stmt),
      .optional (.seq (.token "else") (.named "else_stmt" (.call stmt)))]
  | whileStmt =>
    .all [.token "while", .named "cond" (.call bexp),
      .optional (.seq (.token "inv") (.named "inv" (.call bexp))), .token "do",
      .named "body" (.call stmt)]
  | assertStmt => .seq (.token "assert") (.named "cond" (.call bexp))
  | assumeStmt => .seq (.token "assume") (.named "cond" (.call bexp))
  | havocStmt => .seq (.token "havoc") (.named "vars" (.call varList))
  | varList => .gather (.token ",") (.call name)
  | bexp => .gather (.named "op" (.token "or")) (.named "args" (.call bterm))
  | bterm => .gather (.named "op" (.token "and")) (.named "args" (.call bfactor))
  | bfactor =>
    .firstOf "no available options" [.named "arg" (.call batom),
      .all [.named "op" (.token "not"), .cut, .named "arg" (.call batom)]]
  | batom =>
    .firstOf "no available options" [.call rexp, .call boolConst,
      .all [.token "(", .keep (.call bexp), .token ")"]]
  | boolConst => .firstOf "expecting one of: false true" [.token "true", .token "false"]
  | rexp =>
    .all [.named "lhs" (.call aexp), .named "op" (.call rop), .cut, .named "rhs" (.call aexp)]
  | rop =>
    .firstOf "expecting one of: < <= = > >="
      [.token "<=", .token "<", .token "=", .token ">=", .token ">"]
  | aexp => .firstOf "no available options" [.call addition, .call subtraction, .call term]
  | addition => operation term "+" aexp
  | subtraction => operation term "-" aexp
  | term => .firstOf "no available options" [.call mult, .call division, .call factor]
  | mult => operation factor "*" term
  | division => operation factor "/" term
  | factor =>
    .firstOf "no available options" [.call atom, .call negNumber,
      .all [.token "(", .keep (.call aexp), .token ")"]]
  | negNumber => .all [.token "-", .cut, .keep (.call number)]
  | atom => .firstOf "no available options" [.call name, .call number]
  | name => .call nameText
  | number => .call integerText
  | integerText => .pattern .integer
  | nameText => .pattern .word
  | newlineText => .seq (.pattern .lineBreaks) .cut

end Rule

section Reading

variable {V : Type}

/-- A rule at a place, given how the rules it calls are read. A rule that fails records its failure. -/
def Rule.eval {m : Type → Type} [Monad m] (build : Builder V) (guarded : Bool)
    (call : Rule → Cursor → m (Outcome V)) (r : Rule) (here : Cursor) : m (Outcome V) := do
  let here := if r.skips then here.skip else here
  let o ← r.body.eval build guarded call here
  match o.result with
  | .ok parts next cut =>
    match build.close r here.pos next.pos parts with
    | .ok value => pure ⟨o.best, .ok value next cut⟩
    | .error cause => pure ⟨o.best, .fault cause⟩
  | .fail failure cut => pure ⟨further o.best (some failure), .fail failure cut⟩
  | .abort failure => pure ⟨o.best, .abort failure⟩
  | .fault cause => pure ⟨o.best, .fault cause⟩

/-- Outcomes by place and rule. -/
abbrev Table (V : Type) := Std.TreeMap Nat (Outcome V)

/-- No two pairs of rule and place have the same key: there are fewer than 64 rules. -/
def Rule.key (r : Rule) (pos : Nat) : Nat :=
  64 * pos + r.ctorIdx

/-- A rule at a place, read at most once; `fuel` bounds how deep rules call each other. -/
def Rule.read (build : Builder V) (guarded : Bool) : Nat → Rule → Cursor → StateM (Table V) (Outcome V)
  | 0, _, _ => pure ⟨none, .fault .unending⟩
  | fuel + 1, r, here => do
    match (← get)[r.key here.pos]? with
    | some o => pure o
    | none =>
      let o ← r.eval build guarded (Rule.read build guarded fuel) here
      modify (·.insert (r.key here.pos) o)
      pure o

/-- Deep enough for any text: a rule calls no rule twice at one place. -/
def depthBound (text : List Char) : Nat :=
  64 * (text.length + 1)

/-- Reads a text from a rule: the value and the place where reading stopped. -/
def readText (build : Builder V) (guarded : Bool) (r : Rule) (text : String) :
    Except Fault (V × Nat) :=
  let here := Cursor.ofText text
  let o := ((r.read build guarded (depthBound here.rest) here).run {}).1
  match o.result with
  | .ok value next _ => .ok (value, next.pos)
  | .fail failure _ => .error (.unreadable ((further o.best (some failure)).getD failure))
  | .abort failure => .error (.unreadable ((further o.best (some failure)).getD failure))
  | .fault cause => .error cause

/-- Reads a text from a rule given by its name. -/
def readTextFrom (build : Builder V) (guarded : Bool) (rule text : String) : Except Fault (V × Nat) :=
  match Rule.ofText? rule with
  | some r => readText build guarded r text
  | none => .error (.unreadable ⟨.rule rule, 0⟩)

end Reading

end WhileExec.Grammar
