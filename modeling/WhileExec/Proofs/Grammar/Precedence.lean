import Mathlib
import WhileExec.Proofs.Grammar.Fronts
import WhileExec.Proofs.Grammar.Table

/-!
# How operators bind

A row of operands with arithmetic operators between them is read as one tree. Products and quotients bind tighter than
sums and differences, and operators of one level nest to the right in the order in which they are written: `a - b + c`
is `a - (b + c)`. No other tree is nested so and has these operands and operators in their order.
-/

namespace WhileExec.Grammar

/-- A name or a number. -/
def isOperand : Expr → Bool
  | .int _ | .var _ => true
  | _ => false

/-- Operands under the operators that bind tighter, nested to the right. -/
inductive IsProduct : Expr → Prop
  | operand {e : Expr} (plain : isOperand e = true) : IsProduct e
  | operation {op : String} {lhs rhs : Expr} (known : op ∈ ["*","/"]) (plain : isOperand lhs = true)
      (right : IsProduct rhs) : IsProduct (.app .arith op [lhs,rhs])

/-- Products under the other operators, nested to the right. -/
inductive IsSum : Expr → Prop
  | product {e : Expr} (product : IsProduct e) : IsSum e
  | operation {op : String} {lhs rhs : Expr} (known : op ∈ ["+","-"]) (left : IsProduct lhs) (right : IsSum rhs) :
      IsSum (.app .arith op [lhs,rhs])

/-- Operands with operators between them: the first one, and the others with the operators in front of them. -/
abbrev Row := Expr × List (String × Expr)

/-- The operands and operators of an expression from left to right. -/
def inOrder : Expr → Row
  | .app .arith op [lhs,rhs] => ((inOrder lhs).1,(inOrder lhs).2 ++ (op,(inOrder rhs).1) :: (inOrder rhs).2)
  | e => (e,[])

theorem inOrder_operand {e : Expr} (plain : isOperand e = true) : inOrder e = (e,[]) := by
  cases e with
  | int | var => simp [inOrder]
  | truth | app => cases plain

theorem inOrder_operation (op : String) (lhs rhs : Expr) : inOrder (.app .arith op [lhs,rhs]) =
    ((inOrder lhs).1,(inOrder lhs).2 ++ (op,(inOrder rhs).1) :: (inOrder rhs).2) := by
  rw [inOrder]

/-- A product, and what is added to it or subtracted from it. -/
def joined : Expr × Option (String × Expr) → Expr
  | (product,none) => product
  | (product,some (op,sum)) => .app .arith op [product,sum]

/-- The first product of a row, and the operator and the tree that follow it. -/
def grouped (first : Expr) : List (String × Expr) → Expr × Option (String × Expr)
  | [] => (first,none)
  | (op,next) :: rest =>
    if op ∈ ["*","/"] then (.app .arith op [first,(grouped next rest).1],(grouped next rest).2)
    else (first,some (op,joined (grouped next rest)))

/-- The tree of a row. -/
def tree (row : Row) : Expr :=
  joined (grouped row.1 row.2)

section Trees

variable {op : String} {first next : Expr} {rest : List (String × Expr)}

theorem grouped_tight (known : op ∈ ["*","/"]) : grouped first ((op,next) :: rest) =
    (.app .arith op [first,(grouped next rest).1],(grouped next rest).2) := by
  rw [grouped,if_pos known]

theorem grouped_loose (known : op ∉ ["*","/"]) :
    grouped first ((op,next) :: rest) = (first,some (op,tree (next,rest))) := by
  rw [grouped,if_neg known]
  rfl

/-- A row of names and numbers with known operators. -/
structure Plain (row : Row) : Prop where
  first : isOperand row.1 = true
  operators : ∀ entry ∈ row.2, entry.1 ∈ ["+","-","*","/"]
  operands : ∀ entry ∈ row.2, isOperand entry.2 = true

theorem Plain.tail (plain : Plain (first,(op,next) :: rest)) : Plain (next,rest) where
  first := plain.operands _ List.mem_cons_self
  operators entry member := plain.operators entry (List.mem_cons_of_mem _ member)
  operands entry member := plain.operands entry (List.mem_cons_of_mem _ member)

theorem Plain.loose (plain : Plain (first,(op,next) :: rest)) (other : op ∉ ["*","/"]) : op ∈ ["+","-"] := by
  have known := plain.operators _ List.mem_cons_self
  simp only [List.mem_cons,List.not_mem_nil,or_false] at known other ⊢
  tauto

theorem isSum_joined {group : Expr × Option (String × Expr)} (product : IsProduct group.1)
    (behind : ∀ op sum, group.2 = some (op,sum) → op ∈ ["+","-"] ∧ IsSum sum) : IsSum (joined group) := by
  obtain ⟨e,_ | ⟨op,sum⟩⟩ := group
  · exact .product product
  · obtain ⟨known,right⟩ := behind op sum rfl
    exact .operation known product right

theorem grouped_nested (plain : Plain (first,rest)) : IsProduct (grouped first rest).1 ∧
    ∀ op sum, (grouped first rest).2 = some (op,sum) → op ∈ ["+","-"] ∧ IsSum sum := by
  induction rest generalizing first with
  | nil => exact ⟨.operand plain.first,fun _ _ none => by cases none⟩
  | cons entry rest ih =>
    obtain ⟨op,next⟩ := entry
    obtain ⟨product,behind⟩ := ih plain.tail
    by_cases tight : op ∈ ["*","/"]
    · rw [grouped_tight tight]
      exact ⟨.operation tight plain.first product,behind⟩
    · rw [grouped_loose tight]
      refine ⟨.operand plain.first,?_⟩
      rintro _ _ ⟨⟩
      exact ⟨plain.loose tight,isSum_joined product behind⟩

theorem tree_isSum {row : Row} (plain : Plain row) : IsSum (tree row) := by
  obtain ⟨product,behind⟩ := grouped_nested plain
  exact isSum_joined product behind

/-- An operand in front of a product comes first in the whole. -/
theorem inOrder_joined (plain : isOperand first = true) (product : Expr) (more : Option (String × Expr)) :
    inOrder (joined (.app .arith op [first,product],more)) =
      (first,(op,(inOrder (joined (product,more))).1) :: (inOrder (joined (product,more))).2) := by
  rcases more with _ | ⟨sign,sum⟩
  · simp [joined,inOrder_operation,inOrder_operand plain]
  · simp [joined,inOrder_operation,inOrder_operand plain]

theorem inOrder_tree {row : Row} (plain : Plain row) : inOrder (tree row) = row := by
  obtain ⟨first,rest⟩ := row
  induction rest generalizing first with
  | nil => exact inOrder_operand plain.first
  | cons entry rest ih =>
    obtain ⟨op,next⟩ := entry
    have later := ih next plain.tail
    by_cases tight : op ∈ ["*","/"]
    · rw [tree,grouped_tight tight,inOrder_joined plain.first]
      change (first,(op,(inOrder (tree (next,rest))).1) :: (inOrder (tree (next,rest))).2) = _
      rw [later]
    · rw [tree,grouped_loose tight,joined,inOrder_operation,inOrder_operand plain.first,later]
      rfl

/-- A product is found again in front of anything that does not go on with it. -/
theorem grouped_inOrder {product : Expr} (isProduct : IsProduct product) {more : Option (String × Expr)}
    (apart : ∀ e, grouped e rest = (e,more)) :
    grouped (inOrder product).1 ((inOrder product).2 ++ rest) = (product,more) := by
  induction isProduct with
  | operand plain =>
    rw [inOrder_operand plain]
    exact apart _
  | operation known plain right ih =>
    rw [inOrder_operation,inOrder_operand plain,List.nil_append,List.cons_append,grouped_tight known,ih]

/-- A tree that is nested in this way is known from its operands and operators. -/
theorem tree_inOrder {e : Expr} (isSum : IsSum e) : tree (inOrder e) = e := by
  induction isSum with
  | @product e isProduct =>
    have whole : grouped (inOrder e).1 ((inOrder e).2 ++ []) = (e,none) := grouped_inOrder isProduct fun _ => rfl
    rw [List.append_nil] at whole
    rw [tree,whole]
    rfl
  | @operation op lhs rhs known left right ih =>
    have other : op ∉ ["*","/"] := by
      simp only [List.mem_cons,List.not_mem_nil,or_false] at known
      rcases known with rfl | rfl <;> decide
    have apart (e : Expr) : grouped e ((op,(inOrder rhs).1) :: (inOrder rhs).2) = (e,some (op,tree (inOrder rhs))) :=
      grouped_loose other
    have whole := grouped_inOrder left apart
    rw [inOrder_operation,tree,whole,ih]
    rfl

end Trees

/-- An operand as it is written. Spaces may stand behind a minus sign. -/
inductive Operand where
  | name (word : List Char) (isWord : IsWord word)
  | number (n : Numeral)
  | negative (spaces : Nat) (n : Numeral)

namespace Operand

def text : Operand → List Char
  | name word _ => word
  | number n => n.chars
  | negative spaces n => '-' :: (List.replicate spaces ' ' ++ n.chars)

def expr : Operand → Expr
  | name word _ => .var (String.ofList word)
  | number n => .int n.value
  | negative _ n => .int (-n.value)

theorem isOperand_expr (operand : Operand) : isOperand operand.expr = true := by
  cases operand <;> rfl

theorem factor_ok (operand : Operand) {rest : List Char} (ends : WordEnd rest) :
    outcome .factor (operand.text ++ rest) = .ok (.expr operand.expr) rest false := by
  cases operand with
  | name word isWord => exact factor_word isWord ends
  | number n => exact factor_number n ends
  | negative spaces n =>
    have front : skipped (List.replicate spaces ' ' ++ (n.chars ++ rest)) = n.chars ++ rest := by
      rw [skipped_spaces,n.skipped]
    rw [text,List.cons_append,List.append_assoc]
    exact factor_negative n front ends

end Operand

/-- An operator between spaces, one on either side at least, and the operand behind it. -/
structure Link where
  before : Nat
  op : String
  known : op ∈ ["+","-","*","/"]
  after : Nat
  operand : Operand

/-- The text of a link in front of another text. -/
def Link.onto (link : Link) (rest : List Char) : List Char :=
  List.replicate (link.before + 1) ' ' ++ (link.op.toList ++ (List.replicate (link.after + 1) ' ' ++
    (link.operand.text ++ rest)))

theorem Link.wordEnd (link : Link) (rest : List Char) : WordEnd (link.onto rest) :=
  .cons (by decide) _

theorem Link.found (link : Link) (rest : List Char) : tokenRest? link.op.toList (skipped (link.onto rest)) =
    some (List.replicate (link.after + 1) ' ' ++ (link.operand.text ++ rest)) := by
  have known := link.known
  simp only [List.mem_cons,List.not_mem_nil,or_false] at known
  rw [Link.onto,skipped_spaces,tokenRest?_eq_some]
  rcases known with same | same | same | same <;> rw [same] <;>
    exact ⟨skipped_solid (by decide) (by decide) _,runsOn_symbol (by decide) _⟩

/-- Operands with operators between them, as they are written. -/
structure Chain where
  first : Operand
  links : List Link

namespace Chain

def text (chain : Chain) : List Char :=
  chain.first.text ++ chain.links.foldr Link.onto []

def row (chain : Chain) : Row :=
  (chain.first.expr,chain.links.map fun link => (link.op,link.operand.expr))

theorem plain (chain : Chain) : Plain chain.row where
  first := chain.first.isOperand_expr
  operators := by
    simp only [row,List.forall_mem_map]
    exact fun link _ => link.known
  operands := by
    simp only [row,List.forall_mem_map]
    exact fun link _ => link.operand.isOperand_expr

end Chain

section Reading

variable {lower first second upper : Rule} {a b op : String} {text mid after rest : List Char} {lhs rhs : Expr}
  {cut : Bool}

theorem Level.outcome_operation (level : Level lower first second upper a b)
    {c d : Char} (one : a.toList.head? = some c) (two : b.toList.head? = some d) (apart : d ≠ c) (known : op ∈ [a,b])
    (read : outcome lower text = .ok (.expr lhs) mid false) (found : tokenRest? op.toList (skipped mid) = some after)
    (more : outcome upper after = .ok (.expr rhs) rest cut) :
    outcome upper text = .ok (.expr (.app .arith op [lhs,rhs])) rest false := by
  simp only [List.mem_cons,List.not_mem_nil,or_false] at known
  rcases known with rfl | rfl
  · exact level.outcome_first read (take_found found) more
  · exact level.outcome_second read (fail_of_token found two one apart) (take_found found) more

/-- What is left behind a product: the end of the row, or an operator and the tree behind it. -/
def Continues (tail rest : List Char) : Option (String × Expr) → Prop
  | none => rest = tail
  | some (op,sum) => op ∈ ["+","-"] ∧ ∃ after, tokenRest? op.toList (skipped rest) = some after ∧
      outcome .aexp after = .ok (.expr sum) tail false

theorem aexp_joined {group : Expr × Option (String × Expr)} {tail : List Char} (stops : Stops ['+','-'] tail)
    (read : outcome .term text = .ok (.expr group.1) rest false) (goes : Continues tail rest group.2) :
    outcome .aexp text = .ok (.expr (joined group)) tail false := by
  obtain ⟨product,_ | ⟨op,sum⟩⟩ := group
  · cases goes
    exact sumLevel.outcome_operand read (stops.token '+' rfl (by decide)) (stops.token '-' rfl (by decide))
  · obtain ⟨known,after,found,more⟩ := goes
    exact sumLevel.outcome_operation rfl rfl (by decide) known read found more

/-- A row is read product by product. The induction is from the right: what stands behind an operator is known. -/
theorem term_grouped (operand : Operand) (links : List Link) {tail : List Char} (ends : WordEnd tail)
    (stops : Stops ['+','-','*','/'] tail) :
    ∃ rest, outcome .term (operand.text ++ links.foldr Link.onto tail) =
        .ok (.expr (grouped operand.expr (links.map fun link => (link.op,link.operand.expr))).1) rest false ∧
      Continues tail rest (grouped operand.expr (links.map fun link => (link.op,link.operand.expr))).2 := by
  induction links generalizing operand with
  | nil =>
    refine ⟨tail,?_,rfl⟩
    exact termLevel.outcome_operand (operand.factor_ok ends) (stops.token '*' rfl (by decide))
      (stops.token '/' rfl (by decide))
  | cons link links ih =>
    obtain ⟨rest,product,goes⟩ := ih link.operand
    rw [List.foldr_cons,List.map_cons]
    have first := operand.factor_ok (link.wordEnd (links.foldr Link.onto tail))
    have found := link.found (links.foldr Link.onto tail)
    by_cases tight : link.op ∈ ["*","/"]
    · rw [grouped_tight tight]
      refine ⟨rest,?_,goes⟩
      apply termLevel.outcome_operation rfl rfl (by decide) tight first found
      rw [← outcome_skipped rfl,skipped_spaces,outcome_skipped rfl,product]
    · have loose : link.op ∈ ["+","-"] := by
        have known := link.known
        simp only [List.mem_cons,List.not_mem_nil,or_false] at known tight ⊢
        tauto
      have apart : Stops ['*','/'] (link.onto (links.foldr Link.onto tail)) := by
        simp only [List.mem_cons,List.not_mem_nil,or_false] at loose
        rcases loose with same | same <;> rw [same] at found
        · exact stops_of_token (c := '+') found rfl (by decide)
        · exact stops_of_token (c := '-') found rfl (by decide)
      rw [grouped_loose tight]
      refine ⟨link.onto (links.foldr Link.onto tail),?_,loose,_,found,?_⟩
      · exact termLevel.outcome_operand first (apart.token '*' rfl (by decide)) (apart.token '/' rfl (by decide))
      · rw [← outcome_skipped rfl,skipped_spaces,outcome_skipped rfl]
        exact aexp_joined (stops.mono (by simp)) product goes

theorem aexp_chain (chain : Chain) : outcome .aexp chain.text = .ok (.expr (tree chain.row)) [] false := by
  obtain ⟨rest,product,goes⟩ := term_grouped chain.first chain.links WordEnd.nil (Stops.nil _)
  exact aexp_joined (Stops.nil _) product goes

/-- A chain is read to its end. What is read is the one tree in which the operands and operators of the chain stand in
their order, products bind tighter than sums, and operators of one level nest to the right. -/
theorem read_chain (chain : Chain) :
    Reading.read "aexp" (String.ofList chain.text) = .ok (.expr (tree chain.row),chain.text.length) ∧
      ∀ e, IsSum e ∧ inOrder e = chain.row ↔ e = tree chain.row := by
  constructor
  · refine (Reading.read_eq_ok (r := .aexp)).mpr ?_
    rw [String.toList_ofList]
    exact ⟨[],false,aexp_chain chain,le_rfl,List.drop_length.symm⟩
  · intro e
    constructor
    · rintro ⟨isSum,inRow⟩
      rw [← inRow,tree_inOrder isSum]
    · rintro rfl
      exact ⟨tree_isSum chain.plain,inOrder_tree chain.plain⟩

example : tree (.var "a",[("-",.var "b"),("/",.var "c"),("*",.int 2),("+",.int (-3))]) =
    .app .arith "-" [.var "a",
      .app .arith "+" [.app .arith "/" [.var "b",.app .arith "*" [.var "c",.int 2]],.int (-3)]] :=
  rfl

end Reading

end WhileExec.Grammar
