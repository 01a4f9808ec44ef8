import Mathlib
import WhileExec.Statistics
import WhileExec.Proofs.Grammar.Operators

/-!
# What the counters count

The number of statements in a program, lists of statements not counted, and the variables that occur in it outside loop
invariants: both are read off the parts of the program. Statistics grow by just these, `Stmt.addTo_eq`, and so do the
count that is returned and the tally that is kept. So the counters agree on every program of a sequence, whichever
programs the tally was begun again with.
-/

namespace WhileExec

def Expr.name? : Expr → Option String
  | .var name => some name
  | _ => none

/-- The variables that occur in the expression, once for each time. -/
def Expr.names (e : Expr) : List String :=
  e.parts.filterMap Expr.name?

/-- The expressions of a statement, without those of the statements in it and without its invariant. -/
def Stmt.executed : Stmt → List Expr
  | .loop cond _ _ => [cond]
  | s => s.expressions

/-- The variables that occur in the statement outside invariants, once for each time. -/
def Stmt.names (s : Stmt) : List String :=
  s.parts.flatMap fun part => part.executed.flatMap Expr.names

/-- The number of statements in the statement that are not lists. -/
def Stmt.size (s : Stmt) : Nat :=
  s.parts.countP fun part => part.nodeClass != .stmtList

namespace Statistics

/-- Statistics with further statements and variables. -/
def plus (s : Statistics) (n : Nat) (names : List String) : Statistics :=
  ⟨s.stmts + n,s.vars.insertMany names⟩

variable {s : Statistics} {m n : Nat} {xs ys : List String}

theorem plus_nil : s.plus 0 [] = s := by
  simp [plus]

theorem plus_plus : (s.plus m xs).plus n ys = s.plus (m + n) (xs ++ ys) := by
  simp [plus,Std.TreeSet.insertMany_append,Nat.add_assoc]

theorem addStmt_eq : s.addStmt = s.plus 1 [] := by
  simp [addStmt,plus]

theorem addVar_eq {name : String} : s.addVar name = s.plus 0 [name] := by
  simp [addVar,plus]

theorem foldl_addVar : xs.foldl addVar s = s.plus 0 xs := by
  induction xs generalizing s with
  | nil => exact plus_nil.symm
  | cons x xs ih => rw [List.foldl_cons,ih,addVar_eq,plus_plus,List.singleton_append]

end Statistics

namespace Expr

theorem addAllTo_eq {s : Statistics} {es : List Expr} (each : ∀ e ∈ es, ∀ s, e.addTo s = s.plus 0 e.names) :
    addAllTo s es = s.plus 0 ((partsOf es).filterMap name?) := by
  induction es generalizing s with
  | nil => exact Statistics.plus_nil.symm
  | cons e es ih =>
    have first := each e List.mem_cons_self s
    have rest := fun s => ih (s := s) fun f member => each f (List.mem_cons_of_mem _ member)
    rw [addAllTo,first,rest,Statistics.plus_plus,partsOf,List.filterMap_append]
    rfl

theorem addTo_eq (e : Expr) (s : Statistics) : e.addTo s = s.plus 0 e.names := by
  induction e using Expr.structural generalizing s with
  | int n | truth v => exact Statistics.plus_nil.symm
  | var name => exact Statistics.addVar_eq
  | app form op args ih => exact addAllTo_eq ih

end Expr

namespace Stmt

section Parts

variable {cond : Expr} {yes no body : Stmt} {inv : Option Expr} {t : Stmt} {items : List Stmt}

theorem size_ifElse : (ifElse cond yes no).size = 1 + yes.size + no.size := by
  simp [size,parts,nodeClass]
  omega

theorem names_ifElse : (ifElse cond yes no).names = cond.names ++ yes.names ++ no.names := by
  simp [names,parts,executed,expressions]

theorem size_ifOnly : (ifOnly cond yes).size = 1 + yes.size := by
  simp [size,parts,nodeClass,Nat.add_comm]

theorem names_ifOnly : (ifOnly cond yes).names = cond.names ++ yes.names := by
  simp [names,parts,executed,expressions]

theorem size_loop : (loop cond body inv).size = 1 + body.size := by
  simp [size,parts,nodeClass,Nat.add_comm]

theorem names_loop : (loop cond body inv).names = cond.names ++ body.names := by
  simp [names,parts,executed]

theorem size_block : (block (t :: items)).size = t.size + (block items).size := by
  simp [size,parts,partsOf,nodeClass]

theorem names_block : (block (t :: items)).names = t.names ++ (block items).names := by
  simp [names,parts,partsOf,executed,expressions]

theorem names_havoc {xs : List String} : (havoc xs).names = xs := by
  have single (x : String) : (Expr.var x).names = [x] := rfl
  simp [names,parts,executed,expressions,List.flatMap_map,single]

end Parts

theorem countAll_eq {items : List Stmt} (each : ∀ t ∈ items, t.count = t.size) :
    countAll items = (block items).size := by
  induction items with
  | nil => rfl
  | cons t items ih =>
    rw [countAll,each t List.mem_cons_self,ih fun u member => each u (List.mem_cons_of_mem _ member),size_block]

theorem count_eq (t : Stmt) : t.count = t.size := by
  induction t using Stmt.structural with
  | ifElse cond yes no left right => rw [count,left,right,size_ifElse]
  | ifOnly cond yes ih => rw [count,ih,size_ifOnly]
  | loop cond body inv ih => rw [count,ih,size_loop]
  | block items ih => exact countAll_eq ih
  | _ => rfl

theorem tallyAll_eq {items : List Stmt} {n : Nat} (each : ∀ t ∈ items, ∀ n, t.tally n = n + t.size) :
    tallyAll n items = n + (block items).size := by
  induction items generalizing n with
  | nil => rfl
  | cons t items ih =>
    rw [tallyAll,each t List.mem_cons_self,ih fun u member => each u (List.mem_cons_of_mem _ member),size_block]
    omega

theorem tally_eq (t : Stmt) (n : Nat) : t.tally n = n + t.size := by
  induction t using Stmt.structural generalizing n with
  | ifElse cond yes no left right =>
    rw [tally,left,right,size_ifElse]
    omega
  | ifOnly cond yes ih =>
    rw [tally,ih,size_ifOnly]
    omega
  | loop cond body inv ih =>
    rw [tally,ih,size_loop]
    omega
  | block items ih => exact tallyAll_eq ih
  | _ => rfl

theorem addAllTo_eq {s : Statistics} {items : List Stmt} (each : ∀ t ∈ items, ∀ s, t.addTo s = s.plus t.size t.names) :
    addAllTo s items = s.plus (block items).size (block items).names := by
  induction items generalizing s with
  | nil => exact Statistics.plus_nil.symm
  | cons t items ih =>
    have first := each t List.mem_cons_self s
    have rest := fun s => ih (s := s) fun u member => each u (List.mem_cons_of_mem _ member)
    rw [addAllTo,first,rest,Statistics.plus_plus,size_block,names_block]

theorem addTo_eq (t : Stmt) (s : Statistics) : t.addTo s = s.plus t.size t.names := by
  induction t using Stmt.structural generalizing s with
  | skip | printState => exact Statistics.addStmt_eq
  | assign name rhs =>
    rw [addTo,Expr.addTo_eq,Statistics.addVar_eq,Statistics.addStmt_eq,Statistics.plus_plus,Statistics.plus_plus]
    simp [size,names,parts,executed,expressions,nodeClass,Expr.names,Expr.parts,Expr.name?]
  | ifElse cond yes no left right =>
    rw [addTo,right,left,Expr.addTo_eq,Statistics.addStmt_eq,size_ifElse,names_ifElse]
    simp only [Statistics.plus_plus]
    rfl
  | ifOnly cond yes ih =>
    rw [addTo,ih,Expr.addTo_eq,Statistics.addStmt_eq,size_ifOnly,names_ifOnly]
    simp only [Statistics.plus_plus]
    rfl
  | loop cond body inv ih =>
    rw [addTo,ih,Expr.addTo_eq,Statistics.addStmt_eq,size_loop,names_loop]
    simp only [Statistics.plus_plus]
    rfl
  | assert cond | assume cond =>
    rw [addTo,Expr.addTo_eq,Statistics.addStmt_eq,Statistics.plus_plus]
    simp [size,names,parts,executed,expressions,nodeClass]
  | havoc xs =>
    rw [addTo,Statistics.foldl_addVar,Statistics.addStmt_eq,Statistics.plus_plus,names_havoc]
    rfl
  | block items ih => exact addAllTo_eq ih
  | hollow => exact Statistics.plus_nil.symm

end Stmt

theorem Names.size_eq {vars : Names} {names : List String} (same : ∀ x, x ∈ vars ↔ x ∈ names) :
    vars.size = names.toFinset.card := by
  have distinct : vars.toList.Nodup := Std.TreeSet.distinct_toList.imp fun differ same => differ (by simp [same])
  have members : vars.toList.toFinset = names.toFinset := by
    ext x
    rw [List.mem_toFinset,Std.TreeSet.mem_toList,List.mem_toFinset,same]
  rw [← members,List.toFinset_card_of_nodup distinct,Std.TreeSet.length_toList]

namespace Counters

/-- A program is visited, and the tally is begun again with it if that is asked for. -/
def step (c : Counters) (program : Stmt × Bool) : Counters :=
  if program.2 then (c.visit (.stmt program.1)).restart (.stmt program.1) else c.visit (.stmt program.1)

/-- The counters after a sequence of programs. -/
def run (c : Counters) (programs : List (Stmt × Bool)) : Counters :=
  programs.foldl step c

variable {c : Counters}

theorem step_statistics (program : Stmt × Bool) :
    (c.step program).statistics = c.statistics.plus program.1.size program.1.names := by
  unfold step
  split
  · exact Stmt.addTo_eq _ _
  · exact Stmt.addTo_eq _ _

theorem run_statistics (programs : List (Stmt × Bool)) :
    (c.run programs).statistics =
      c.statistics.plus (programs.map (·.1.size)).sum (programs.flatMap (·.1.names)) := by
  induction programs generalizing c with
  | nil => exact Statistics.plus_nil.symm
  | cons program programs ih =>
    change ((c.step program).run programs).statistics = _
    rw [ih,step_statistics,Statistics.plus_plus]
    simp

/-- After any sequence of programs, all counters find the same number of statements in the next program, which is the
number of its nodes that are statements of their own. The variables are counted over all programs so far. -/
theorem counters_agree (before : List (Stmt × Bool)) (p : Stmt) :
    let old := run {} before
    let new := old.visit (.stmt p)
    (new.statistics.stmts = old.statistics.stmts + p.size ∧
      (Node.stmt p).tally old.tally = .ok (old.tally + p.size) ∧ new.tally = old.tally + p.size ∧
      (Node.stmt p).tally 0 = .ok p.size ∧ (new.restart (.stmt p)).tally = p.size ∧
      (Node.stmt p).count = .ok p.size) ∧
    new.statistics.vars.size = ((before.map Prod.fst ++ [p]).flatMap Stmt.names).toFinset.card := by
  intro old new
  have added : new.statistics = old.statistics.plus p.size p.names := Stmt.addTo_eq p old.statistics
  have tallied : (Node.stmt p).tally old.tally = .ok (old.tally + p.size) := congrArg Except.ok (p.tally_eq old.tally)
  have again : (Node.stmt p).tally 0 = .ok p.size := by
    rw [Node.tally,p.tally_eq,Nat.zero_add]
  refine ⟨⟨congrArg Statistics.stmts added,tallied,?_,again,?_,congrArg Except.ok p.count_eq⟩,?_⟩
  · simp only [new,visit,tallied]
    rfl
  · simp only [restart,again]
    rfl
  · apply Names.size_eq
    intro x
    rw [added,run_statistics]
    simp [Statistics.plus]

end Counters

end WhileExec
