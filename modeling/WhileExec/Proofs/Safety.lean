import Mathlib
import WhileExec.Proofs.Endings
import WhileExec.Proofs.Grammar.Roundtrip

/-!
# Runs of programs that were read

What was read makes sense to the interpreter: terms are integers and conditions are truth values, so variables stay
integers. A run can go on for ever, and it can fail for want of a variable, by a division by zero or by an assertion or
assumption that is false. The one thing that was read and has no meaning is a chain of three or more conditions: its
operator is the list of the operators that were read, which is the name of no connective.
-/

namespace WhileExec

mutual

/-- No chain of connectives in the condition has more than two operands. -/
def Expr.inPairs : Expr → Bool
  | .app .logic _ args => decide (args.length ≤ 2) && Expr.allInPairs args
  | _ => true

def Expr.allInPairs : List Expr → Bool
  | [] => true
  | e :: es => e.inPairs && Expr.allInPairs es

end

def Value.IsInt (v : Value) : Prop := ∃ n, v = .int n

def Value.IsBool (v : Value) : Prop := ∃ b, v = .bool b

/-- All variables are integers. -/
def Store.Integral (store : Store) : Prop :=
  ∀ (x : String) v, store[x]? = some v → v.IsInt

theorem Store.Integral.insert {store : Store} (integral : store.Integral) (name : String) {v : Value} (int : v.IsInt) :
    Store.Integral (store.insert name v) := by
  intro x w found
  rw [Std.TreeMap.getElem?_insert] at found
  split at found
  · cases found
    exact int
  · exact integral x w found

/-- The evaluation gives what is expected, or it asks for a variable that has no value, or divides by zero. If it is
`odd`, it may come to an operator without a meaning. -/
def Regular {α : Type} (store : Store) (expected : α → Prop) (odd : Prop) : Except Fault α → Prop
  | .ok a => expected a
  | .error (.unbound x) => x ∉ store
  | .error .divisionByZero => True
  | .error .unsupported => odd
  | .error _ => False

namespace Regular

variable {α β : Type} {store : Store} {P : α → Prop} {Q : β → Prop} {odd : Prop} {x : Except Fault α}

theorem bind {next : α → Except Fault β} (first : Regular store P odd x)
    (second : ∀ a, P a → Regular store Q odd (next a)) : Regular store Q odd (x >>= next) := by
  cases x with
  | ok a => exact second a first
  | error fault => cases fault <;> exact first

theorem mono {P' : α → Prop} {odd' : Prop} (regular : Regular store P odd x) (value : ∀ a, P a → P' a)
    (fault : odd → odd') : Regular store P' odd' x := by
  cases x with
  | ok a => exact value a regular
  | error reason =>
    cases reason with
    | unsupported => exact fault regular
    | _ => exact regular

end Regular

namespace Expr

variable {store : Store} {form : Form} {op : String} {lhs rhs arg : Expr}

theorem eval_single (other : form ≠ .plain) :
    (app form op [arg]).eval store = arg.eval store >>= fun v => form.apply op [v] := by
  cases form with
  | plain => contradiction
  | logic | compare | arith =>
    simp only [eval,evalAll]
    cases arg.eval store <;> rfl

theorem eval_pair (other : form ≠ .plain) :
    (app form op [lhs,rhs]).eval store =
      lhs.eval store >>= fun v => rhs.eval store >>= fun w => form.apply op [v,w] := by
  cases form with
  | plain => contradiction
  | logic | compare | arith =>
    simp only [eval,evalAll]
    cases lhs.eval store with
    | error => rfl
    | ok v => cases rhs.eval store <;> rfl

end Expr

namespace Value

variable {op : String} {v w : Value} {store : Store}

theorem arithmetic_regular (known : op ∈ ["+","-","*","/"]) : Regular store IsInt False (arithmetic op [v,w]) := by
  simp only [List.mem_cons,List.not_mem_nil,or_false] at known
  rcases known with rfl | rfl | rfl | rfl
  · exact ⟨_,rfl⟩
  · exact ⟨_,rfl⟩
  · exact ⟨_,rfl⟩
  · change Regular store IsInt False (divide v w >>= pure)
    unfold divide
    split
    · trivial
    · exact ⟨_,rfl⟩

theorem comparison_bool (known : op ∈ ["<=","<","=",">=",">"]) : ∃ b, comparison op v w = .ok (.bool b) := by
  simp only [List.mem_cons,List.not_mem_nil,or_false] at known
  rcases known with rfl | rfl | rfl | rfl | rfl <;> exact ⟨_,rfl⟩

theorem connective_bool (known : op ∈ ["and","or"]) (left : v.IsBool) (right : w.IsBool) :
    ∃ b, connective op [v,w] = .ok (.bool b) := by
  obtain ⟨a,rfl⟩ := left
  obtain ⟨b,rfl⟩ := right
  simp only [List.mem_cons,List.not_mem_nil,or_false] at known
  rcases known with rfl | rfl
  · cases a <;> exact ⟨_,rfl⟩
  · cases a <;> exact ⟨_,rfl⟩

end Value

namespace Grammar

variable {store : Store} {e : Expr}

theorem IsTerm.regular (term : IsTerm e) (integral : store.Integral) :
    Regular store Value.IsInt False (e.eval store) := by
  induction term with
  | int n => exact ⟨n,rfl⟩
  | @var name word =>
    simp only [Expr.eval]
    cases found : store[name]? with
    | some v => exact integral name v found
    | none => exact (by simpa using found : name ∉ store)
  | app known left right one two =>
    rw [Expr.eval_pair (by simp)]
    exact one.bind fun v _ => two.bind fun w _ => Value.arithmetic_regular known

/-- The operator of a longer chain is written as a list, in square brackets, so it is none of the connectives. -/
theorem connective_chain (op next : String) (ops : List String) (vs : List Value) :
    Value.connective (Reading.chainOperator (op :: next :: ops)) vs = .error .unsupported := by
  have front : (Reading.chainOperator (op :: next :: ops)).toList.head? = some '[' := by
    simp [Reading.chainOperator]
  unfold Value.connective
  split
  next same => simp [same] at front
  next same => simp [same] at front
  next same => simp [same] at front
  next => rfl

theorem evalAll_regular {es : List Expr}
    (each : ∀ e ∈ es, Regular store (fun v => v.IsBool ∧ e.inPairs = true) (e.inPairs = false) (e.eval store)) :
    Regular store (fun vs => List.Forall₂ (fun _ v => Value.IsBool v) es vs ∧ Expr.allInPairs es = true)
      (Expr.allInPairs es = false) (Expr.evalAll store es) := by
  induction es with
  | nil => exact ⟨.nil,rfl⟩
  | cons e es ih =>
    have first := each e (by simp)
    have rest := ih fun e member => each e (by simp [member])
    simp only [Expr.evalAll,Expr.allInPairs]
    refine (first.mono (fun _ => id) (by simp +contextual)).bind fun v known => ?_
    refine (rest.mono (fun _ => id) (by simp +contextual)).bind fun vs more => ?_
    exact ⟨.cons known.1 more.1,by simp [known.2,more.2]⟩

/-- A condition has a truth value exactly if its chains have no more than two operands, unless its terms have none. -/
theorem IsCondition.regular (cond : IsCondition e) (integral : store.Integral) :
    Regular store (fun v => v.IsBool ∧ e.inPairs = true) (e.inPairs = false) (e.eval store) := by
  induction cond with
  | truth b => exact ⟨⟨b,rfl⟩,rfl⟩
  | @compare op lhs rhs known left right =>
    rw [Expr.eval_pair (by simp)]
    refine ((left.regular integral).mono (fun _ => id) False.elim).bind fun v _ => ?_
    refine ((right.regular integral).mono (fun _ => id) False.elim).bind fun w _ => ?_
    obtain ⟨b,value⟩ := Value.comparison_bool (v := v) (w := w) known
    change Regular store _ _ (Value.comparison op v w)
    rw [value]
    exact ⟨⟨b,rfl⟩,rfl⟩
  | @not arg inner ih =>
    have same : (Expr.app .logic "not" [arg]).inPairs = arg.inPairs := by simp [Expr.inPairs,Expr.allInPairs]
    rw [Expr.eval_single (by simp),same]
    exact ih.bind fun v known => ⟨⟨_,rfl⟩,known.2⟩
  | @chain op arg args known some first rest one more =>
    have operands := evalAll_regular fun e member => (List.mem_cons.mp member).elim (fun same => same ▸ one) (more e)
    change Regular store _ _ (Expr.evalAll store (arg :: args) >>= Value.connective _)
    rcases args with _ | ⟨next,_ | ⟨third,args⟩⟩
    · contradiction
    · have same : (Expr.app .logic op [arg,next]).inPairs = Expr.allInPairs [arg,next] := by simp [Expr.inPairs]
      simp only [List.map_cons,List.map_nil,Reading.chainOperator,same]
      refine operands.bind ?_
      rintro _ ⟨_ | ⟨left,_ | ⟨right,⟨⟩⟩⟩,pairs⟩
      obtain ⟨b,value⟩ := Value.connective_bool known left right
      rw [value]
      exact ⟨⟨b,rfl⟩,pairs⟩
    · have long : ∀ op, (Expr.app .logic op (arg :: next :: third :: args)).inPairs = false := by
        simp [Expr.inPairs]
      refine (operands.mono (fun _ => id) fun _ => long _).bind fun vs _ => ?_
      rw [List.map_cons,List.map_cons,connective_chain]
      exact long _

end Grammar

mutual

/-- The statement and all statements in it. -/
def Stmt.parts : Stmt → List Stmt
  | .ifElse cond yes no => .ifElse cond yes no :: (yes.parts ++ no.parts)
  | .ifOnly cond yes => .ifOnly cond yes :: yes.parts
  | .loop cond body inv => .loop cond body inv :: body.parts
  | .block items => .block items :: Stmt.partsOf items
  | s => [s]

def Stmt.partsOf : List Stmt → List Stmt
  | [] => []
  | s :: ss => s.parts ++ Stmt.partsOf ss

end

/-- The condition that decides how the statement goes on. -/
def Stmt.test? : Stmt → Option Expr
  | .ifElse cond _ _ | .ifOnly cond _ | .loop cond _ _ | .assert cond | .assume cond => some cond
  | _ => none

namespace Stmt

theorem mem_partsOf {t : Stmt} {items : List Stmt} : t ∈ partsOf items ↔ ∃ s ∈ items, t ∈ s.parts := by
  induction items with
  | nil => simp [partsOf]
  | cons s items ih => simp [partsOf,ih]

theorem self_mem_parts (s : Stmt) : s ∈ s.parts := by
  cases s <;> simp [parts]

/-- A fault with which a run of the statement may end in a store. -/
inductive MayFail (s : Stmt) : Fault → Store → Prop
  | unbound {x : String} {store : Store} (missing : x ∉ store) : MayFail s (.unbound x) store
  | divisionByZero {store : Store} : MayFail s .divisionByZero store
  | violated {t : Stmt} {cond : Expr} {text : String} {store : Store} (member : t ∈ s.parts)
    (demands : t = .assert cond ∨ t = .assume cond) (fails : cond.Decides store false)
    (written : (t.write 0).toExcept = .ok text) : MayFail s (.violated text) store
  | unsupported {t : Stmt} {cond : Expr} {store : Store} (member : t ∈ s.parts) (test : t.test? = some cond)
    (long : cond.inPairs = false) : MayFail s .unsupported store

theorem MayFail.within {s u : Stmt} {fault : Fault} {store : Store} (fails : s.MayFail fault store)
    (parts : ∀ t ∈ s.parts, t ∈ u.parts) : u.MayFail fault store := by
  cases fails with
  | unbound missing => exact .unbound missing
  | divisionByZero => exact .divisionByZero
  | violated member demands fails written => exact .violated (parts _ member) demands fails written
  | unsupported member test long => exact .unsupported (parts _ member) test long

/-- A fault with which a run with a limit may end. -/
def MayStop (s : Stmt) (fault : Fault) (store : Store) : Prop :=
  fault = .unending ∨ s.MayFail fault store

end Stmt

namespace Grammar.IsProgram

variable {s t : Stmt}

theorem part (program : IsProgram s) (member : t ∈ s.parts) : IsProgram t := by
  induction program with
  | ifElse test left right closed one two =>
    simp only [Stmt.parts,List.mem_cons,List.mem_append] at member
    rcases member with rfl | member | member
    · exact .ifElse test left right closed
    · exact one member
    · exact two member
  | ifOnly test inner ih =>
    simp only [Stmt.parts,List.mem_cons] at member
    rcases member with rfl | member
    · exact .ifOnly test inner
    · exact ih member
  | loop test inner kept ih =>
    simp only [Stmt.parts,List.mem_cons] at member
    rcases member with rfl | member
    · exact .loop test inner kept
    · exact ih member
  | block some each ih =>
    simp only [Stmt.parts,List.mem_cons,Stmt.mem_partsOf] at member
    rcases member with rfl | ⟨u,inside,member⟩
    · exact .block some each
    · exact ih u inside member
  | skip | printState | assign | assert | assume | havoc =>
    cases List.mem_singleton.mp member
    constructor <;> assumption

theorem condition {cond : Expr} (program : IsProgram s) (test : s.test? = some cond) : IsCondition cond := by
  cases program <;> cases test <;> assumption

end Grammar.IsProgram

namespace Run

variable {α β : Type} {F : Fault → Store → Prop} {m : Machine}

/-- The variables are integers in the end, and a fault is a known one. -/
inductive Safe (F : Fault → Store → Prop) : EStateM.Result Fault Machine α → Prop
  | ok (a : α) {m : Machine} (integral : m.store.Integral) : Safe F (.ok a m)
  | error {fault : Fault} {m : Machine} (integral : m.store.Integral) (known : F fault m.store) :
    Safe F (.error fault m)

namespace Safe

theorem mono {G : Fault → Store → Prop} {result : EStateM.Result Fault Machine α} (safe : Safe F result)
    (weaker : ∀ fault store, F fault store → G fault store) : Safe G result := by
  cases safe with
  | ok a integral => exact .ok a integral
  | error integral known => exact .error integral (weaker _ _ known)

theorem within {s u : Stmt} {result : EStateM.Result Fault Machine α} (safe : Safe s.MayStop result)
    (parts : ∀ t ∈ s.parts, t ∈ u.parts) : Safe u.MayStop result :=
  safe.mono fun _ _ => Or.imp_right fun fails => fails.within parts

theorem bind {action : Run α} {next : α → Run β} (first : Safe F (action m))
    (second : ∀ a mid, action m = .ok a mid → mid.store.Integral → Safe F (next a mid)) :
    Safe F ((action >>= next) m) := by
  change Safe F (action.bind next m)
  unfold EStateM.bind
  cases done : action m with
  | ok a mid =>
    rw [done] at first
    cases first with
    | ok _ integral => exact second a mid done integral
  | error fault mid =>
    rw [done] at first
    cases first with
    | error integral known => exact .error integral known

theorem value {s : Stmt} {e : Expr} {P : Value → Prop} {odd : Prop} (integral : m.store.Integral)
    (regular : Regular m.store P odd (e.eval m.store)) (fails : odd → s.MayFail .unsupported m.store) :
    Safe s.MayFail (Run.value e m) := by
  simp only [Run.value,Bind.bind,EStateM.bind,get,getThe,MonadStateOf.get,EStateM.get]
  cases evaluated : e.eval m.store with
  | ok v => exact .ok v integral
  | error fault =>
    rw [evaluated] at regular
    cases fault with
    | unbound x => exact .error integral (.unbound regular)
    | divisionByZero => exact .error integral .divisionByZero
    | unsupported => exact .error integral (fails regular)
    | _ => exact regular.elim

theorem test {s : Stmt} {cond : Expr} (program : Grammar.IsProgram s) (test : s.test? = some cond)
    (integral : m.store.Integral) : Safe s.MayFail (Run.value cond m) :=
  value integral ((program.condition test).regular integral) fun long => .unsupported s.self_mem_parts test long

theorem demand {s : Stmt} {cond : Expr} (program : Grammar.IsProgram s) (kind : s = .assert cond ∨ s = .assume cond)
    (integral : m.store.Integral) : Safe s.MayFail (Run.demand s cond m) := by
  have tested : s.test? = some cond := by rcases kind with rfl | rfl <;> rfl
  refine (test program tested integral).bind fun v mid valued integral => ?_
  obtain ⟨evaluated,rfl⟩ := value_ok valued
  split
  · exact .ok () integral
  next fails =>
    have written : (s.write 0).toExcept = .ok (s.write 0).text := by simp [Written.toExcept,program.whole 0]
    rw [written]
    exact .error integral (.violated s.self_mem_parts kind ⟨v,evaluated,by simpa using fails⟩ written)

theorem iterate {cond : Expr} {body : Run Unit} (tests : ∀ m, m.store.Integral → Safe F (Run.value cond m))
    (bodies : ∀ m, m.store.Integral → Safe F (body m)) (limited : ∀ store, F .unending store) (limit : Nat)
    (m : Machine) (integral : m.store.Integral) :
    Safe F (Run.iterate (Value.isTrue <$> Run.value cond) body limit m) := by
  have decided : ∀ m, m.store.Integral → Safe F ((Value.isTrue <$> Run.value cond) m) := by
    intro m integral
    rw [map_eq_pure_bind]
    exact (tests m integral).bind fun v mid _ integral => .ok _ integral
  induction limit generalizing m with
  | zero =>
    refine (decided m integral).bind fun b mid _ integral => ?_
    cases b with
    | true => exact .error integral (limited _)
    | false => exact .ok () integral
  | succ limit ih =>
    refine (decided m integral).bind fun b mid _ integral => ?_
    cases b with
    | true => exact (bodies mid integral).bind fun _ next _ integral => ih next integral
    | false => exact .ok () integral

theorem forM_set (names : List String) (m : Machine) (integral : m.store.Integral) :
    Safe F ((names.forM fun name => Run.set name (.int 0)) m) := by
  induction names generalizing m with
  | nil => exact .ok () integral
  | cons name names ih => exact ih _ (integral.insert name ⟨0,rfl⟩)

end Safe

end Run

namespace Grammar

variable {s : Stmt}

/-- A run that is cut off by its limit is safe, too. -/
theorem IsProgram.exec_safe (program : IsProgram s) (limit : Nat) (m : Machine) (integral : m.store.Integral) :
    Run.Safe s.MayStop (s.exec limit m) := by
  have whole := program
  induction program generalizing m with
  | skip | printState => exact .ok () integral
  | @assign name rhs word other term =>
    have value : Run.Safe (Stmt.assign name rhs).MayFail (Run.value rhs m) :=
      .value integral (term.regular integral) False.elim
    refine (value.mono fun _ _ => .inr).bind fun v mid valued integral => ?_
    obtain ⟨evaluated,rfl⟩ := Run.value_ok valued
    have int := term.regular integral
    rw [evaluated] at int
    exact .ok () (integral.insert name int)
  | ifElse test left right closed one two =>
    refine ((Run.Safe.test whole rfl integral).mono fun _ _ => .inr).bind fun v mid _ integral => ?_
    split
    · exact (one mid integral left).within (by simp +contextual [Stmt.parts])
    · exact (two mid integral right).within (by simp +contextual [Stmt.parts])
  | ifOnly test inner ih =>
    refine ((Run.Safe.test whole rfl integral).mono fun _ _ => .inr).bind fun v mid _ integral => ?_
    split
    · exact (ih mid integral inner).within (by simp +contextual [Stmt.parts])
    · exact .ok () integral
  | loop test inner kept ih =>
    refine Run.Safe.iterate (fun m integral => ?_) (fun m integral => ?_) (fun _ => .inl rfl) limit m integral
    · exact (Run.Safe.test whole rfl integral).mono fun _ _ => .inr
    · exact (ih m integral inner).within (by simp +contextual [Stmt.parts])
  | assert test => exact (Run.Safe.demand whole (.inl rfl) integral).mono fun _ _ => .inr
  | assume test => exact (Run.Safe.demand whole (.inr rfl) integral).mono fun _ _ => .inr
  | havoc some words => exact Run.Safe.forM_set _ m integral
  | @block items some each ih =>
    have steps : ∀ s ∈ items, ∀ m, m.store.Integral → Run.Safe (Stmt.block items).MayStop (s.exec limit m) := by
      intro s member m integral
      refine (ih s member m integral (each s member)).within fun t part => ?_
      simp only [Stmt.parts,List.mem_cons,Stmt.mem_partsOf]
      exact .inr ⟨s,member,part⟩
    -- the faults of the whole block are kept while its statements are gone through
    generalize (Stmt.block items).MayStop = F at steps ⊢
    unfold Stmt.exec
    clear ih each whole some
    induction items generalizing m with
    | nil => exact .ok () integral
    | cons s ss rest =>
      refine (steps s (by simp) m integral).bind fun _ mid _ integral => ?_
      exact rest mid integral fun t member => steps t (by simp [member])

/-- Programs that were read can be run: variables stay integers, and a run goes on for ever, ends, or fails for want of
a variable, by a division by zero, by an assertion or assumption that is false, or by a chain of more than two
conditions. Such a chain has no value anywhere, so a run that comes to it fails. -/
theorem parse_runs {text : String} {reading : Reading} (read : parse text = .ok reading) :
    ∃ a, reading = .stmt a ∧
      (∀ m : Machine, m.store.Integral →
        (∀ limit final, a.exec limit m = .ok () final ∨ (∃ fault, a.exec limit m = .error fault final) →
          final.store.Integral) ∧
        (a.Diverges m ∨ (∃ final, a.Ends m (.ok () final)) ∨
          ∃ fault final, a.Ends m (.error fault final) ∧ a.MayFail fault final.store)) ∧
      ∀ t ∈ a.parts, ∀ cond, t.test? = some cond → cond.inPairs = false →
        ∀ store v, store.Integral → cond.eval store ≠ .ok v := by
  obtain ⟨a,rfl,program⟩ := parse_program read
  refine ⟨a,rfl,fun m integral => ⟨fun limit final ends => ?_,?_⟩,?_⟩
  · have safe := program.exec_safe limit m integral
    rcases ends with ends | ⟨fault,ends⟩
    · rw [ends] at safe
      cases safe with
      | ok _ integral => exact integral
    · rw [ends] at safe
      cases safe with
      | error integral _ => exact integral
  · rcases a.diverges_or_ends m with diverges | ⟨result,settled,limit,ran⟩
    · exact .inl diverges
    · have safe := program.exec_safe limit m integral
      rw [ran] at safe
      cases safe with
      | @ok _ final => exact .inr (.inl ⟨final,settled,limit,ran⟩)
      | @error fault final _ known =>
        have fails := known.resolve_left (Run.settled_error.mp settled)
        exact .inr (.inr ⟨fault,final,⟨settled,limit,ran⟩,fails⟩)
  · intro t member cond test long store v integral value
    have regular := ((program.part member).condition test).regular integral
    rw [value] at regular
    exact Bool.false_ne_true (long.symm.trans regular.2)

theorem machine_integral (x : Int) : (machine x).store.Integral := by
  have empty : Store.Integral ∅ := by
    intro name v found
    simp at found
  exact ((empty.insert "x" ⟨x,rfl⟩).insert "y" ⟨0,rfl⟩).insert "z" ⟨0,rfl⟩

/-- Halves a number as long as it is above one, and expects to do so more than five times. -/
def shrinking : Stmt :=
  .block [
    .loop
      (.app .logic "and" [.app .compare ">" [.var "x",.int 1],.app .logic "not" [.app .compare "=" [.var "y",.int 9]]])
      (.block [
        .assign "x" (.app .arith "/" [.var "x",.int 2]),
        .assign "y" (.app .arith "+" [.var "y",.int 1])]) none,
    .assert (.app .compare ">" [.var "y",.int 5])]

set_option maxRecDepth 2000 in
theorem parse_runs_shrinking :
    parse "while x > 1 and not (y = 9) do {x := x / 2; y := y + 1}; assert y > 5" = .ok (.stmt shrinking) ∧
      ∃ final, shrinking.Ends (machine 9) (.error (.violated "assert y > 5") final) ∧
        shrinking.MayFail (.violated "assert y > 5") final.store ∧ final.store.Integral := by
  have read : parse "while x > 1 and not (y = 9) do {x := x / 2; y := y + 1}; assert y > 5" = .ok (.stmt shrinking) :=
    parse_eq_ok.mpr ⟨[],false,rfl⟩
  have ends : shrinking.Ends (machine 9) (.error (.violated "assert y > 5") _) :=
    ⟨Run.settled_error.mpr (by decide),3,rfl⟩
  obtain ⟨a,same,runs,-⟩ := parse_runs read
  cases same
  obtain ⟨integral,diverges | ⟨_,normal⟩ | ⟨_,_,fails,known⟩⟩ := runs (machine 9) (machine_integral 9)
  · exact absurd diverges ends.not_diverges
  · cases normal.unique ends
  · cases fails.unique ends
    exact ⟨read,_,ends,known,integral 3 _ (.inr ⟨_,rfl⟩)⟩

set_option maxRecDepth 2000 in
/-- Three conditions in a row are read, and all of them are true, but no assertion or assumption fails: the run ends
with a fault that says nothing. -/
theorem chain_of_three_fails :
    parse "assert x < 1 and y < 2 and z < 3" = .ok (.stmt between) ∧ (machine 0).store.Integral ∧
      between.Ends (machine 0) (.error .unsupported (machine 0)) ∧ Fault.unsupported.message = "" := by
  refine ⟨parse_eq_ok.mpr ⟨[],false,rfl⟩,machine_integral 0,⟨Run.settled_error.mpr (by decide),0,rfl⟩,rfl⟩

end Grammar

end WhileExec
