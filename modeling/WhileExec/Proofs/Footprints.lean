import Mathlib
import WhileExec.Proofs.Executions

/-!
# What programs read and write

The variables that occur in an expression, and those that a statement assigns or chooses: somewhere in it, or on
every way through it. A variable that has no value can only be asked for if it occurs. An execution leaves alone what
the statement does not write, gives a value to what it writes on every way, and loses no variable.

More variables do no harm: what is done in a store is done in every store that extends it.
-/

namespace WhileExec

mutual

/-- The variable occurs in the expression. -/
def Expr.reads (name : String) : Expr → Bool
  | .var x => x == name
  | .app _ _ args => Expr.someReads name args
  | _ => false

def Expr.someReads (name : String) : List Expr → Bool
  | [] => false
  | e :: es => e.reads name || Expr.someReads name es

end

mutual

/-- The variable is assigned or chosen somewhere in the statement. -/
def Stmt.writes (name : String) : Stmt → Bool
  | .assign x _ => x == name
  | .ifElse _ yes no => yes.writes name || no.writes name
  | .ifOnly _ yes => yes.writes name
  | .loop _ body _ => body.writes name
  | .havoc names => names.contains name
  | .block items => Stmt.someWrites name items
  | _ => false

def Stmt.someWrites (name : String) : List Stmt → Bool
  | [] => false
  | s :: ss => s.writes name || Stmt.someWrites name ss

end

mutual

/-- The variable is assigned or chosen on every way through the statement. The way past a loop is one of them. -/
def Stmt.settles (name : String) : Stmt → Bool
  | .assign x _ => x == name
  | .ifElse _ yes no => yes.settles name && no.settles name
  | .havoc names => names.contains name
  | .block items => Stmt.someSettles name items
  | _ => false

def Stmt.someSettles (name : String) : List Stmt → Bool
  | [] => false
  | s :: ss => s.settles name || Stmt.someSettles name ss

end

section Unbound

variable {name : String}

theorem Value.fold_bound {op : Value → Value → Except Fault Value} (bound : ∀ v w, op v w ≠ .error (.unbound name))
    (vs : List Value) : Value.fold op vs ≠ .error (.unbound name) := by
  cases vs with
  | nil => simp [Value.fold]
  | cons v vs =>
    change vs.foldlM op v ≠ _
    induction vs generalizing v with
    | nil => simp [pure,Except.pure]
    | cons w vs ih =>
      rw [List.foldlM_cons]
      intro failed
      cases step : op v w with
      | error fault =>
        rw [step] at failed
        cases failed
        exact bound v w step
      | ok u =>
        rw [step] at failed
        exact ih u failed

theorem Value.arithmetic_bound (op : String) (args : List Value) :
    Value.arithmetic op args ≠ .error (.unbound name) := by
  unfold Value.arithmetic
  split
  · exact Value.fold_bound (by simp) args
  · exact Value.fold_bound (by simp) args
  · exact Value.fold_bound (by simp) args
  · apply Value.fold_bound
    intro v w
    unfold Value.divide
    split <;> simp
  · simp

theorem Value.connective_bound (op : String) (args : List Value) :
    Value.connective op args ≠ .error (.unbound name) := by
  unfold Value.connective
  split
  · split <;> simp
  all_goals simp

theorem Value.comparison_bound (op : String) (v w : Value) :
    Value.comparison op v w ≠ .error (.unbound name) := by
  unfold Value.comparison
  split <;> simp

theorem Form.apply_bound (form : Form) (op : String) (args : List Value) :
    form.apply op args ≠ .error (.unbound name) := by
  cases form with
  | plain => simp [Form.apply]
  | logic => exact Value.connective_bound op args
  | arith => exact Value.arithmetic_bound op args
  | compare =>
    rcases args with _ | ⟨v,_ | ⟨w,args⟩⟩
    · simp [Form.apply]
    · simp [Form.apply]
    · exact Value.comparison_bound op v w

namespace Expr

variable {store : Store}

theorem evalAll_unbound {es : List Expr}
    (each : ∀ e ∈ es, e.eval store = .error (.unbound name) → e.reads name = true ∧ name ∉ store)
    (failed : evalAll store es = .error (.unbound name)) : someReads name es = true ∧ name ∉ store := by
  induction es with
  | nil => cases failed
  | cons e es ih =>
    simp only [evalAll] at failed
    cases first : e.eval store with
    | error fault =>
      rw [first] at failed
      cases failed
      obtain ⟨occurs,missing⟩ := each e (by simp) first
      exact ⟨by simp [someReads,occurs],missing⟩
    | ok v =>
      rw [first] at failed
      cases rest : evalAll store es with
      | error fault =>
        rw [rest] at failed
        cases failed
        obtain ⟨occurs,missing⟩ := ih (fun e member => each e (by simp [member])) rest
        exact ⟨by simp [someReads,occurs],missing⟩
      | ok vs =>
        rw [rest] at failed
        cases failed

theorem eval_unbound (e : Expr) (failed : e.eval store = .error (.unbound name)) :
    e.reads name = true ∧ name ∉ store := by
  induction e using Expr.structural with
  | int n => cases failed
  | truth v => cases failed
  | var x =>
    simp only [eval] at failed
    cases found : store[x]? with
    | some v =>
      rw [found] at failed
      cases failed
    | none =>
      rw [found] at failed
      cases failed
      exact ⟨by simp [reads],by simpa using found⟩
  | app form op args ih =>
    cases form with
    | plain => cases failed
    | logic | arith | compare =>
      cases operands : evalAll store args with
      | error fault =>
        simp only [eval,operands] at failed
        cases failed
        exact evalAll_unbound ih operands
      | ok vs =>
        simp only [eval,operands,bind,Except.bind] at failed
        exact absurd failed (Form.apply_bound _ op vs)

end Expr

end Unbound

theorem Iterates.invariant {cond : Expr} {R : Store → Store → Prop} {P : Store → Prop} {n : Nat} {store final : Store}
    (run : Iterates cond R n store final) (step : ∀ a b, R a b → P a → P b) (first : P store) : P final := by
  induction n generalizing store with
  | zero =>
    obtain ⟨-,rfl⟩ := run
    exact first
  | succ n ih =>
    rcases run with ⟨-,rfl⟩ | ⟨-,mid,one,rest⟩
    · exact first
    · exact ih rest (step store mid one first)

namespace Chooses

variable {name : String} {names : List String} {store final : Store}

theorem frame (chosen : Chooses names store final) (apart : name ∉ names) : final[name]? = store[name]? := by
  induction names generalizing store with
  | nil => cases chosen; rfl
  | cons x names ih =>
    simp only [List.mem_cons,not_or] at apart
    obtain ⟨n,chosen⟩ := chosen
    rw [ih chosen apart.2,Std.TreeMap.getElem?_insert]
    simp [Ne.symm apart.1]

theorem keeps (chosen : Chooses names store final) (known : name ∈ store) : name ∈ final := by
  induction names generalizing store with
  | nil => cases chosen; exact known
  | cons x names ih =>
    obtain ⟨n,chosen⟩ := chosen
    exact ih chosen (by simp [known])

theorem gives (chosen : Chooses names store final) (member : name ∈ names) : name ∈ final := by
  induction names generalizing store with
  | nil => cases member
  | cons x names ih =>
    obtain ⟨n,chosen⟩ := chosen
    rcases List.mem_cons.mp member with rfl | member
    · exact keeps chosen (by simp)
    · exact ih chosen member

end Chooses

namespace Stmt

variable {name : String} {limit : Nat} {store final : Store}

theorem runs_frame (s : Stmt) (apart : s.writes name = false) (run : s.Runs limit store final) :
    final[name]? = store[name]? := by
  induction s using Stmt.structural generalizing store final with
  | skip | printState => cases run; rfl
  | assign x rhs =>
    obtain ⟨v,-,rfl⟩ := run
    have other : x ≠ name := by simpa [writes] using apart
    simp [Std.TreeMap.getElem?_insert,other]
  | ifElse cond yes no left right =>
    simp only [writes,Bool.or_eq_false_iff] at apart
    rcases run with ⟨-,run⟩ | ⟨-,run⟩
    · exact left apart.1 run
    · exact right apart.2 run
  | ifOnly cond yes ih =>
    rcases run with ⟨-,run⟩ | ⟨-,rfl⟩
    · exact ih apart run
    · rfl
  | loop cond body inv ih =>
    exact Iterates.invariant (P := fun s => s[name]? = store[name]?) run
      (fun a b one same => (ih apart one).trans same) rfl
  | assert cond | assume cond =>
    obtain ⟨-,rfl⟩ := run
    rfl
  | havoc names => exact Chooses.frame run (by simpa [writes] using apart)
  | block items ih =>
    simp only [writes] at apart
    change RunsAll limit items store final at run
    induction items generalizing store with
    | nil => cases run; rfl
    | cons s ss rest =>
      simp only [someWrites,Bool.or_eq_false_iff] at apart
      obtain ⟨mid,one,run⟩ := run
      rw [rest (fun t member => ih t (by simp [member])) apart.2 run,ih s (by simp) apart.1 one]
  | hollow => exact run.elim

theorem runs_keeps (s : Stmt) (run : s.Runs limit store final) (known : name ∈ store) : name ∈ final := by
  induction s using Stmt.structural generalizing store final with
  | skip | printState => cases run; exact known
  | assign x rhs =>
    obtain ⟨v,-,rfl⟩ := run
    simp [known]
  | ifElse cond yes no left right =>
    rcases run with ⟨-,run⟩ | ⟨-,run⟩
    · exact left run known
    · exact right run known
  | ifOnly cond yes ih =>
    rcases run with ⟨-,run⟩ | ⟨-,rfl⟩
    · exact ih run known
    · exact known
  | loop cond body inv ih => exact Iterates.invariant run (fun a b one => ih one) known
  | assert cond | assume cond =>
    obtain ⟨-,rfl⟩ := run
    exact known
  | havoc names => exact Chooses.keeps run known
  | block items ih =>
    change RunsAll limit items store final at run
    induction items generalizing store with
    | nil => cases run; exact known
    | cons s ss rest =>
      obtain ⟨mid,one,run⟩ := run
      exact rest (fun t member => ih t (by simp [member])) (ih s (by simp) one known) run
  | hollow => exact run.elim

theorem runs_settles (s : Stmt) (written : s.settles name = true) (run : s.Runs limit store final) :
    name ∈ final := by
  induction s using Stmt.structural generalizing store final with
  | assign x rhs =>
    obtain ⟨v,-,rfl⟩ := run
    have same : x = name := by simpa [settles] using written
    simp [same]
  | ifElse cond yes no left right =>
    simp only [settles,Bool.and_eq_true] at written
    rcases run with ⟨-,run⟩ | ⟨-,run⟩
    · exact left written.1 run
    · exact right written.2 run
  | havoc names => exact Chooses.gives run (by simpa [settles] using written)
  | block items ih =>
    simp only [settles] at written
    change RunsAll limit items store final at run
    induction items generalizing store with
    | nil => cases written
    | cons s ss rest =>
      simp only [someSettles,Bool.or_eq_true] at written
      obtain ⟨mid,one,run⟩ := run
      rcases written with written | written
      · exact runs_keeps (.block ss) run (ih s (by simp) written one)
      · exact rest (fun t member => ih t (by simp [member])) written run
  | _ => cases written

end Stmt

/-- The variables of the first store have the same values in the second. -/
def Store.Extends (store more : Store) : Prop :=
  ∀ (name : String) v, store[name]? = some v → more[name]? = some v

namespace Store.Extends

variable {store more : Store}

theorem insert (wider : store.Extends more) (name : String) (v : Value) :
    Store.Extends (store.insert name v) (more.insert name v) := by
  intro other w
  simp only [Std.TreeMap.getElem?_insert]
  split
  · exact id
  · exact wider other w

end Store.Extends

namespace Expr

variable {store more : Store}

theorem evalAll_extends {es : List Expr} {vs : List Value}
    (each : ∀ e ∈ es, ∀ v, e.eval store = .ok v → e.eval more = .ok v) (values : evalAll store es = .ok vs) :
    evalAll more es = .ok vs := by
  induction es generalizing vs with
  | nil => exact values
  | cons e es ih =>
    simp only [evalAll] at values ⊢
    cases first : e.eval store with
    | error fault =>
      rw [first] at values
      cases values
    | ok v =>
      rw [first] at values
      rw [each e (by simp) v first]
      cases rest : evalAll store es with
      | error fault =>
        rw [rest] at values
        cases values
      | ok ws =>
        rw [rest] at values
        rw [ih (fun e member => each e (by simp [member])) rest]
        exact values

theorem eval_extends (wider : store.Extends more) (e : Expr) {v : Value} (value : e.eval store = .ok v) :
    e.eval more = .ok v := by
  induction e using Expr.structural generalizing v with
  | int n => exact value
  | truth w => exact value
  | var x =>
    simp only [eval] at value ⊢
    cases found : store[x]? with
    | none =>
      rw [found] at value
      cases value
    | some w =>
      rw [found] at value
      rw [wider x w found]
      exact value
  | app form op args ih =>
    cases form with
    | plain => cases value
    | logic | arith | compare =>
      simp only [eval] at value ⊢
      cases operands : evalAll store args with
      | error fault =>
        rw [operands] at value
        cases value
      | ok vs =>
        rw [operands] at value
        rw [evalAll_extends (fun e member v => ih e member) operands]
        exact value

theorem Decides.extends {cond : Expr} {b : Bool} (decided : cond.Decides store b) (wider : store.Extends more) :
    cond.Decides more b := by
  obtain ⟨v,value,truth⟩ := decided
  exact ⟨v,eval_extends wider cond value,truth⟩

end Expr

theorem Iterates.extends {cond : Expr} {R : Store → Store → Prop} {n : Nat} {store final more : Store}
    (step : ∀ {a b c : Store}, R a b → a.Extends c → ∃ d, R c d ∧ b.Extends d) (run : Iterates cond R n store final)
    (wider : store.Extends more) : ∃ further, Iterates cond R n more further ∧ final.Extends further := by
  induction n generalizing store more with
  | zero =>
    obtain ⟨fails,rfl⟩ := run
    exact ⟨more,⟨fails.extends wider,rfl⟩,wider⟩
  | succ n ih =>
    rcases run with ⟨fails,rfl⟩ | ⟨holds,mid,one,rest⟩
    · exact ⟨more,.inl ⟨fails.extends wider,rfl⟩,wider⟩
    · obtain ⟨next,same,further⟩ := step one wider
      obtain ⟨last,run,wider'⟩ := ih rest further
      exact ⟨last,.inr ⟨holds.extends wider,next,same,run⟩,wider'⟩

theorem Chooses.extends {names : List String} {store final more : Store} (chosen : Chooses names store final)
    (wider : store.Extends more) : ∃ further, Chooses names more further ∧ final.Extends further := by
  induction names generalizing store more with
  | nil =>
    cases chosen
    exact ⟨more,rfl,wider⟩
  | cons name names ih =>
    obtain ⟨n,chosen⟩ := chosen
    obtain ⟨further,same,wider⟩ := ih chosen (wider.insert name (.int n))
    exact ⟨further,⟨n,same⟩,wider⟩

theorem Stmt.runs_extends {limit : Nat} {store final more : Store} (s : Stmt) (run : s.Runs limit store final)
    (wider : store.Extends more) : ∃ further, s.Runs limit more further ∧ final.Extends further := by
  induction s using Stmt.structural generalizing store final more with
  | skip | printState =>
    cases run
    exact ⟨more,rfl,wider⟩
  | assign name rhs =>
    obtain ⟨v,value,rfl⟩ := run
    exact ⟨_,⟨v,rhs.eval_extends wider value,rfl⟩,wider.insert name v⟩
  | ifElse cond yes no left right =>
    rcases run with ⟨holds,run⟩ | ⟨fails,run⟩
    · obtain ⟨further,same,wider'⟩ := left run wider
      exact ⟨further,.inl ⟨holds.extends wider,same⟩,wider'⟩
    · obtain ⟨further,same,wider'⟩ := right run wider
      exact ⟨further,.inr ⟨fails.extends wider,same⟩,wider'⟩
  | ifOnly cond yes ih =>
    rcases run with ⟨holds,run⟩ | ⟨fails,rfl⟩
    · obtain ⟨further,same,wider'⟩ := ih run wider
      exact ⟨further,.inl ⟨holds.extends wider,same⟩,wider'⟩
    · exact ⟨more,.inr ⟨fails.extends wider,rfl⟩,wider⟩
  | loop cond body inv ih => exact Iterates.extends ih run wider
  | assert cond | assume cond =>
    obtain ⟨holds,rfl⟩ := run
    exact ⟨more,⟨holds.extends wider,rfl⟩,wider⟩
  | havoc names => exact Chooses.extends run wider
  | block items ih =>
    change RunsAll limit items store final at run
    induction items generalizing store more with
    | nil =>
      cases run
      exact ⟨more,rfl,wider⟩
    | cons s ss rest =>
      obtain ⟨mid,one,run⟩ := run
      obtain ⟨next,same,wider⟩ := ih s (by simp) one wider
      obtain ⟨further,others,wider⟩ := rest (fun t member => ih t (by simp [member])) wider run
      exact ⟨further,⟨next,same,others⟩,wider⟩
  | hollow => exact run.elim

end WhileExec
