import Mathlib
import WhileExec.Definedness
import WhileExec.Proofs.Footprints
import WhileExec.Proofs.Grammar.Writing

/-!
# Runs of programs whose variables are defined

Facts are found in one pass, and the body of a loop is visited once. They hold of every run all the same, however
often a loop iterates: a store that suits the first iteration suits the later ones, since no variable is lost on the
way. What is defined at a point are the variables that were defined before and those written on every way to it.
-/

namespace WhileExec

namespace Fact

variable {f : Fact} {name x : String}

@[simp] theorem use_defs (f : Fact) (name : String) : (f.use name).defs = f.defs := by
  unfold use
  split <;> rfl

theorem mem_use : x ∈ (f.use name).undefs ↔ x ∈ f.undefs ∨ (name = x ∧ x ∉ f.defs) := by
  unfold use
  by_cases known : name ∈ f.defs
  · have apart : ¬ (name = x ∧ x ∉ f.defs) := by
      rintro ⟨rfl,missing⟩
      exact missing known
    simp [known,apart]
  · by_cases same : name = x
    · subst same
      simp [known]
    · simp [known,same]

theorem mem_define : x ∈ (f.define name).defs ↔ name = x ∨ x ∈ f.defs := by
  simp [define]

end Fact

namespace Expr

theorem factAll_defs {es : List Expr} (each : ∀ e ∈ es, ∀ f, (e.fact f).defs = f.defs) (f : Fact) :
    (factAll f es).defs = f.defs := by
  induction es generalizing f with
  | nil => rfl
  | cons e es ih =>
    rw [factAll,ih (fun e member => each e (by simp [member])),each e (by simp)]

@[simp] theorem fact_defs (e : Expr) (f : Fact) : (e.fact f).defs = f.defs := by
  induction e using Expr.structural generalizing f with
  | int n => rfl
  | truth v => rfl
  | var x => exact f.use_defs x
  | app form op args ih => exact factAll_defs ih f

theorem mem_factAll_undefs {x : String} {es : List Expr}
    (each : ∀ e ∈ es, ∀ f, x ∈ (e.fact f).undefs ↔ x ∈ f.undefs ∨ (e.reads x = true ∧ x ∉ f.defs)) (f : Fact) :
    x ∈ (factAll f es).undefs ↔ x ∈ f.undefs ∨ (someReads x es = true ∧ x ∉ f.defs) := by
  induction es generalizing f with
  | nil => simp [factAll,someReads]
  | cons e es ih =>
    rw [factAll,ih (fun e member => each e (by simp [member])),each e (by simp),fact_defs]
    simp only [someReads,Bool.or_eq_true]
    tauto

theorem mem_fact_undefs {x : String} (e : Expr) (f : Fact) :
    x ∈ (e.fact f).undefs ↔ x ∈ f.undefs ∨ (e.reads x = true ∧ x ∉ f.defs) := by
  induction e using Expr.structural generalizing f with
  | int n => simp [fact,reads]
  | truth v => simp [fact,reads]
  | var y =>
    rw [fact,Fact.mem_use]
    simp [reads]
  | app form op args ih => exact mem_factAll_undefs ih f

end Expr

namespace Stmt

theorem mem_foldl_define {x : String} (names : List String) (f : Fact) :
    x ∈ (names.foldl Fact.define f).defs ↔ x ∈ f.defs ∨ names.contains x = true := by
  induction names generalizing f with
  | nil => simp
  | cons name names ih =>
    rw [List.foldl_cons,ih,Fact.mem_define]
    simp only [List.contains_cons,Bool.or_eq_true,beq_iff_eq]
    tauto

theorem mem_fact_defs {x : String} (s : Stmt) (f : Fact) :
    x ∈ (s.fact f).defs ↔ x ∈ f.defs ∨ s.settles x = true := by
  induction s using Stmt.structural generalizing f with
  | skip | printState | hollow => simp [fact,settles]
  | assign name rhs =>
    rw [fact,Fact.mem_define,Expr.fact_defs]
    simp only [settles,beq_iff_eq]
    tauto
  | ifElse cond yes no left right =>
    simp only [fact,Fact.join,Std.TreeSet.mem_inter_iff,left,right,Expr.fact_defs,settles,Bool.and_eq_true]
    tauto
  | ifOnly cond yes ih =>
    simp only [fact,Fact.join,Std.TreeSet.mem_inter_iff,ih,Expr.fact_defs,settles,Bool.false_eq_true]
    tauto
  | loop cond body inv ih =>
    simp only [fact,Fact.join,Std.TreeSet.mem_inter_iff,ih,Expr.fact_defs,settles,Bool.false_eq_true]
    tauto
  | assert cond | assume cond => simp [fact,settles]
  | havoc names => exact mem_foldl_define names f
  | block items ih =>
    simp only [fact,settles]
    induction items generalizing f with
    | nil => simp [factAll,someSettles]
    | cons s ss rest =>
      rw [factAll,rest (fun t member => ih t (by simp [member])),ih s (by simp)]
      simp only [someSettles,Bool.or_eq_true]
      tauto

theorem foldl_define_undefs (names : List String) (f : Fact) : (names.foldl Fact.define f).undefs = f.undefs := by
  induction names generalizing f with
  | nil => rfl
  | cons name names ih => exact ih (f.define name)

theorem fact_undefs {x : String} (s : Stmt) {f : Fact} (used : x ∈ f.undefs) : x ∈ (s.fact f).undefs := by
  have evaluated : ∀ (e : Expr) {f : Fact}, x ∈ f.undefs → x ∈ (e.fact f).undefs :=
    fun e f used => (e.mem_fact_undefs f).mpr (.inl used)
  induction s using Stmt.structural generalizing f with
  | skip | printState | hollow => exact used
  | assign name rhs => exact evaluated rhs used
  | ifElse cond yes no left right => exact Std.TreeSet.mem_union_iff.mpr (.inl (left (evaluated cond used)))
  | ifOnly cond yes ih => exact Std.TreeSet.mem_union_iff.mpr (.inl (ih (evaluated cond used)))
  | loop cond body inv ih => exact Std.TreeSet.mem_union_iff.mpr (.inl (ih (evaluated cond used)))
  | assert cond | assume cond => exact evaluated cond used
  | havoc names =>
    rw [fact,foldl_define_undefs]
    exact used
  | block items ih =>
    simp only [fact]
    induction items generalizing f with
    | nil => exact used
    | cons s ss rest => exact rest (fun t member => ih t (by simp [member])) (ih s (by simp) used)

end Stmt

/-- The store has what is defined at one point, and what is used undefined on the way from there to another. -/
structure Fact.Suits (before after : Fact) (store : Store) : Prop where
  defs : ∀ name ∈ before.defs, name ∈ store
  undefs : ∀ name ∈ after.undefs, name ∈ store

namespace Fact.Suits

variable {f g : Fact} {store final : Store} {limit : Nat}

theorem narrow {f' g' : Fact} (suits : Suits f g store) (same : f'.defs = f.defs)
    (within : ∀ name ∈ g'.undefs, name ∈ g.undefs) : Suits f' g' store :=
  ⟨fun name known => suits.defs name (same ▸ known),fun name used => suits.undefs name (within name used)⟩

theorem keep (suits : Suits f g store) {s : Stmt} (run : s.Runs limit store final) : Suits f g final :=
  ⟨fun name known => s.runs_keeps run (suits.defs name known),
    fun name used => s.runs_keeps run (suits.undefs name used)⟩

theorem ran (suits : Suits f g store) {s : Stmt} (run : s.Runs limit store final) : Suits (s.fact f) g final := by
  refine ⟨fun name known => ?_,(suits.keep run).undefs⟩
  rcases (s.mem_fact_defs f).mp known with before | written
  · exact s.runs_keeps run (suits.defs name before)
  · exact s.runs_settles written run

theorem eval (e : Expr) (suits : Suits f (e.fact f) store) (name : String) :
    e.eval store ≠ .error (.unbound name) := by
  intro failed
  obtain ⟨occurs,missing⟩ := e.eval_unbound failed
  by_cases known : name ∈ f.defs
  · exact missing (suits.defs name known)
  · exact missing (suits.undefs name ((e.mem_fact_undefs f).mpr (.inr ⟨occurs,known⟩)))

end Fact.Suits

namespace Run

variable {α β : Type} {m : Machine}

/-- No variable is asked for that has no value. -/
def Bound (action : Run α) (m : Machine) : Prop :=
  ∀ name final, action m ≠ .error (.unbound name) final

theorem Bound.bind {action : Run α} {next : α → Run β} (first : Bound action m)
    (second : ∀ a mid, action m = .ok a mid → Bound (next a) mid) : Bound (action >>= next) m := by
  intro name final failed
  change action.bind next m = _ at failed
  unfold EStateM.bind at failed
  cases done : action m with
  | ok a mid =>
    rw [done] at failed
    exact second a mid done name final failed
  | error fault mid =>
    rw [done] at failed
    cases failed
    exact first name final done

theorem bound_of_ok {action : Run α} {a : α} {final : Machine} (ok : action m = .ok a final) : Bound action m := by
  intro name last failed
  rw [ok] at failed
  cases failed

theorem value_bound {e : Expr} (bound : ∀ name, e.eval m.store ≠ .error (.unbound name)) : Bound (value e) m := by
  cases evaluated : e.eval m.store with
  | ok v => exact bound_of_ok (value_of_eval evaluated)
  | error fault =>
    intro name final failed
    simp only [value,bind,EStateM.bind,get,getThe,MonadStateOf.get,EStateM.get,evaluated] at failed
    cases failed
    exact bound name evaluated

theorem test_bound {cond : Expr} (bound : ∀ name, cond.eval m.store ≠ .error (.unbound name)) :
    Bound (Value.isTrue <$> value cond) m := by
  intro name final failed
  change EStateM.map Value.isTrue (value cond) m = _ at failed
  unfold EStateM.map at failed
  cases done : value cond m with
  | ok v mid =>
    rw [done] at failed
    cases failed
  | error fault mid =>
    rw [done] at failed
    cases failed
    exact value_bound bound name final done

theorem iterate_bound {cond : Expr} {body : Run Unit} {P : Store → Prop}
    (tests : ∀ store, P store → ∀ name, cond.eval store ≠ .error (.unbound name))
    (bodies : ∀ m, P m.store → Bound body m) (kept : ∀ m final, P m.store → body m = .ok () final → P final.store)
    (limit : Nat) (m : Machine) (first : P m.store) :
    Bound (iterate (Value.isTrue <$> value cond) body limit) m := by
  induction limit generalizing m with
  | zero =>
    refine (test_bound (tests m.store first)).bind fun b mid tested => ?_
    cases b with
    | true =>
      intro name final failed
      cases failed
    | false => exact bound_of_ok rfl
  | succ limit ih =>
    refine (test_bound (tests m.store first)).bind fun b mid tested => ?_
    obtain ⟨-,rfl⟩ := test_ok tested
    cases b with
    | true => exact (bodies mid first).bind fun _ next done => ih next (kept mid next first done)
    | false => exact bound_of_ok rfl

end Run

namespace Expr

theorem writeRest_bound {name op : String} {es : List Expr}
    (each : ∀ e ∈ es, ∀ bare, (e.write bare).fault ≠ some (.unbound name)) :
    (writeRest op es).fault ≠ some (.unbound name) := by
  induction es with
  | nil => simp [writeRest]
  | cons e es ih =>
    have first := each e (by simp) false
    have rest := ih fun e member => each e (by simp [member])
    rw [writeRest_cons]
    simp [Option.or_eq_some_iff,first,rest]

/-- An expression that cannot be written lacks operands, not values. -/
theorem write_bound {name : String} (e : Expr) (bare : Bool) : (e.write bare).fault ≠ some (.unbound name) := by
  induction e using Expr.structural generalizing bare with
  | int n => simp [write]
  | truth v => simp [write]
  | var x => simp [write]
  | app form op args ih =>
    rcases args with _ | ⟨arg,_ | ⟨next,args⟩⟩
    · simp [write,Written.stop]
    · have first := ih arg (by simp) false
      rw [write_single]
      simp [first]
    · have first := ih arg (by simp) false
      have rest : (writeRest op (next :: args)).fault ≠ some (.unbound name) :=
        writeRest_bound fun e member => ih e (List.mem_cons_of_mem _ member)
      rw [write_several]
      simp [Option.or_eq_some_iff,first,rest]

end Expr

/-- A condition that fails is written, which asks for no variable either. -/
theorem Run.demand_bound {s : Stmt} {cond : Expr} {m : Machine}
    (bound : ∀ name, cond.eval m.store ≠ .error (.unbound name))
    (written : ∀ name, (s.write 0).fault ≠ some (.unbound name)) : Bound (demand s cond) m := by
  refine (value_bound bound).bind fun v mid _ => ?_
  split
  · exact bound_of_ok rfl
  · intro name final failed
    cases text : (s.write 0).fault with
    | none =>
      simp only [Written.toExcept,text] at failed
      cases failed
    | some fault =>
      simp only [Written.toExcept,text] at failed
      cases failed
      exact written name text

theorem Run.forM_set_ok (names : List String) (m : Machine) :
    ∃ final, (names.forM fun name => Run.set name (.int 0)) m = .ok () final := by
  induction names generalizing m with
  | nil => exact ⟨m,rfl⟩
  | cons name names ih => exact ih _

namespace Stmt

theorem exec_bound (limit : Nat) (s : Stmt) (f : Fact) (m : Machine) (suits : Fact.Suits f (s.fact f) m.store) :
    Run.Bound (s.exec limit) m := by
  induction s using Stmt.structural generalizing f m with
  | skip => exact Run.bound_of_ok rfl
  | printState => exact Run.bound_of_ok rfl
  | assign name rhs =>
    have evaluated : Fact.Suits f (rhs.fact f) m.store := suits.narrow rfl fun _ used => used
    exact (Run.value_bound (evaluated.eval rhs)).bind fun _ _ _ => Run.bound_of_ok rfl
  | ifElse cond yes no left right =>
    have joined : ∀ x, x ∈ (yes.fact (cond.fact f)).undefs ∨ x ∈ (no.fact (cond.fact f)).undefs →
        x ∈ (fact f (.ifElse cond yes no)).undefs := fun x => Std.TreeSet.mem_union_iff.mpr
    have tested : Fact.Suits f (cond.fact f) m.store :=
      suits.narrow rfl fun x used => joined x (.inl (yes.fact_undefs used))
    refine (Run.value_bound (tested.eval cond)).bind fun v mid valued => ?_
    obtain ⟨-,rfl⟩ := Run.value_ok valued
    split
    · exact left _ _ (suits.narrow (cond.fact_defs f) fun x used => joined x (.inl used))
    · exact right _ _ (suits.narrow (cond.fact_defs f) fun x used => joined x (.inr used))
  | ifOnly cond yes ih =>
    have joined : ∀ x, x ∈ (yes.fact (cond.fact f)).undefs ∨ x ∈ (cond.fact f).undefs →
        x ∈ (fact f (.ifOnly cond yes)).undefs := fun x => Std.TreeSet.mem_union_iff.mpr
    have tested : Fact.Suits f (cond.fact f) m.store := suits.narrow rfl fun x used => joined x (.inr used)
    refine (Run.value_bound (tested.eval cond)).bind fun v mid valued => ?_
    obtain ⟨-,rfl⟩ := Run.value_ok valued
    split
    · exact ih _ _ (suits.narrow (cond.fact_defs f) fun x used => joined x (.inl used))
    · exact Run.bound_of_ok rfl
  | loop cond body inv ih =>
    have joined : ∀ x, x ∈ (body.fact (cond.fact f)).undefs ∨ x ∈ (cond.fact f).undefs →
        x ∈ (fact f (.loop cond body inv)).undefs := fun x => Std.TreeSet.mem_union_iff.mpr
    -- the variables there are at the first iteration are there at every later one
    refine Run.iterate_bound (P := Fact.Suits f (fact f (.loop cond body inv))) ?_ ?_ ?_ limit m suits
    · intro store suits
      have tested : Fact.Suits f (cond.fact f) store := suits.narrow rfl fun x used => joined x (.inr used)
      exact tested.eval cond
    · intro m suits
      exact ih _ m (suits.narrow (cond.fact_defs f) fun x used => joined x (.inl used))
    · intro m final suits done
      exact suits.keep (runs_of_exec limit body m final done)
  | assert cond | assume cond =>
    refine Run.demand_bound (Fact.Suits.eval cond suits) fun name => ?_
    simp [write_assert,write_assume,cond.write_bound true]
  | havoc names =>
    obtain ⟨final,done⟩ := Run.forM_set_ok names m
    exact Run.bound_of_ok done
  | block items ih =>
    unfold exec
    simp only [fact] at suits
    induction items generalizing f m with
    | nil => exact Run.bound_of_ok rfl
    | cons s ss rest =>
      have first : Fact.Suits f (s.fact f) m.store :=
        suits.narrow rfl fun x used => fact_undefs (.block ss) used
      refine (ih s (by simp) f m first).bind fun _ mid done => ?_
      have run := runs_of_exec limit s m mid done
      exact rest (fun t member => ih t (by simp [member])) (s.fact f) mid (suits.ran run)
  | hollow =>
    intro name final failed
    cases failed

/-- A run from a store that has all variables that are used undefined asks for no variable that has no value. If it
ends, all variables that are defined at the end have values. -/
theorem exec_defined (limit : Nat) (s : Stmt) (m : Machine)
    (used : ∀ name ∈ (s.fact {}).undefs, name ∈ m.store) :
    (∀ name final, s.exec limit m ≠ .error (.unbound name) final) ∧
      ∀ final, s.exec limit m = .ok () final → ∀ name ∈ (s.fact {}).defs, name ∈ final.store := by
  have suits : Fact.Suits {} (s.fact {}) m.store := ⟨by simp,used⟩
  refine ⟨exec_bound limit s {} m suits,fun final ends => ?_⟩
  exact (suits.ran (runs_of_exec limit s m final ends)).defs

/-- Counts how often a number can be halved, and tells whether that is often. -/
def halvings : Stmt :=
  .block [
    .assign "n" (.int 0),
    .loop (.app .compare ">" [.var "x",.int 1])
      (.block [
        .assign "h" (.app .arith "/" [.var "x",.int 2]),
        .assign "x" (.var "h"),
        .assign "n" (.app .arith "+" [.var "n",.int 1])]) none,
    .ifElse (.app .compare ">" [.var "n",.int 5]) (.assign "often" (.int 1)) (.assign "often" (.int 0))]

/-- The number is nine. -/
def nine : Machine := { store := Std.TreeMap.empty.insert "x" (.int 9) }

/-- Only the number itself is used undefined. What is defined in the loop alone is not counted as defined, although
there are three iterations. -/
theorem halvings_defined :
    (halvings.fact {}).undefs.toList = ["x"] ∧ (halvings.fact {}).defs.toList = ["n","often"] ∧
      (∀ name final, halvings.exec 3 nine ≠ .error (.unbound name) final) ∧
      ∃ final, halvings.exec 3 nine = .ok () final ∧ ∀ name ∈ (halvings.fact {}).defs, name ∈ final.store := by
  have undefs : (halvings.fact {}).undefs.toList = ["x"] := by decide +kernel
  have used : ∀ name ∈ (halvings.fact {}).undefs, name ∈ nine.store := by
    intro name member
    rw [← Std.TreeSet.mem_toList,undefs,List.mem_singleton] at member
    simp [nine,member]
  obtain ⟨bound,defines⟩ := exec_defined 3 halvings nine used
  exact ⟨undefs,by decide +kernel,bound,_,rfl,defines _ rfl⟩

end Stmt

end WhileExec
