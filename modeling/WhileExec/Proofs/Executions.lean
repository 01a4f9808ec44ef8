import Mathlib
import WhileExec.Interpreter
import WhileExec.Proofs.Typing

/-!
# Executions

The executions of a statement as a relation between the store before and the store after it, by the rules that
`Stmt.exec` follows, except that a havoc may choose any integers. Assertions and assumptions hold in them. As in
`Stmt.exec`, every execution of a loop does at most `limit` iterations.

A run that ends is one of these executions. Without havoc there are no others. `Stmt.Violates` are the executions
that come to an assertion whose condition is false there.
-/

namespace WhileExec

/-- The condition has a value in the store, and `b` is its truth. -/
def Expr.Decides (store : Store) (cond : Expr) (b : Bool) : Prop :=
  ∃ v, cond.eval store = .ok v ∧ v.isTrue = b

theorem Expr.Decides.unique {store : Store} {cond : Expr} {a b : Bool}
    (first : cond.Decides store a) (second : cond.Decides store b) : a = b := by
  obtain ⟨v,evaluated,rfl⟩ := first
  obtain ⟨w,again,rfl⟩ := second
  rw [evaluated] at again
  cases again
  rfl

/-- The variables get integers one after the other. -/
def Chooses : List String → Store → Store → Prop
  | [], store, final => final = store
  | name :: names, store, final => ∃ n, Chooses names (store.insert name (.int n)) final

/-- At most the given number of iterations, and then the condition is false. -/
def Iterates (cond : Expr) (body : Store → Store → Prop) : Nat → Store → Store → Prop
  | 0, store, final => cond.Decides store false ∧ final = store
  | limit + 1, store, final =>
    (cond.Decides store false ∧ final = store) ∨
      (cond.Decides store true ∧ ∃ mid, body store mid ∧ Iterates cond body limit mid final)

theorem Iterates.first {cond : Expr} {R : Store → Store → Prop} {n : Nat} {store final : Store}
    (run : Iterates cond R n store final) :
    (cond.Decides store false ∧ final = store) ∨
      ∃ m, n = m + 1 ∧ cond.Decides store true ∧ ∃ mid, R store mid ∧ Iterates cond R m mid final := by
  cases n with
  | zero => exact .inl run
  | succ m =>
    rcases run with left | entered
    · exact .inl left
    · exact .inr ⟨m,rfl,entered⟩

theorem Iterates.fails {cond : Expr} {R : Store → Store → Prop} {n : Nat} {store final : Store}
    (run : Iterates cond R n store final) : cond.Decides final false := by
  induction n generalizing store with
  | zero =>
    obtain ⟨fails,rfl⟩ := run
    exact fails
  | succ n ih =>
    rcases run with ⟨fails,rfl⟩ | ⟨-,mid,-,rest⟩
    · exact fails
    · exact ih rest

theorem Iterates.mono {cond : Expr} {R S : Store → Store → Prop} {m n : Nat} {store final : Store}
    (weaker : ∀ store final, R store final → S store final) (le : m ≤ n) (run : Iterates cond R m store final) :
    Iterates cond S n store final := by
  induction m generalizing n store with
  | zero =>
    cases n with
    | zero => exact run
    | succ n => exact .inl run
  | succ m ih =>
    obtain ⟨k,rfl⟩ : ∃ k, n = k + 1 := ⟨n - 1,by omega⟩
    rcases run with stop | ⟨holds,mid,first,rest⟩
    · exact .inl stop
    · exact .inr ⟨holds,mid,weaker _ _ first,ih (by omega) rest⟩

mutual

def Stmt.Runs (limit : Nat) : Stmt → Store → Store → Prop
  | .skip, store, final => final = store
  | .printState, store, final => final = store
  | .assign name rhs, store, final => ∃ v, rhs.eval store = .ok v ∧ final = store.insert name v
  | .ifElse cond yes no, store, final =>
    (cond.Decides store true ∧ yes.Runs limit store final) ∨
      (cond.Decides store false ∧ no.Runs limit store final)
  | .ifOnly cond yes, store, final =>
    (cond.Decides store true ∧ yes.Runs limit store final) ∨
      (cond.Decides store false ∧ final = store)
  | .loop cond body _, store, final => Iterates cond (body.Runs limit) limit store final
  | .assert cond, store, final => cond.Decides store true ∧ final = store
  | .assume cond, store, final => cond.Decides store true ∧ final = store
  | .havoc names, store, final => Chooses names store final
  | .block items, store, final => Stmt.RunsAll limit items store final
  | .hollow, _, _ => False

def Stmt.RunsAll (limit : Nat) : List Stmt → Store → Store → Prop
  | [], store, final => final = store
  | s :: ss, store, final => ∃ mid, s.Runs limit store mid ∧ Stmt.RunsAll limit ss mid final

end

/-- An assertion of a statement: the numbers of the parts that lead to it, and its condition. -/
structure Site where
  place : List Nat
  cond : Expr

/-- The assertion, seen from a statement of which another part leads to this one. -/
def Site.under (outer : List Nat) (site : Site) : Site := ⟨outer ++ site.place,site.cond⟩

theorem Site.under_under (site : Site) (outer inner : List Nat) :
    (site.under inner).under outer = site.under (outer ++ inner) := by
  simp [under]

/-- Some iterations of a loop, at most the given number, the last of which does not end but `fails`. -/
def Breaks (cond : Expr) (body fails : Store → Store → Prop) : Nat → Store → Store → Prop
  | 0, _, _ => False
  | limit + 1, store, final =>
    cond.Decides store true ∧ (fails store final ∨ ∃ mid, body store mid ∧ Breaks cond body fails limit mid final)

/-- Of failures at several places, all iterations are about the same one. -/
theorem Breaks.inside {α : Type} {cond : Expr} {body : Store → Store → Prop} {fails : α → Store → Store → Prop}
    {P : α → Prop} {n : Nat} {store final : Store}
    (broken : Breaks cond body (fun store final => ∃ a, P a ∧ fails a store final) n store final) :
    ∃ a, P a ∧ Breaks cond body (fails a) n store final := by
  induction n generalizing store with
  | zero => exact broken.elim
  | succ n ih =>
    obtain ⟨holds,⟨a,known,now⟩ | ⟨mid,run,later⟩⟩ := broken
    · exact ⟨a,known,holds,.inl now⟩
    · obtain ⟨a,known,broken⟩ := ih later
      exact ⟨a,known,holds,.inr ⟨mid,run,broken⟩⟩

theorem Breaks.mono {cond : Expr} {body fails more : Store → Store → Prop} {n : Nat} {store final : Store}
    (broken : Breaks cond body fails n store final) (weaker : ∀ store final, fails store final → more store final) :
    Breaks cond body more n store final := by
  induction n generalizing store with
  | zero => exact broken.elim
  | succ n ih =>
    obtain ⟨holds,now | ⟨mid,run,later⟩⟩ := broken
    · exact ⟨holds,.inl (weaker _ _ now)⟩
    · exact ⟨holds,.inr ⟨mid,run,ih later⟩⟩

mutual

/-- The execution comes to an assertion, and the condition is false in the store it has by then. The assertions and
assumptions before it hold. -/
def Stmt.Violates (limit : Nat) : Stmt → Site → Store → Store → Prop
  | .ifElse cond yes no, site, store, final =>
    (cond.Decides store true ∧ ∃ inner, site = inner.under [0] ∧ yes.Violates limit inner store final) ∨
      (cond.Decides store false ∧ ∃ inner, site = inner.under [1] ∧ no.Violates limit inner store final)
  | .ifOnly cond yes, site, store, final =>
    cond.Decides store true ∧ ∃ inner, site = inner.under [0] ∧ yes.Violates limit inner store final
  | .loop cond body _, site, store, final =>
    ∃ inner, site = inner.under [0] ∧ Breaks cond (body.Runs limit) (body.Violates limit inner) limit store final
  | .assert cond, site, store, final => site = ⟨[],cond⟩ ∧ cond.Decides store false ∧ final = store
  | .block items, site, store, final =>
    ∃ n inner, site = inner.under [n] ∧ Stmt.ViolatesAll limit items n inner store final
  | _, _, _, _ => False

/-- As `Stmt.Violates`, in the statement with the given number. -/
def Stmt.ViolatesAll (limit : Nat) : List Stmt → Nat → Site → Store → Store → Prop
  | [], _, _, _, _ => False
  | s :: ss, n, site, store, final =>
    (n = 0 ∧ s.Violates limit site store final) ∨
      ∃ m, n = m + 1 ∧ ∃ mid, s.Runs limit store mid ∧ Stmt.ViolatesAll limit ss m site mid final

end

/-- The failure of a run that comes to a violated assertion. -/
def Fault.violation (cond : Expr) : Fault :=
  match ((Stmt.assert cond).write 0).toExcept with
  | .ok text => .violated text
  | .error fault => fault

namespace Run

theorem bind_ok {α β : Type} {action : Run α} {next : α → Run β} {m final : Machine} {b : β}
    (ok : (action >>= next) m = .ok b final) :
    ∃ a mid, action m = .ok a mid ∧ next a mid = .ok b final := by
  change (action.bind next) m = _ at ok
  unfold EStateM.bind at ok
  split at ok
  · exact ⟨_,_,‹_›,ok⟩
  · contradiction

theorem value_ok {e : Expr} {m final : Machine} {v : Value} (ok : value e m = .ok v final) :
    e.eval m.store = .ok v ∧ final = m := by
  obtain ⟨_,_,got,ok⟩ := bind_ok ok
  cases got
  cases evaluated : e.eval m.store with
  | ok w => rw [evaluated] at ok; cases ok; exact ⟨rfl,rfl⟩
  | error fault => rw [evaluated] at ok; contradiction

theorem value_of_eval {e : Expr} {m : Machine} {v : Value} (evaluated : e.eval m.store = .ok v) :
    value e m = .ok v m := by
  simp only [value,bind,EStateM.bind,get,getThe,MonadStateOf.get,EStateM.get,evaluated]
  rfl

theorem demand_ok {s : Stmt} {cond : Expr} {m final : Machine} (ok : demand s cond m = .ok () final) :
    cond.Decides m.store true ∧ final = m := by
  unfold demand at ok
  obtain ⟨v,_,valued,rest⟩ := bind_ok ok
  obtain ⟨evaluated,rfl⟩ := value_ok valued
  split at rest
  next truth => cases rest; exact ⟨⟨v,evaluated,truth⟩,rfl⟩
  next => cases written : (s.write 0).toExcept <;> rw [written] at rest <;> contradiction

theorem demand_of_decides {s : Stmt} {cond : Expr} {m : Machine} (holds : cond.Decides m.store true) :
    demand s cond m = .ok () m := by
  obtain ⟨v,evaluated,truth⟩ := holds
  unfold demand
  simp only [bind,EStateM.bind,value_of_eval evaluated,truth,if_true]
  rfl

theorem demand_of_fails {cond : Expr} {m : Machine} (fails : cond.Decides m.store false) :
    demand (.assert cond) cond m = .error (.violation cond) m := by
  obtain ⟨v,evaluated,truth⟩ := fails
  unfold demand Fault.violation
  simp only [bind,EStateM.bind,value_of_eval evaluated,truth,Bool.false_eq_true,if_false]
  cases ((Stmt.assert cond).write 0).toExcept <;> rfl

theorem test_ok {cond : Expr} {m final : Machine} {b : Bool}
    (ok : (Value.isTrue <$> value cond) m = .ok b final) : cond.Decides m.store b ∧ final = m := by
  change EStateM.map Value.isTrue (value cond) m = _ at ok
  unfold EStateM.map at ok
  split at ok
  next v mid valued =>
    cases ok
    obtain ⟨evaluated,rfl⟩ := value_ok valued
    exact ⟨⟨v,evaluated,rfl⟩,rfl⟩
  next => contradiction

theorem test_of_decides {cond : Expr} {m : Machine} {b : Bool} (decided : cond.Decides m.store b) :
    (Value.isTrue <$> value cond) m = .ok b m := by
  obtain ⟨v,evaluated,rfl⟩ := decided
  change EStateM.map Value.isTrue (value cond) m = _
  simp only [EStateM.map,value_of_eval evaluated]

theorem iterate_ok {cond : Expr} {body : Run Unit} {R : Store → Store → Prop}
    (sound : ∀ m final, body m = .ok () final → R m.store final.store) (limit : Nat) (m final : Machine)
    (ok : iterate (Value.isTrue <$> value cond) body limit m = .ok () final) :
    Iterates cond R limit m.store final.store := by
  induction limit generalizing m with
  | zero =>
    obtain ⟨b,mid,tested,rest⟩ := bind_ok ok
    obtain ⟨decided,rfl⟩ := test_ok tested
    cases b with
    | true => contradiction
    | false => cases rest; exact ⟨decided,rfl⟩
  | succ limit ih =>
    obtain ⟨b,mid,tested,rest⟩ := bind_ok ok
    obtain ⟨decided,rfl⟩ := test_ok tested
    cases b with
    | true =>
      obtain ⟨_,next,done,rest⟩ := bind_ok rest
      exact .inr ⟨decided,next.store,sound _ _ done,ih next rest⟩
    | false => cases rest; exact .inl ⟨decided,rfl⟩

theorem iterate_of_iterates {cond : Expr} {body : Run Unit} {R : Store → Store → Prop}
    (complete : ∀ m final, R m.store final → ∃ out, body m = .ok () ⟨final,out⟩)
    (limit : Nat) (m : Machine) (final : Store) (iterates : Iterates cond R limit m.store final) :
    ∃ out, iterate (Value.isTrue <$> value cond) body limit m = .ok () ⟨final,out⟩ := by
  induction limit generalizing m with
  | zero =>
    obtain ⟨decided,rfl⟩ := iterates
    refine ⟨m.out,?_⟩
    simp only [iterate,bind,EStateM.bind,test_of_decides decided]
    rfl
  | succ limit ih =>
    rcases iterates with ⟨decided,rfl⟩ | ⟨decided,mid,done,iterates⟩
    · refine ⟨m.out,?_⟩
      simp only [iterate,bind,EStateM.bind,test_of_decides decided]
      rfl
    · obtain ⟨out,done⟩ := complete m mid done
      obtain ⟨out,again⟩ := ih ⟨mid,out⟩ iterates
      refine ⟨out,?_⟩
      simp only [iterate,bind,EStateM.bind,test_of_decides decided,if_true,done]
      exact again

theorem iterate_of_breaks {cond : Expr} {body : Run Unit} {R V : Store → Store → Prop} {fault : Fault}
    (complete : ∀ m final, R m.store final → ∃ out, body m = .ok () ⟨final,out⟩)
    (failing : ∀ m final, V m.store final → ∃ out, body m = .error fault ⟨final,out⟩)
    (limit : Nat) (m : Machine) (final : Store) (breaks : Breaks cond R V limit m.store final) :
    ∃ out, iterate (Value.isTrue <$> value cond) body limit m = .error fault ⟨final,out⟩ := by
  induction limit generalizing m with
  | zero => exact breaks.elim
  | succ limit ih =>
    obtain ⟨decided,now | ⟨mid,done,later⟩⟩ := breaks
    · obtain ⟨out,failed⟩ := failing m final now
      refine ⟨out,?_⟩
      simp only [iterate,bind,EStateM.bind,test_of_decides decided,if_true,failed]
    · obtain ⟨out,done⟩ := complete m mid done
      obtain ⟨out,again⟩ := ih ⟨mid,out⟩ later
      refine ⟨out,?_⟩
      simp only [iterate,bind,EStateM.bind,test_of_decides decided,if_true,done]
      exact again

end Run

namespace Stmt

theorem chooses_of_forM {names : List String} {m final : Machine}
    (ok : (names.forM fun name => Run.set name (.int 0)) m = .ok () final) :
    Chooses names m.store final.store := by
  induction names generalizing m with
  | nil => cases ok; rfl
  | cons name names ih =>
    obtain ⟨_,_,set,rest⟩ := Run.bind_ok ok
    cases set
    exact ⟨0,ih rest⟩

/-- A run that ends is an execution, with zero for every choice. -/
theorem runs_of_exec (limit : Nat) (s : Stmt) (m final : Machine) (ok : s.exec limit m = .ok () final) :
    s.Runs limit m.store final.store := by
  induction s using Stmt.structural generalizing m final with
  | skip => cases ok; rfl
  | printState => cases ok; rfl
  | assign name rhs =>
    obtain ⟨v,_,valued,rest⟩ := Run.bind_ok ok
    obtain ⟨evaluated,rfl⟩ := Run.value_ok valued
    cases rest
    exact ⟨v,evaluated,rfl⟩
  | ifElse cond yes no yesRuns noRuns =>
    unfold exec at ok
    obtain ⟨v,_,valued,rest⟩ := Run.bind_ok ok
    obtain ⟨evaluated,rfl⟩ := Run.value_ok valued
    split at rest
    next truth => exact .inl ⟨⟨v,evaluated,truth⟩,yesRuns _ _ rest⟩
    next truth => exact .inr ⟨⟨v,evaluated,by simpa using truth⟩,noRuns _ _ rest⟩
  | ifOnly cond yes yesRuns =>
    unfold exec at ok
    obtain ⟨v,_,valued,rest⟩ := Run.bind_ok ok
    obtain ⟨evaluated,rfl⟩ := Run.value_ok valued
    split at rest
    next truth => exact .inl ⟨⟨v,evaluated,truth⟩,yesRuns _ _ rest⟩
    next truth => cases rest; exact .inr ⟨⟨v,evaluated,by simpa using truth⟩,rfl⟩
  | loop cond body inv bodyRuns => exact Run.iterate_ok bodyRuns limit m final ok
  | assert cond =>
    obtain ⟨decided,rfl⟩ := Run.demand_ok ok
    exact ⟨decided,rfl⟩
  | assume cond =>
    obtain ⟨decided,rfl⟩ := Run.demand_ok ok
    exact ⟨decided,rfl⟩
  | havoc names => exact chooses_of_forM ok
  | block items itemsRun =>
    unfold exec at ok
    change RunsAll limit items m.store final.store
    induction items generalizing m with
    | nil => cases ok; rfl
    | cons s ss ih =>
      obtain ⟨_,mid,first,rest⟩ := Run.bind_ok ok
      exact ⟨mid.store,itemsRun s (by simp) _ _ first,
        ih (fun t member => itemsRun t (by simp [member])) mid rest⟩
  | hollow => contradiction

theorem exec_of_runs (limit : Nat) (s : Stmt) (free : s.havocFree = true) (m : Machine) (final : Store)
    (runs : s.Runs limit m.store final) : ∃ out, s.exec limit m = .ok () ⟨final,out⟩ := by
  induction s using Stmt.structural generalizing m final with
  | skip => cases runs; exact ⟨_,rfl⟩
  | printState => cases runs; exact ⟨_,rfl⟩
  | assign name rhs =>
    obtain ⟨v,evaluated,rfl⟩ := runs
    refine ⟨m.out,?_⟩
    simp only [exec,bind,EStateM.bind,Run.value_of_eval evaluated]
    rfl
  | ifElse cond yes no yesExec noExec =>
    simp only [havocFree,every,Bool.true_and,Bool.and_eq_true] at free
    rcases runs with ⟨⟨v,evaluated,truth⟩,runs⟩ | ⟨⟨v,evaluated,truth⟩,runs⟩
    · obtain ⟨out,done⟩ := yesExec free.1 _ _ runs
      refine ⟨out,?_⟩
      simp only [exec,bind,EStateM.bind,Run.value_of_eval evaluated,truth,if_true]
      exact done
    · obtain ⟨out,done⟩ := noExec free.2 _ _ runs
      refine ⟨out,?_⟩
      simp only [exec,bind,EStateM.bind,Run.value_of_eval evaluated,truth]
      exact done
  | ifOnly cond yes yesExec =>
    simp only [havocFree,every,Bool.true_and] at free
    rcases runs with ⟨⟨v,evaluated,truth⟩,runs⟩ | ⟨⟨v,evaluated,truth⟩,rfl⟩
    · obtain ⟨out,done⟩ := yesExec free _ _ runs
      refine ⟨out,?_⟩
      simp only [exec,bind,EStateM.bind,Run.value_of_eval evaluated,truth,if_true]
      exact done
    · refine ⟨m.out,?_⟩
      simp only [exec,bind,EStateM.bind,Run.value_of_eval evaluated,truth]
      rfl
  | loop cond body inv bodyExec =>
    simp only [havocFree,every,Bool.true_and] at free
    exact Run.iterate_of_iterates (bodyExec free) limit m final runs
  | assert cond =>
    obtain ⟨decided,rfl⟩ := runs
    exact ⟨m.out,Run.demand_of_decides decided⟩
  | assume cond =>
    obtain ⟨decided,rfl⟩ := runs
    exact ⟨m.out,Run.demand_of_decides decided⟩
  | havoc names => contradiction
  | block items itemsExec =>
    simp only [havocFree,every,Bool.true_and] at free
    replace runs : RunsAll limit items m.store final := runs
    simp only [exec]
    induction items generalizing m with
    | nil => cases runs; exact ⟨_,rfl⟩
    | cons s ss ih =>
      simp only [everyOf,Bool.and_eq_true] at free
      obtain ⟨mid,first,rest⟩ := runs
      obtain ⟨out,done⟩ := itemsExec s (by simp) free.1 m mid first
      obtain ⟨out,after⟩ := ih (fun t member => itemsExec t (by simp [member])) ⟨mid,out⟩ free.2 rest
      refine ⟨out,?_⟩
      simp only [execAll,bind,EStateM.bind,done]
      exact after
  | hollow => exact runs.elim

/-- Without havoc, a run that can come to a violated assertion fails there. -/
theorem exec_of_violates (limit : Nat) (s : Stmt) (free : s.havocFree = true) (site : Site) (m : Machine)
    (final : Store) (violates : s.Violates limit site m.store final) :
    ∃ out, s.exec limit m = .error (.violation site.cond) ⟨final,out⟩ := by
  induction s using Stmt.structural generalizing m final site with
  | ifElse cond yes no yesExec noExec =>
    simp only [havocFree,every,Bool.true_and,Bool.and_eq_true] at free
    rcases violates with ⟨⟨v,evaluated,truth⟩,inner,rfl,violates⟩ | ⟨⟨v,evaluated,truth⟩,inner,rfl,violates⟩
    · obtain ⟨out,failed⟩ := yesExec free.1 inner _ _ violates
      refine ⟨out,?_⟩
      simp only [exec,bind,EStateM.bind,Run.value_of_eval evaluated,truth,if_true]
      exact failed
    · obtain ⟨out,failed⟩ := noExec free.2 inner _ _ violates
      refine ⟨out,?_⟩
      simp only [exec,bind,EStateM.bind,Run.value_of_eval evaluated,truth]
      exact failed
  | ifOnly cond yes yesExec =>
    simp only [havocFree,every,Bool.true_and] at free
    obtain ⟨⟨v,evaluated,truth⟩,inner,rfl,violates⟩ := violates
    obtain ⟨out,failed⟩ := yesExec free inner _ _ violates
    refine ⟨out,?_⟩
    simp only [exec,bind,EStateM.bind,Run.value_of_eval evaluated,truth,if_true]
    exact failed
  | loop cond body inv bodyExec =>
    simp only [havocFree,every,Bool.true_and] at free
    obtain ⟨inner,rfl,breaks⟩ := violates
    exact Run.iterate_of_breaks (exec_of_runs limit body free) (bodyExec free inner) limit m final breaks
  | assert cond =>
    obtain ⟨rfl,fails,rfl⟩ := violates
    exact ⟨m.out,Run.demand_of_fails fails⟩
  | block items itemsExec =>
    simp only [havocFree,every,Bool.true_and] at free
    obtain ⟨n,inner,rfl,violates⟩ := violates
    simp only [exec]
    induction items generalizing m n with
    | nil => exact violates.elim
    | cons s ss ih =>
      simp only [everyOf,Bool.and_eq_true] at free
      rcases violates with ⟨-,violates⟩ | ⟨k,-,mid,run,violates⟩
      · obtain ⟨out,failed⟩ := itemsExec s (by simp) free.1 inner m final violates
        refine ⟨out,?_⟩
        simp only [execAll,bind,EStateM.bind,failed]
        rfl
      · obtain ⟨out,done⟩ := exec_of_runs limit s free.1 m mid run
        obtain ⟨out,failed⟩ := ih (fun t member => itemsExec t (by simp [member])) ⟨mid,out⟩ free.2 k violates
        refine ⟨out,?_⟩
        simp only [execAll,bind,EStateM.bind,done]
        exact failed
  | _ => exact violates.elim

theorem runs_mono {m n : Nat} (le : m ≤ n) (s : Stmt) {store final : Store} (run : s.Runs m store final) :
    s.Runs n store final := by
  induction s using Stmt.structural generalizing store final with
  | skip | printState | assign | assert | assume | havoc | hollow => exact run
  | ifElse cond yes no left right =>
    rcases run with ⟨holds,run⟩ | ⟨fails,run⟩
    · exact .inl ⟨holds,left run⟩
    · exact .inr ⟨fails,right run⟩
  | ifOnly cond yes ih =>
    rcases run with ⟨holds,run⟩ | skipped
    · exact .inl ⟨holds,ih run⟩
    · exact .inr skipped
  | loop cond body inv ih => exact run.mono (fun _ _ => ih) le
  | block items ih =>
    change RunsAll m items store final at run
    change RunsAll n items store final
    induction items generalizing store with
    | nil => exact run
    | cons s ss rest =>
      obtain ⟨mid,first,run⟩ := run
      exact ⟨mid,ih s (by simp) first,rest (fun s member => ih s (by simp [member])) run⟩

end Stmt

end WhileExec
