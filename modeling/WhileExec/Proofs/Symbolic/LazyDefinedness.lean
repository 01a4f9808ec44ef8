import Mathlib
import WhileExec.Proofs.Symbolic.Bindings
import WhileExec.Proofs.Symbolic.LazyPartition

/-!
# Lazy exploration of programs whose variables are defined

Facts are found in one pass over a program, whereas an exploration follows all ways through it, each with bindings of
its own, and a loop as often as the bound allows. Each state on each way binds at least what was defined at its point
of the program, so no condition and no right-hand side lacks a variable.

What is said of a search holds however its results are drawn, as long as a taker changes no state but the results.
-/

namespace WhileExec.Symbolic

namespace Trace

/-- Drawing comes to a fault. The taker changes no state but the results taken. -/
inductive Faults : Trace Handle → Fault → Prop
  | failed {fault : Fault} {q : Pool} : Faults (.failed fault q) fault
  | next {value : Handle} {p r : Pool} {resume : Pool → Trace Handle} {fault : Fault} (careful : p.Grows {value} r)
      (rest : Faults (resume r) fault) : Faults (.yield value p resume) fault

theorem faults_of_draw {t : Trace Handle} {wanted : Option Nat} {fault : Fault}
    (failed : (t.draw wanted).fault = some fault) : t.Faults fault := by
  induction t generalizing wanted with
  | done q => cases failed
  | failed cause q =>
    cases failed
    exact .failed
  | yield value p resume ih =>
    rcases wanted with _ | _ | _ | n
    · exact .next (.refl _ p) (ih p failed)
    · cases failed
    · cases failed
    · exact .next (.refl _ p) (ih p failed)

/-- All results are good when they are given, and a fault has one of the allowed causes. -/
inductive Delivers (allowed : Fault → Prop) (good : Pool → Handle → Prop) : Trace Handle → Prop
  | done {q : Pool} : Delivers allowed good (.done q)
  | failed {fault : Fault} {q : Pool} (cause : allowed fault) : Delivers allowed good (.failed fault q)
  | yield {value : Handle} {q : Pool} {resume : Pool → Trace Handle} (result : good q value)
      (resumed : ∀ r, q.Grows {value} r → Delivers allowed good (resume r)) :
      Delivers allowed good (.yield value q resume)

namespace Delivers

variable {allowed : Fault → Prop} {good fine : Pool → Handle → Prop} {t : Trace Handle} {owned : Set Handle} {p : Pool}

theorem fault (delivers : t.Delivers allowed good) {fault : Fault} (faults : t.Faults fault) : allowed fault := by
  induction faults with
  | failed =>
    cases delivers with
    | failed cause => exact cause
  | next careful rest ih =>
    cases delivers with
    | yield result resumed => exact ih (resumed _ careful)

theorem taken (delivers : t.Delivers allowed good) {ts : List Taking} {whole : Bool} {q : Pool}
    (draws : t.Draws ts whole q) : ∀ taken ∈ ts, good taken.given taken.value := by
  induction draws with
  | done => simp
  | failed => simp
  | last =>
    cases delivers with
    | yield result resumed => simpa using result
  | next careful rest ih =>
    cases delivers with
    | yield result resumed => simpa using ⟨result,ih (resumed _ careful)⟩

theorem mono (delivers : t.Delivers allowed good) (weaker : ∀ q h, good q h → fine q h) :
    t.Delivers allowed fine := by
  induction delivers with
  | done => exact .done
  | failed cause => exact .failed cause
  | yield result resumed ih => exact .yield (weaker _ _ result) ih

theorem andThen {next : Pool → Trace Handle} (delivers : t.Delivers allowed good) (owns : t.Owns owned p)
    (after : ∀ r, p.Grows owned r → (next r).Delivers allowed good) : (t.andThen next).Delivers allowed good := by
  induction delivers generalizing owned p with
  | done =>
    cases owns with
    | done grows => exact after _ grows
  | failed cause => exact .failed cause
  | @yield value q resume result resumed ih =>
    cases owns with
    | yield kept grows valid own given within old resuming =>
      refine .yield result fun r careful => ?_
      have before : p.Grows owned r := grows.trans careful fun k same older => by
        rw [Set.mem_singleton_iff.mp same] at older ⊢
        exact own older
      exact ih r careful (resuming r careful.size) fun s later => after s (before.trans later within)

theorem bind {next : Handle → Pool → Trace Handle} (delivers : t.Delivers allowed good) (owns : t.Owns owned p)
    (mine : ∀ h q, h < q.states.size → (next h q).Owns {h} q)
    (each : ∀ h q, good q h → (next h q).Delivers allowed fine) : (t.bind next).Delivers allowed fine := by
  induction delivers generalizing owned p with
  | done => exact .done
  | failed cause => exact .failed cause
  | @yield value q resume result resumed ih =>
    cases owns with
    | yield kept grows valid own given within old resuming =>
      apply (each value q result).andThen (mine value q valid)
      intro r careful
      exact ih r careful (resuming r careful.size)

end Delivers

end Trace

theorem Search.faults_of_draw {search : Search Handle} {wanted : Option Nat} {p : Pool} {fault : Fault}
    (failed : (search.draw wanted p).fault = some fault) : (search p).Faults fault := by
  rcases wanted with _ | _ | n
  · exact Trace.faults_of_draw failed
  · cases failed
  · exact Trace.faults_of_draw failed

namespace Lazy

variable {solver : Solver} {cond : Expr} {search next : Handle → Search Handle} {names gained more : Set String}

/-- From a state that binds the needed names, all results bind those that are gained, and no variable is missing. -/
def Secure (search : Handle → Search Handle) (needed gained : Set String) : Prop :=
  ∀ h p, p.Binds needed h → (search h p).Delivers Fault.Bound fun q o => q.Binds gained o

namespace Secure

theorem mono (secure : Secure search names more) (within : gained ⊆ more) : Secure search names gained :=
  fun h p binds => (secure h p binds).mono fun _ _ result => result.mono within

theorem pure : Secure pure names names :=
  fun _ _ binds => .yield binds fun _ _ => .done

theorem ifPossible (secure : Secure search names gained) :
    Secure (fun h => ifPossible solver h (search h)) names gained := by
  intro h p binds
  simp only [ifPossible_apply]
  split
  · exact .done
  · exact secure h p binds

theorem bind (first : Secure search names more) (second : Secure next more gained) (owns : Local search)
    (each : Local next) : Secure (fun h => search h >>= next) names gained :=
  fun h p binds => (first h p binds).bind (owns h p binds.valid) each second

theorem branch (reads : ∀ name, cond.reads name = true → name ∈ names) (yes : Secure search names gained)
    (no : Secure next names gained) (owns : Local search) : Secure (branch solver cond search next) names gained := by
  intro h p binds
  rw [branch_apply]
  cases known : p.formula .nested h cond with
  | error fault => exact .failed (binds.formula reads known)
  | ok f =>
    have forked : (p.forked h).Binds names h := binds.grows (.forked p h) (Set.notMem_empty h)
    have entered := forked.required f
    refine (yes.ifPossible h _ entered).andThen (owns.ifPossible h _ entered.valid) fun r grows => ?_
    have apart : p.states.size ∉ ({h} : Set Handle) := binds.valid.ne'
    have other := (binds.forked.grows (.required _ h f) apart).grows grows apart
    exact no.ifPossible _ _ (other.required _)

theorem unwind_step {bound : Nat} (reads : ∀ name, cond.reads name = true → name ∈ names)
    (inside : Secure (fun h => again solver cond search h bound) names names)
    (owns : Local fun h => again solver cond search h bound) : Secure (unwind solver cond search bound) names names := by
  intro h p binds
  rw [unwind_apply]
  cases known : p.formula .nested h cond with
  | error fault => exact .failed (binds.formula reads known)
  | ok f =>
    refine (inside h _ (binds.split f)).andThen (owns h _ (p.lt_split f binds.valid)) fun r grows => ?_
    exact Secure.pure.ifPossible _ _ ((binds.split_new f).grows grows binds.valid.ne')

/-- However often a loop iterates, every iteration starts with what the first one started with. -/
theorem unwind (reads : ∀ name, cond.reads name = true → name ∈ names) (body : Secure search names names)
    (owns : Local search) (bound : Nat) : Secure (unwind solver cond search bound) names names := by
  induction bound with
  | zero => exact unwind_step reads (fun _ _ _ => .done) (owns.again 0)
  | succ bound ih =>
    exact unwind_step reads ((body.bind ih owns (owns.unwind bound)).ifPossible) (owns.again (bound + 1))

end Secure

theorem report_error {s : Stmt} {h : Handle} {p q : Pool} {fault : Fault}
    (failed : report solver s h p = .error fault q) : (s.write 0).fault = some fault := by
  cases written : (s.write 0).fault with
  | none =>
    have text : (s.write 0).toExcept = .ok (s.write 0).text := by simp [Written.toExcept,written]
    simp only [report,Explore.printWritten,text] at failed
    cases failed
  | some cause =>
    have text : (s.write 0).toExcept = .error cause := by simp [Written.toExcept,written]
    simp only [report,Explore.printWritten,text] at failed
    cases failed
    rfl

/-- An assertion that cannot be written lacks operands, not variables. -/
theorem check_error {other : Handle} {p q : Pool} {fault : Fault}
    (failed : check solver cond other p = .error fault q) : fault.Bound := by
  rw [check_apply] at failed
  split at failed
  · cases failed
  · intro name
    rintro rfl
    have written := report_error failed
    rw [Stmt.write_assert] at written
    simp [cond.write_bound true] at written

end Lazy

open Lazy

theorem lazilyAll_secure {solver : Solver} {bound : Nat} {ss : List Stmt}
    (each : ∀ s ∈ ss, ∀ f names, Fact.Granted f (s.fact f) names →
      Secure (lazily solver bound s) names (names ∪ {x | s.settles x = true}))
    {f : Fact} {names : Set String} (granted : Fact.Granted f (Stmt.factAll f ss) names) :
    Secure (lazilyAll solver bound ss) names (names ∪ {x | Stmt.someSettles x ss = true}) := by
  induction ss generalizing f names with
  | nil => exact Secure.pure.mono (by simp [Stmt.someSettles])
  | cons s ss ih =>
    have first : Fact.Granted f (s.fact f) names := granted.narrow rfl fun x used => Stmt.fact_undefs (.block ss) used
    have later : Fact.Granted (s.fact f) (Stmt.factAll (s.fact f) ss) (names ∪ {x | s.settles x = true}) := by
      refine ⟨fun x known => ?_,fun x used => .inl (granted.undefs x used)⟩
      exact ((s.mem_fact_defs f).mp known).imp (granted.defs x) id
    have rest := ih (fun t member => each t (by simp [member])) later
    intro h
    rw [lazilyAll_cons]
    refine ((each s (by simp) f names first).ifPossible.bind rest (lazily_local solver bound s).ifPossible
      (lazilyAll_local fun t _ => lazily_local solver bound t)).mono ?_ h
    rintro x (old | settled)
    · exact .inl (.inl old)
    · rcases Bool.or_eq_true_iff.mp settled with settled | settled
      · exact .inl (.inr settled)
      · exact .inr settled

/-- Where a state binds what a statement uses undefined, every result binds in addition what is written on every way. -/
theorem lazily_secure (solver : Solver) (bound : Nat) (s : Stmt) (f : Fact) (names : Set String)
    (granted : Fact.Granted f (s.fact f) names) :
    Secure (lazily solver bound s) names (names ∪ {x | s.settles x = true}) := by
  induction s using Stmt.structural generalizing f names with
  | skip => exact Secure.pure.mono (by simp [Stmt.settles])
  | printState =>
    intro h p binds
    rw [lazily_printState]
    exact .yield ((binds.grows (.printed p _) (Set.notMem_empty h)).mono (by simp [Stmt.settles])) fun _ _ => .done
  | assign name rhs =>
    intro h p binds
    have evaluated : Fact.Granted f (rhs.fact f) names := granted.narrow rfl fun _ used => used
    rw [lazily_assign]
    cases known : p.term .nested h rhs with
    | error fault => exact .failed (binds.term (fun x => evaluated.reads) known)
    | ok t =>
      refine .yield ((binds.assigned name t).mono ?_) fun _ _ => .done
      rintro x (old | same)
      · exact .inr old
      · exact .inl (beq_iff_eq.mp same).symm
  | ifElse cond yes no left right =>
    have joined : ∀ x, x ∈ (yes.fact (cond.fact f)).undefs ∨ x ∈ (no.fact (cond.fact f)).undefs →
        x ∈ (Stmt.fact f (.ifElse cond yes no)).undefs := fun x => Std.TreeSet.mem_union_iff.mpr
    have reads : ∀ x, cond.reads x = true → x ∈ names := fun x =>
      (granted.narrow rfl fun x used => joined x (.inl (yes.fact_undefs used))).reads
    have first := left _ names (granted.narrow (cond.fact_defs f) fun x used => joined x (.inl used))
    have second := right _ names (granted.narrow (cond.fact_defs f) fun x used => joined x (.inr used))
    intro h
    rw [lazily_ifElse]
    refine Secure.branch reads (first.mono ?_) (second.mono ?_) (lazily_local solver bound yes) h
    · exact Set.union_subset_union_right _ fun x both => (Bool.and_eq_true_iff.mp both).1
    · exact Set.union_subset_union_right _ fun x both => (Bool.and_eq_true_iff.mp both).2
  | ifOnly cond yes ih =>
    have joined : ∀ x, x ∈ (yes.fact (cond.fact f)).undefs ∨ x ∈ (cond.fact f).undefs →
        x ∈ (Stmt.fact f (.ifOnly cond yes)).undefs := fun x => Std.TreeSet.mem_union_iff.mpr
    have reads : ∀ x, cond.reads x = true → x ∈ names := fun x =>
      (granted.narrow rfl fun x used => joined x (.inr used)).reads
    have first := ih _ names (granted.narrow (cond.fact_defs f) fun x used => joined x (.inl used))
    intro h
    rw [lazily_ifOnly]
    refine (Secure.branch reads (first.mono Set.subset_union_left) .pure (lazily_local solver bound yes)).mono ?_ h
    simp [Stmt.settles]
  | loop cond body inv ih =>
    have joined : ∀ x, x ∈ (body.fact (cond.fact f)).undefs ∨ x ∈ (cond.fact f).undefs →
        x ∈ (Stmt.fact f (.loop cond body inv)).undefs := fun x => Std.TreeSet.mem_union_iff.mpr
    have reads : ∀ x, cond.reads x = true → x ∈ names := fun x =>
      (granted.narrow rfl fun x used => joined x (.inr used)).reads
    have iteration := ih _ names (granted.narrow (cond.fact_defs f) fun x used => joined x (.inl used))
    intro h
    rw [lazily]
    refine (Secure.unwind reads (iteration.mono Set.subset_union_left) (lazily_local solver bound body) bound).mono ?_ h
    simp [Stmt.settles]
  | assert cond =>
    intro h p binds
    rw [lazily_assert]
    cases known : p.formula .nested h cond with
    | error fault => exact .failed (binds.formula (fun x => granted.reads) known)
    | ok g =>
      have grows := checked_grows solver cond h p g
      simp only
      split
      next r checked =>
        rw [Explore.after_ok checked] at grows
        have kept := (binds.grows grows (Set.notMem_empty h)).required g
        exact Secure.pure.ifPossible.mono (by simp [Stmt.settles]) h _ kept
      next fault r failed => exact .failed (check_error failed)
  | assume cond =>
    intro h p binds
    rw [lazily_assume]
    cases known : p.formula .nested h cond with
    | error fault => exact .failed (binds.formula (fun x => granted.reads) known)
    | ok g => exact Secure.pure.ifPossible.mono (by simp [Stmt.settles]) h _ (binds.required g)
  | havoc chosen =>
    intro h p binds
    rw [lazily_havoc]
    exact .yield (binds.havocked chosen) fun _ _ => .done
  | block items ih =>
    intro h
    rw [lazily]
    exact lazilyAll_secure ih granted h
  | hollow =>
    intro h p binds
    exact .failed (by simp [Fault.Bound])

/-- If a state binds all variables that a program uses undefined, no variable is found missing while results are drawn,
however many and whatever becomes of those that were taken. Every result binds what the state bound, and what is
defined at the end of the program. -/
theorem explore_defined (solver : Solver) (s : Stmt) (bound : Int) {pool : Pool} {h : Handle}
    (valid : h < pool.states.size) (used : ∀ name ∈ (s.fact {}).undefs, name ∈ (pool.state h).env) :
    (∀ name, ¬ (explore solver bound.toNat s h pool).Faults (.unbound name)) ∧
    (∀ ts whole q, (explore solver bound.toNat s h pool).Draws ts whole q → ∀ t ∈ ts, ∀ name,
      name ∈ (pool.state h).env ∨ name ∈ (s.fact {}).defs → name ∈ t.state.env) ∧
    ∀ wanted drawn, (explore solver bound.toNat s h).draw wanted pool = drawn →
      (∀ name, drawn.fault ≠ some (.unbound name)) ∧
      ∀ o ∈ drawn.values, ∀ name,
        name ∈ (pool.state h).env ∨ name ∈ (s.fact {}).defs → name ∈ (drawn.pool.state o).env := by
  have binds : pool.Binds {x | x ∈ (pool.state h).env} h := ⟨valid,fun _ member => member⟩
  have secure : (explore solver bound.toNat s h pool).Delivers Fault.Bound fun q o =>
      q.Binds ({x | x ∈ (pool.state h).env} ∪ {x | s.settles x = true}) o :=
    (lazily_secure solver bound.toNat s {} _ ⟨by simp,used⟩).ifPossible h pool binds
  have unfailing : ∀ name, ¬ (explore solver bound.toNat s h pool).Faults (.unbound name) :=
    fun name faults => secure.fault faults name rfl
  have defined : ∀ ts whole q, (explore solver bound.toNat s h pool).Draws ts whole q → ∀ t ∈ ts, ∀ name,
      name ∈ (pool.state h).env ∨ name ∈ (s.fact {}).defs → name ∈ t.state.env := by
    intro ts whole q draws t member name known
    apply (secure.taken draws t member).env
    exact known.imp id fun defined => ((s.mem_fact_defs {}).mp defined).resolve_left (by simp)
  refine ⟨unfailing,defined,?_⟩
  rintro wanted drawn rfl
  constructor
  · exact fun name failed => unfailing name (Search.faults_of_draw failed)
  · obtain ⟨ts,drawing,values,same,-⟩ := (explore_local solver bound.toNat s).draw valid wanted
    rw [values]
    intro o member name known
    obtain ⟨t,listed,rfl⟩ := List.mem_map.mp member
    rw [same t listed]
    rcases drawing with rfl | ⟨whole,draws⟩
    · cases listed
    · exact defined ts whole _ draws t listed name known

/-- Nothing is known of the number but that it is positive, so that the loop is left after none, one and two iterations,
each time with both answers. -/
theorem explore_halvings_defined :
    (Stmt.halvings.fact {}).undefs.toList = ["x"] ∧ (Stmt.halvings.fact {}).defs.toList = ["n","often"] ∧
      ∃ drawn, (explore .undecided 2 Stmt.halvings 0).draw none positive = drawn ∧ drawn.values = [3,4,2,5,1,6] ∧
        (∀ name, drawn.fault ≠ some (.unbound name)) ∧
        ∀ o ∈ drawn.values, "x" ∈ (drawn.pool.state o).env ∧ "often" ∈ (drawn.pool.state o).env := by
  have undefs : (Stmt.halvings.fact {}).undefs.toList = ["x"] := by decide +kernel
  have defs : (Stmt.halvings.fact {}).defs.toList = ["n","often"] := by decide +kernel
  have bound : "x" ∈ (positive.state 0).env := by decide +kernel
  have used : ∀ name ∈ (Stmt.halvings.fact {}).undefs, name ∈ (positive.state 0).env := by
    intro name member
    rw [← Std.TreeSet.mem_toList,undefs,List.mem_singleton] at member
    rw [member]
    exact bound
  have often : "often" ∈ (Stmt.halvings.fact {}).defs := by
    rw [← Std.TreeSet.mem_toList,defs]
    simp
  obtain ⟨-,-,drawing⟩ := explore_defined .undecided Stmt.halvings 2 (by decide +kernel) used
  obtain ⟨unfailing,defined⟩ := drawing none _ rfl
  refine ⟨undefs,defs,_,rfl,by decide +kernel,unfailing,fun o member => ?_⟩
  exact ⟨defined o member "x" (.inl bound),defined o member "often" (.inr often)⟩

end WhileExec.Symbolic
