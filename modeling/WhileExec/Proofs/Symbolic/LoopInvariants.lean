import Mathlib
import WhileExec.Proofs.Symbolic.InvariantChecks

/-!
# Invariants that are not complained of

If the check of a loop prints nothing then the invariant holds whenever the condition of the loop is about to be
tested, and what the loop ends with is represented by the state that is given for it. The body is made of
assignments and havocs here, so that it writes on every way what it writes at all.

`Head` is what is known of a store at the head of the loop. It holds where the loop is entered, and the body keeps it;
the state inside the loop, loosened and with the invariant assumed, represents every such store.
-/

namespace WhileExec

/-- A statement without parts that only changes the store. -/
def Stmt.isUpdate : Stmt → Bool
  | .skip => true
  | .assign _ _ => true
  | .havoc _ => true
  | _ => false

/-- Updates, one after the other. -/
def Stmt.isUpdates : Stmt → Bool
  | .block items => !items.isEmpty && items.all Stmt.isUpdate
  | s => s.isUpdate

/-- Integers can be chosen so that a store is met as far as it has values. -/
theorem Chooses.toward (names : List String) (store : Store) {target : Store}
    (ints : ∀ (name : String) v, target[name]? = some v → ∃ n, v = .int n) :
    ∃ final, Chooses names store final ∧
      ∀ name ∈ names, ∀ v, target[name]? = some v → final[name]? = some v := by
  induction names generalizing store with
  | nil => exact ⟨store,rfl,by simp⟩
  | cons first names ih =>
    obtain ⟨n,meets⟩ : ∃ n, ∀ v, target[first]? = some v → v = .int n := by
      cases found : target[first]? with
      | none => exact ⟨0,by simp⟩
      | some v =>
        obtain ⟨n,rfl⟩ := ints first v found
        exact ⟨n,by simp⟩
    obtain ⟨final,chosen,same⟩ := ih (store.insert first (.int n))
    refine ⟨final,⟨n,chosen⟩,fun name member v known => ?_⟩
    by_cases again : name ∈ names
    · exact same name again v known
    · obtain rfl : name = first := (List.mem_cons.mp member).resolve_right again
      rw [chosen.frame again,meets v known]
      simp

theorem Repeats.invariant {step : Store → Store → Prop} {P : Store → Prop} {n : Nat} {store final : Store}
    (repeated : Repeats step n store final) (kept : ∀ a b, step a b → P a → P b) (first : P store) : P final := by
  induction n generalizing store with
  | zero =>
    cases repeated
    exact first
  | succ n ih =>
    obtain ⟨mid,one,rest⟩ := repeated
    exact ih rest (kept store mid one first)

namespace Symbolic

open Interpretation (Agrees)

section Updates

variable {solver : Solver} {s body : Stmt} {name : String} {limit : Nat} {p q : Pool} {h : Handle}
  {i : Interpretation} {store final : Store} {results : List Handle}

theorem Pool.havocked_out (names : List String) : (p.havocked h names).out = p.out := by
  induction names generalizing p with
  | nil => rfl
  | cons first names ih => exact ih

theorem update_settles (update : s.isUpdate = true) (written : s.writes name = true) : s.settles name = true := by
  cases s with
  | skip | assign | havoc => exact written
  | _ => cases update

theorem update_ok (update : s.isUpdate = true) (ok : eager solver s h p = .ok results q) :
    results = [h] ∧ q.out = p.out := by
  cases s with
  | skip =>
    cases ok
    exact ⟨rfl,rfl⟩
  | assign x rhs =>
    obtain ⟨t,-,rfl,rfl⟩ := eager_assign_ok ok
    exact ⟨rfl,rfl⟩
  | havoc names =>
    obtain ⟨rfl,rfl⟩ := eager_havoc_ok ok
    exact ⟨rfl,Pool.havocked_out names⟩
  | _ => cases update

theorem update_carried (update : s.isUpdate = true) (run : s.Runs limit store final) :
    s.Carried (.within 0) store final := by
  cases s with
  | skip | assign | havoc => exact run
  | _ => cases update

theorem update_free (update : s.isUpdate = true) : s.invariantFree = true := by
  cases s with
  | skip | assign | havoc => rfl
  | _ => cases update

theorem updates_cases (updates : body.isUpdates = true) :
    body.isUpdate = true ∨ ∃ first items, body = .block (first :: items) ∧ ∀ s ∈ first :: items, s.isUpdate = true := by
  cases body with
  | block items =>
    simp only [Stmt.isUpdates,Bool.and_eq_true,Bool.not_eq_true',List.all_eq_true] at updates
    cases items with
    | nil => cases updates.1
    | cons first items => exact .inr ⟨first,items,rfl,updates.2⟩
  | _ => exact .inl updates

theorem updates_settle (updates : body.isUpdates = true) (written : body.writes name = true) :
    body.settles name = true := by
  rcases updates_cases updates with update | ⟨first,items,rfl,each⟩
  · exact update_settles update written
  · simp only [Stmt.writes,Stmt.settles] at written ⊢
    generalize first :: items = items at each written
    induction items with
    | nil => cases written
    | cons s ss ih =>
      simp only [Stmt.someWrites,Stmt.someSettles,Bool.or_eq_true] at written ⊢
      rcases written with here | later
      · exact .inl (update_settles (each s (by simp)) here)
      · exact .inr (ih (fun t member => each t (by simp [member])) later)

theorem updatesAll_ok {items : List Stmt} (each : ∀ s ∈ items, s.isUpdate = true)
    (ok : eagerAll solver items h [h] p = .ok results q) : results = [h] ∧ q.out = p.out := by
  induction items generalizing p with
  | nil =>
    cases ok
    exact ⟨rfl,rfl⟩
  | cons s ss ih =>
    obtain ⟨one,mid,explored,rest⟩ := eagerAll_ok ok
    obtain ⟨rfl,before⟩ := update_ok (each s (by simp)) explored
    rw [← before]
    exact ih (fun t member => each t (by simp [member])) rest

theorem updates_ok (updates : body.isUpdates = true) (ok : eager solver body h p = .ok results q) :
    results = [h] ∧ q.out = p.out := by
  rcases updates_cases updates with update | ⟨first,items,rfl,each⟩
  · exact update_ok update ok
  · obtain ⟨one,mid,explored,rest⟩ := eagerAll_ok ok
    obtain ⟨rfl,before⟩ := update_ok (each first (by simp)) explored
    rw [← before]
    exact updatesAll_ok (fun s member => each s (by simp [member])) rest

theorem updates_carried (updates : body.isUpdates = true) (run : body.Runs limit store final) :
    body.Carried (.within 0) store final := by
  rcases updates_cases updates with update | ⟨first,items,rfl,each⟩
  · exact update_carried update run
  · change Stmt.RunsAll limit (first :: items) store final at run
    change Stmt.CarriedAll (.within 0) (first :: items) store final
    generalize first :: items = items at each run
    induction items generalizing store with
    | nil => exact run
    | cons s ss ih =>
      obtain ⟨mid,one,rest⟩ := run
      exact ⟨mid,update_carried (each s (by simp)) one,ih (fun t member => each t (by simp [member])) rest⟩

theorem updates_free (updates : body.isUpdates = true) : body.invariantFree = true := by
  rcases updates_cases updates with update | ⟨first,items,rfl,each⟩
  · exact update_free update
  · simp only [Stmt.invariantFree,Stmt.every,Bool.true_and]
    exact Stmt.everyOf_iff.mpr fun s member => update_free (each s member)

/-- The entered state represents what any execution of the updates ends with. -/
theorem updates_take (sound : solver.Sound) (updates : body.isUpdates = true) (typed : body.wellTyped = true) :
    Eager.Takes (eager solver body) (body.Runs limit) := by
  intro h p results q i store final ok represents run
  exact eager_takes sound 0 body typed (updates_free updates) h p results q i store final ok represents
    (updates_carried updates run)

end Updates

section Heads

variable {solver : Solver} {inv : Expr} {body : Stmt} {p q mid : Pool} {h inside : Handle} {f g : Formula}
  {i j : Interpretation} {changed : List String} {limit : Nat} {start store next more : Store} {results : List Handle}

/-- What is known of a store at the head of a loop that was entered with `start`: the invariant holds, and only
variables that change in the loop have other values, which are integers. -/
structure Head (inv : Expr) (changed : List String) (start store : Store) : Prop where
  holds : inv.Decides store true
  frame : ∀ name ∉ changed, store[name]? = start[name]?
  ints : ∀ (name : String) v, store[name]? = some v → ∃ n, v = .int n

theorem ints_of_represents (represents : p.Represents h i store) (name : String) (v : Value)
    (found : store[name]? = some v) : ∃ n, v = .int n := by
  rw [represents.allows.store.getElem?_eq,Interpretation.store_lookup,Option.map_eq_some_iff] at found
  obtain ⟨s,-,rfl⟩ := found
  exact ⟨_,rfl⟩

/-- What the check of an invariant takes for granted: refused paths have no interpretation, and a simplified formula
means the same and has no new symbols. -/
structure Solver.Faithful (solver : Solver) : Prop where
  sound : solver.Sound
  meaning : solver.KeepsMeaning
  symbols : solver.KeepsSymbols

theorem decides_of_refused (faithful : solver.Faithful) (represents : p.Represents h i store)
    (known : p.formula .flat h inv = .ok f) (typed : inv.isCondition = true)
    (refused : solver.unsat ((p.required h (.not (solver.simplify f))).state h).path = true) :
    inv.Decides store true := by
  have decided := Pool.formula_decides known typed represents.allows.store
  have inScope := faithful.symbols.bound_le (Pool.formula_bound known represents.inScope)
  cases truth : f.eval i with
  | true => rwa [truth] at decided
  | false =>
    have fails : (Formula.not (solver.simplify f)).eval i = true := by simp [Formula.eval,faithful.meaning f i,truth]
    rw [(represents.required (f := .not (solver.simplify f)) inScope fails).possible faithful.sound] at refused
    cases refused

theorem head_entry (faithful : solver.Faithful) (represents : p.Represents h i start)
    (known : p.formula .flat h inv = .ok f) (typed : inv.isCondition = true)
    (refused : solver.unsat ((p.required h (.not (solver.simplify f))).state h).path = true) :
    Head inv changed start start :=
  ⟨decides_of_refused faithful represents known typed refused,fun _ _ => rfl,ints_of_represents represents⟩

/-- The loosened state in which the invariant is assumed represents every store at the head of the loop, up to
variables that have no value yet. -/
theorem head_represents (faithful : solver.Faithful) (represents : p.Represents inside i start)
    (known : (p.havocked inside changed).formula .flat inside inv = .ok g) (typed : inv.isCondition = true)
    (head : Head inv changed start store) :
    ∃ j more, Agrees p.symbols i j ∧
      ((p.havocked inside changed).required inside (solver.simplify g)).Represents inside j more ∧
      store.Extends more ∧ ∀ name ∉ changed, more[name]? = start[name]? := by
  obtain ⟨more,chosen,meets⟩ := Chooses.toward changed start head.ints
  have wider : store.Extends more := by
    intro name v found
    by_cases member : name ∈ changed
    · exact meets name member v found
    · rw [chosen.frame member,← head.frame name member,found]
  obtain ⟨j,agree,loosened⟩ := represents.havocked chosen
  have decided := Pool.formula_decides known typed loosened.allows.store
  have holds : (solver.simplify g).eval j = true := by
    rw [faithful.meaning]
    exact decided.unique (head.holds.extends wider)
  have inScope := faithful.symbols.bound_le (Pool.formula_bound known loosened.inScope)
  exact ⟨j,more,agree,loosened.required inScope holds,wider,fun name apart => chosen.frame apart⟩

/-- The body was explored from the state inside the loop and the invariant was checked behind it, without a
message. -/
structure Silent (solver : Solver) (inv : Expr) (body : Stmt) (inside : Handle) (p : Pool) (results : List Handle)
    (mid q : Pool) : Prop where
  attempted : Eager.attempt solver (eager solver body) inside p = .ok results mid
  checked : results.forM (Eager.checkKept solver inv) mid = .ok () q
  silent : ¬ p.Prints q Eager.keptMessage

/-- Where the state inside is possible, it goes through the body and is the one that is checked. -/
theorem Silent.explored (check : Silent solver inv body inside p results mid q) (sound : solver.Sound)
    (updates : body.isUpdates = true) (represents : p.Represents inside j more) :
    eager solver body inside p = .ok [inside] mid ∧ ∃ f, mid.formula .flat inside inv = .ok f ∧ mid.Grows {inside} q ∧
      solver.unsat ((mid.required inside (.not (solver.simplify f))).state inside).path = true := by
  have attempted := check.attempted
  rw [Eager.attempt_represents sound represents] at attempted
  obtain ⟨rfl,quiet⟩ := updates_ok updates attempted
  obtain ⟨_,r,kept,rest⟩ := Explore.bind_ok check.checked
  cases rest
  obtain ⟨f,known,grows,refused | prints⟩ := Eager.checkKept_ok kept
  · exact ⟨attempted,f,known,grows,refused⟩
  · exact absurd (prints.earlier (by rw [quiet,String.append_empty])) check.silent

theorem head_step (faithful : solver.Faithful) (typed : inv.isCondition = true) (bodyTyped : body.wellTyped = true)
    (updates : body.isUpdates = true) (represents : p.Represents inside i start)
    (known : (p.havocked inside (solver.renewed body)).formula .flat inside inv = .ok g)
    (check : Silent solver inv body inside
      (((p.havocked inside (solver.renewed body)).required inside (solver.simplify g)).forked inside) results mid q)
    (head : Head inv (solver.renewed body) start store) (run : body.Runs limit store next) :
    Head inv (solver.renewed body) start next := by
  obtain ⟨j,more,-,assumed,wider,frame⟩ := head_represents faithful represents known typed head
  have inLoop := assumed.grows (.forked _ inside) (Set.notMem_empty inside)
  obtain ⟨explored,f,behind,-,refused⟩ := check.explored faithful.sound updates inLoop
  -- the same iteration from the store with further variables is the one that the state goes through
  obtain ⟨further,again,wider'⟩ := body.runs_extends run wider
  obtain ⟨k,-,reached⟩ := updates_take faithful.sound updates bodyTyped inside _ _ mid j more further explored inLoop
    again
  have holds := decides_of_refused faithful reached behind typed refused
  have untouched : ∀ {a b : Store} {name}, name ∉ solver.renewed body → body.Runs limit a b →
      b[name]? = a[name]? := by
    intro a b name apart run
    refine body.runs_frame (Bool.eq_false_iff.mpr fun written => apart ?_) run
    exact mem_renewed.mpr (updates_settle updates written)
  have narrower : further.Extends next := by
    intro name v found
    by_cases member : name ∈ solver.renewed body
    · -- behind the body it has a value in either store
      obtain ⟨w,known⟩ := Option.isSome_iff_exists.mp
        (Std.TreeMap.mem_iff_isSome_getElem?.mp (body.runs_settles (mem_renewed.mp member) run))
      rw [wider' name w known] at found
      rw [known,found]
    · rw [untouched member again,frame name member,← head.frame name member,← untouched member run] at found
      exact found
  refine ⟨holds.extends narrower,fun name apart => ?_,fun name v found => ?_⟩
  · rw [untouched apart run,head.frame name apart]
  · exact ints_of_represents reached name v (wider' name v found)

/-- A store at the head of the loop is represented by the state that leaves it. -/
theorem head_exit (faithful : solver.Faithful) (typed : inv.isCondition = true) (updates : body.isUpdates = true)
    (represents : p.Represents inside i start)
    (known : (p.havocked inside changed).formula .flat inside inv = .ok g)
    (check : Silent solver inv body inside
      (((p.havocked inside changed).required inside (solver.simplify g)).forked inside) results mid q)
    (head : Head inv changed start store) :
    ∃ j more, Agrees p.symbols i j ∧ store.Extends more ∧
      q.Represents (p.havocked inside changed).states.size j more := by
  obtain ⟨j,more,agree,assumed,wider,-⟩ := head_represents faithful represents known typed head
  have inLoop := assumed.grows (.forked _ inside) (Set.notMem_empty inside)
  obtain ⟨explored,f,-,grows,-⟩ := check.explored faithful.sound updates inLoop
  have keeping := eager_keeping solver body (updates_free updates) inside _ _ _ inLoop.valid explored
  have apart : (p.havocked inside changed).states.size ≠ inside := by simpa using assumed.valid.ne'
  have exit := assumed.forked
  rw [Pool.required_size] at exit
  exact ⟨j,more,agree,wider,(exit.grows keeping.grows apart).grows grows apart⟩

end Heads

section Loop

open Explore (Appends)

variable {solver : Solver} {cond inv : Expr} {body : Stmt} {pool q : Pool} {h : Handle} {i : Interpretation}
  {results : List Handle}

/-- What a check without messages has established: the heads of the loop begin with the entered store, the body keeps
them, and the given state represents them. -/
theorem silent_heads (faithful : solver.Faithful) (inScope : (pool.state h).Scoped pool.symbols)
    (valid : h < pool.states.size) (typed : inv.isCondition = true) (bodyTyped : body.wellTyped = true)
    (updates : body.isUpdates = true) (ok : eager solver (.loop cond body (some inv)) h pool = .ok results q)
    (entered : ¬ pool.Prints q Eager.entryMessage) (kept : ¬ pool.Prints q Eager.keptMessage)
    (holds : (pool.state h).path.holds i = true) :
    Head inv (solver.renewed body) (i.store (pool.state h).env) (i.store (pool.state h).env) ∧
      (∀ limit store next, Head inv (solver.renewed body) (i.store (pool.state h).env) store →
        body.Runs limit store next → Head inv (solver.renewed body) (i.store (pool.state h).env) next) ∧
      ∀ store, Head inv (solver.renewed body) (i.store (pool.state h).env) store →
        ∃ o ∈ results, ∃ j, Agrees pool.symbols i j ∧ (q.state o).path.holds j = true ∧
          store.Extends (j.store (q.state o).env) := by
  have bodyAppends : ∀ k, Appends (eager solver body k) := fun k =>
    .of_same fun _ _ _ ok => (updates_ok updates ok).2
  have represents : pool.Represents h i (i.store (pool.state h).env) := ⟨valid,inScope,holds,.rfl⟩
  rw [Eager.loop_eq] at ok
  obtain ⟨inside,loosened,loosening,ok⟩ := Explore.bind_ok ok
  obtain ⟨exit,r,checking,ok⟩ := Explore.bind_ok ok
  obtain ⟨last,ended⟩ : ∃ text, q.out = r.out ++ text := by
    cases exit with
    | some o => exact Appends.pure _ _ _ _ ok
    | none => exact Eager.unroll_appends bodyAppends _ _ _ _ _ ok
  obtain ⟨first,begun⟩ := Eager.loosen_appends _ _ _ loosening
  obtain ⟨second,went⟩ := Eager.checkLoosened_appends bodyAppends _ _ _ checking
  obtain ⟨rfl,f,checked,known,entry,rfl⟩ := Eager.loosen_ok loosening
  obtain ⟨g,explored,mid,assumed,attempted,keptChecked,leaves⟩ := Eager.checkLoosened_ok checking
  obtain ⟨grows,refused⟩ := Eager.checkEntry_ok entry
  have refused := refused.resolve_right fun prints => by
    have later := prints.later (went.trans (by rw [Pool.havocked_out]))
    exact entered ((later.later ended).earlier String.append_empty.symm)
  have check : Silent solver inv body pool.states.size _ explored mid r :=
    ⟨attempted,keptChecked,fun prints => kept ((prints.later ended).earlier begun)⟩
  have outside := represents.grows (.forked pool h) (Set.notMem_empty h)
  have inLoop := represents.forked.grows grows valid.ne'
  have atEntry : (pool.forked h).formula .flat h inv = .ok f := by
    rw [Pool.formula,pool.forked_old h valid]
    exact known
  refine ⟨head_entry faithful outside atEntry typed refused,fun limit store next head run =>
    head_step faithful typed bodyTyped updates inLoop assumed check head run,fun store head => ?_⟩
  obtain ⟨j,more,agree,wider,leaving⟩ := head_exit faithful typed updates inLoop assumed check head
  rw [leaving.possible faithful.sound] at leaves
  subst leaves
  cases ok
  refine ⟨_,List.mem_singleton.mpr rfl,j,(Agrees.refl pool.symbols i).trans agree grows.symbols,
    leaving.allows.path,fun name v found => ?_⟩
  rw [← leaving.allows.store.getElem?_eq]
  exact wider name v found

/-- If a loop with an invariant is explored and neither message is printed, then the invariant holds whenever the
condition is about to be tested, and every store that an execution ends with is represented by a result. Refused paths
are to have no interpretation, and simplified formulas are to mean the same and to have no new symbols. -/
theorem silent_invariant_holds (sound : solver.Sound) (meaning : solver.KeepsMeaning) (symbols : solver.KeepsSymbols)
    {live : List (Search Handle)} (reachable : Reachable pool live) (valid : h < pool.states.size)
    (typed : (Stmt.loop cond body (some inv)).wellTyped = true) (invTyped : inv.isCondition = true)
    (updates : body.isUpdates = true) (ok : eager solver (.loop cond body (some inv)) h pool = .ok results q)
    (entered : ¬ pool.Prints q "Invariant does not hold before initial loop entry")
    (kept : ¬ pool.Prints q "Invariant does not hold within the loop")
    (holds : (pool.state h).path.holds i = true) :
    (∀ limit store, Iterations cond (body.Runs limit) (i.store (pool.state h).env) store → inv.Decides store true) ∧
      ∀ limit final, (Stmt.loop cond body (some inv)).Runs limit (i.store (pool.state h).env) final →
        ∃ o ∈ results, ∃ j, Agrees pool.symbols i j ∧ (q.state o).path.holds j = true ∧
          final.Extends (j.store (q.state o).env) := by
  simp only [Stmt.wellTyped,Stmt.every,Bool.and_eq_true] at typed
  obtain ⟨entry,step,exit⟩ := silent_heads ⟨sound,meaning,symbols⟩ (reachable.settled.inScope h) valid invTyped typed.2
    updates ok entered kept holds
  refine ⟨fun limit store reached => ?_,fun limit final run => ?_⟩
  · obtain ⟨n,reached⟩ := reached
    exact (reached.invariant (fun a b one head => step limit a b head one.2) entry).holds
  · exact exit final (Iterates.invariant run (fun a b one head => step limit a b head one) entry)

/-- Counts up to ten, from a positive number. -/
def climb : Stmt :=
  .loop (.app .compare "<" [.var "x",.int 10]) (.assign "x" (.app .arith "+" [.var "x",.int 1]))
    (some (.app .compare ">" [.var "x",.int 0]))

/-- A strict comparison as the negation of the opposite one. -/
def Formula.unstrict : Formula → Formula
  | .rel .lt a b => .not (.rel .le b a)
  | .rel .gt a b => .not (.rel .le a b)
  | f => f

theorem Formula.unstrict_eval (f : Formula) (i : Interpretation) : f.unstrict.eval i = f.eval i := by
  unfold unstrict
  split
  · simp [eval,Relation.holds,← decide_not]
  · simp [eval,Relation.holds,← decide_not]
  · rfl

theorem Formula.mem_unstrict_symbols {f : Formula} {s : Symbol} (inside : s ∈ f.unstrict.symbols) : s ∈ f.symbols := by
  unfold unstrict at inside
  split at inside
  · simpa [symbols,or_comm] using inside
  · simpa [symbols] using inside
  · exact inside

/-- The right answers, and invariants without strict comparisons. -/
noncomputable def Solver.unstrict : Solver := { precise with simplify := Formula.unstrict }

theorem Solver.unstrict_sound : unstrict.Sound := precise_exact.sound

theorem climb_invariant_holds :
    ∃ results q, eager .unstrict climb 0 positive = .ok results q ∧
      (∀ limit store, Iterations (.app .compare "<" [.var "x",.int 10])
        (Stmt.Runs limit (.assign "x" (.app .arith "+" [.var "x",.int 1]))) (eight.store (positive.state 0).env) store →
          Expr.Decides store (.app .compare ">" [.var "x",.int 0]) true) ∧
      ∃ o ∈ results, ∃ j, Agrees positive.symbols eight j ∧ (q.state o).path.holds j = true ∧
        (j.store (q.state o).env)["x"]? = some (.int 10) := by
  have passed : (eager .unstrict climb 0).passes positive (fun _ q => q.out == positive.out) = true := by
    decide +kernel
  obtain ⟨results,q,ok,passed⟩ := Explore.ok_of_passes passed
  have silent : q.out = positive.out := by simpa using passed
  have admitted : (positive.state 0).path.holds eight = true := by decide +kernel
  obtain ⟨invariant,ends⟩ := silent_invariant_holds Solver.unstrict_sound Formula.unstrict_eval
    (fun _ _ => Formula.mem_unstrict_symbols) positive_reachable (by decide +kernel) (by decide) (by decide)
    (by decide) ok (Pool.Prints.not_of_same silent (by decide)) (Pool.Prints.not_of_same silent (by decide)) admitted
  have run : climb.Runs 2 (eight.store (positive.state 0).env)
      (((eight.store (positive.state 0).env).insert "x" (.int 9)).insert "x" (.int 10)) :=
    .inr ⟨⟨_,rfl,rfl⟩,_,⟨_,rfl,rfl⟩,.inr ⟨⟨_,rfl,rfl⟩,_,⟨_,rfl,rfl⟩,⟨_,rfl,rfl⟩,rfl⟩⟩
  obtain ⟨o,member,j,agree,holds,wider⟩ := ends 2 _ run
  exact ⟨results,q,ok,invariant,o,member,j,agree,holds,wider "x" _ (by simp)⟩

end Loop

end Symbolic

end WhileExec
