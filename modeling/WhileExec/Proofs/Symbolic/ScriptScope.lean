import Mathlib
import WhileExec.Proofs.Symbolic.PoolScope
import WhileExec.Proofs.Symbolic.Scripts

/-!
# Scripts in scope

Every action of an engine mentions only symbols that have been made, and an equation is required only where its
symbol has just been made for it. `Script.Tidy` says so of a script that is carried out on a pool, whatever is done
to the pool while a result is in other hands. As in a pool in scope, the rules carry a number of symbols made.
-/

namespace WhileExec.Symbolic

/-- The action mentions only symbols with numbers below `n`. Equations are left to assignments. -/
def Action.Plain (n : Nat) : Action → Prop
  | require _ f => f.bound ≤ n
  | equate _ _ _ => False
  | bind _ _ s => s.index < n
  | _ => True

theorem Action.apply_symbols (p : Pool) (a : Action) : p.symbols ≤ (a.apply p).symbols := by
  cases a <;> first | exact le_rfl | exact Nat.le_succ _

namespace Pool.Scoped

variable {p : Pool}

theorem made (inScope : p.Scoped) (name : String) : ((Action.symbol name).apply p).Scoped :=
  fun k => (inScope k).mono (Nat.le_succ _)

theorem act (inScope : p.Scoped) {a : Action} (plain : a.Plain p.symbols) : (a.apply p).Scoped := by
  cases a with
  | new => exact inScope.add ⟨by simp,by simp⟩
  | fork h => exact inScope.forked
  | require h f => exact inScope.required plain
  | equate h s t => exact plain.elim
  | markFailed h => exact inScope.marked
  | symbol name => exact inScope.made name
  | bind h name s => exact inScope.changed ((inScope h).bind name plain)
  | output text => exact inScope
  | ask path => exact inScope

end Pool.Scoped

/-- Actions in the order in which they can follow each other: an equation stands only behind the two actions that
make its symbol and bind it. -/
inductive Orderly : Pool → List Action → Prop
  | nil {p : Pool} : Orderly p []
  | act {p : Pool} {a : Action} {as : List Action} (plain : a.Plain p.symbols) (rest : Orderly (a.apply p) as) :
      Orderly p (a :: as)
  | assign {p : Pool} {h : Handle} {name : String} {t : Term} {as : List Action} (made : t.bound ≤ p.symbols)
      (rest : Orderly (p.assigned h name t) as) :
      Orderly p (.symbol name :: .bind h name ⟨name,p.symbols⟩ :: .equate h ⟨name,p.symbols⟩ t :: as)

namespace Orderly

variable {p : Pool} {as : List Action}

theorem append {bs : List Action} (first : Orderly p as) (second : Orderly (p.through as) bs) :
    Orderly p (as ++ bs) := by
  induction first with
  | nil => exact second
  | act plain rest ih => exact .act plain (ih second)
  | assign made rest ih => exact .assign made (ih second)

/-- Also in the middle of an assignment the pool is in scope. -/
theorem keeps (orderly : Orderly p as) (inScope : p.Scoped) {point : List Action} (past : point <+: as) :
    (p.through point).Scoped := by
  induction orderly generalizing point with
  | nil =>
    rw [List.prefix_nil.mp past]
    exact inScope
  | act plain rest ih =>
    rcases point with _ | ⟨a,point⟩
    · exact inScope
    · obtain ⟨rfl,inside⟩ := List.cons_prefix_cons.mp past
      exact ih (inScope.act plain) inside
  | @assign p h name t as made rest ih =>
    -- The point may be before, between or behind the three actions of the assignment.
    rcases point with _ | ⟨a,_ | ⟨b,_ | ⟨c,point⟩⟩⟩
    · exact inScope
    · obtain ⟨rfl,-⟩ := List.cons_prefix_cons.mp past
      exact inScope.made name
    · simp only [List.cons_prefix_cons] at past
      obtain ⟨rfl,rfl,-⟩ := past
      exact inScope.renewed name
    · simp only [List.cons_prefix_cons] at past
      obtain ⟨rfl,rfl,rfl,inside⟩ := past
      exact ih (inScope.assigned name made) inside

end Orderly

theorem Pool.through_symbols (p : Pool) (as : List Action) : p.symbols ≤ (p.through as).symbols := by
  induction as generalizing p with
  | nil => exact le_rfl
  | cons a as ih => exact (Action.apply_symbols p a).trans (ih _)

namespace Script

variable {ω α β : Type}

/-- Carried out on the pool, the script keeps symbols in scope, and what it returns is as required. -/
inductive Tidy (post : α → Pool → Prop) : Pool → Script ω α → Prop
  | done {p : Pool} {a : α} (known : post a p) : Tidy post p (.done a)
  | fail {p : Pool} {fault : Fault} : Tidy post p (.fail fault)
  | look {p : Pool} {next : Pool → Script ω α} (seen : Tidy post p (next p)) : Tidy post p (.look next)
  | act {p : Pool} {a : Action} {next : Script ω α} (plain : a.Plain p.symbols) (rest : Tidy post (a.apply p) next) :
      Tidy post p (.act a next)
  | assign {p : Pool} {h : Handle} {name : String} {t : Term} {next : Script ω α} (made : t.bound ≤ p.symbols)
      (rest : Tidy post (p.assigned h name t) next) :
      Tidy post p (.act (.symbol name) (.act (.bind h name ⟨name,p.symbols⟩)
        (.act (.equate h ⟨name,p.symbols⟩ t) next)))
  | yield {p : Pool} {value : ω} {next : Script ω α}
      (resumed : ∀ q : Pool, q.Scoped → p.symbols ≤ q.symbols → Tidy post q next) : Tidy post p (.yield value next)

namespace Tidy

variable {post : α → Pool → Prop} {p : Pool} {x : Script ω α}

theorem mono {weaker : α → Pool → Prop} (tidy : Tidy post p x) (implies : ∀ a q, post a q → weaker a q) :
    Tidy weaker p x := by
  induction tidy with
  | done known => exact .done (implies _ _ known)
  | fail => exact .fail
  | look seen ih => exact .look ih
  | act plain rest ih => exact .act plain ih
  | assign made rest ih => exact .assign made ih
  | yield resumed ih => exact .yield ih

/-- What is returned is returned with a pool in scope, and no symbols have been lost. -/
theorem tracked (tidy : Tidy post p x) (inScope : p.Scoped) :
    Tidy (fun a q => post a q ∧ q.Scoped ∧ p.symbols ≤ q.symbols) p x := by
  induction tidy with
  | done known => exact .done ⟨known,inScope,le_rfl⟩
  | fail => exact .fail
  | look seen ih => exact .look (ih inScope)
  | act plain rest ih =>
    refine .act plain ((ih (inScope.act plain)).mono fun a q known => ?_)
    exact ⟨known.1,known.2.1,(Action.apply_symbols _ _).trans known.2.2⟩
  | assign made rest ih =>
    refine .assign made ((ih (inScope.assigned _ made)).mono fun a q known => ?_)
    exact ⟨known.1,known.2.1,(Pool.Grows.assigned _ _ _ _).symbols.trans known.2.2⟩
  | yield resumed ih =>
    refine .yield fun q later more => (ih q later more later).mono fun a r known => ?_
    exact ⟨known.1,known.2.1,more.trans known.2.2⟩

theorem orderly (tidy : Tidy post p x) : Orderly p (x.actions p) := by
  induction tidy with
  | done known => exact .nil
  | fail => exact .nil
  | look seen ih => exact ih
  | act plain rest ih => exact .act plain ih
  | assign made rest ih => exact .assign made ih
  | yield resumed ih => exact .nil

/-- However the pool was changed in the meantime, the rest of the script is tidy too. -/
theorem resume (tidy : Tidy (fun _ _ => True) p x) {q : Pool} (inScope : q.Scoped)
    (more : (p.through (x.actions p)).symbols ≤ q.symbols) : Tidy (fun _ _ => True) q (x.rest p) := by
  induction tidy with
  | done known => exact .done trivial
  | fail => exact .fail
  | look seen ih => exact ih more
  | act plain rest ih => exact ih more
  | assign made rest ih => exact ih more
  | yield resumed ih => exact resumed q inScope more

theorem bind {last : β → Pool → Prop} {f : α → Script ω β} (tidy : Tidy post p x)
    (each : ∀ a q, post a q → Tidy last q (f a)) : Tidy last p (x.bind f) := by
  induction tidy with
  | done known => exact each _ _ known
  | fail => exact .fail
  | look seen ih => exact .look ih
  | act plain rest ih => exact .act plain ih
  | assign made rest ih => exact .assign made ih
  | yield resumed ih => exact .yield ih

theorem lift {x : Script Empty α} (tidy : Tidy post p x) : Tidy post p (x.lift : Script ω α) := by
  induction tidy with
  | done known => exact .done known
  | fail => exact .fail
  | look seen ih => exact .look ih
  | act plain rest ih => exact .act plain ih
  | assign made rest ih => exact .assign made ih
  | yield => contradiction

end Tidy

theorem formula_eq (joining : Joining) (h : Handle) (e : Expr) :
    formula joining h e = .look fun p => ofExcept (p.formula joining h e) := by
  refine congrArg Script.look (funext fun p => ?_)
  change (ofExcept (Meaning.of joining (p.state h).env e) >>= fun m => ofExcept m.toFormula) = _
  unfold Pool.formula
  cases Meaning.of joining (p.state h).env e with
  | error fault => rfl
  | ok m => rfl

theorem term_eq (joining : Joining) (h : Handle) (e : Expr) :
    term joining h e = .look fun p => ofExcept (p.term joining h e) := by
  refine congrArg Script.look (funext fun p => ?_)
  change (ofExcept (Meaning.of joining (p.state h).env e) >>= fun m => ofExcept m.toTerm) = _
  unfold Pool.term
  cases Meaning.of joining (p.state h).env e with
  | error fault => rfl
  | ok m => rfl

/-- From every pool in scope with at least `n` symbols. -/
def Keeps (n : Nat) (x : Script ω α) (post : α → Nat → Prop) : Prop :=
  ∀ p : Pool, p.Scoped → n ≤ p.symbols → Tidy (fun a q => post a q.symbols) p x

abbrev Safe (n : Nat) (x : Script ω α) : Prop := Keeps n x fun _ _ => True

namespace Keeps

variable {n : Nat} {h : Handle} {post : α → Nat → Prop}

theorem bind {x : Script ω α} {f : α → Script ω β} {last : β → Nat → Prop} (first : Keeps n x post)
    (second : ∀ a m, n ≤ m → post a m → Keeps m (f a) last) : Keeps n (x >>= f) last := by
  intro p inScope enough
  refine ((first p inScope enough).tracked inScope).bind fun a q known => ?_
  exact second a q.symbols (enough.trans known.2.2) known.1 q known.2.1 le_rfl

theorem lift {x : Script Empty α} (keeps : Keeps n x post) : Keeps n (liftM x : Script Handle α) post :=
  fun p inScope enough => (keeps p inScope enough).lift

theorem pure (a : α) : Safe n (pure a : Script ω α) := fun _ _ _ => .done trivial

theorem act {a : Action} (plain : ∀ m, n ≤ m → a.Plain m) : Safe n (.act a (.done ()) : Script ω Unit) :=
  fun p _ enough => .act (plain p.symbols enough) (.done trivial)

theorem ofExcept (x : Except Fault α) : Safe n (Script.ofExcept x) := by
  cases x with
  | ok a => exact .pure a
  | error fault => exact fun _ _ _ => .fail

theorem state : Safe n (Script.state h) := fun _ _ _ => .look (.done trivial)

theorem isEmpty (solver : Solver) : Safe n (Script.isEmpty solver h) := fun _ _ _ =>
  .look (.act trivial (.done trivial))

theorem fork : Safe n (Script.fork h) := fun _ _ _ => .look (.act trivial (.done trivial))

theorem require {f : Formula} (bound : f.bound ≤ n) : Safe n (Script.require h f) :=
  act (a := .require h f) fun _ le => bound.trans le

theorem markFailed : Safe n (Script.markFailed h) := act (a := .markFailed h) fun _ _ => trivial

theorem print (text : String) : Safe n (Script.print text) := fun _ _ _ => .look (.act trivial (.done trivial))

theorem printWritten (w : Written) : Safe n (Script.printWritten w) := (ofExcept _).bind fun text _ _ _ => print text

theorem printState : Safe n (Script.printState h) := state.bind fun _ _ _ _ => print _

theorem renew (name : String) : Safe n (Script.renew h name) := fun _ _ _ =>
  .look (.act trivial (.act (Nat.lt_succ_self _) (.done trivial)))

theorem forM {x : α → Script Empty Unit} (each : ∀ a n, Safe n (x a)) (as : List α) : Safe n (as.forM x) := by
  induction as generalizing n with
  | nil => exact .pure _
  | cons a as ih => exact (each a n).bind fun _ _ _ _ => ih

theorem havoc (names : List String) : Safe n (Script.havoc h names) :=
  forM (fun name _ => (renew name).bind fun _ _ _ _ => .pure _) names

theorem meaning (joining : Joining) (e : Expr) : Safe n (Script.meaning joining h e) :=
  state.bind fun _ _ _ _ => ofExcept _

theorem formula (joining : Joining) (e : Expr) : Keeps n (Script.formula joining h e) fun f m => f.bound ≤ m := by
  intro p inScope _
  rw [formula_eq]
  refine .look ?_
  cases known : p.formula joining h e with
  | error fault => exact .fail
  | ok f => exact .done (Pool.formula_bound known (inScope h))

/-- The new symbol has a number that no symbol of the right-hand side has. -/
theorem assign (joining : Joining) (name : String) (rhs : Expr) : Safe n (Script.assign joining h name rhs) := by
  intro p inScope _
  rw [Script.assign,term_eq]
  refine .look ?_
  beta_reduce
  cases known : p.term joining h rhs with
  | error fault => exact .fail
  | ok t => exact .look (.assign (Pool.term_bound known (inScope h)) (.done trivial))

end Keeps

section Eager

variable {n : Nat} {solver : Solver} {cond : Expr} {body : Handle → Script Empty (List Handle)}

theorem split_safe {h : Handle} {next : Formula → Handle → Script Empty α}
    (nextSafe : ∀ f other n, Safe n (next f other)) :
    Safe n (do
      let f ← formula .flat h cond
      let other ← fork h
      require h f
      require other (.not f)
      next f other) := by
  refine (Keeps.formula .flat cond).bind fun f _ _ bound => ?_
  refine Keeps.fork.bind fun other _ le _ => ?_
  refine (Keeps.require (bound.trans le)).bind fun _ _ le' _ => ?_
  exact (Keeps.require (f := .not f) ((bound.trans le).trans le')).bind fun _ m _ _ => nextSafe f other m

theorem advance_safe (bodySafe : ∀ h n, Safe n (body h)) (h : Handle) : Safe n (advance solver cond body h) := by
  refine split_safe fun f exit n => (Keeps.isEmpty solver).bind fun _ _ _ _ => ?_
  refine (Keeps.isEmpty solver).bind fun empty m _ _ => ?_
  cases empty with
  | true => exact .pure _
  | false => exact (bodySafe h m).bind fun _ _ _ _ => .pure _

theorem round_safe (bodySafe : ∀ h n, Safe n (body h)) (hs : List Handle) : Safe n (round solver cond body hs) := by
  induction hs generalizing n with
  | nil => exact .pure _
  | cons h hs ih =>
    refine (advance_safe bodySafe h).bind fun _ _ _ _ => ?_
    exact ih.bind fun _ _ _ _ => .pure _

theorem unroll_safe (bodySafe : ∀ h n, Safe n (body h)) (rounds : Nat) (hs : List Handle) :
    Safe n (unroll solver cond body rounds hs) := by
  induction rounds generalizing n hs with
  | zero => exact .pure _
  | succ rounds ih =>
    refine (round_safe bodySafe hs).bind fun _ _ _ _ => ?_
    exact (ih _).bind fun _ _ _ _ => .pure _

theorem checkEntry_safe (inv : Expr) (h : Handle) {f : Formula} (bound : f.bound ≤ n) :
    Safe n (checkEntry solver inv h f) := by
  refine (Keeps.require (f := .not f) bound).bind fun _ _ _ _ => ?_
  refine (Keeps.isEmpty solver).bind fun empty m _ _ => ?_
  cases empty with
  | true => exact .pure _
  | false =>
    refine (Keeps.print _).bind fun _ _ _ _ => (Keeps.printWritten _).bind fun _ _ _ _ => ?_
    exact Keeps.printState.bind fun _ _ _ _ => .markFailed

theorem simplified_keeps (keeps : solver.KeepsSymbols) (inv : Expr) (h : Handle) :
    Keeps n (simplified solver inv h) fun f m => f.bound ≤ m :=
  (Keeps.formula .flat inv).bind fun _ _ _ bound _ _ le => .done ((keeps.bound_le bound).trans le)

theorem checkKept_safe (keeps : solver.KeepsSymbols) (inv : Expr) (h : Handle) : Safe n (checkKept solver inv h) := by
  refine (simplified_keeps keeps inv h).bind fun f _ _ bound => ?_
  refine (Keeps.require (f := .not f) bound).bind fun _ _ _ _ => ?_
  refine (Keeps.isEmpty solver).bind fun empty m _ _ => ?_
  cases empty with
  | true => exact .pure _
  | false =>
    refine (Keeps.print _).bind fun _ _ _ _ => (Keeps.print _).bind fun _ _ _ _ => ?_
    refine (Keeps.printWritten _).bind fun _ _ _ _ => (Keeps.print _).bind fun _ _ _ _ => ?_
    refine Keeps.state.bind fun _ _ _ _ => (Keeps.print _).bind fun _ _ _ _ => ?_
    refine Keeps.state.bind fun _ _ _ _ => (Keeps.print _).bind fun _ _ _ _ => ?_
    exact .markFailed

theorem checkInvariant_safe (keeps : solver.KeepsSymbols) (bodySafe : ∀ h n, Safe n (body h)) (inv : Expr)
    (changed : List String) (h : Handle) : Safe n (checkInvariant solver cond body inv changed h) := by
  refine (simplified_keeps keeps inv h).bind fun f _ _ bound => ?_
  refine Keeps.fork.bind fun inside _ le _ => ?_
  refine (checkEntry_safe inv h (bound.trans le)).bind fun _ _ _ _ => ?_
  refine (Keeps.havoc changed).bind fun _ _ _ _ => ?_
  refine (simplified_keeps keeps inv inside).bind fun g _ _ bound => ?_
  refine (Keeps.require bound).bind fun _ _ _ _ => ?_
  refine ((Keeps.meaning .flat cond).bind fun _ _ _ _ => .pure _).bind fun _ _ _ _ => ?_
  refine Keeps.fork.bind fun exit _ _ _ => ?_
  refine (Keeps.isEmpty solver).bind fun empty m _ _ => ?_
  have leave : ∀ m, Safe m (do return if ← isEmpty solver exit then none else some exit) :=
    fun _ => (Keeps.isEmpty solver).bind fun _ _ _ _ => .pure _
  cases empty with
  | true => exact leave m
  | false =>
    refine (bodySafe inside m).bind fun results _ _ _ => ?_
    exact (Keeps.forM (fun k _ => checkKept_safe keeps inv k) results).bind fun _ m _ _ => leave m

end Eager

theorem eagerAll_safe {solver : Solver} {ss : List Stmt} (each : ∀ s ∈ ss, ∀ h n, Safe n (eager solver s h))
    (h : Handle) (previous : List Handle) (n : Nat) : Safe n (eagerAll solver ss h previous) := by
  induction ss generalizing n previous with
  | nil => exact .pure _
  | cons s ss ih =>
    exact (each s (by simp) h n).bind fun results m _ _ => ih (fun s member => each s (by simp [member])) results m

theorem eager_safe {solver : Solver} (keeps : solver.KeepsSymbols) (s : Stmt) (h : Handle) (n : Nat) :
    Safe n (eager solver s h) := by
  induction s using Stmt.structural generalizing h n with
  | skip => exact .pure _
  | printState => exact Keeps.printState.bind fun _ _ _ _ => .pure _
  | assign name rhs => exact (Keeps.assign .flat name rhs).bind fun _ _ _ _ => .pure _
  | ifElse cond yes no left right =>
    refine split_safe fun f other n => (Keeps.isEmpty solver).bind fun empty m _ _ => ?_
    have second : ∀ first m, Safe m (do
        let second ← if ← isEmpty solver other then pure [] else eager solver no other
        return first ++ second) := by
      intro first m
      refine (Keeps.isEmpty solver).bind fun refused m _ _ => ?_
      cases refused with
      | true => exact .pure _
      | false => exact (right other m).bind fun _ _ _ _ => .pure _
    cases empty with
    | true => exact second [] m
    | false => exact (left h m).bind fun first m _ _ => second first m
  | ifOnly cond yes ih =>
    refine split_safe fun f other n => (Keeps.isEmpty solver).bind fun empty m _ _ => ?_
    have second : ∀ first m, Safe m (do
        let second := if ← isEmpty solver other then [] else [h]
        return first ++ second) :=
      fun _ _ => (Keeps.isEmpty solver).bind fun _ _ _ _ => .pure _
    cases empty with
    | true => exact second [] m
    | false => exact (ih h m).bind fun first m _ _ => second first m
  | loop cond body inv ih =>
    cases inv with
    | none => exact unroll_safe ih Symbolic.Eager.rounds [h]
    | some inv =>
      refine (checkInvariant_safe keeps ih inv _ h).bind fun exit m _ _ => ?_
      cases exit with
      | none => exact unroll_safe ih Symbolic.Eager.rounds [h]
      | some exit => exact .pure _
  | assert cond =>
    refine split_safe fun f other n => (Keeps.isEmpty solver).bind fun empty m _ _ => ?_
    cases empty with
    | true => exact (Keeps.isEmpty solver).bind fun _ _ _ _ => .pure _
    | false =>
      refine (Keeps.print _).bind fun _ _ _ _ => Keeps.markFailed.bind fun _ _ _ _ => ?_
      exact (Keeps.isEmpty solver).bind fun _ _ _ _ => .pure _
  | assume cond =>
    refine (Keeps.formula .flat cond).bind fun f _ _ bound => ?_
    refine (Keeps.require bound).bind fun _ _ _ _ => ?_
    exact (Keeps.isEmpty solver).bind fun _ _ _ _ => .pure _
  | havoc names => exact (Keeps.havoc names).bind fun _ _ _ _ => .pure _
  | block items ih => exact eagerAll_safe ih h [] n
  | hollow => exact fun _ _ _ => .fail

section Lazy

variable {n : Nat} {solver : Solver} {cond : Expr} {body : Handle → Script Handle Unit} {x y : Script Handle Unit}

theorem give_safe (h : Handle) : Safe n (give h) := fun _ _ _ => .yield fun _ _ _ => .done trivial

theorem also_safe (first : Safe n x) (second : ∀ m, n ≤ m → Safe m y) : Safe n (x.also y) :=
  first.bind fun _ m le _ => second m le

/-- Each result is handed to another script while the first one waits. -/
theorem each_safe (first : Safe n x) (bodySafe : ∀ h n, Safe n (body h)) : Safe n (x.each body) := by
  intro p inScope enough
  have tidy := first p inScope enough
  clear first enough
  induction tidy with
  | done => exact .done trivial
  | fail => exact .fail
  | look seen ih => exact .look (ih inScope)
  | act plain rest ih => exact .act plain (ih (inScope.act plain))
  | assign made rest ih => exact .assign made (ih (inScope.assigned _ made))
  | @yield p value next resumed ih =>
    -- The first script goes on in whatever pool `body` leaves, which has at least the symbols it had when it waited.
    have handed := (bodySafe value p.symbols p inScope le_rfl).tracked inScope
    exact handed.bind fun _ q known => ih q known.2.1 known.2.2 known.2.1

theorem ifPossible_safe {h : Handle} (safe : ∀ m, n ≤ m → Safe m x) : Safe n (ifPossible solver h x) := by
  refine (Keeps.isEmpty solver).lift.bind fun empty m le _ => ?_
  cases empty with
  | true => exact .pure _
  | false => exact safe m le

theorem branch_safe {yes no : Handle → Script Handle Unit} (left : ∀ h n, Safe n (yes h))
    (right : ∀ h n, Safe n (no h)) (h : Handle) : Safe n (branch solver cond yes no h) := by
  refine (Keeps.formula .nested cond).lift.bind fun f _ _ bound => ?_
  refine Keeps.fork.lift.bind fun other _ le _ => ?_
  refine (Keeps.require (bound.trans le)).lift.bind fun _ m le' _ => ?_
  refine also_safe (ifPossible_safe fun m _ => left h m) fun m' le'' => ?_
  have later : f.not.bound ≤ m' := ((bound.trans le).trans le').trans le''
  exact (Keeps.require later).lift.bind fun _ _ _ _ => ifPossible_safe fun m _ => right other m

/-- A loop goes round or is left. -/
theorem divide_safe {h : Handle} {next : Handle → Script Handle Unit} (nextSafe : ∀ exit n, Safe n (next exit)) :
    Safe n (do
      let f ← formula .nested h cond
      let exit ← fork h
      require h f
      require exit (.not f)
      next exit : Script Handle Unit) := by
  refine (Keeps.formula .nested cond).lift.bind fun f _ _ bound => Keeps.fork.lift.bind fun exit _ le _ => ?_
  refine (Keeps.require (bound.trans le)).lift.bind fun _ _ le' _ => ?_
  exact (Keeps.require (f := .not f) ((bound.trans le).trans le')).lift.bind fun _ m _ _ => nextSafe exit m

theorem unwind_safe (bodySafe : ∀ h n, Safe n (body h)) (bound : Nat) (h : Handle) :
    Safe n (unwind solver cond body bound h) := by
  induction bound generalizing h n with
  | zero =>
    refine divide_safe fun exit n => ?_
    exact also_safe (.pure _) fun _ _ => ifPossible_safe fun _ _ => give_safe exit
  | succ bound ih =>
    refine divide_safe fun exit n => ?_
    refine also_safe (ifPossible_safe fun m _ => each_safe (bodySafe h m) fun k _ => ih k) fun _ _ => ?_
    exact ifPossible_safe fun _ _ => give_safe exit

theorem report_safe (s : Stmt) (h : Handle) : Safe n (report solver s h) := by
  refine (Keeps.print _).bind fun _ _ _ _ => (Keeps.printWritten _).bind fun _ _ _ _ => ?_
  refine Keeps.state.bind fun _ _ _ _ => (Keeps.print _).bind fun _ _ _ _ => ?_
  exact (Keeps.print _).bind fun _ _ _ _ => .markFailed

end Lazy

theorem lazilyAll_safe {solver : Solver} {bound : Nat} {ss : List Stmt}
    (each : ∀ s ∈ ss, ∀ h n, Safe n (lazily solver bound s h)) (h : Handle) (n : Nat) :
    Safe n (lazilyAll solver bound ss h) := by
  induction ss generalizing h n with
  | nil => exact give_safe h
  | cons s ss ih =>
    refine each_safe (ifPossible_safe fun m _ => each s (by simp) h m) ?_
    exact ih fun s member => each s (by simp [member])

theorem lazily_safe (solver : Solver) (bound : Nat) (s : Stmt) (h : Handle) (n : Nat) :
    Safe n (lazily solver bound s h) := by
  induction s using Stmt.structural generalizing h n with
  | skip => exact give_safe h
  | printState => exact Keeps.printState.lift.bind fun _ _ _ _ => give_safe h
  | assign name rhs => exact (Keeps.assign .nested name rhs).lift.bind fun _ _ _ _ => give_safe h
  | ifElse cond yes no left right => exact branch_safe left right h
  | ifOnly cond yes ih => exact branch_safe ih (fun k _ => give_safe k) h
  | loop cond body inv ih => exact unwind_safe ih bound h
  | assert cond =>
    refine (Keeps.formula .nested cond).lift.bind fun f _ _ bound => Keeps.fork.lift.bind fun other _ le _ => ?_
    refine (Keeps.require (f := .not f) (bound.trans le)).lift.bind fun _ _ le' _ => ?_
    refine (Keeps.isEmpty solver).lift.bind fun empty m le'' _ => ?_
    have last : ∀ k, m ≤ k → Safe k (do require h f; ifPossible solver h (give h) : Script Handle Unit) := by
      intro k later
      refine (Keeps.require ((((bound.trans le).trans le').trans le'').trans later)).lift.bind fun _ _ _ _ => ?_
      exact ifPossible_safe fun _ _ => give_safe h
    cases empty with
    | true => exact last m le_rfl
    | false => exact (report_safe _ other).lift.bind fun _ k later _ => last k later
  | assume cond =>
    refine (Keeps.formula .nested cond).lift.bind fun f _ _ bound => ?_
    refine (Keeps.require bound).lift.bind fun _ _ _ _ => ?_
    exact ifPossible_safe fun _ _ => give_safe h
  | havoc names => exact (Keeps.havoc names).lift.bind fun _ _ _ _ => give_safe h
  | block items ih => exact lazilyAll_safe ih h n
  | hollow => exact fun _ _ _ => .fail

theorem explore_safe (solver : Solver) (bound : Nat) (s : Stmt) (h : Handle) (n : Nat) :
    Safe n (explore solver bound s h) :=
  ifPossible_safe fun m _ => lazily_safe solver bound s h m

end Script

end WhileExec.Symbolic
