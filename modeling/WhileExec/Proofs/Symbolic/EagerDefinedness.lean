import Mathlib
import WhileExec.Proofs.Symbolic.Bindings
import WhileExec.Proofs.Symbolic.EagerResults
import WhileExec.Symbolic.Decision

/-!
# Eager exploration of programs whose variables are defined

The statements of a block all run on the state that the block was entered with. If that state is refused in a branch
or a loop, it goes on without what is assigned there, even if the variable is assigned on every way. `Stmt.enteredFact`
is the fact about a point of a program that takes this into account: behind a branch or a loop nothing counts as defined
that was not defined before. Where a state binds what is used undefined by this measure, no variable is missing.
-/

namespace WhileExec

mutual

/-- The fact about the entered state after a statement; it may have gone past the branches and loops on the way. -/
def Stmt.enteredFact (f : Fact) : Stmt → Fact
  | .skip => f
  | .printState => f
  | .assign name rhs => (rhs.fact f).define name
  | .ifElse cond yes no =>
    ((yes.enteredFact (cond.fact f)).join (no.enteredFact (cond.fact f))).join (cond.fact f)
  | .ifOnly cond yes => (yes.enteredFact (cond.fact f)).join (cond.fact f)
  | .loop cond body _ => (body.enteredFact (cond.fact f)).join (cond.fact f)
  | .assert cond => cond.fact f
  | .assume cond => cond.fact f
  | .havoc names => names.foldl Fact.define f
  | .block items => Stmt.enteredFactAll f items
  | .hollow => f

def Stmt.enteredFactAll (f : Fact) : List Stmt → Fact
  | [] => f
  | s :: ss => Stmt.enteredFactAll (s.enteredFact f) ss

end

mutual

/-- The variable is assigned or chosen outside of branches and loops. -/
def Stmt.carries (name : String) : Stmt → Bool
  | .assign x _ => x == name
  | .havoc names => names.contains name
  | .block items => Stmt.someCarries name items
  | _ => false

def Stmt.someCarries (name : String) : List Stmt → Bool
  | [] => false
  | s :: ss => s.carries name || Stmt.someCarries name ss

end

namespace Stmt

theorem mem_enteredFact_defs {x : String} (s : Stmt) (f : Fact) :
    x ∈ (s.enteredFact f).defs ↔ x ∈ f.defs ∨ s.carries x = true := by
  induction s using Stmt.structural generalizing f with
  | skip | printState | hollow => simp [enteredFact,carries]
  | assign name rhs =>
    rw [enteredFact,Fact.mem_define,Expr.fact_defs]
    simp only [carries,beq_iff_eq]
    tauto
  | ifElse cond yes no left right =>
    simp only [enteredFact,Fact.join,Std.TreeSet.mem_inter_iff,left,right,Expr.fact_defs,carries,Bool.false_eq_true]
    tauto
  | ifOnly cond yes ih =>
    simp only [enteredFact,Fact.join,Std.TreeSet.mem_inter_iff,ih,Expr.fact_defs,carries,Bool.false_eq_true]
    tauto
  | loop cond body inv ih =>
    simp only [enteredFact,Fact.join,Std.TreeSet.mem_inter_iff,ih,Expr.fact_defs,carries,Bool.false_eq_true]
    tauto
  | assert cond | assume cond => simp [enteredFact,carries]
  | havoc names => exact mem_foldl_define names f
  | block items ih =>
    simp only [enteredFact,carries]
    induction items generalizing f with
    | nil => simp [enteredFactAll,someCarries]
    | cons s ss rest =>
      rw [enteredFactAll,rest (fun t member => ih t (by simp [member])),ih s (by simp)]
      simp only [someCarries,Bool.or_eq_true]
      tauto

theorem enteredFact_undefs {x : String} (s : Stmt) {f : Fact} (used : x ∈ f.undefs) : x ∈ (s.enteredFact f).undefs := by
  have evaluated : ∀ (e : Expr) {f : Fact}, x ∈ f.undefs → x ∈ (e.fact f).undefs :=
    fun e f used => (e.mem_fact_undefs f).mpr (.inl used)
  induction s using Stmt.structural generalizing f with
  | skip | printState | hollow => exact used
  | assign name rhs => exact evaluated rhs used
  | ifElse cond yes no left right => exact Std.TreeSet.mem_union_iff.mpr (.inr (evaluated cond used))
  | ifOnly cond yes ih => exact Std.TreeSet.mem_union_iff.mpr (.inr (evaluated cond used))
  | loop cond body inv ih => exact Std.TreeSet.mem_union_iff.mpr (.inr (evaluated cond used))
  | assert cond | assume cond => exact evaluated cond used
  | havoc names =>
    rw [enteredFact,foldl_define_undefs]
    exact used
  | block items ih =>
    simp only [enteredFact]
    induction items generalizing f with
    | nil => exact used
    | cons s ss rest => exact rest (fun t member => ih t (by simp [member])) (ih s (by simp) used)

theorem settles_of_carries {x : String} (s : Stmt) (carried : s.carries x = true) : s.settles x = true := by
  induction s using Stmt.structural with
  | assign name rhs => exact carried
  | havoc names => exact carried
  | block items ih =>
    simp only [carries,settles] at carried ⊢
    induction items with
    | nil => cases carried
    | cons s ss rest =>
      simp only [someCarries,someSettles,Bool.or_eq_true] at carried ⊢
      exact carried.imp (ih s (by simp)) (rest fun t member => ih t (by simp [member]))
  | _ => cases carried

/-- Whatever a statement of a block defines for those behind it, it defines outside of branches and loops. -/
def steady (s : Stmt) : Bool :=
  s.every fun
    | .block items => items.dropLast.all fun s => (s.fact {}).defs.toList.all fun x => s.carries x
    | _ => true

theorem enteredFactAll_iff {x : String} {ss : List Stmt}
    (each : ∀ s ∈ ss, ∀ f g : Fact, (∀ y, y ∈ f.defs ↔ y ∈ g.defs) → (∀ y, y ∈ f.undefs ↔ y ∈ g.undefs) →
      ∀ y, y ∈ (s.enteredFact f).undefs ↔ y ∈ (s.fact g).undefs)
    (before : ∀ s ∈ ss.dropLast, ∀ y, s.settles y = true → s.carries y = true) {f g : Fact}
    (defs : ∀ y, y ∈ f.defs ↔ y ∈ g.defs) (undefs : ∀ y, y ∈ f.undefs ↔ y ∈ g.undefs) :
    x ∈ (enteredFactAll f ss).undefs ↔ x ∈ (factAll g ss).undefs := by
  induction ss generalizing f g with
  | nil => exact undefs x
  | cons s ss ih =>
    have first := each s (by simp) f g defs undefs
    cases ss with
    | nil => exact first x
    | cons t ss =>
      have same : ∀ y, s.carries y = true ↔ s.settles y = true := fun y =>
        ⟨settles_of_carries s,before s (by simp) y⟩
      refine ih (fun u member => each u (by simp [member])) (fun u member => before u (by simp [member])) ?_ first
      intro y
      rw [mem_enteredFact_defs,mem_fact_defs,defs,same]

/-- In a steady statement the two facts find the same variables used undefined. -/
theorem mem_enteredFact_undefs {s : Stmt} (steady : s.steady = true) {f g : Fact} (defs : ∀ x, x ∈ f.defs ↔ x ∈ g.defs)
    (undefs : ∀ x, x ∈ f.undefs ↔ x ∈ g.undefs) (x : String) :
    x ∈ (s.enteredFact f).undefs ↔ x ∈ (s.fact g).undefs := by
  have evaluated : ∀ (e : Expr) {f g : Fact}, (∀ x, x ∈ f.defs ↔ x ∈ g.defs) → (∀ x, x ∈ f.undefs ↔ x ∈ g.undefs) →
      ∀ x, x ∈ (e.fact f).undefs ↔ x ∈ (e.fact g).undefs := by
    intro e f g defs undefs x
    rw [e.mem_fact_undefs,e.mem_fact_undefs,defs,undefs]
  have kept : ∀ (e : Expr) {f g : Fact}, (∀ x, x ∈ f.defs ↔ x ∈ g.defs) →
      ∀ x, x ∈ (e.fact f).defs ↔ x ∈ (e.fact g).defs := by
    intro e f g defs x
    rw [e.fact_defs,e.fact_defs,defs]
  induction s using Stmt.structural generalizing f g x with
  | skip | printState | hollow => exact undefs x
  | assign name rhs => exact evaluated rhs defs undefs x
  | ifElse cond yes no left right =>
    simp only [Stmt.steady,every,Bool.true_and,Bool.and_eq_true] at steady
    have one := left steady.1 (kept cond defs) (evaluated cond defs undefs) x
    have two := right steady.2 (kept cond defs) (evaluated cond defs undefs) x
    have used := yes.fact_undefs (f := cond.fact g) (x := x)
    simp only [enteredFact,fact,Fact.join,Std.TreeSet.mem_union_iff,one,two,evaluated cond defs undefs x]
    tauto
  | ifOnly cond yes ih =>
    simp only [Stmt.steady,every,Bool.true_and] at steady
    have one := ih steady (kept cond defs) (evaluated cond defs undefs) x
    simp only [enteredFact,fact,Fact.join,Std.TreeSet.mem_union_iff,one,evaluated cond defs undefs x]
  | loop cond body inv ih =>
    simp only [Stmt.steady,every,Bool.true_and] at steady
    have one := ih steady (kept cond defs) (evaluated cond defs undefs) x
    simp only [enteredFact,fact,Fact.join,Std.TreeSet.mem_union_iff,one,evaluated cond defs undefs x]
  | assert cond | assume cond => exact evaluated cond defs undefs x
  | havoc names =>
    rw [enteredFact,fact,foldl_define_undefs,foldl_define_undefs]
    exact undefs x
  | block items ih =>
    simp only [Stmt.steady,every,Bool.and_eq_true,List.all_eq_true] at steady
    apply enteredFactAll_iff ?_ ?_ defs undefs
    · intro s member f g defs undefs y
      exact ih s member (everyOf_iff.mp steady.2 s member) defs undefs y
    · intro s member y settled
      apply steady.1 s member y
      exact Std.TreeSet.mem_toList.mpr ((s.mem_fact_defs {}).mpr (.inr settled))

end Stmt

namespace Symbolic

/-- No action on the way from one pool to the other takes a binding away. -/
def Pool.Keeps (p q : Pool) : Prop :=
  ∀ k names, p.Binds names k → q.Binds names k

namespace Pool.Keeps

variable {p q r : Pool} {h : Handle}

theorem refl (p : Pool) : p.Keeps p := fun _ _ binds => binds

theorem trans (first : p.Keeps q) (second : q.Keeps r) : p.Keeps r :=
  fun k names binds => second k names (first k names binds)

/-- Of the states that were there only one has changed, and it has kept its bindings. -/
theorem of_grows (grows : p.Grows {h} q) (kept : ∀ names, p.Binds names h → q.Binds names h) : p.Keeps q := by
  intro k names binds
  by_cases same : k = h
  · subst same
    exact kept names binds
  · exact binds.grows grows same

theorem printed (p : Pool) (text : String) : p.Keeps (p.printed text) :=
  fun k _ binds => binds.grows (.printed p text) (Set.notMem_empty k)

theorem required (p : Pool) (h : Handle) (f : Formula) : p.Keeps (p.required h f) :=
  of_grows (.required p h f) fun _ binds => binds.required f

theorem split (p : Pool) (h : Handle) (f : Formula) : p.Keeps (p.split h f) :=
  of_grows (.split p h f) fun _ binds => binds.split f

theorem marked (p : Pool) (h : Handle) : p.Keeps (p.marked h) := by
  apply of_grows (.marked p h)
  intro names binds
  exact binds.of_env (by simpa [Pool.marked] using binds.valid) (by rw [Pool.marked,p.change_state _ binds.valid])

theorem assigned (p : Pool) (h : Handle) (name : String) (t : Term) : p.Keeps (p.assigned h name t) :=
  of_grows (.assigned p h name t) fun _ binds => (binds.assigned name t).mono (Set.subset_insert _ _)

theorem havocked (p : Pool) (h : Handle) (chosen : List String) : p.Keeps (p.havocked h chosen) :=
  of_grows (.havocked p h chosen) fun _ binds => (binds.havocked chosen).mono Set.subset_union_left

end Pool.Keeps

namespace Explore

variable {α β : Type} {p : Pool} {h : Handle} {names : Set String}

/-- The action ends as said, or fails for another reason than a missing variable. -/
def Yields (action : Explore α) (p : Pool) (post : α → Pool → Prop) : Prop :=
  match action p with
  | .ok a q => post a q
  | .error fault _ => fault.Bound

theorem Yields.bind {action : Explore α} {next : α → Explore β} {mid : α → Pool → Prop} {post : β → Pool → Prop}
    (first : Yields action p mid) (second : ∀ a q, mid a q → Yields (next a) q post) :
    Yields (action >>= next) p post := by
  unfold Yields at first
  simp only [Yields,Bind.bind,EStateM.bind]
  cases done : action p with
  | ok a q =>
    rw [done] at first
    exact second a q first
  | error fault q =>
    rw [done] at first
    exact first

theorem Yields.mono {action : Explore α} {post weaker : α → Pool → Prop} (yields : Yields action p post)
    (weaken : ∀ a q, post a q → weaker a q) : Yields action p weaker := by
  unfold Yields at yields ⊢
  split at yields
  · exact weaken _ _ yields
  · exact yields

theorem formula_yields {joining : Joining} {e : Expr} (binds : p.Binds names h)
    (reads : ∀ name, e.reads name = true → name ∈ names) : Yields (formula joining h e) p fun _ q => q = p := by
  unfold Yields
  rw [formula_apply]
  cases known : p.formula joining h e with
  | ok f => rfl
  | error fault => exact binds.formula reads known

theorem isEmpty_yields {solver : Solver} : Yields (isEmpty solver h) p fun _ q => q = p := rfl

theorem assign_yields {name : String} {rhs : Expr} (binds : p.Binds names h)
    (reads : ∀ name, rhs.reads name = true → name ∈ names) :
    Yields (assign .flat h name rhs) p fun _ q => ∃ t, q = p.assigned h name t := by
  unfold Yields
  rw [assign_apply]
  cases known : p.term .flat h rhs with
  | ok t => exact ⟨t,rfl⟩
  | error fault => exact binds.term reads known

end Explore

open Explore (Yields)

namespace Eager

variable {solver : Solver} {cond : Expr} {explore yes no body : Handle → Explore (List Handle)}
  {names gained more : Set String} {p q : Pool} {h : Handle}

/-- What is known when results were found from a state: no binding is lost, and they bind what the state bound. -/
structure Found (names gained : Set String) (h : Handle) (p : Pool) (results : List Handle) (q : Pool) : Prop where
  keeps : p.Keeps q
  entered : q.Binds gained h
  results : ∀ o ∈ results, q.Binds names o

/-- From a state that binds the names, results are found, and no variable is missing. -/
def Secure (explore : Handle → Explore (List Handle)) (names gained : Set String) : Prop :=
  ∀ h p, p.Binds names h → Yields (explore h) p (Found names gained h p)

theorem Secure.mono (secure : Secure explore names more) (within : gained ⊆ more) : Secure explore names gained :=
  fun h p binds => (secure h p binds).mono fun _ _ found => ⟨found.keeps,found.entered.mono within,found.results⟩

theorem split_yields {α : Type} {next : Formula → Handle → Explore α} {post : α → Pool → Prop}
    (binds : p.Binds names h) (reads : ∀ name, cond.reads name = true → name ∈ names)
    (after : ∀ f, Yields (next f p.states.size) (p.split h f) post) :
    Yields (do
      let f ← Explore.formula .flat h cond
      let other ← Explore.fork h
      Explore.require h f
      Explore.require other (.not f)
      next f other) p post := by
  apply (Explore.formula_yields binds reads).bind
  rintro f q rfl
  exact after f

theorem attempt_yields {α : Type} {next : List Handle → Explore α} {post : α → Pool → Prop}
    (secure : Secure explore names names) (binds : p.Binds names h)
    (after : ∀ results q, Found names names h p results q → Yields (next results) q post) :
    Yields (do
      let results ← if ← Explore.isEmpty solver h then pure [] else explore h
      next results) p post := by
  apply Explore.isEmpty_yields.bind
  rintro refused q rfl
  cases refused with
  | true => exact after [] q ⟨.refl q,binds,by simp⟩
  | false => exact (secure h q binds).bind after

theorem possible_yields (kept : p.Keeps q) (binds : q.Binds names h) :
    Yields (do return if ← Explore.isEmpty solver h then [] else [h]) q (Found names names h p) := by
  apply Explore.isEmpty_yields.bind
  rintro refused r rfl
  refine ⟨kept,binds,fun o member => ?_⟩
  cases refused with
  | true => cases member
  | false =>
    rw [List.mem_singleton.mp member]
    exact binds

theorem advance_yields (reads : ∀ name, cond.reads name = true → name ∈ names) (secure : Secure body names names)
    (binds : p.Binds names h) :
    Yields (advance solver cond body h) p fun found q =>
      p.Keeps q ∧ (∀ o ∈ found.1, q.Binds names o) ∧ ∀ o ∈ found.2, q.Binds names o := by
  apply split_yields binds reads
  intro f
  apply Explore.isEmpty_yields.bind
  rintro refused q rfl
  apply attempt_yields secure (binds.split f)
  intro entered q found
  refine ⟨(Pool.Keeps.split p h f).trans found.keeps,fun o member => ?_,found.results⟩
  cases refused with
  | true => cases member
  | false =>
    rw [List.mem_singleton.mp member]
    exact found.keeps _ _ (binds.split_new f)

theorem round_yields (reads : ∀ name, cond.reads name = true → name ∈ names) (secure : Secure body names names)
    {hs : List Handle} (binds : ∀ k ∈ hs, p.Binds names k) :
    Yields (round solver cond body hs) p fun found q =>
      p.Keeps q ∧ (∀ o ∈ found.1, q.Binds names o) ∧ ∀ o ∈ found.2, q.Binds names o := by
  induction hs generalizing p with
  | nil => exact ⟨.refl p,by simp,by simp⟩
  | cons h hs ih =>
    apply (advance_yields reads secure (binds h (by simp))).bind
    rintro ⟨left,entered⟩ mid ⟨kept,leaving,entering⟩
    apply (ih fun k member => kept k names (binds k (by simp [member]))).bind
    rintro ⟨left',entered'⟩ q ⟨later,leaving',entering'⟩
    refine ⟨kept.trans later,fun o member => ?_,fun o member => ?_⟩ <;>
      rcases List.mem_append.mp member with member | member
    · exact later o names (leaving o member)
    · exact leaving' o member
    · exact later o names (entering o member)
    · exact entering' o member

/-- However many rounds a loop is unrolled for, each starts with what the first one started with. -/
theorem unroll_yields (reads : ∀ name, cond.reads name = true → name ∈ names) (secure : Secure body names names)
    {rounds : Nat} {hs : List Handle} (binds : ∀ k ∈ hs, p.Binds names k) :
    Yields (unroll solver cond body rounds hs) p fun results q => p.Keeps q ∧ ∀ o ∈ results, q.Binds names o := by
  induction rounds generalizing p hs with
  | zero => exact ⟨.refl p,by simp⟩
  | succ rounds ih =>
    apply (round_yields reads secure binds).bind
    rintro ⟨left,entered⟩ mid ⟨kept,leaving,entering⟩
    apply (ih entering).bind
    rintro rest q ⟨later,given⟩
    refine ⟨kept.trans later,fun o member => ?_⟩
    rcases List.mem_append.mp member with member | member
    · exact later o names (leaving o member)
    · exact given o member

end Eager

open Eager

section Statements

variable {solver : Solver} {cond : Expr} {yes no : Stmt} {names : Set String}

theorem eager_assign_secure {name : String} {rhs : Expr} (reads : ∀ x, rhs.reads x = true → x ∈ names) :
    Secure (eager solver (.assign name rhs)) names (insert name names) := by
  intro h p binds
  apply (Explore.assign_yields binds reads).bind
  rintro _ q ⟨t,rfl⟩
  have bound := binds.assigned name t
  exact ⟨.assigned p h name t,bound,by simpa using bound.mono (Set.subset_insert _ _)⟩

theorem eager_ifElse_secure (reads : ∀ x, cond.reads x = true → x ∈ names)
    (first : Secure (eager solver yes) names names) (second : Secure (eager solver no) names names) :
    Secure (eager solver (.ifElse cond yes no)) names names := by
  intro h p binds
  apply split_yields binds reads
  intro g
  apply attempt_yields first (binds.split g)
  intro entered mid one
  apply attempt_yields second (one.keeps _ _ (binds.split_new g))
  intro refused q two
  refine ⟨((Pool.Keeps.split p h g).trans one.keeps).trans two.keeps,two.keeps h names one.entered,fun o member => ?_⟩
  rcases List.mem_append.mp member with member | member
  · exact two.keeps o names (one.results o member)
  · exact two.results o member

/-- Without an `else` the entered state is given once more, after the statement ran on it. -/
theorem eager_ifOnly_secure (reads : ∀ x, cond.reads x = true → x ∈ names)
    (first : Secure (eager solver yes) names names) : Secure (eager solver (.ifOnly cond yes)) names names := by
  intro h p binds
  apply split_yields binds reads
  intro g
  apply attempt_yields first (binds.split g)
  intro entered mid one
  apply Explore.isEmpty_yields.bind
  rintro refused q rfl
  refine ⟨(Pool.Keeps.split p h g).trans one.keeps,one.entered,fun o member => ?_⟩
  rcases List.mem_append.mp member with member | member
  · exact one.results o member
  · have same : o = h := by
      cases refused with
      | true => cases member
      | false => exact List.mem_singleton.mp member
    rw [same]
    exact one.entered

theorem eager_loop_secure (reads : ∀ x, cond.reads x = true → x ∈ names)
    (iteration : Secure (eager solver yes) names names) :
    Secure (eager solver (.loop cond yes none)) names names := by
  intro h p binds
  apply (unroll_yields reads iteration (by simpa using binds)).mono
  rintro results q ⟨kept,given⟩
  exact ⟨kept,kept h names binds,given⟩

theorem eager_assert_secure (reads : ∀ x, cond.reads x = true → x ∈ names) :
    Secure (eager solver (.assert cond)) names names := by
  intro h p binds
  apply split_yields binds reads
  intro g
  apply Explore.isEmpty_yields.bind
  rintro refused q rfl
  cases refused with
  | true => exact possible_yields (.split p h g) (binds.split g)
  | false =>
    have kept (text : String) := ((Pool.Keeps.split p h g).trans (.printed _ text)).trans (.marked _ p.states.size)
    exact possible_yields (kept _) (kept _ h names binds)

theorem eager_assume_secure (reads : ∀ x, cond.reads x = true → x ∈ names) :
    Secure (eager solver (.assume cond)) names names := by
  intro h p binds
  apply (Explore.formula_yields binds reads).bind
  rintro g q rfl
  exact possible_yields (.required q h g) (binds.required g)

end Statements

theorem eagerAll_yields {solver : Solver} {ss : List Stmt}
    (each : ∀ s ∈ ss, ∀ f names, Fact.Granted f (s.enteredFact f) names →
      Secure (eager solver s) names (names ∪ {x | s.carries x = true}))
    {f : Fact} {names more : Set String} (granted : Fact.Granted f (Stmt.enteredFactAll f ss) more)
    (within : names ⊆ more) {h : Handle} {p : Pool} {previous : List Handle} (binds : p.Binds more h)
    (before : ∀ o ∈ previous, p.Binds names o) :
    Yields (eagerAll solver ss h previous) p (Found names (more ∪ {x | Stmt.someCarries x ss = true}) h p) := by
  induction ss generalizing f more p previous with
  | nil => exact ⟨.refl p,binds.mono (by simp [Stmt.someCarries]),before⟩
  | cons s ss ih =>
    have first : Fact.Granted f (s.enteredFact f) more :=
      granted.narrow rfl fun x used => Stmt.enteredFact_undefs (.block ss) used
    have later : Fact.Granted (s.enteredFact f) (Stmt.enteredFactAll (s.enteredFact f) ss)
        (more ∪ {x | s.carries x = true}) := by
      refine ⟨fun x known => ?_,fun x used => .inl (granted.undefs x used)⟩
      exact ((s.mem_enteredFact_defs f).mp known).imp (granted.defs x) id
    apply (each s (by simp) f more first h p binds).bind
    intro results mid found
    have given : ∀ o ∈ results, mid.Binds names o := fun o member => (found.results o member).mono within
    apply (ih (fun t member => each t (by simp [member])) later (within.trans Set.subset_union_left) found.entered
      given).mono
    intro results q rest
    refine ⟨found.keeps.trans rest.keeps,rest.entered.mono ?_,rest.results⟩
    rintro x (old | carried)
    · exact .inl (.inl old)
    · rcases Bool.or_eq_true_iff.mp carried with carried | carried
      · exact .inl (.inr carried)
      · exact .inr carried

theorem eager_secure (solver : Solver) (s : Stmt) (free : s.invariantFree = true) (f : Fact) (names : Set String)
    (granted : Fact.Granted f (s.enteredFact f) names) :
    Secure (eager solver s) names (names ∪ {x | s.carries x = true}) := by
  induction s using Stmt.structural generalizing f names with
  | skip =>
    intro h p binds
    exact ⟨.refl p,binds.mono (by simp [Stmt.carries]),by simpa using binds⟩
  | printState =>
    intro h p binds
    have kept := Pool.Keeps.printed p ((p.state h).text ++ "\n") h names binds
    refine ⟨.printed p _,kept.mono (by simp [Stmt.carries]),fun o member => ?_⟩
    rw [List.mem_singleton.mp member]
    exact kept
  | assign name rhs =>
    have evaluated : Fact.Granted f (rhs.fact f) names := granted.narrow rfl fun _ used => used
    refine (eager_assign_secure fun x => evaluated.reads).mono ?_
    rintro x (old | same)
    · exact .inr old
    · exact .inl (beq_iff_eq.mp same).symm
  | ifElse cond yes no left right =>
    simp only [Stmt.invariantFree,Stmt.every,Bool.true_and,Bool.and_eq_true] at free
    have joined : ∀ x, (x ∈ (yes.enteredFact (cond.fact f)).undefs ∨ x ∈ (no.enteredFact (cond.fact f)).undefs) ∨
        x ∈ (cond.fact f).undefs → x ∈ (Stmt.enteredFact f (.ifElse cond yes no)).undefs := by
      simp [Stmt.enteredFact,Fact.join]
    have tested : Fact.Granted f (cond.fact f) names := granted.narrow rfl fun x used => joined x (.inr used)
    have first := left free.1 _ names (granted.narrow (cond.fact_defs f) fun x used => joined x (.inl (.inl used)))
    have second := right free.2 _ names (granted.narrow (cond.fact_defs f) fun x used => joined x (.inl (.inr used)))
    refine (eager_ifElse_secure (fun x => tested.reads) (first.mono Set.subset_union_left)
      (second.mono Set.subset_union_left)).mono ?_
    simp [Stmt.carries]
  | ifOnly cond yes ih =>
    simp only [Stmt.invariantFree,Stmt.every,Bool.true_and] at free
    have joined : ∀ x, x ∈ (yes.enteredFact (cond.fact f)).undefs ∨ x ∈ (cond.fact f).undefs →
        x ∈ (Stmt.enteredFact f (.ifOnly cond yes)).undefs := fun x => Std.TreeSet.mem_union_iff.mpr
    have tested : Fact.Granted f (cond.fact f) names := granted.narrow rfl fun x used => joined x (.inr used)
    have first := ih free _ names (granted.narrow (cond.fact_defs f) fun x used => joined x (.inl used))
    refine (eager_ifOnly_secure (fun x => tested.reads) (first.mono Set.subset_union_left)).mono ?_
    simp [Stmt.carries]
  | loop cond body inv ih =>
    simp only [Stmt.invariantFree,Stmt.every,Bool.and_eq_true,Option.isNone_iff_eq_none] at free
    obtain ⟨rfl,free⟩ := free
    have joined : ∀ x, x ∈ (body.enteredFact (cond.fact f)).undefs ∨ x ∈ (cond.fact f).undefs →
        x ∈ (Stmt.enteredFact f (.loop cond body none)).undefs := fun x => Std.TreeSet.mem_union_iff.mpr
    have tested : Fact.Granted f (cond.fact f) names := granted.narrow rfl fun x used => joined x (.inr used)
    have iteration := ih free _ names (granted.narrow (cond.fact_defs f) fun x used => joined x (.inl used))
    refine (eager_loop_secure (fun x => tested.reads) (iteration.mono Set.subset_union_left)).mono ?_
    simp [Stmt.carries]
  | assert cond => exact (eager_assert_secure fun x => granted.reads).mono (by simp [Stmt.carries])
  | assume cond => exact (eager_assume_secure fun x => granted.reads).mono (by simp [Stmt.carries])
  | havoc chosen =>
    intro h p binds
    have bound := binds.havocked chosen
    have havocked : Yields (Explore.havoc h chosen) p fun _ q => q = p.havocked h chosen := by
      unfold Yields
      rw [Explore.havoc_apply]
    rw [eager]
    apply havocked.bind
    rintro _ q rfl
    exact ⟨.havocked p h chosen,bound,by simpa using bound.mono Set.subset_union_left⟩
  | block items ih =>
    simp only [Stmt.invariantFree,Stmt.every,Bool.and_eq_true] at free
    have each := fun s member => ih s member (Stmt.everyOf_iff.mp free.2 s member)
    intro h p binds
    rw [eager]
    exact eagerAll_yields each granted le_rfl binds (by simp)
  | hollow =>
    intro h p binds name
    simp

/-- If the entered state binds all variables that are used undefined on it, none is found missing, whatever the solver
answers. For steady statements these are the variables used undefined by the ordinary measure. -/
theorem eager_defined (solver : Solver) {s : Stmt} (free : s.invariantFree = true) {pool : Pool} {h : Handle}
    (valid : h < pool.states.size) :
    ((∀ name ∈ (s.enteredFact {}).undefs, name ∈ (pool.state h).env) →
      ∀ name q, eager solver s h pool ≠ .error (.unbound name) q) ∧
    (s.steady = true → (∀ name ∈ (s.fact {}).undefs, name ∈ (pool.state h).env) →
      ∀ name q, eager solver s h pool ≠ .error (.unbound name) q) := by
  have binds : pool.Binds {x | x ∈ (pool.state h).env} h := ⟨valid,fun _ member => member⟩
  have unfailing : (∀ name ∈ (s.enteredFact {}).undefs, name ∈ (pool.state h).env) →
      ∀ name q, eager solver s h pool ≠ .error (.unbound name) q := by
    intro used name q failed
    have yields := eager_secure solver s free {} _ ⟨by simp,used⟩ h pool binds
    rw [Yields,failed] at yields
    exact yields name rfl
  refine ⟨unfailing,fun steady used => unfailing fun name member => used name ?_⟩
  exact (Stmt.mem_enteredFact_undefs steady (fun _ => .rfl) (fun _ => .rfl) name).mp member

/-- The loop is left after any number of rounds, and the variable used behind it is the one that was used before. -/
theorem eager_counting_defined :
    (counting.enteredFact {}).undefs.toList = ["x"] ∧ counting.steady = true ∧
      (∃ results q, eager .undecided counting 0 positive = .ok results q) ∧
      ∀ name q, eager .undecided counting 0 positive ≠ .error (.unbound name) q := by
  have undefs : (counting.enteredFact {}).undefs.toList = ["x"] := by decide +kernel
  have passed : (eager .undecided counting 0).passes positive (fun _ _ => true) = true := by decide +kernel
  obtain ⟨results,q,ok,-⟩ := Explore.ok_of_passes passed
  have valid : 0 < positive.states.size := by decide +kernel
  refine ⟨undefs,by decide +kernel,⟨results,q,ok⟩,(eager_defined .undecided (by decide) valid).1 ?_⟩
  intro name member
  rw [← Std.TreeSet.mem_toList,undefs,List.mem_singleton] at member
  rw [member]
  decide +kernel

/-- Both ways of the branch define the variable that is used behind it. -/
def chosen : Stmt :=
  .block [
    .assign "x" (.int 0),
    .ifElse (.app .compare ">" [.var "x",.int 0]) (.assign "y" (.int 1)) (.assign "y" (.int 2)),
    .assign "z" (.var "y")]

def Explore.fault? {α : Type} (action : Explore α) (p : Pool) : Option Fault :=
  match action p with
  | .ok _ _ => none
  | .error fault _ => some fault

theorem Explore.error_of_fault? {α : Type} {action : Explore α} {p : Pool} {fault : Fault}
    (failed : action.fault? p = some fault) : ∃ q, action p = .error fault q := by
  unfold Explore.fault? at failed
  split at failed
  · cases failed
  next q error =>
    cases failed
    exact ⟨q,error⟩

/-- A variable that is defined on both ways of a branch is missing behind it, since the first way is not possible and
the state that was entered with goes on all the same. -/
theorem eager_chosen_unbound :
    (chosen.fact {}).undefs.toList = [] ∧ (chosen.enteredFact {}).undefs.toList = ["y"] ∧
      ∃ q, eager solver chosen 0 (Explore.after (.new {}) {}) = .error (.unbound "y") q := by
  refine ⟨by decide +kernel,by decide +kernel,Explore.error_of_fault? ?_⟩
  decide +kernel

end Symbolic

end WhileExec
