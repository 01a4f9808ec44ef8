import Mathlib
import WhileExec.Symbolic.Eager
import WhileExec.Proofs.Symbolic.Changes

/-!
# What eager exploration leaves alone

An eager exploration changes the state it is given and states that it makes, also where it fails or where a loop has an
invariant. So a set of spared states stays as it is if the exploration is begun outside of it, and none of them is a
result.
-/

namespace WhileExec.Symbolic

namespace Explore

variable {α β : Type} {spared : Set Handle} {h : Handle}

/-- Whether or not it fails, the action changes none of the spared states. -/
def Leaves (spared : Set Handle) (action : Explore α) (post : α → Prop) : Prop :=
  ∀ p : Pool, (∀ k ∈ spared, k < p.states.size) → p.Grows sparedᶜ (after action p) ∧
    ∀ a q, action p = .ok a q → post a

abbrev Spares (spared : Set Handle) (action : Explore α) : Prop := Leaves spared action fun _ => True

namespace Leaves

theorem bind {action : Explore α} {next : α → Explore β} {mid : α → Prop} {post : β → Prop}
    (first : Leaves spared action mid) (second : ∀ a, mid a → Leaves spared (next a) post) :
    Leaves spared (action >>= next) post := by
  intro p old
  obtain ⟨grows,value⟩ := first p old
  have later : ∀ a q, action p = .ok a q → ∀ k ∈ spared, k < q.states.size := by
    intro a q ok k member
    rw [after_ok ok] at grows
    exact (old k member).trans_le grows.size
  refine ⟨after_bind grows fun a q ok => (second a (value a q ok) q (later a q ok)).1,fun b r ok => ?_⟩
  obtain ⟨a,q,done,rest⟩ := bind_ok ok
  exact (second a (value a q done) q (later a q done)).2 b r rest

theorem pure {a : α} {post : α → Prop} (known : post a) : Leaves spared (pure a : Explore α) post := by
  refine fun p _ => ⟨.refl _ p,fun b q ok => ?_⟩
  cases ok
  exact known

theorem discard {action : Explore α} {post : α → Prop} (leaves : Leaves spared action post) :
    Spares spared (discard action) :=
  leaves.bind fun _ _ => .pure trivial

/-- An action that succeeds and changes no state but one. -/
theorem single {action : Explore Unit} {change : Pool → Pool} (ok : ∀ p, action p = .ok () (change p))
    (grows : ∀ p : Pool, p.Grows {h} (change p)) (free : h ∉ spared) : Spares spared action := by
  refine fun p _ => ⟨?_,fun _ _ _ => trivial⟩
  rw [after_ok (ok p)]
  exact (grows p).widen (Set.singleton_subset_iff.mpr free)

theorem fork : Leaves spared (Explore.fork h) fun k => k ∉ spared := by
  intro p old
  refine ⟨(Pool.Grows.forked p h).widen (Set.empty_subset _),fun k q ok => ?_⟩
  cases ok
  exact fun member => absurd (old _ member) (lt_irrefl _)

theorem require (free : h ∉ spared) (f : Formula) : Spares spared (Explore.require h f) :=
  single (fun p => require_apply p h f) (fun p => .required p h f) free

theorem markFailed (free : h ∉ spared) : Spares spared (Explore.markFailed h) :=
  single (fun p => markFailed_apply p h) (fun p => .marked p h) free

theorem havoc (free : h ∉ spared) (names : List String) : Spares spared (Explore.havoc h names) :=
  single (fun p => havoc_apply p h names) (fun p => .havocked p h names) free

theorem print (text : String) : Spares spared (Explore.print text) :=
  fun p _ => ⟨(Pool.Grows.printed p text).widen (Set.empty_subset _),fun _ _ _ => trivial⟩

theorem printState : Spares spared (Explore.printState h) :=
  fun p _ => ⟨(Pool.Grows.printed p _).widen (Set.empty_subset _),fun _ _ _ => trivial⟩

theorem state : Spares spared (Explore.state h) := fun p _ => ⟨.refl _ p,fun _ _ _ => trivial⟩

theorem isEmpty (solver : Solver) : Spares spared (Explore.isEmpty solver h) :=
  fun p _ => ⟨.refl _ p,fun _ _ _ => trivial⟩

theorem ofExcept (x : Except Fault α) : Spares spared (Explore.ofExcept x) := by
  refine fun p _ => ⟨?_,fun _ _ _ => trivial⟩
  rw [ofExcept_after]
  exact .refl _ p

theorem printWritten (w : Written) : Spares spared (Explore.printWritten w) :=
  (ofExcept _).bind fun text _ => print text

theorem meaning (joining : Joining) (e : Expr) : Spares spared (Explore.meaning joining h e) :=
  state.bind fun _ _ => ofExcept _

theorem formula (joining : Joining) (e : Expr) : Spares spared (Explore.formula joining h e) :=
  (meaning joining e).bind fun _ _ => ofExcept _

theorem assign (free : h ∉ spared) (joining : Joining) (name : String) (rhs : Expr) :
    Spares spared (Explore.assign joining h name rhs) := by
  refine ((meaning joining rhs).bind fun _ _ => ofExcept _).bind fun t _ => ?_
  exact single (fun _ => rfl) (fun p => .assigned p h name t) free

theorem forM {action : Handle → Explore Unit} (each : ∀ k ∉ spared, Spares spared (action k)) {hs : List Handle}
    (free : ∀ k ∈ hs, k ∉ spared) : Spares spared (hs.forM action) := by
  induction hs with
  | nil => exact .pure trivial
  | cons k hs ih =>
    exact (each k (free k (by simp))).bind fun _ _ => ih fun j member => free j (by simp [member])

end Leaves

end Explore

namespace Eager

open Explore

variable {spared : Set Handle} {solver : Solver} {cond : Expr} {body : Handle → Explore (List Handle)} {h : Handle}

/-- Explored from a state that is not spared, none of the results is. -/
def Avoids (spared : Set Handle) (explore : Handle → Explore (List Handle)) : Prop :=
  ∀ h ∉ spared, Leaves spared (explore h) fun results => ∀ k ∈ results, k ∉ spared

theorem split_leaves {α : Type} {next : Formula → Handle → Explore α} {post : α → Prop} (free : h ∉ spared)
    (after : ∀ f, ∀ other ∉ spared, Leaves spared (next f other) post) :
    Leaves spared (do
      let f ← Explore.formula .flat h cond
      let other ← Explore.fork h
      Explore.require h f
      Explore.require other (.not f)
      next f other) post :=
  (Leaves.formula .flat cond).bind fun f _ => Leaves.fork.bind fun other new =>
    (Leaves.require free f).bind fun _ _ => (Leaves.require new (.not f)).bind fun _ _ => after f other new

theorem possible_free {empty : Bool} (free : h ∉ spared) : ∀ k ∈ (if empty then [] else [h]), k ∉ spared := by
  cases empty with
  | true => simp
  | false => simpa using free

theorem advance_leaves (avoids : Avoids spared body) (free : h ∉ spared) :
    Leaves spared (advance solver cond body h) fun r => (∀ k ∈ r.1, k ∉ spared) ∧ ∀ k ∈ r.2, k ∉ spared := by
  refine split_leaves free fun f exit new => (Leaves.isEmpty solver).bind fun refused _ => ?_
  refine (Leaves.isEmpty solver).bind fun empty _ => ?_
  cases empty with
  | true => exact .pure ⟨possible_free new,by simp⟩
  | false => exact (avoids h free).bind fun entered inside => .pure ⟨possible_free new,inside⟩

theorem round_leaves (avoids : Avoids spared body) {hs : List Handle} (free : ∀ k ∈ hs, k ∉ spared) :
    Leaves spared (round solver cond body hs) fun r => (∀ k ∈ r.1, k ∉ spared) ∧ ∀ k ∈ r.2, k ∉ spared := by
  induction hs with
  | nil => exact .pure (by simp)
  | cons h hs ih =>
    refine (advance_leaves avoids (free h (by simp))).bind fun first inside => ?_
    refine (ih fun k member => free k (by simp [member])).bind fun rest others => .pure ⟨?_,?_⟩
    · exact List.forall_mem_append.mpr ⟨inside.1,others.1⟩
    · exact List.forall_mem_append.mpr ⟨inside.2,others.2⟩

theorem unroll_leaves (avoids : Avoids spared body) (rounds : Nat) {hs : List Handle} (free : ∀ k ∈ hs, k ∉ spared) :
    Leaves spared (unroll solver cond body rounds hs) fun results => ∀ k ∈ results, k ∉ spared := by
  induction rounds generalizing hs with
  | zero => exact .pure (by simp)
  | succ rounds ih =>
    refine (round_leaves avoids free).bind fun first inside => ?_
    exact (ih inside.2).bind fun rest others => .pure (List.forall_mem_append.mpr ⟨inside.1,others⟩)

theorem checkEntry_leaves (free : h ∉ spared) (inv : Expr) (f : Formula) :
    Spares spared (checkEntry solver inv h f) := by
  refine (Leaves.require free (.not f)).bind fun _ _ => (Leaves.isEmpty solver).bind fun empty _ => ?_
  cases empty with
  | true => exact .pure trivial
  | false =>
    refine (Leaves.print _).bind fun _ _ => (Leaves.printWritten _).bind fun _ _ => ?_
    exact Leaves.printState.bind fun _ _ => .markFailed free

theorem simplified_leaves (inv : Expr) : Spares spared (simplified solver inv h) :=
  (Leaves.formula .flat inv).bind fun _ _ => .pure trivial

theorem checkKept_leaves (inv : Expr) (free : h ∉ spared) : Spares spared (checkKept solver inv h) := by
  refine (simplified_leaves inv).bind fun f _ => (Leaves.require free (.not f)).bind fun _ _ => ?_
  refine (Leaves.isEmpty solver).bind fun empty _ => ?_
  cases empty with
  | true => exact .pure trivial
  | false =>
    refine (Leaves.print _).bind fun _ _ => (Leaves.print _).bind fun _ _ => ?_
    refine (Leaves.printWritten _).bind fun _ _ => (Leaves.print _).bind fun _ _ => ?_
    refine Leaves.state.bind fun _ _ => (Leaves.print _).bind fun _ _ => ?_
    refine Leaves.state.bind fun _ _ => (Leaves.print _).bind fun _ _ => ?_
    exact .markFailed free

theorem checkInvariant_leaves (avoids : Avoids spared body) (free : h ∉ spared) (inv : Expr) (changed : List String) :
    Leaves spared (checkInvariant solver cond inv changed body h) fun exit => ∀ k ∈ exit, k ∉ spared := by
  refine (simplified_leaves inv).bind fun f _ => Leaves.fork.bind fun inside new => ?_
  refine (checkEntry_leaves free inv f).bind fun _ _ => (Leaves.havoc new changed).bind fun _ _ => ?_
  refine (simplified_leaves inv).bind fun g _ => (Leaves.require new g).bind fun _ _ => ?_
  refine (Leaves.meaning .flat cond).discard.bind fun _ _ => ?_
  refine Leaves.fork.bind fun exit out => (Leaves.isEmpty solver).bind fun empty _ => ?_
  have leave : Leaves spared (do return if ← Explore.isEmpty solver exit then none else some exit)
      fun exit => ∀ k ∈ exit, k ∉ spared := by
    refine (Leaves.isEmpty solver).bind fun refused _ => .pure ?_
    cases refused with
    | true => simp
    | false => simpa using out
  cases empty with
  | true => exact leave
  | false =>
    refine (avoids inside new).bind fun results others => ?_
    exact (Leaves.forM (fun k apart => checkKept_leaves inv apart) others).bind fun _ _ => leave

end Eager

open Eager

theorem eagerAll_leaves {spared : Set Handle} {solver : Solver} {ss : List Stmt}
    (each : ∀ s ∈ ss, Avoids spared (eager solver s)) {h : Handle} (free : h ∉ spared) {previous : List Handle}
    (before : ∀ k ∈ previous, k ∉ spared) :
    Explore.Leaves spared (eagerAll solver ss h previous) fun results => ∀ k ∈ results, k ∉ spared := by
  induction ss generalizing previous with
  | nil => exact .pure before
  | cons s ss ih =>
    exact (each s (by simp) h free).bind fun results inside => ih (fun s member => each s (by simp [member])) inside

theorem eager_avoids (spared : Set Handle) (solver : Solver) (s : Stmt) : Avoids spared (eager solver s) := by
  induction s using Stmt.structural with
  | skip => exact fun h free => .pure (by simpa using free)
  | printState => exact fun h free => Explore.Leaves.printState.bind fun _ _ => .pure (by simpa using free)
  | assign name rhs =>
    exact fun h free => (Explore.Leaves.assign free .flat name rhs).bind fun _ _ => .pure (by simpa using free)
  | ifElse cond yes no left right =>
    intro h free
    refine split_leaves free fun f other new => (Explore.Leaves.isEmpty solver).bind fun empty _ => ?_
    have second : ∀ first : List Handle, (∀ k ∈ first, k ∉ spared) → Explore.Leaves spared (do
        let second ← if ← Explore.isEmpty solver other then pure [] else eager solver no other
        return first ++ second) fun results => ∀ k ∈ results, k ∉ spared := by
      intro first inside
      refine (Explore.Leaves.isEmpty solver).bind fun refused _ => ?_
      cases refused with
      | true => exact .pure (List.forall_mem_append.mpr ⟨inside,by simp⟩)
      | false => exact (right other new).bind fun _ others => .pure (List.forall_mem_append.mpr ⟨inside,others⟩)
    cases empty with
    | true => exact second [] (by simp)
    | false => exact (left h free).bind second
  | ifOnly cond yes ih =>
    intro h free
    refine split_leaves free fun f other new => (Explore.Leaves.isEmpty solver).bind fun empty _ => ?_
    have second : ∀ first : List Handle, (∀ k ∈ first, k ∉ spared) → Explore.Leaves spared (do
        let second := if ← Explore.isEmpty solver other then [] else [h]
        return first ++ second) fun results => ∀ k ∈ results, k ∉ spared :=
      fun first inside => (Explore.Leaves.isEmpty solver).bind fun refused _ =>
        .pure (List.forall_mem_append.mpr ⟨inside,possible_free free⟩)
    cases empty with
    | true => exact second [] (by simp)
    | false => exact (ih h free).bind second
  | loop cond body inv ih =>
    intro h free
    have unrolled : Explore.Leaves spared (unroll solver cond (eager solver body) rounds [h])
        fun results => ∀ k ∈ results, k ∉ spared := unroll_leaves ih rounds (by simpa using free)
    cases inv with
    | none => exact unrolled
    | some inv =>
      refine (checkInvariant_leaves ih free inv _).bind fun exit inside => ?_
      cases exit with
      | none => exact unrolled
      | some exit => exact .pure (by simpa using inside)
  | assert cond =>
    intro h free
    refine split_leaves free fun f other new => (Explore.Leaves.isEmpty solver).bind fun empty _ => ?_
    have last : Explore.Leaves spared (do return if ← Explore.isEmpty solver h then [] else [h])
        fun results => ∀ k ∈ results, k ∉ spared :=
      (Explore.Leaves.isEmpty solver).bind fun _ _ => .pure (possible_free free)
    cases empty with
    | true => exact last
    | false => exact (Explore.Leaves.print _).bind fun _ _ => (Explore.Leaves.markFailed new).bind fun _ _ => last
  | assume cond =>
    intro h free
    refine (Explore.Leaves.formula .flat cond).bind fun f _ => (Explore.Leaves.require free f).bind fun _ _ => ?_
    exact (Explore.Leaves.isEmpty solver).bind fun _ _ => .pure (possible_free free)
  | havoc names => exact fun h free => (Explore.Leaves.havoc free names).bind fun _ _ => .pure (by simpa using free)
  | block items ih => exact fun h free => eagerAll_leaves ih free (by simp)
  | hollow => exact fun h free p _ => ⟨.refl _ p,fun _ _ ok => by cases ok⟩

end WhileExec.Symbolic
