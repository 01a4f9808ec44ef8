import Mathlib
import WhileExec.Proofs.Symbolic.Deciding
import WhileExec.Proofs.Symbolic.EagerFrames
import WhileExec.Proofs.Symbolic.Scripts

/-!
# Forks

A fork has the bindings and the path of the state it was forked from, and from then on the two have nothing to do with
each other: what is done to one, by hand or by an engine, leaves the other as it is. A fork of an error state is no
error state.
-/

namespace WhileExec.Symbolic

/-- A pool, and the searches that have been begun on it. -/
structure Desk where
  pool : Pool := {}
  live : List (Search Handle) := []

/-- What can be done to states: single actions by hand, an eager exploration, and lazy ones, which are begun and then
drawn from. -/
inductive Operation where
  | act (a : Action)
  | eager (solver : Solver) (s : Stmt) (h : Handle)
  | begin (solver : Solver) (bound : Nat) (s : Stmt) (h : Handle)
  | draw (place : Nat)

/-- The state that an action changes. A fork changes none. -/
def Action.target : Action → Option Handle
  | require h _ | equate h _ _ | markFailed h | bind h _ _ => some h
  | new | fork _ | symbol _ | output _ | ask _ => none

/-- The state that an operation works on. -/
def Operation.target : Operation → Option Handle
  | act a => a.target
  | eager _ _ h | begin _ _ _ h => some h
  | draw _ => none

namespace Desk

/-- Draws the next result from a search. It is put away when it has no more. -/
def draw (desk : Desk) (place : Nat) (search : Search Handle) : Desk :=
  match search desk.pool with
  | .done q => ⟨q,desk.live.eraseIdx place⟩
  | .failed _ q => ⟨q,desk.live.eraseIdx place⟩
  | .yield _ q resume => ⟨q,desk.live.set place resume⟩

def perform (desk : Desk) : Operation → Desk
  | .act a => { desk with pool := a.apply desk.pool }
  | .eager solver s h => { desk with pool := Explore.after (eager solver s h) desk.pool }
  | .begin solver bound s h =>
    if h < desk.pool.states.size then { desk with live := desk.live ++ [explore solver bound s h] } else desk
  | .draw place =>
    match desk.live[place]? with
    | some search => desk.draw place search
    | none => desk

def after (desk : Desk) (operations : List Operation) : Desk :=
  operations.foldl perform desk

/-- The spared states are there, and no search under way will touch them: each owns some of the states, and none of
those. -/
structure Apart (spared : Set Handle) (desk : Desk) : Prop where
  valid : ∀ k ∈ spared, k < desk.pool.states.size
  searches : ∀ search ∈ desk.live, ∃ owned : Set Handle, (∀ k ∈ owned, k ∉ spared ∧ k < desk.pool.states.size) ∧
    ∀ r : Pool, desk.pool.states.size ≤ r.states.size → (search r).Owns owned r

variable {spared : Set Handle} {desk : Desk}

namespace Apart

theorem grow (apart : Apart spared desk) {next : Desk} (size : desk.pool.states.size ≤ next.pool.states.size)
    (fewer : ∀ search ∈ next.live, search ∈ desk.live) : Apart spared next := by
  refine ⟨fun k member => (apart.valid k member).trans_le size,fun search member => ?_⟩
  obtain ⟨owned,inside,owns⟩ := apart.searches search (fewer search member)
  exact ⟨owned,fun k own => ⟨(inside k own).1,(inside k own).2.trans_le size⟩,
    fun r larger => owns r (size.trans larger)⟩

theorem add (apart : Apart spared desk) {search : Search Handle} {owned : Set Handle}
    (inside : ∀ k ∈ owned, k ∉ spared ∧ k < desk.pool.states.size)
    (owns : ∀ r : Pool, desk.pool.states.size ≤ r.states.size → (search r).Owns owned r) {next : Desk}
    (pool : next.pool = desk.pool) (live : ∀ other ∈ next.live, other ∈ desk.live ∨ other = search) :
    Apart spared next := by
  refine ⟨?_,fun other member => ?_⟩
  · rw [pool]
    exact apart.valid
  · rw [pool]
    rcases live other member with old | rfl
    · exact apart.searches other old
    · exact ⟨owned,inside,owns⟩

end Apart

/-- What one step of work leaves alone. -/
structure Leaves (spared : Set Handle) (desk next : Desk) : Prop where
  apart : Apart spared next
  same : ∀ k ∈ spared, next.pool.state k = desk.pool.state k

theorem Leaves.of_grows {next : Desk} (apart : Apart spared desk) (grows : desk.pool.Grows sparedᶜ next.pool)
    (fewer : ∀ search ∈ next.live, search ∈ desk.live) : Leaves spared desk next :=
  ⟨apart.grow grows.size fewer,fun k member => grows.others k (apart.valid k member) (by simpa using member)⟩

theorem draw_leaves (apart : Apart spared desk) {place : Nat} {search : Search Handle}
    (found : search ∈ desk.live) : Leaves spared desk (desk.draw place search) := by
  obtain ⟨owned,inside,owns⟩ := apart.searches search found
  have free : owned ⊆ sparedᶜ := fun k own => (inside k own).1
  have drawn := owns desk.pool le_rfl
  unfold draw
  cases known : search desk.pool with
  | done q =>
    rw [known] at drawn
    cases drawn with
    | done grows => exact .of_grows apart (grows.widen free) fun _ => List.mem_of_mem_eraseIdx
  | failed fault q =>
    rw [known] at drawn
    cases drawn with
    | failed grows => exact .of_grows apart (grows.widen free) fun _ => List.mem_of_mem_eraseIdx
  | yield value q resume =>
    rw [known] at drawn
    cases drawn with
    | yield kept grows valid own given within old resumed =>
      have still : Leaves spared desk ⟨q,desk.live⟩ := .of_grows apart (grows.widen free) fun _ member => member
      -- What it keeps is what it owned before or has made since, and spared states are neither.
      have keeps : ∀ k ∈ kept, k ∉ spared ∧ k < q.states.size := by
        refine fun k member => ⟨fun spare => ?_,old k member⟩
        exact (inside k (within k member (apart.valid k spare))).1 spare
      exact ⟨still.apart.add keeps resumed rfl fun _ => List.mem_or_eq_of_mem_set,still.same⟩

end Desk

theorem Action.apply_grows {spared : Set Handle} (p : Pool) (a : Action) (free : ∀ k ∈ spared, a.target ≠ some k) :
    p.Grows sparedᶜ (a.apply p) := by
  have changed : ∀ h f, (∀ k ∈ spared, some h ≠ some k) → p.Grows sparedᶜ (p.change h f) := by
    intro h f apart
    refine ⟨by simp,le_rfl,fun k _ member => p.change_other f ?_⟩
    rintro rfl
    exact apart k (by simpa using member) rfl
  cases a with
  | new => exact ⟨by simp [apply],le_rfl,fun k old _ => p.add_other _ old⟩
  | fork h => exact (Pool.Grows.forked p h).widen (Set.empty_subset _)
  | require h f => exact changed h _ free
  | equate h s t => exact changed h _ free
  | markFailed h => exact changed h _ free
  | symbol name => exact ⟨le_rfl,Nat.le_succ _,fun _ _ _ => rfl⟩
  | bind h name s => exact changed h _ free
  | output text => exact ⟨le_rfl,le_rfl,fun _ _ _ => rfl⟩
  | ask path => exact ⟨le_rfl,le_rfl,fun _ _ _ => rfl⟩

namespace Desk

variable {spared : Set Handle} {desk : Desk}

theorem perform_leaves (apart : Apart spared desk) {op : Operation} (free : ∀ k ∈ spared, op.target ≠ some k) :
    Leaves spared desk (desk.perform op) := by
  cases op with
  | act a => exact .of_grows apart (Action.apply_grows desk.pool a free) fun _ member => member
  | eager solver s h =>
    have outside : h ∉ spared := fun member => free h member rfl
    exact .of_grows apart (eager_avoids spared solver s h outside desk.pool apart.valid).1 fun _ member => member
  | begin solver bound s h =>
    have outside : h ∉ spared := fun member => free h member rfl
    simp only [perform]
    split
    · rename_i valid
      have inside : ∀ k ∈ ({h} : Set Handle), k ∉ spared ∧ k < desk.pool.states.size := by
        rintro k rfl
        exact ⟨outside,valid⟩
      have owns : ∀ r : Pool, desk.pool.states.size ≤ r.states.size → (explore solver bound s h r).Owns {h} r :=
        fun r larger => (lazily_local solver bound s).ifPossible h r (valid.trans_le larger)
      exact ⟨apart.add inside owns rfl fun other member => by simpa using member,fun _ _ => rfl⟩
    · exact ⟨apart,fun _ _ => rfl⟩
  | draw place =>
    simp only [perform]
    split
    · rename_i search found
      exact draw_leaves apart (List.mem_of_getElem? found)
    · exact ⟨apart,fun _ _ => rfl⟩

theorem after_leaves (apart : Apart spared desk) {operations : List Operation}
    (free : ∀ op ∈ operations, ∀ k ∈ spared, op.target ≠ some k) : Leaves spared desk (desk.after operations) := by
  induction operations generalizing desk with
  | nil => exact ⟨apart,fun _ _ => rfl⟩
  | cons op operations ih =>
    have first := perform_leaves apart (free op (by simp))
    have rest := ih first.apart fun op member => free op (by simp [member])
    exact ⟨rest.apart,fun k member => (rest.same k member).trans (first.same k member)⟩

/-- No search under way owns a state that is still to be made. -/
theorem after_apart (operations : List Operation) : Apart ∅ (after {} operations) := by
  have empty : Apart ∅ {} := ⟨by simp,by simp⟩
  exact (after_leaves empty (by simp)).apart

end Desk

/-- Forking a state, whatever was done before, gives a second state with the same bindings and path, and leaves the
state as it is. Whatever is done later to other states leaves the fork as it is. It leaves the forked state as it is
too, searches begun earlier apart, which may own that state. The fork is no error state. -/
theorem fork_evolves_apart (before : List Operation) {h : Handle}
    (valid : h < (Desk.after {} before).pool.states.size) :
    ∃ child pool, Explore.fork h (Desk.after {} before).pool = .ok child pool ∧ child ≠ h ∧
      pool.state h = (Desk.after {} before).pool.state h ∧
      (pool.state child).env = (pool.state h).env ∧ (pool.state child).path = (pool.state h).path ∧
      ((pool.state child).failed = (pool.state h).failed ↔ (pool.state h).failed = false) ∧
      (∀ later : List Operation, (∀ op ∈ later, op.target ≠ some child) →
        (Desk.after ⟨pool,(Desk.after {} before).live⟩ later).pool.state child = pool.state child) ∧
      ∀ later : List Operation, (∀ op ∈ later, op.target ≠ some h) →
        (Desk.after ⟨pool,[]⟩ later).pool.state h = pool.state h := by
  generalize reached : Desk.after {} before = desk at valid ⊢
  have sound : Desk.Apart ∅ desk := reached ▸ Desk.after_apart before
  have older : (desk.pool.forked h).state h = desk.pool.state h := desk.pool.forked_old h valid
  refine ⟨_,_,Explore.fork_apply desk.pool h,valid.ne',older,?_,?_,?_,fun later free => ?_,fun later free => ?_⟩
  · rw [older,Pool.forked_new]
  · rw [older,Pool.forked_new]
  · rw [older,Pool.forked_new]
    exact eq_comm
  · -- Searches under way own only states older than the fork.
    have apart : Desk.Apart {desk.pool.states.size} ⟨desk.pool.forked h,desk.live⟩ := by
      refine ⟨by simp,fun search member => ?_⟩
      obtain ⟨owned,inside,owns⟩ := sound.searches search member
      have size : desk.pool.states.size ≤ (desk.pool.forked h).states.size := by simp
      refine ⟨owned,fun k own => ⟨(inside k own).2.ne,(inside k own).2.trans_le size⟩,fun r larger => ?_⟩
      exact owns r (size.trans larger)
    exact (Desk.after_leaves apart (by simpa using free)).same _ rfl
  · -- One of them may own `h`, so here there are none.
    have apart : Desk.Apart {h} ⟨desk.pool.forked h,[]⟩ := by
      refine ⟨?_,by simp⟩
      rintro k rfl
      simpa using Nat.lt_succ_of_lt valid
    exact (Desk.after_leaves apart (by simpa using free)).same h rfl

/-- Makes a state in which a variable is positive, and marks it as an error state. -/
noncomputable def flawed : List Operation :=
  [.act .new,.eager .precise (.block [.havoc ["x"],.assume (.app .compare ">" [.var "x",.int 0])]) 0,
    .act (.markFailed 0)]

/-- Work on a second state, by hand and by both engines. -/
noncomputable def reworking : List Operation :=
  [.eager .precise (.assign "x" (.int 7)) 1,
    .begin .precise 1 (.ifOnly (.app .compare ">" [.var "x",.int 3]) (.havoc ["x"])) 1,.draw 0,
    .act (.require 1 (.bool false)),.draw 0]

theorem flawed_evolves_apart :
    0 < (Desk.after {} flawed).pool.states.size ∧ (∀ op ∈ reworking, op.target ≠ some 0) ∧
      ∃ child pool, Explore.fork 0 (Desk.after {} flawed).pool = .ok child pool ∧
        (pool.state child).path = (pool.state 0).path ∧
        (Desk.after ⟨pool,[]⟩ reworking).pool.state 0 = pool.state 0 := by
  have valid : 0 < (Desk.after {} flawed).pool.states.size := by decide +kernel
  have free : ∀ op ∈ reworking, op.target ≠ some 0 := by simp [reworking,Operation.target,Action.target]
  obtain ⟨child,pool,forked,-,-,-,path,-,-,apart⟩ := fork_evolves_apart flawed valid
  exact ⟨valid,free,child,pool,forked,path,apart reworking free⟩

/-- The two states that forking gives are not alike if the state was an error state. -/
theorem fork_forgets_failure :
    ∃ child pool, Explore.fork 0 (Desk.after {} flawed).pool = .ok child pool ∧
      (pool.state 0).failed = true ∧ (pool.state child).failed = false :=
  ⟨1,(Desk.after {} flawed).pool.forked 0,rfl,by decide +kernel,by decide +kernel⟩

end WhileExec.Symbolic
