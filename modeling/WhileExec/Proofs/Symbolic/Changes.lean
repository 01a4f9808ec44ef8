import Mathlib
import WhileExec.Proofs.Symbolic.Scope

/-!
# What actions do to a pool

Each action on a pool as a function, and what it leaves alone. `Pool.Grows` is what all actions have in common:
states and symbols are only added, and of the states that were there none changes but those that were meant.
-/

namespace WhileExec.Symbolic

namespace Pool

def change (p : Pool) (h : Handle) (f : State → State) : Pool :=
  { p with states := p.states.modify h f }

def add (p : Pool) (s : State) : Pool :=
  { p with states := p.states.push s }

def forked (p : Pool) (h : Handle) : Pool :=
  p.add { p.state h with failed := false }

def required (p : Pool) (h : Handle) (f : Formula) : Pool :=
  p.change h fun s => s.require f

/-- The state goes on as the case where the formula holds, a fork of it as the other case. -/
def split (p : Pool) (h : Handle) (f : Formula) : Pool :=
  ((p.forked h).required h f).required p.states.size (.not f)

def marked (p : Pool) (h : Handle) : Pool :=
  p.change h fun s => { s with failed := true }

def renewed (p : Pool) (h : Handle) (name : String) : Pool :=
  { p.change h (fun s => s.bind name ⟨name,p.symbols⟩) with symbols := p.symbols + 1 }

def assigned (p : Pool) (h : Handle) (name : String) (t : Term) : Pool :=
  (p.renewed h name).required h (.compare .eq (.sym ⟨name,p.symbols⟩) t)

def havocked (p : Pool) (h : Handle) (names : List String) : Pool :=
  names.foldl (fun p name => p.renewed h name) p

def printed (p : Pool) (text : String) : Pool :=
  { p with out := p.out ++ text }

/-- The formula that a condition means in a state. -/
def formula (p : Pool) (joining : Joining) (h : Handle) (e : Expr) : Except Fault Formula := do
  (← Meaning.of joining (p.state h).env e).toFormula

def term (p : Pool) (joining : Joining) (h : Handle) (e : Expr) : Except Fault Term := do
  (← Meaning.of joining (p.state h).env e).toTerm

section Lookup

variable (p : Pool) (h : Handle) (f : State → State)

@[simp] theorem change_size : (p.change h f).states.size = p.states.size := by simp [change]
@[simp] theorem change_symbols : (p.change h f).symbols = p.symbols := rfl

theorem change_state {h : Handle} (valid : h < p.states.size) : (p.change h f).state h = f (p.state h) := by
  simp [change,state,valid,Array.getElem_modify]

@[simp] theorem change_other {h k : Handle} (apart : k ≠ h) : (p.change h f).state k = p.state k := by
  simp [change,state,Array.getElem?_modify,apart.symm]

@[simp] theorem add_size (s : State) : (p.add s).states.size = p.states.size + 1 := by simp [add]
@[simp] theorem add_symbols (s : State) : (p.add s).symbols = p.symbols := rfl

@[simp] theorem add_state (s : State) : (p.add s).state p.states.size = s := by simp [add,state]

theorem add_other {k : Handle} (s : State) (old : k < p.states.size) : (p.add s).state k = p.state k := by
  simp [add,state,Array.getElem?_push,Nat.ne_of_lt old]

@[simp] theorem printed_state (text : String) (k : Handle) : (p.printed text).state k = p.state k := rfl
@[simp] theorem printed_size (text : String) : (p.printed text).states.size = p.states.size := rfl
@[simp] theorem printed_symbols (text : String) : (p.printed text).symbols = p.symbols := rfl

end Lookup

section Forked

variable (p : Pool) (h : Handle)

@[simp] theorem forked_size : (p.forked h).states.size = p.states.size + 1 := by simp [forked]
@[simp] theorem forked_symbols : (p.forked h).symbols = p.symbols := rfl
@[simp] theorem forked_new : (p.forked h).state p.states.size = { p.state h with failed := false } := by
  simp [forked]

theorem forked_old {k : Handle} (old : k < p.states.size) : (p.forked h).state k = p.state k :=
  p.add_other _ old

@[simp] theorem required_size (f : Formula) : (p.required h f).states.size = p.states.size := by simp [required]
@[simp] theorem required_symbols (f : Formula) : (p.required h f).symbols = p.symbols := rfl

theorem required_state {h : Handle} (f : Formula) (valid : h < p.states.size) :
    (p.required h f).state h = (p.state h).require f :=
  p.change_state _ valid

@[simp] theorem required_other {h k : Handle} (f : Formula) (apart : k ≠ h) :
    (p.required h f).state k = p.state k :=
  p.change_other _ apart

@[simp] theorem split_size (f : Formula) : (p.split h f).states.size = p.states.size + 1 := by simp [split]
@[simp] theorem split_symbols (f : Formula) : (p.split h f).symbols = p.symbols := rfl

theorem lt_split {h : Handle} (f : Formula) (valid : h < p.states.size) : h < (p.split h f).states.size := by
  simpa using Nat.lt_succ_of_lt valid

theorem split_state {h : Handle} (f : Formula) (valid : h < p.states.size) :
    (p.split h f).state h = (p.state h).require f := by
  have older : h < (p.forked h).states.size := by simpa using Nat.lt_succ_of_lt valid
  rw [split,required_other _ _ valid.ne,required_state _ _ older,p.forked_old h valid]

theorem split_new {h : Handle} (f : Formula) (valid : h < p.states.size) :
    (p.split h f).state p.states.size = ((p.forked h).state p.states.size).require (.not f) := by
  rw [split,required_state _ _ (by simp),required_other _ _ valid.ne']

@[simp] theorem renewed_size (name : String) : (p.renewed h name).states.size = p.states.size :=
  p.change_size h _
@[simp] theorem renewed_symbols (name : String) : (p.renewed h name).symbols = p.symbols + 1 := rfl

theorem renewed_state {h : Handle} (name : String) (valid : h < p.states.size) :
    (p.renewed h name).state h = (p.state h).bind name ⟨name,p.symbols⟩ :=
  p.change_state _ valid

@[simp] theorem renewed_other {h k : Handle} (name : String) (apart : k ≠ h) :
    (p.renewed h name).state k = p.state k :=
  p.change_other _ apart

@[simp] theorem assigned_size (name : String) (t : Term) : (p.assigned h name t).states.size = p.states.size := by
  simp [assigned]

theorem assigned_state {h : Handle} (name : String) (t : Term) (valid : h < p.states.size) :
    (p.assigned h name t).state h =
      ((p.state h).bind name ⟨name,p.symbols⟩).require (.compare .eq (.sym ⟨name,p.symbols⟩) t) := by
  rw [assigned,required_state _ _ (by simpa using valid),renewed_state _ _ valid]

end Forked

/-- States and symbols are only added, and no state that was there changes unless it is `owned`. -/
structure Grows (owned : Set Handle) (p q : Pool) : Prop where
  size : p.states.size ≤ q.states.size
  symbols : p.symbols ≤ q.symbols
  others : ∀ k < p.states.size, k ∉ owned → q.state k = p.state k

namespace Grows

theorem refl (owned : Set Handle) (p : Pool) : Grows owned p p := ⟨le_rfl,le_rfl,fun _ _ _ => rfl⟩

/-- The second growth may also touch states that the first one added. -/
theorem trans {owned later : Set Handle} {p q r : Pool} (first : Grows owned p q) (second : Grows later q r)
    (within : ∀ k ∈ later, k < p.states.size → k ∈ owned) : Grows owned p r := by
  refine ⟨first.size.trans second.size,first.symbols.trans second.symbols,fun k old free => ?_⟩
  have untouched : k ∉ later := fun member => free (within k member old)
  rw [second.others k (old.trans_le first.size) untouched,first.others k old free]

theorem trans_same {owned : Set Handle} {p q r : Pool} (first : Grows owned p q) (second : Grows owned q r) :
    Grows owned p r :=
  first.trans second fun _ member _ => member

theorem widen {owned more : Set Handle} {p q : Pool} (grows : Grows owned p q) (within : owned ⊆ more) :
    Grows more p q :=
  ⟨grows.size,grows.symbols,fun k old free => grows.others k old fun member => free (within member)⟩

theorem forked (p : Pool) (h : Handle) : Grows ∅ p (p.forked h) :=
  ⟨by simp,le_rfl,fun _ old _ => p.forked_old h old⟩

/-- Whatever becomes of a state and of a fork of it, of the states that were there only the forked one changes. -/
theorem of_forked {p q : Pool} {h : Handle} (grows : Grows ({h} ∪ {p.states.size}) (p.forked h) q) :
    Grows {h} p q := by
  refine ((forked p h).widen (Set.empty_subset _)).trans grows ?_
  rintro k (same | new) old
  · exact same
  · exact absurd (new ▸ old) (lt_irrefl _)

theorem required (p : Pool) (h : Handle) (f : Formula) : Grows {h} p (p.required h f) :=
  ⟨by simp,le_rfl,fun _ _ apart => p.required_other f apart⟩

theorem split_parts (p : Pool) (h : Handle) (f : Formula) :
    Grows ({h} ∪ {p.states.size}) (p.forked h) (p.split h f) :=
  ((required _ h f).widen Set.subset_union_left).trans_same
    ((required _ p.states.size (.not f)).widen Set.subset_union_right)

theorem split (p : Pool) (h : Handle) (f : Formula) : Grows {h} p (p.split h f) :=
  (split_parts p h f).of_forked

theorem marked (p : Pool) (h : Handle) : Grows {h} p (p.marked h) :=
  ⟨by simp [Pool.marked],le_rfl,fun _ _ apart => p.change_other _ apart⟩

theorem renewed (p : Pool) (h : Handle) (name : String) : Grows {h} p (p.renewed h name) :=
  ⟨by simp,by simp,fun _ _ apart => p.renewed_other name apart⟩

theorem assigned (p : Pool) (h : Handle) (name : String) (t : Term) : Grows {h} p (p.assigned h name t) :=
  (renewed p h name).trans_same (.required _ h _)

theorem havocked (p : Pool) (h : Handle) (names : List String) : Grows {h} p (p.havocked h names) := by
  induction names generalizing p with
  | nil => exact .refl _ p
  | cons name names ih => exact (renewed p h name).trans_same (ih _)

theorem printed (p : Pool) (text : String) : Grows ∅ p (p.printed text) :=
  ⟨le_rfl,le_rfl,fun _ _ _ => rfl⟩

end Grows

end Pool

namespace Explore

section Equations

variable (p : Pool) (h : Handle) (joining : Joining) (solver : Solver)

theorem fork_apply : fork h p = .ok p.states.size (p.forked h) := rfl
theorem require_apply (f : Formula) : require h f p = .ok () (p.required h f) := rfl
theorem markFailed_apply : markFailed h p = .ok () (p.marked h) := rfl
theorem print_apply (text : String) : print text p = .ok () (p.printed text) := rfl
theorem isEmpty_apply : isEmpty solver h p = .ok (solver.unsat (p.state h).path) p := rfl
theorem printState_apply : printState h p = .ok () (p.printed ((p.state h).text ++ "\n")) := rfl

theorem formula_apply (e : Expr) :
    formula joining h e p = match p.formula joining h e with
      | .ok f => .ok f p
      | .error fault => .error fault p := by
  change (ofExcept (Meaning.of joining (p.state h).env e) >>= fun m => ofExcept m.toFormula) p = _
  unfold Pool.formula
  cases Meaning.of joining (p.state h).env e with
  | error fault => rfl
  | ok m => cases m <;> rfl

theorem assign_apply (name : String) (rhs : Expr) :
    assign joining h name rhs p = match p.term joining h rhs with
      | .ok t => .ok () (p.assigned h name t)
      | .error fault => .error fault p := by
  change ((ofExcept (Meaning.of joining (p.state h).env rhs) >>= fun m => ofExcept m.toTerm) >>= fun t => do
    let s ← renew h name
    require h (.compare .eq (.sym s) t)) p = _
  unfold Pool.term
  cases Meaning.of joining (p.state h).env rhs with
  | error fault => rfl
  | ok m => cases m <;> rfl

theorem havoc_apply (names : List String) : havoc h names p = .ok () (p.havocked h names) := by
  induction names generalizing p with
  | nil => rfl
  | cons name names ih => exact ih (p.renewed h name)

end Equations

section After

variable {α β : Type}

/-- The pool after an action, whether or not it failed. -/
def after (action : Explore α) (p : Pool) : Pool :=
  match action p with
  | .ok _ q => q
  | .error _ q => q

theorem after_ok {action : Explore α} {p q : Pool} {a : α} (ok : action p = .ok a q) : after action p = q := by
  simp only [after,ok]

theorem after_error {action : Explore α} {p q : Pool} {fault : Fault} (failed : action p = .error fault q) :
    after action p = q := by
  simp only [after,failed]

theorem after_bind_ok {action : Explore α} (next : α → Explore β) {p q : Pool} {a : α}
    (ok : action p = .ok a q) : after (action >>= next) p = after (next a) q := by
  simp only [after,bind,EStateM.bind,ok]

theorem after_bind_error {action : Explore α} (next : α → Explore β) {p q : Pool} {fault : Fault}
    (failed : action p = .error fault q) : after (action >>= next) p = q := by
  simp only [after,bind,EStateM.bind,failed]

theorem after_bind {action : Explore α} {next : α → Explore β} {owned : Set Handle} {p : Pool}
    (first : p.Grows owned (after action p))
    (second : ∀ a q, action p = .ok a q → q.Grows owned (after (next a) q)) :
    p.Grows owned (after (action >>= next) p) := by
  cases done : action p with
  | ok a q =>
    rw [after_ok done] at first
    rw [after_bind_ok next done]
    exact first.trans_same (second a q done)
  | error fault q =>
    rw [after_error done] at first
    rw [after_bind_error next done]
    exact first

theorem bind_ok {action : Explore α} {next : α → Explore β} {p q : Pool} {b : β}
    (ok : (action >>= next) p = .ok b q) : ∃ a r, action p = .ok a r ∧ next a r = .ok b q := by
  change action.bind next p = _ at ok
  unfold EStateM.bind at ok
  split at ok
  · exact ⟨_,_,‹_›,ok⟩
  · contradiction

theorem formula_ok {joining : Joining} {h : Handle} {e : Expr} {p q : Pool} {f : Formula}
    (ok : formula joining h e p = .ok f q) : p.formula joining h e = .ok f ∧ q = p := by
  rw [formula_apply] at ok
  cases known : p.formula joining h e with
  | error fault => rw [known] at ok; contradiction
  | ok g => rw [known] at ok; cases ok; exact ⟨rfl,rfl⟩

theorem ofExcept_after (x : Except Fault α) (p : Pool) : after (ofExcept x) p = p := by
  cases x <;> rfl

theorem printWritten_after (w : Written) (p : Pool) : p.Grows ∅ (after (printWritten w) p) := by
  apply after_bind
  · rw [ofExcept_after]; exact .refl _ p
  · intro text q _
    exact .printed q text

end After

end Explore

end WhileExec.Symbolic
