import Mathlib
import WhileExec.Proofs.Definedness
import WhileExec.Proofs.Symbolic.Changes

/-!
# Bound variables of symbolic states

An expression fails for want of a variable only if the variable occurs in it and the state has no symbol for it. No
action on a pool takes a binding away, so what a state binds its successors bind as well.
-/

namespace WhileExec

/-- The fault is not that a variable has no value. -/
def Fault.Bound (fault : Fault) : Prop :=
  ∀ name, fault ≠ .unbound name

/-- What is defined at one point, and what is used undefined on the way from there to another, is among the names. -/
structure Fact.Granted (before after : Fact) (names : Set String) : Prop where
  defs : ∀ name ∈ before.defs, name ∈ names
  undefs : ∀ name ∈ after.undefs, name ∈ names

namespace Fact.Granted

variable {f g f' g' : Fact} {names more : Set String}

theorem narrow (granted : Granted f g names) (same : f'.defs = f.defs) (within : ∀ name ∈ g'.undefs, name ∈ g.undefs) :
    Granted f' g' names :=
  ⟨fun name known => granted.defs name (same ▸ known),fun name used => granted.undefs name (within name used)⟩

theorem reads {e : Expr} (granted : Granted f (e.fact f) names) {name : String} (occurs : e.reads name = true) :
    name ∈ names := by
  by_cases known : name ∈ f.defs
  · exact granted.defs name known
  · exact granted.undefs name ((e.mem_fact_undefs f).mpr (.inr ⟨occurs,known⟩))

end Fact.Granted

namespace Symbolic

namespace Meaning

theorem bind_error {α β : Type} {x : Except Fault α} {next : α → Except Fault β} {fault : Fault}
    (failed : (x >>= next) = .error fault) : x = .error fault ∨ ∃ a, x = .ok a ∧ next a = .error fault := by
  cases x with
  | error cause =>
    cases failed
    exact .inl rfl
  | ok a => exact .inr ⟨a,rfl,failed⟩

theorem toTerm_error {m : Meaning} {fault : Fault} (failed : m.toTerm = .error fault) : fault.Bound := by
  intro name
  rintro rfl
  cases m <;> cases failed

theorem toFormula_error {m : Meaning} {fault : Fault} (failed : m.toFormula = .error fault) : fault.Bound := by
  intro name
  rintro rfl
  cases m <;> cases failed

theorem mapM_error {α : Type} {convert : Meaning → Except Fault α}
    (each : ∀ m fault, convert m = .error fault → fault.Bound) {ms : List Meaning} {fault : Fault}
    (failed : ms.mapM convert = .error fault) : fault.Bound := by
  induction ms with
  | nil => cases failed
  | cons m ms ih =>
    rw [List.mapM_cons] at failed
    rcases bind_error failed with first | ⟨a,-,rest⟩
    · exact each m fault first
    · rcases bind_error rest with others | ⟨as,-,none⟩
      · exact ih others
      · cases none

theorem connective_error {joining : Joining} {op : String} {ms : List Meaning} {fault : Fault}
    (failed : connective joining op ms = .error fault) : fault.Bound := by
  unfold connective at failed
  split at failed
  · split at failed
    · rcases bind_error failed with inner | ⟨f,-,none⟩
      · exact toFormula_error inner
      · cases none
    · cases failed
      simp [Fault.Bound]
  · rcases bind_error failed with inner | ⟨fs,-,none⟩
    · exact mapM_error (fun _ _ => toFormula_error) inner
    · cases none
  · rcases bind_error failed with inner | ⟨fs,-,none⟩
    · exact mapM_error (fun _ _ => toFormula_error) inner
    · cases none
  · cases failed
    simp [Fault.Bound]

theorem fold_error {op : Term → Term → Term} {ms : List Meaning} {fault : Fault}
    (failed : fold op ms = .error fault) : fault.Bound := by
  rcases ms with _ | ⟨m,_ | ⟨n,ms⟩⟩
  · cases failed
    simp [Fault.Bound]
  · cases failed
  · rcases bind_error failed with inner | ⟨ts,-,failed⟩
    · exact mapM_error (fun _ _ => toTerm_error) inner
    · rcases bind_error failed with inner | ⟨t,-,none⟩
      · exact toTerm_error inner
      · cases none

theorem arithmetic_error {op : String} {ms : List Meaning} {fault : Fault}
    (failed : arithmetic op ms = .error fault) : fault.Bound := by
  unfold arithmetic at failed
  split at failed
  case h_5 =>
    cases failed
    simp [Fault.Bound]
  all_goals exact fold_error failed

theorem comparison_error {op : String} {ms : List Meaning} {fault : Fault}
    (failed : comparison op ms = .error fault) : fault.Bound := by
  rcases ms with _ | ⟨m,_ | ⟨n,ms⟩⟩
  · cases failed
    simp [Fault.Bound]
  · cases failed
    simp [Fault.Bound]
  · simp only [comparison] at failed
    split at failed
    · rcases bind_error failed with inner | ⟨t,-,failed⟩
      · exact toTerm_error inner
      · rcases bind_error failed with inner | ⟨u,-,none⟩
        · exact toTerm_error inner
        · cases none
    · cases failed
      simp [Fault.Bound]

theorem apply_error {joining : Joining} {form : Form} {op : String} {ms : List Meaning} {fault : Fault}
    (failed : apply joining form op ms = .error fault) : fault.Bound := by
  cases form with
  | plain =>
    cases failed
    simp [Fault.Bound]
  | logic => exact connective_error failed
  | arith => exact arithmetic_error failed
  | compare => exact comparison_error failed

variable {joining : Joining} {env : Env Symbol} {name : String}

theorem ofAll_unbound {es : List Expr}
    (each : ∀ e ∈ es, of joining env e = .error (.unbound name) → e.reads name = true ∧ name ∉ env)
    (failed : ofAll joining env es = .error (.unbound name)) : Expr.someReads name es = true ∧ name ∉ env := by
  induction es with
  | nil => cases failed
  | cons e es ih =>
    rcases bind_error failed with first | ⟨m,-,failed⟩
    · obtain ⟨occurs,missing⟩ := each e (by simp) first
      exact ⟨by simp [Expr.someReads,occurs],missing⟩
    · rcases bind_error failed with rest | ⟨ms,-,none⟩
      · obtain ⟨occurs,missing⟩ := ih (fun e member => each e (by simp [member])) rest
        exact ⟨by simp [Expr.someReads,occurs],missing⟩
      · cases none

theorem of_unbound (e : Expr) (failed : of joining env e = .error (.unbound name)) :
    e.reads name = true ∧ name ∉ env := by
  induction e using Expr.structural with
  | int n => cases failed
  | truth v => cases failed
  | var x =>
    simp only [of] at failed
    cases found : env[x]? with
    | some s =>
      rw [found] at failed
      cases failed
    | none =>
      rw [found] at failed
      cases failed
      exact ⟨by simp [Expr.reads],by simpa using found⟩
  | app form op args ih =>
    cases form with
    | plain => cases failed
    | logic | arith | compare =>
      rcases bind_error failed with operands | ⟨ms,-,applied⟩
      · exact ofAll_unbound ih operands
      · exact absurd rfl (apply_error applied name)

end Meaning

/-- The state is in the pool and binds the names. -/
structure Pool.Binds (p : Pool) (names : Set String) (h : Handle) : Prop where
  valid : h < p.states.size
  env : ∀ name ∈ names, name ∈ (p.state h).env

namespace Pool.Binds

variable {p q : Pool} {names more : Set String} {h : Handle} {joining : Joining} {e : Expr} {fault : Fault}

theorem mono (binds : p.Binds more h) (within : names ⊆ more) : p.Binds names h :=
  ⟨binds.valid,fun name member => binds.env name (within member)⟩

theorem meaning (binds : p.Binds names h) (reads : ∀ name, e.reads name = true → name ∈ names)
    (failed : Meaning.of joining (p.state h).env e = .error fault) : fault.Bound := by
  intro name
  rintro rfl
  obtain ⟨occurs,missing⟩ := Meaning.of_unbound e failed
  exact missing (binds.env name (reads name occurs))

theorem formula (binds : p.Binds names h) (reads : ∀ name, e.reads name = true → name ∈ names)
    (failed : p.formula joining h e = .error fault) : fault.Bound := by
  rcases Meaning.bind_error failed with failed | ⟨m,-,failed⟩
  · exact binds.meaning reads failed
  · exact Meaning.toFormula_error failed

theorem term (binds : p.Binds names h) (reads : ∀ name, e.reads name = true → name ∈ names)
    (failed : p.term joining h e = .error fault) : fault.Bound := by
  rcases Meaning.bind_error failed with failed | ⟨m,-,failed⟩
  · exact binds.meaning reads failed
  · exact Meaning.toTerm_error failed

/-- Only the variables that a state binds matter, not which symbols they stand for. -/
theorem of_env {k : Handle} (binds : p.Binds names h) (valid : k < q.states.size)
    (same : (q.state k).env = (p.state h).env) : q.Binds names k :=
  ⟨valid,fun name member => same ▸ binds.env name member⟩

theorem grows {owned : Set Handle} (binds : p.Binds names h) (grown : p.Grows owned q) (apart : h ∉ owned) :
    q.Binds names h :=
  binds.of_env (binds.valid.trans_le grown.size) (by rw [grown.others h binds.valid apart])

theorem forked (binds : p.Binds names h) : (p.forked h).Binds names p.states.size :=
  binds.of_env (by simp) (by simp)

theorem required (binds : p.Binds names h) (f : Formula) : (p.required h f).Binds names h :=
  binds.of_env (by simpa using binds.valid) (by rw [p.required_state f binds.valid]; rfl)

theorem split (binds : p.Binds names h) (f : Formula) : (p.split h f).Binds names h :=
  binds.of_env (p.lt_split f binds.valid) (by rw [p.split_state f binds.valid]; rfl)

theorem split_new (binds : p.Binds names h) (f : Formula) : (p.split h f).Binds names p.states.size :=
  binds.of_env (by simp) (by rw [p.split_new f binds.valid,p.forked_new h]; rfl)

theorem renewed (binds : p.Binds names h) (name : String) : (p.renewed h name).Binds (insert name names) h := by
  refine ⟨by simpa using binds.valid,?_⟩
  rw [p.renewed_state name binds.valid]
  rintro x (rfl | member)
  · exact Std.TreeMap.mem_insert_self
  · exact Std.TreeMap.mem_insert.mpr (.inr (binds.env x member))

theorem assigned (binds : p.Binds names h) (name : String) (t : Term) :
    (p.assigned h name t).Binds (insert name names) h :=
  (binds.renewed name).required _

theorem havocked (binds : p.Binds names h) (chosen : List String) :
    (p.havocked h chosen).Binds (names ∪ {x | chosen.contains x = true}) h := by
  induction chosen generalizing p names with
  | nil => exact binds.mono (by simp)
  | cons name chosen ih =>
    refine (ih (binds.renewed name)).mono ?_
    rintro x (member | listed)
    · exact .inl (.inr member)
    · have listed : (name :: chosen).contains x = true := listed
      rw [List.contains_cons,Bool.or_eq_true,beq_iff_eq] at listed
      rcases listed with rfl | listed
      · exact .inl (.inl rfl)
      · exact .inr listed

end Pool.Binds

end Symbolic

end WhileExec
