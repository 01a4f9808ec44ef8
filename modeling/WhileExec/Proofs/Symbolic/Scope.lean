import Mathlib
import WhileExec.Proofs.Symbolic.Valuation

/-!
# Scopes

A symbol is in scope if it has been made, that is, if its number is below the number of symbols made so far. What
is in scope keeps its value when an interpretation is changed on symbols yet to be made; this is why a new symbol
can be given any integer.

`State.Allows` says that a state stands for a store by a given interpretation.
-/

namespace WhileExec.Symbolic

open Interpretation (Agrees)

abbrev Term.Mentions (s : Symbol) (t : Term) : Prop := s ∈ t.symbols

abbrev Formula.Mentions (s : Symbol) (f : Formula) : Prop := s ∈ f.symbols

theorem Term.bound_le {n : Nat} (t : Term) : t.bound ≤ n ↔ ∀ s ∈ t.symbols, s.index < n := by
  induction t with
  | lit k => simp [bound,symbols]
  | sym s => simp [bound,symbols]
  | add a b left right | sub a b left right | mul a b left right | div a b left right =>
    simp only [bound,symbols,List.mem_append,max_le_iff,left,right,or_imp,forall_and]

mutual

theorem Formula.bound_le {n : Nat} : (f : Formula) → (f.bound ≤ n ↔ ∀ s ∈ f.symbols, s.index < n)
  | .bool _ => by simp [bound,symbols]
  | .rel _ a b => by simp only [bound,symbols,List.mem_append,max_le_iff,a.bound_le,b.bound_le,or_imp,forall_and]
  | .not f => bound_le f
  | .and fs => boundAll_mentions fs
  | .or fs => boundAll_mentions fs

theorem Formula.boundAll_mentions {n : Nat} :
    (fs : List Formula) → (Formula.boundAll fs ≤ n ↔ ∀ s ∈ Formula.symbolsAll fs, s.index < n)
  | [] => by simp [boundAll,symbolsAll]
  | f :: fs => by
    simp only [boundAll,symbolsAll,List.mem_append,max_le_iff,bound_le f,boundAll_mentions fs,or_imp,forall_and]

end

theorem Term.eval_same {i j : Interpretation} (byZero : j.byZero = i.byZero) (t : Term)
    (same : ∀ s ∈ t.symbols, j.symbol s = i.symbol s) : t.eval j = t.eval i := by
  induction t with
  | lit k => rfl
  | sym s => exact same s (by simp [symbols])
  | add a b left right | sub a b left right | mul a b left right | div a b left right =>
    simp only [symbols,List.mem_append,or_imp,forall_and] at same
    simp only [eval,left same.1,right same.2,byZero]

mutual

theorem Formula.eval_same {i j : Interpretation} (byZero : j.byZero = i.byZero) :
    (f : Formula) → (∀ s ∈ f.symbols, j.symbol s = i.symbol s) → f.eval j = f.eval i
  | .bool b, _ => rfl
  | .rel r a b, same => by
    simp only [symbols,List.mem_append,or_imp,forall_and] at same
    simp only [eval,a.eval_same byZero same.1,b.eval_same byZero same.2]
  | .not f, same => by simp only [eval,eval_same byZero f same]
  | .and fs, same => evalAll_same byZero fs same
  | .or fs, same => evalAny_same byZero fs same

theorem Formula.evalAll_same {i j : Interpretation} (byZero : j.byZero = i.byZero) :
    (fs : List Formula) → (∀ s ∈ Formula.symbolsAll fs, j.symbol s = i.symbol s) →
      Formula.evalAll j fs = Formula.evalAll i fs
  | [], _ => rfl
  | f :: fs, same => by
    simp only [symbolsAll,List.mem_append,or_imp,forall_and] at same
    simp only [evalAll,eval_same byZero f same.1,evalAll_same byZero fs same.2]

theorem Formula.evalAny_same {i j : Interpretation} (byZero : j.byZero = i.byZero) :
    (fs : List Formula) → (∀ s ∈ Formula.symbolsAll fs, j.symbol s = i.symbol s) →
      Formula.evalAny j fs = Formula.evalAny i fs
  | [], _ => rfl
  | f :: fs, same => by
    simp only [symbolsAll,List.mem_append,or_imp,forall_and] at same
    simp only [evalAny,eval_same byZero f same.1,evalAny_same byZero fs same.2]

end

theorem Term.eval_congr {n : Nat} {i j : Interpretation} (agree : Agrees n i j) (t : Term) (inScope : t.bound ≤ n) :
    t.eval j = t.eval i :=
  t.eval_same agree.byZero fun s inside => agree.symbol s (t.bound_le.mp inScope s inside)

theorem Formula.eval_congr {n : Nat} {i j : Interpretation} (agree : Agrees n i j) (f : Formula)
    (inScope : f.bound ≤ n) : f.eval j = f.eval i :=
  f.eval_same agree.byZero fun s inside => agree.symbol s (f.bound_le.mp inScope s inside)

theorem Formula.boundAll_le {n : Nat} {fs : List Formula} : boundAll fs ≤ n ↔ ∀ f ∈ fs, f.bound ≤ n := by
  induction fs with
  | nil => simp [boundAll]
  | cons f fs ih => simp [boundAll,ih]

theorem Term.foldl_bound {n : Nat} {op : Term → Term → Term} (binary : ∀ a b, (op a b).bound = max a.bound b.bound)
    (t : Term) (ts : List Term) (first : t.bound ≤ n) (rest : ∀ u ∈ ts, u.bound ≤ n) :
    (ts.foldl op t).bound ≤ n := by
  induction ts generalizing t with
  | nil => exact first
  | cons u us ih =>
    refine ih (op t u) ?_ fun w member => rest w (by simp [member])
    rw [binary]
    exact max_le first (rest u (by simp))

theorem Formula.foldl_bound {n : Nat} {op : Formula → Formula → Formula}
    (binary : ∀ f g, (op f g).bound = max f.bound g.bound)
    (f : Formula) (fs : List Formula) (first : f.bound ≤ n) (rest : ∀ g ∈ fs, g.bound ≤ n) :
    (fs.foldl op f).bound ≤ n := by
  induction fs generalizing f with
  | nil => exact first
  | cons g gs ih =>
    refine ih (op f g) ?_ fun w member => rest w (by simp [member])
    rw [binary]
    exact max_le first (rest g (by simp))

theorem Formula.compare_bound (r : Relation) (a b : Term) :
    (Formula.compare r a b).bound = max a.bound b.bound := by
  unfold Formula.compare
  split
  · simp [bound,max_comm]
  · rfl

namespace Meaning

def bound : Meaning → Nat
  | .term t => t.bound
  | .formula f => f.bound

theorem toTerm_bound {n : Nat} {m : Meaning} {t : Term} (inScope : m.bound ≤ n) (known : m.toTerm = .ok t) :
    t.bound ≤ n := by
  cases m <;> cases known
  exact inScope

theorem toFormula_bound {n : Nat} {m : Meaning} {f : Formula} (inScope : m.bound ≤ n)
    (known : m.toFormula = .ok f) : f.bound ≤ n := by
  cases m <;> cases known
  exact inScope

theorem mapM_bound {α : Type} {n : Nat} {size : α → Nat} {convert : Meaning → Except Fault α}
    (each : ∀ m a, m.bound ≤ n → convert m = .ok a → size a ≤ n) {ms : List Meaning} {results : List α}
    (inScope : ∀ m ∈ ms, m.bound ≤ n) (known : ms.mapM convert = .ok results) : ∀ a ∈ results, size a ≤ n := by
  induction ms generalizing results with
  | nil => cases known; simp
  | cons m ms ih =>
    rw [List.mapM_cons] at known
    obtain ⟨a,first,known⟩ := bind_ok known
    obtain ⟨rest,others,known⟩ := bind_ok known
    cases known
    intro b member
    rcases List.mem_cons.mp member with rfl | member
    · exact each m _ (inScope m (by simp)) first
    · exact ih (fun m member => inScope m (by simp [member])) others b member

theorem fold_bound {n : Nat} {op : Term → Term → Term} (binary : ∀ a b, (op a b).bound = max a.bound b.bound)
    {ms : List Meaning} {m : Meaning} (inScope : ∀ m ∈ ms, m.bound ≤ n) (known : fold op ms = .ok m) :
    m.bound ≤ n := by
  match ms with
  | [] => contradiction
  | [m] => cases known; exact inScope _ (by simp)
  | m :: m' :: ms =>
    obtain ⟨ts,others,known⟩ := bind_ok known
    obtain ⟨t,first,known⟩ := bind_ok known
    cases known
    exact Term.foldl_bound binary t ts (toTerm_bound (inScope m (by simp)) first)
      (mapM_bound (fun _ _ => toTerm_bound) (fun m member => inScope m (List.mem_cons_of_mem _ member)) others)

theorem apply_bound {n : Nat} {joining : Joining} {form : Form} {op : String} {ms : List Meaning} {m : Meaning}
    (inScope : ∀ m ∈ ms, m.bound ≤ n) (known : apply joining form op ms = .ok m) : m.bound ≤ n := by
  cases form with
  | plain => contradiction
  | arith =>
    change arithmetic op ms = _ at known
    unfold arithmetic at known
    split at known
    · exact fold_bound (fun _ _ => rfl) inScope known
    · exact fold_bound (fun _ _ => rfl) inScope known
    · exact fold_bound (fun _ _ => rfl) inScope known
    · exact fold_bound (fun _ _ => rfl) inScope known
    · contradiction
  | compare =>
    change comparison op ms = _ at known
    rcases ms with _ | ⟨a,_ | ⟨b,ms⟩⟩
    · contradiction
    · contradiction
    · simp only [comparison] at known
      cases named : Relation.ofText? op with
      | none => rw [named] at known; contradiction
      | some r =>
        rw [named] at known
        obtain ⟨t,left,known⟩ := bind_ok known
        obtain ⟨u,right,known⟩ := bind_ok known
        cases known
        change (Formula.compare r t u).bound ≤ n
        rw [Formula.compare_bound]
        exact max_le (toTerm_bound (inScope a (by simp)) left) (toTerm_bound (inScope b (by simp)) right)
  | logic =>
    change connective joining op ms = _ at known
    unfold connective at known
    split at known
    · rcases ms with _ | ⟨m,_ | ⟨_,_⟩⟩
      · contradiction
      · obtain ⟨f,operand,known⟩ := bind_ok known
        cases known
        change f.bound ≤ n
        exact toFormula_bound (inScope m (by simp)) operand
      · contradiction
    · obtain ⟨fs,operands,known⟩ := bind_ok known
      cases known
      have each := mapM_bound (fun _ _ => toFormula_bound) inScope operands
      cases joining with
      | flat => exact Formula.boundAll_le.mpr each
      | nested =>
        exact Formula.foldl_bound (fun f g => by simp [Formula.bound,Formula.boundAll]) _ fs (Nat.zero_le n) each
    · obtain ⟨fs,operands,known⟩ := bind_ok known
      cases known
      have each := mapM_bound (fun _ _ => toFormula_bound) inScope operands
      cases joining with
      | flat => exact Formula.boundAll_le.mpr each
      | nested =>
        exact Formula.foldl_bound (fun f g => by simp [Formula.bound,Formula.boundAll]) _ fs (Nat.zero_le n) each
    · contradiction

theorem ofAll_bound {n : Nat} {joining : Joining} {env : Env Symbol} {es : List Expr} {ms : List Meaning}
    (each : ∀ e ∈ es, ∀ m, of joining env e = .ok m → m.bound ≤ n) (known : ofAll joining env es = .ok ms) :
    ∀ m ∈ ms, m.bound ≤ n := by
  induction es generalizing ms with
  | nil => cases known; simp
  | cons e es ih =>
    obtain ⟨m,first,known⟩ := bind_ok known
    obtain ⟨rest,others,known⟩ := bind_ok known
    cases known
    intro m' member
    rcases List.mem_cons.mp member with rfl | member
    · exact each e (by simp) _ first
    · exact ih (fun e member => each e (by simp [member])) others m' member

theorem of_bound {n : Nat} {joining : Joining} {env : Env Symbol} {e : Expr} {m : Meaning}
    (inScope : ∀ (name : String) s, env[name]? = some s → s.index < n) (known : of joining env e = .ok m) :
    m.bound ≤ n := by
  induction e using Expr.structural generalizing m with
  | int k => cases known; exact Nat.zero_le n
  | truth v => cases known; exact Nat.zero_le n
  | var name =>
    simp only [of] at known
    cases bound : env[name]? with
    | none => rw [bound] at known; contradiction
    | some s => rw [bound] at known; cases known; exact inScope name s bound
  | app form op args ih =>
    cases form with
    | plain => contradiction
    | logic | arith | compare =>
      obtain ⟨ms,operands,known⟩ := bind_ok known
      exact apply_bound (ofAll_bound (fun e member m known => ih e member known) operands) known

end Meaning

/-- All symbols of the state have numbers below `n`. -/
structure State.Scoped (n : Nat) (s : State) : Prop where
  env : ∀ (name : String) symbol, s.env[name]? = some symbol → symbol.index < n
  path : ∀ f ∈ s.path, f.bound ≤ n

/-- The interpretation satisfies the path, and makes the store of the bindings. -/
structure State.Allows (s : State) (i : Interpretation) (store : Store) : Prop where
  path : s.path.holds i = true
  store : store.Equiv (i.store s.env)

namespace State

theorem Scoped.mono {m n : Nat} {s : State} (inScope : s.Scoped m) (le : m ≤ n) : s.Scoped n :=
  ⟨fun name symbol bound => (inScope.env name symbol bound).trans_le le,
    fun f member => (inScope.path f member).trans le⟩

/-- The path after one more condition was met. -/
def require (s : State) (f : Formula) : State :=
  { s with path := s.path ++ [f] }

def bind (s : State) (name : String) (symbol : Symbol) : State :=
  { s with env := s.env.insert name symbol }

theorem Scoped.require {n : Nat} {s : State} (inScope : s.Scoped n) {f : Formula} (bound : f.bound ≤ n) :
    (s.require f).Scoped n := by
  refine ⟨inScope.env,fun g member => ?_⟩
  rcases List.mem_append.mp member with member | member
  · exact inScope.path g member
  · rw [List.mem_singleton.mp member]; exact bound

theorem Scoped.bind {n : Nat} {s : State} (inScope : s.Scoped n) (name : String) {symbol : Symbol}
    (new : symbol.index < n) : (s.bind name symbol).Scoped n := by
  refine ⟨fun other t bound => ?_,inScope.path⟩
  simp only [State.bind,Std.TreeMap.getElem?_insert] at bound
  split at bound
  · cases bound; exact new
  · exact inScope.env other t bound

theorem require_holds {s : State} {i : Interpretation} {f : Formula} :
    (s.require f).path.holds i = true ↔ s.path.holds i = true ∧ f.eval i = true := by
  simp [State.require,Path.holds]

theorem Allows.require {s : State} {i : Interpretation} {store : Store} (allows : s.Allows i store) {f : Formula}
    (holds : f.eval i = true) : (s.require f).Allows i store :=
  ⟨require_holds.mpr ⟨allows.path,holds⟩,allows.store⟩

/-- What a state in scope allows does not depend on symbols yet to be made. -/
theorem Allows.congr {n : Nat} {s : State} {i j : Interpretation} {store : Store} (allows : s.Allows i store)
    (inScope : s.Scoped n) (agree : Agrees n i j) : s.Allows j store := by
  refine ⟨?_,allows.store.trans (Interpretation.store_congr fun name t bound => ?_)⟩
  · have holds := allows.path
    simp only [Path.holds,List.all_eq_true] at holds ⊢
    intro f member
    rw [f.eval_congr agree (inScope.path f member)]
    exact holds f member
  · exact agree.symbol t (inScope.env name t bound)

theorem Allows.bind {s : State} {i : Interpretation} {store : Store} (allows : s.Allows i store)
    (name : String) (symbol : Symbol) :
    (s.bind name symbol).Allows i (store.insert name (.int (i.symbol symbol))) :=
  ⟨allows.path,(allows.store.insert _ _).trans (i.store_insert s.env name symbol)⟩

end State

end WhileExec.Symbolic
