import Mathlib
import WhileExec.Symbolic.Decision
import WhileExec.Proofs.Executions

/-!
# Interpretations and stores

An interpretation turns bindings to symbols into a store. The term or formula that a well-typed expression means
there has the value that the expression has in the store, whichever way connectives are built: `Meaning.of_term`
and `Meaning.of_condition`. Divisors are positive literals in such expressions, so that both kinds of division
round down.

Terms and formulas depend on few symbols: those with numbers below their bound.
-/

namespace WhileExec.Symbolic

namespace Interpretation

/-- The store that the bindings stand for. -/
def store (i : Interpretation) (env : Env Symbol) : Store :=
  env.map fun _ s => .int (i.symbol s)

/-- The same integers for all symbols numbered below `n`, and the same results of dividing by zero. -/
structure Agrees (n : Nat) (i j : Interpretation) : Prop where
  symbol : ∀ s : Symbol, s.index < n → j.symbol s = i.symbol s
  byZero : j.byZero = i.byZero

theorem Agrees.refl (n : Nat) (i : Interpretation) : Agrees n i i := ⟨fun _ _ => rfl,rfl⟩

theorem Agrees.trans {m n : Nat} {i j k : Interpretation} (first : Agrees m i j) (second : Agrees n j k)
    (le : m ≤ n) : Agrees m i k :=
  ⟨fun s below => (second.symbol s (by omega)).trans (first.symbol s below),second.byZero.trans first.byZero⟩

/-- Another integer for one symbol. -/
def assign (i : Interpretation) (s : Symbol) (n : Int) : Interpretation where
  symbol t := if t = s then n else i.symbol t
  byZero := i.byZero

@[simp] theorem assign_symbol (i : Interpretation) (s : Symbol) (n : Int) : (i.assign s n).symbol s = n := by
  simp [assign]

/-- A symbol numbered `n` is not among those numbered below `n`. -/
theorem agrees_assign (i : Interpretation) (s : Symbol) (n : Int) : Agrees s.index i (i.assign s n) := by
  refine ⟨fun t below => ?_,rfl⟩
  have apart : t ≠ s := by rintro rfl; omega
  simp [assign,apart]

theorem store_lookup (i : Interpretation) (env : Env Symbol) (name : String) :
    (i.store env)[name]? = env[name]?.map fun s => .int (i.symbol s) :=
  Std.TreeMap.getElem?_map

theorem store_congr {i j : Interpretation} {env : Env Symbol}
    (same : ∀ (name : String) s, env[name]? = some s → j.symbol s = i.symbol s) :
    (i.store env).Equiv (j.store env) := by
  apply Std.TreeMap.Equiv.of_forall_constGet?_eq
  intro name
  change (i.store env)[name]? = (j.store env)[name]?
  rw [store_lookup,store_lookup]
  cases bound : env[name]? with
  | none => rfl
  | some s => simp [same name s bound]

theorem store_insert (i : Interpretation) (env : Env Symbol) (name : String) (s : Symbol) :
    ((i.store env).insert name (.int (i.symbol s))).Equiv (i.store (env.insert name s)) := by
  apply Std.TreeMap.Equiv.of_forall_constGet?_eq
  intro other
  change ((i.store env).insert name (.int (i.symbol s)))[other]? = (i.store (env.insert name s))[other]?
  rw [store_lookup,Std.TreeMap.getElem?_insert,Std.TreeMap.getElem?_insert,store_lookup]
  split <;> rfl

end Interpretation

theorem Formula.compare_eval (i : Interpretation) (r : Relation) (a b : Term) :
    (Formula.compare r a b).eval i = r.holds (a.eval i) (b.eval i) := by
  unfold Formula.compare
  split
  · cases r <;> simp [Formula.eval,Relation.flip,Relation.holds,eq_comm]
  · rfl

theorem Formula.conjunction_eval (i : Interpretation) (joining : Joining) (fs : List Formula) :
    (joining.conjunction fs).eval i = fs.all (Formula.eval i) := by
  cases joining with
  | flat =>
    change Formula.evalAll i fs = _
    induction fs with
    | nil => rfl
    | cons f fs ih => simp [Formula.evalAll,ih]
  | nested =>
    have step : ∀ f : Formula, (fs.foldl (fun f g => .and [f,g]) f).eval i = (f.eval i && fs.all (Formula.eval i)) := by
      induction fs with
      | nil => simp
      | cons g fs ih => intro f; simp [ih,Formula.eval,Formula.evalAll,Bool.and_assoc]
    simpa [Joining.conjunction,Formula.eval] using step (.bool true)

theorem Formula.disjunction_eval (i : Interpretation) (joining : Joining) (fs : List Formula) :
    (joining.disjunction fs).eval i = fs.any (Formula.eval i) := by
  cases joining with
  | flat =>
    change Formula.evalAny i fs = _
    induction fs with
    | nil => rfl
    | cons f fs ih => simp [Formula.evalAny,ih]
  | nested =>
    have step : ∀ f : Formula, (fs.foldl (fun f g => .or [f,g]) f).eval i = (f.eval i || fs.any (Formula.eval i)) := by
      induction fs with
      | nil => simp
      | cons g fs ih => intro f; simp [ih,Formula.eval,Formula.evalAny,Bool.or_assoc]
    simpa [Joining.disjunction,Formula.eval] using step (.bool false)

theorem Relation.comparison {op : String} {r : Relation} (known : Relation.ofText? op = some r) (v w : Value) :
    Value.comparison op v w = .ok (.bool (r.holds v.toInt w.toInt)) := by
  unfold Relation.ofText? at known
  split at known <;> cases known <;> rfl

@[simp] theorem Value.bool_truth (b : Bool) : (Value.bool b).isTrue = b := by
  cases b <;> rfl

theorem Value.both_truth (v w : Value) : (v.both w).isTrue = (v.isTrue && w.isTrue) := by
  unfold Value.both
  cases truth : v.isTrue <;> simp [truth]

theorem Value.either_truth (v w : Value) : (v.either w).isTrue = (v.isTrue || w.isTrue) := by
  unfold Value.either
  cases truth : v.isTrue <;> simp [truth]

theorem Value.all_truth (v : Value) (vs : List Value) :
    (vs.foldl Value.both v).isTrue = (v.isTrue && vs.all Value.isTrue) := by
  induction vs generalizing v with
  | nil => simp
  | cons w vs ih => simp [ih,Value.both_truth,Bool.and_assoc]

theorem Value.any_truth (v : Value) (vs : List Value) :
    (vs.foldl Value.either v).isTrue = (v.isTrue || vs.any Value.isTrue) := by
  induction vs generalizing v with
  | nil => simp
  | cons w vs ih => simp [ih,Value.either_truth,Bool.or_assoc]

/-- The integers that terms have. -/
def Term.values (i : Interpretation) (ts : List Term) : List Value :=
  ts.map fun t => .int (t.eval i)

theorem Value.divide_eval (i : Interpretation) (t u : Term) (positive : 0 < u.eval i) :
    Value.divide (.int (t.eval i)) (.int (u.eval i)) = .ok (.int ((Term.div t u).eval i)) := by
  have nonzero : u.eval i ≠ 0 := by omega
  simp [Value.divide,Value.toInt,Term.eval,nonzero,Int.fdiv_eq_ediv_of_nonneg _ (Int.le_of_lt positive)]

namespace Meaning

theorem toTerms (ts : List Term) : (ts.map Meaning.term).mapM toTerm = .ok ts := by
  induction ts with
  | nil => rfl
  | cons t ts ih => simp [List.mapM_cons,toTerm,ih,bind,Except.bind,pure,Except.pure]

theorem toFormulas (fs : List Formula) : (fs.map Meaning.formula).mapM toFormula = .ok fs := by
  induction fs with
  | nil => rfl
  | cons f fs ih => simp [List.mapM_cons,toFormula,ih,bind,Except.bind,pure,Except.pure]

/-- Folding values with an operation gives the value of the terms folded with the operation that means it. -/
theorem fold_values (i : Interpretation) {valueOp : Value → Value → Except Fault Value}
    {termOp : Term → Term → Term} (t : Term) (ts : List Term)
    (faithful : ∀ a, ∀ u ∈ ts, valueOp (.int (a.eval i)) (.int (u.eval i)) = .ok (.int ((termOp a u).eval i))) :
    Value.fold valueOp (Term.values i (t :: ts)) = .ok (.int ((ts.foldl termOp t).eval i)) := by
  change (Term.values i ts).foldlM valueOp (.int (t.eval i)) = _
  induction ts generalizing t with
  | nil => rfl
  | cons u us ih =>
    simp only [Term.values,List.map_cons,List.foldlM_cons,faithful t u (by simp),List.foldl_cons]
    exact ih (termOp t u) fun a w member => faithful a w (by simp [member])

theorem fold_terms (termOp : Term → Term → Term) (t : Term) (ts : List Term) :
    fold termOp ((t :: ts).map .term) = .ok (.term (ts.foldl termOp t)) := by
  cases ts with
  | nil => rfl
  | cons u us =>
    change (do return Meaning.term ((← ((u :: us).map .term).mapM toTerm).foldl termOp (← toTerm (.term t))) :
      Except Fault Meaning) = _
    rw [toTerms]
    rfl

theorem arithmetic_values (i : Interpretation) (op : String) (ts : List Term) {m : Meaning}
    (positive : op = "/" → ∀ u ∈ ts.tail, 0 < u.eval i) (known : arithmetic op (ts.map .term) = .ok m) :
    ∃ t, m = .term t ∧ Value.arithmetic op (Term.values i ts) = .ok (.int (t.eval i)) := by
  cases ts with
  | nil => unfold arithmetic at known; split at known <;> contradiction
  | cons t ts =>
    unfold arithmetic at known
    split at known
    all_goals try contradiction
    all_goals
      rw [fold_terms] at known
      cases known
      refine ⟨_,rfl,?_⟩
    · exact fold_values i t ts fun _ _ _ => rfl
    · exact fold_values i t ts fun _ _ _ => rfl
    · exact fold_values i t ts fun _ _ _ => rfl
    · exact fold_values i t ts fun a u member => Value.divide_eval i a u (positive rfl u member)

theorem comparison_values (i : Interpretation) (op : String) (ts : List Term) {m : Meaning}
    (known : comparison op (ts.map .term) = .ok m) :
    ∃ f, m = .formula f ∧ ∃ v, Form.compare.apply op (Term.values i ts) = .ok v ∧ v.isTrue = f.eval i := by
  match ts with
  | [] => contradiction
  | [_] => contradiction
  | t :: u :: ts =>
    simp only [comparison,List.map_cons] at known
    cases named : Relation.ofText? op with
    | none => rw [named] at known; contradiction
    | some r =>
      rw [named] at known
      cases known
      refine ⟨_,rfl,_,Relation.comparison named _ _,?_⟩
      rw [Formula.compare_eval,Value.bool_truth]
      rfl

theorem connective_values (i : Interpretation) (joining : Joining) (op : String) (fs : List Formula)
    (vs : List Value) {m : Meaning} (same : vs.map Value.isTrue = fs.map (Formula.eval i))
    (known : connective joining op (fs.map .formula) = .ok m) :
    ∃ f, m = .formula f ∧ ∃ v, Value.connective op vs = .ok v ∧ v.isTrue = f.eval i := by
  unfold connective at known
  split at known
  · match fs with
    | [] => contradiction
    | [f] =>
      cases known
      obtain ⟨v,rfl⟩ : ∃ v, vs = [v] := by
        rw [← List.length_eq_one_iff]
        simpa using congrArg List.length same
      refine ⟨_,rfl,_,rfl,?_⟩
      have truth : v.isTrue = f.eval i := by simpa using same
      rw [Formula.eval,Value.bool_truth,truth]
    | _ :: _ :: _ => contradiction
  · rw [toFormulas] at known
    cases known
    refine ⟨_,rfl,_,rfl,?_⟩
    rw [Value.all_truth,Formula.conjunction_eval]
    have := congrArg (fun bs : List Bool => bs.all id) same
    simpa [List.all_map,Function.comp_def] using this
  · rw [toFormulas] at known
    cases known
    refine ⟨_,rfl,_,rfl,?_⟩
    rw [Value.any_truth,Formula.disjunction_eval]
    have := congrArg (fun bs : List Bool => bs.any id) same
    simpa [List.any_map,Function.comp_def] using this
  · contradiction

section Faithful

variable {joining : Joining} {env : Env Symbol} {i : Interpretation} {store : Store}

theorem bind_ok {α β : Type} {x : Except Fault α} {next : α → Except Fault β} {b : β}
    (ok : (x >>= next) = .ok b) : ∃ a, x = .ok a ∧ next a = .ok b := by
  cases x with
  | ok a => exact ⟨a,rfl,ok⟩
  | error => contradiction

theorem of_terms (i : Interpretation) (store : Store) {es : List Expr} {ms : List Meaning}
    (each : ∀ e ∈ es, ∀ m, of joining env e = .ok m →
      ∃ t, m = .term t ∧ e.eval store = .ok (.int (t.eval i)))
    (known : ofAll joining env es = .ok ms) :
    ∃ ts, ms = ts.map .term ∧ Expr.evalAll store es = .ok (Term.values i ts) := by
  induction es generalizing ms with
  | nil => cases known; exact ⟨[],rfl,rfl⟩
  | cons e es ih =>
    obtain ⟨m,first,known⟩ := bind_ok known
    obtain ⟨rest,others,known⟩ := bind_ok known
    cases known
    obtain ⟨t,rfl,value⟩ := each e (by simp) m first
    obtain ⟨ts,rfl,values⟩ := ih (fun e member => each e (by simp [member])) others
    refine ⟨t :: ts,rfl,?_⟩
    simp only [Expr.evalAll,value,values]
    rfl

/-- A positive literal means itself. -/
theorem of_positive {e : Expr} {m : Meaning} (literal : e.isPositive = true) (known : of joining env e = .ok m) :
    ∃ n, m = .term (.lit n) ∧ 0 < n := by
  cases e with
  | int n => cases known; exact ⟨n,rfl,by simpa [Expr.isPositive] using literal⟩
  | _ => simp [Expr.isPositive] at literal

theorem of_positives {es : List Expr} {ts : List Term} (literals : es.all Expr.isPositive = true)
    (known : ofAll joining env es = .ok (ts.map .term)) : ∀ u ∈ ts, 0 < u.eval i := by
  induction es generalizing ts with
  | nil =>
    have none : ts = [] := by simpa using (Except.ok.inj known).symm
    simp [none]
  | cons e es ih =>
    simp only [List.all_cons,Bool.and_eq_true] at literals
    obtain ⟨m,first,known⟩ := bind_ok known
    obtain ⟨rest,others,known⟩ := bind_ok known
    obtain ⟨n,rfl,positive⟩ := of_positive literals.1 first
    obtain ⟨u,us,rfl,head,tail⟩ := List.map_eq_cons_iff.mp (Except.ok.inj known).symm
    cases head
    subst tail
    intro w member
    rcases List.mem_cons.mp member with rfl | member
    · exact positive
    · exact ih literals.2 others w member

theorem of_term {e : Expr} {m : Meaning} (typed : e.isTerm = true) (same : store.Equiv (i.store env))
    (known : of joining env e = .ok m) : ∃ t, m = .term t ∧ e.eval store = .ok (.int (t.eval i)) := by
  induction e using Expr.structural generalizing m with
  | int n => cases known; exact ⟨.lit n,rfl,rfl⟩
  | truth v => simp [Expr.isTerm] at typed
  | var name =>
    simp only [of] at known
    simp only [Expr.eval,same.getElem?_eq,Interpretation.store_lookup]
    cases bound : env[name]? with
    | none => rw [bound] at known; contradiction
    | some s => rw [bound] at known; cases known; exact ⟨.sym s,rfl,rfl⟩
  | app form op args ih =>
    cases form with
    | arith =>
      simp only [Expr.isTerm,Bool.and_eq_true,Bool.or_eq_true,bne_iff_ne] at typed
      obtain ⟨ms,operands,known⟩ := bind_ok known
      obtain ⟨ts,rfl,values⟩ := of_terms i store (fun e member m known =>
        ih e member (Expr.areTerms_iff.mp typed.1 e member) known) operands
      have positive : op = "/" → ∀ u ∈ ts.tail, 0 < u.eval i := by
        rintro rfl
        have literals := typed.2.resolve_left (by simp)
        cases args with
        | nil => cases ts with
          | nil => simp
          | cons => contradiction
        | cons e es =>
          obtain ⟨m,first,operands⟩ := bind_ok operands
          obtain ⟨rest,others,operands⟩ := bind_ok operands
          obtain ⟨u,us,rfl,-,tail⟩ := List.map_eq_cons_iff.mp (Except.ok.inj operands).symm
          subst tail
          exact of_positives literals others
      obtain ⟨t,rfl,value⟩ := arithmetic_values i op ts positive known
      refine ⟨t,rfl,?_⟩
      simp only [Expr.eval,values]
      exact value
    | plain => simp [Expr.isTerm] at typed
    | logic => simp [Expr.isTerm] at typed
    | compare => simp [Expr.isTerm] at typed

theorem of_formulas (i : Interpretation) (store : Store) {es : List Expr} {ms : List Meaning}
    (each : ∀ e ∈ es, ∀ m, of joining env e = .ok m →
      ∃ f, m = .formula f ∧ ∃ v, e.eval store = .ok v ∧ v.isTrue = f.eval i)
    (known : ofAll joining env es = .ok ms) :
    ∃ (fs : List Formula) (vs : List Value), ms = fs.map .formula ∧ Expr.evalAll store es = .ok vs ∧
      vs.map Value.isTrue = fs.map (Formula.eval i) := by
  induction es generalizing ms with
  | nil => cases known; exact ⟨[],[],rfl,rfl,rfl⟩
  | cons e es ih =>
    obtain ⟨m,first,known⟩ := bind_ok known
    obtain ⟨rest,others,known⟩ := bind_ok known
    cases known
    obtain ⟨f,rfl,v,value,truth⟩ := each e (by simp) m first
    obtain ⟨fs,vs,rfl,values,truths⟩ := ih (fun e member => each e (by simp [member])) others
    refine ⟨f :: fs,v :: vs,rfl,?_,by simp [truth,truths]⟩
    simp only [Expr.evalAll,value,values]
    rfl

theorem of_condition {e : Expr} {m : Meaning} (typed : e.isCondition = true)
    (same : store.Equiv (i.store env)) (known : of joining env e = .ok m) :
    ∃ f, m = .formula f ∧ e.Decides store (f.eval i) := by
  induction e using Expr.structural generalizing m with
  | int n => simp [Expr.isCondition] at typed
  | truth v => cases known; exact ⟨.bool v.isTrue,rfl,v,rfl,rfl⟩
  | var name => simp [Expr.isCondition] at typed
  | app form op args ih =>
    cases form with
    | logic =>
      obtain ⟨ms,operands,known⟩ := bind_ok known
      obtain ⟨fs,vs,rfl,values,truths⟩ := of_formulas i store (fun e member m known =>
        ih e member (Expr.areConditions_iff.mp typed e member) known) operands
      obtain ⟨f,rfl,v,value,truth⟩ := connective_values i joining op fs vs truths known
      refine ⟨f,rfl,v,?_,truth⟩
      simp only [Expr.eval,values]
      exact value
    | compare =>
      obtain ⟨ms,operands,known⟩ := bind_ok known
      obtain ⟨ts,rfl,values⟩ := of_terms i store (fun e member m known =>
        of_term (Expr.areTerms_iff.mp typed e member) same known) operands
      obtain ⟨f,rfl,v,value,truth⟩ := comparison_values i op ts known
      refine ⟨f,rfl,v,?_,truth⟩
      simp only [Expr.eval,values]
      exact value
    | plain => simp [Expr.isCondition] at typed
    | arith => simp [Expr.isCondition] at typed

end Faithful

end Meaning

end WhileExec.Symbolic
