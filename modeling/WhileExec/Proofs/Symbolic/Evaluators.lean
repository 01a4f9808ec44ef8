import Mathlib
import WhileExec.Proofs.Footprints
import WhileExec.Proofs.Symbolic.Valuation

/-!
# One value, however an expression is evaluated

A well-typed expression has a value in the store that an interpretation makes of the bindings, and it has a meaning
over these bindings, however connectives are built. The meaning has that value under the interpretation as long as
the divisions agree. The interpreter rounds a quotient down, a term leaves a remainder that is not negative. For a
divisor other than zero the two differ exactly if it is negative and leaves a remainder: `divide_eval_iff`.
-/

namespace WhileExec

/-- What an expression has for a value. -/
inductive Kind where
  | integer
  | truth
  deriving DecidableEq, Repr

/-- Well-typed expressions. Arithmetic and connectives take any number of operands but none. -/
inductive Expr.Typed : Expr → Kind → Prop
  | int (n : Int) : Typed (.int n) .integer
  | var (name : String) : Typed (.var name) .integer
  | arith {op : String} {args : List Expr} (known : op ∈ ["+","-","*","/"]) (some : args ≠ [])
      (each : ∀ e ∈ args, Typed e .integer) : Typed (.app .arith op args) .integer
  | truth (b : Bool) : Typed (.truth (.bool b)) .truth
  | compare {op : String} {lhs rhs : Expr} (known : op ∈ ["<=","<","=",">=",">"]) (left : Typed lhs .integer)
      (right : Typed rhs .integer) : Typed (.app .compare op [lhs,rhs]) .truth
  | not {arg : Expr} (inner : Typed arg .truth) : Typed (.app .logic "not" [arg]) .truth
  | connective {op : String} {args : List Expr} (known : op ∈ ["and","or"]) (some : args ≠ [])
      (each : ∀ e ∈ args, Typed e .truth) : Typed (.app .logic op args) .truth

/-- Dividing by one number after the other: each dividend, as the quotients before left it, with its divisor. -/
def quotients (n : Int) : List Int → List (Int × Int)
  | [] => []
  | d :: ds => (n,d) :: quotients (n.fdiv d) ds

/-- The divisions that an operator makes. -/
def Form.divisions (form : Form) (op : String) : List Value → List (Int × Int)
  | [] => []
  | v :: vs => if form = .arith ∧ op = "/" then quotients v.toInt (vs.map Value.toInt) else []

mutual

/-- All divisions that are made when the expression is evaluated, as dividends and divisors. -/
def Expr.divisions (store : Store) : Expr → List (Int × Int)
  | .app form op args =>
    Expr.allDivisions store args ++ form.divisions op ((Expr.evalAll store args).toOption.getD [])
  | _ => []

def Expr.allDivisions (store : Store) : List Expr → List (Int × Int)
  | [] => []
  | e :: es => e.divisions store ++ Expr.allDivisions store es

end

namespace Expr

theorem someReads_of_mem {name : String} {e : Expr} {es : List Expr} (member : e ∈ es) (occurs : e.reads name = true) :
    someReads name es = true := by
  induction es with
  | nil => cases member
  | cons first es ih =>
    simp only [someReads,Bool.or_eq_true]
    rcases List.mem_cons.mp member with rfl | member
    · exact .inl occurs
    · exact .inr (ih member)

theorem mem_allDivisions {store : Store} {d : Int × Int} {e : Expr} {es : List Expr} (member : e ∈ es)
    (made : d ∈ e.divisions store) : d ∈ allDivisions store es := by
  induction es with
  | nil => cases member
  | cons first es ih =>
    simp only [allDivisions,List.mem_append]
    rcases List.mem_cons.mp member with rfl | member
    · exact .inl made
    · exact .inr (ih member)

end Expr

theorem Value.both_bools (b : Bool) (bs : List Bool) :
    (bs.map Value.bool).foldl Value.both (.bool b) = .bool (b && bs.all id) := by
  induction bs generalizing b with
  | nil => simp
  | cons c bs ih =>
    have step : Value.both (.bool b) (.bool c) = .bool (b && c) := by cases b <;> rfl
    rw [List.map_cons,List.foldl_cons,step,ih]
    simp [Bool.and_assoc]

theorem Value.either_bools (b : Bool) (bs : List Bool) :
    (bs.map Value.bool).foldl Value.either (.bool b) = .bool (b || bs.any id) := by
  induction bs generalizing b with
  | nil => simp
  | cons c bs ih =>
    have step : Value.either (.bool b) (.bool c) = .bool (b || c) := by cases b <;> rfl
    rw [List.map_cons,List.foldl_cons,step,ih]
    simp [Bool.or_assoc]

namespace Symbolic

/-- The value of a term or of a formula. -/
def Meaning.value (i : Interpretation) : Meaning → Value
  | .term t => .int (t.eval i)
  | .formula f => .bool (f.eval i)

/-- A division for which rounding down leaves no negative remainder. -/
def Whole (d : Int × Int) : Prop :=
  d.2 < 0 → d.2 ∣ d.1

theorem divide_eval_iff (i : Interpretation) (t u : Term) (nonzero : u.eval i ≠ 0) :
    Value.divide (.int (t.eval i)) (.int (u.eval i)) = .ok (.int ((Term.div t u).eval i)) ↔
      Whole (t.eval i,u.eval i) := by
  have quotient : Value.divide (.int (t.eval i)) (.int (u.eval i)) = .ok (.int ((t.eval i).fdiv (u.eval i))) := by
    simp [Value.divide,Value.toInt,nonzero]
  have euclidean : (Term.div t u).eval i = t.eval i / u.eval i := by
    simp [Term.eval,nonzero]
  rw [quotient,euclidean,Int.fdiv_eq_ediv]
  unfold Whole
  by_cases negative : u.eval i < 0
  · by_cases divides : u.eval i ∣ t.eval i
    · simp [divides]
    · simp [divides,negative]
  · simp [negative,Int.not_lt.mp negative]

/-- A chain of divisions: the dividends are those of the terms built so far. -/
theorem fold_divide (i : Interpretation) (t : Term) (ts : List Term)
    (fine : ∀ d ∈ quotients (t.eval i) (ts.map (Term.eval i)), d.2 ≠ 0 ∧ Whole d) :
    Value.fold Value.divide (Term.values i (t :: ts)) = .ok (.int ((ts.foldl .div t).eval i)) := by
  change (Term.values i ts).foldlM Value.divide (.int (t.eval i)) = _
  induction ts generalizing t with
  | nil => rfl
  | cons u us ih =>
    obtain ⟨nonzero,whole⟩ := fine (t.eval i,u.eval i) (by simp [quotients])
    have same := (divide_eval_iff i t u nonzero).mpr whole
    have next : (t.eval i).fdiv (u.eval i) = (Term.div t u).eval i := by
      simpa [Value.divide,Value.toInt,nonzero] using same
    simp only [Term.values,List.map_cons,List.foldlM_cons,same,List.foldl_cons]
    simp only [List.map_cons,quotients,next] at fine
    exact ih (.div t u) fun d member => fine d (by simp [member])

/-- The expression has a value and a meaning of the kind, and the meaning has that value. -/
def Matches (joining : Joining) (env : Env Symbol) (i : Interpretation) (e : Expr) : Kind → Prop
  | .integer => ∃ t, Meaning.of joining env e = .ok (.term t) ∧ e.eval (i.store env) = .ok (.int (t.eval i))
  | .truth => ∃ f, Meaning.of joining env e = .ok (.formula f) ∧ e.eval (i.store env) = .ok (.bool (f.eval i))

section Matching

variable {joining : Joining} {env : Env Symbol} {i : Interpretation} {op : String}

theorem matches_terms {es : List Expr} (each : ∀ e ∈ es, Matches joining env i e .integer) :
    ∃ ts : List Term, Meaning.ofAll joining env es = .ok (ts.map .term) ∧
      Expr.evalAll (i.store env) es = .ok (Term.values i ts) ∧ ts.length = es.length := by
  induction es with
  | nil => exact ⟨[],rfl,rfl,rfl⟩
  | cons e es ih =>
    obtain ⟨t,meaning,value⟩ := each e (by simp)
    obtain ⟨ts,meanings,values,length⟩ := ih fun e member => each e (by simp [member])
    refine ⟨t :: ts,?_,?_,by simp [length]⟩
    · simp only [Meaning.ofAll,meaning,meanings]
      rfl
    · simp only [Expr.evalAll,value,values]
      rfl

theorem matches_formulas {es : List Expr} (each : ∀ e ∈ es, Matches joining env i e .truth) :
    ∃ fs : List Formula, Meaning.ofAll joining env es = .ok (fs.map .formula) ∧
      Expr.evalAll (i.store env) es = .ok ((fs.map (Formula.eval i)).map .bool) := by
  induction es with
  | nil => exact ⟨[],rfl,rfl⟩
  | cons e es ih =>
    obtain ⟨f,meaning,value⟩ := each e (by simp)
    obtain ⟨fs,meanings,values⟩ := ih fun e member => each e (by simp [member])
    refine ⟨f :: fs,?_,?_⟩
    · simp only [Meaning.ofAll,meaning,meanings]
      rfl
    · simp only [Expr.evalAll,value,values]
      rfl

theorem matches_arith {args : List Expr} (known : op ∈ ["+","-","*","/"]) (some : args ≠ [])
    (each : ∀ e ∈ args, Matches joining env i e .integer)
    (fine : ∀ d ∈ (Expr.app .arith op args).divisions (i.store env), d.2 ≠ 0 ∧ Whole d) :
    Matches joining env i (.app .arith op args) .integer := by
  obtain ⟨ts,meanings,values,length⟩ := matches_terms each
  cases ts with
  | nil => exact absurd (List.length_eq_zero_iff.mp length.symm) some
  | cons t ts =>
    have made : op = "/" → ∀ d ∈ quotients (t.eval i) (ts.map (Term.eval i)),
        d ∈ (Expr.app .arith op args).divisions (i.store env) := by
      rintro rfl d member
      rw [Expr.divisions,values]
      refine List.mem_append_right _ ?_
      simpa [Except.toOption,Form.divisions,Term.values,Value.toInt,Function.comp_def] using member
    obtain ⟨u,term,value⟩ : ∃ u, Meaning.arithmetic op ((t :: ts).map .term) = .ok (.term u) ∧
        Value.arithmetic op (Term.values i (t :: ts)) = .ok (.int (u.eval i)) := by
      simp only [List.mem_cons,List.not_mem_nil,or_false] at known
      rcases known with rfl | rfl | rfl | rfl
      · exact ⟨_,Meaning.fold_terms .add t ts,Meaning.fold_values i t ts fun _ _ _ => rfl⟩
      · exact ⟨_,Meaning.fold_terms .sub t ts,Meaning.fold_values i t ts fun _ _ _ => rfl⟩
      · exact ⟨_,Meaning.fold_terms .mul t ts,Meaning.fold_values i t ts fun _ _ _ => rfl⟩
      · exact ⟨_,Meaning.fold_terms .div t ts,fold_divide i t ts fun d member => fine d (made rfl d member)⟩
    refine ⟨u,?_,?_⟩
    · simp only [Meaning.of,meanings]
      exact term
    · simp only [Expr.eval,values]
      exact value

theorem matches_compare {lhs rhs : Expr} (known : op ∈ ["<=","<","=",">=",">"])
    (left : Matches joining env i lhs .integer) (right : Matches joining env i rhs .integer) :
    Matches joining env i (.app .compare op [lhs,rhs]) .truth := by
  obtain ⟨t,meaning,value⟩ := left
  obtain ⟨u,other,second⟩ := right
  obtain ⟨r,named⟩ : ∃ r, Relation.ofText? op = some r := by
    simp only [List.mem_cons,List.not_mem_nil,or_false] at known
    rcases known with rfl | rfl | rfl | rfl | rfl <;> exact ⟨_,rfl⟩
  refine ⟨.compare r t u,?_,?_⟩
  · simp only [Meaning.of,Meaning.ofAll,meaning,other]
    change Meaning.comparison op [.term t,.term u] = _
    simp only [Meaning.comparison,named]
    rfl
  · simp only [Expr.eval,Expr.evalAll,value,second]
    rw [Formula.compare_eval]
    exact Relation.comparison named (.int (t.eval i)) (.int (u.eval i))

theorem matches_not {arg : Expr} (inner : Matches joining env i arg .truth) :
    Matches joining env i (.app .logic "not" [arg]) .truth := by
  obtain ⟨f,meaning,value⟩ := inner
  refine ⟨.not f,?_,?_⟩
  · simp only [Meaning.of,Meaning.ofAll,meaning]
    rfl
  · simp only [Expr.eval,Expr.evalAll,value]
    change Except.ok (Value.bool !(Value.bool (f.eval i)).isTrue) = _
    rw [Value.bool_truth]
    rfl

theorem matches_connective {args : List Expr} (known : op ∈ ["and","or"])
    (each : ∀ e ∈ args, Matches joining env i e .truth) : Matches joining env i (.app .logic op args) .truth := by
  obtain ⟨fs,meanings,values⟩ := matches_formulas each
  simp only [List.mem_cons,List.not_mem_nil,or_false] at known
  rcases known with rfl | rfl
  · refine ⟨joining.conjunction fs,?_,?_⟩
    · simp only [Meaning.of,meanings]
      change (do return Meaning.formula (joining.conjunction (← (fs.map Meaning.formula).mapM Meaning.toFormula))) = _
      rw [Meaning.toFormulas]
      rfl
    · simp only [Expr.eval,values]
      change Except.ok (((fs.map (Formula.eval i)).map Value.bool).foldl Value.both (.bool true)) = _
      rw [Value.both_bools,Formula.conjunction_eval]
      simp
  · refine ⟨joining.disjunction fs,?_,?_⟩
    · simp only [Meaning.of,meanings]
      change (do return Meaning.formula (joining.disjunction (← (fs.map Meaning.formula).mapM Meaning.toFormula))) = _
      rw [Meaning.toFormulas]
      rfl
    · simp only [Expr.eval,values]
      change Except.ok (((fs.map (Formula.eval i)).map Value.bool).foldl Value.either (.bool false)) = _
      rw [Value.either_bools,Formula.disjunction_eval]
      simp

theorem typed_matches (joining : Joining) {e : Expr} {kind : Kind} (typed : e.Typed kind)
    (defined : ∀ name, e.reads name = true → name ∈ env)
    (fine : ∀ d ∈ e.divisions (i.store env), d.2 ≠ 0 ∧ Whole d) :
    Matches joining env i e kind := by
  -- an operand asks for no other variables and makes no other divisions than the whole expression
  have operand : ∀ {form op args}, ∀ e ∈ args,
      (∀ name, (Expr.app form op args).reads name = true → name ∈ env) →
      (∀ name, e.reads name = true → name ∈ env) ∧
      ∀ d ∈ e.divisions (i.store env), d ∈ (Expr.app form op args).divisions (i.store env) :=
    fun e member defined =>
      ⟨fun name occurs => defined name (Expr.someReads_of_mem member occurs),
        fun d made => List.mem_append_left _ (Expr.mem_allDivisions member made)⟩
  induction typed with
  | int n => exact ⟨.lit n,rfl,rfl⟩
  | truth b => exact ⟨.bool b,by simp [Meaning.of],rfl⟩
  | var name =>
    obtain ⟨s,bound⟩ := Option.isSome_iff_exists.mp
      (Std.TreeMap.mem_iff_isSome_getElem?.mp (defined name (by simp [Expr.reads])))
    refine ⟨.sym s,?_,?_⟩
    · simp [Meaning.of,bound]
    · simp [Expr.eval,Interpretation.store_lookup,bound,Term.eval]
  | arith known some each ih =>
    refine matches_arith known some (fun e member => ?_) fine
    obtain ⟨inEnv,made⟩ := operand e member defined
    exact ih e member inEnv fun d of => fine d (made d of)
  | @compare op lhs rhs known left right first second =>
    obtain ⟨inEnv,made⟩ := operand lhs (by simp) defined
    obtain ⟨inEnv',made'⟩ := operand rhs (by simp) defined
    exact matches_compare known
      (first inEnv fun d of => fine d (made d of))
      (second inEnv' fun d of => fine d (made' d of))
  | @not arg inner ih =>
    obtain ⟨inEnv,made⟩ := operand arg (by simp) defined
    exact matches_not (ih inEnv fun d of => fine d (made d of))
  | connective known some each ih =>
    refine matches_connective known fun e member => ?_
    obtain ⟨inEnv,made⟩ := operand e member defined
    exact ih e member inEnv fun d of => fine d (made d of)

theorem Matches.value {e : Expr} {kind : Kind} (same : Matches joining env i e kind) :
    ∃ m, Meaning.of joining env e = .ok m ∧ e.eval (i.store env) = .ok (m.value i) := by
  cases kind with
  | integer =>
    obtain ⟨t,meaning,value⟩ := same
    exact ⟨.term t,meaning,value⟩
  | truth =>
    obtain ⟨f,meaning,value⟩ := same
    exact ⟨.formula f,meaning,value⟩

end Matching

/-- If its variables are bound, no divisor is zero, and negative divisors leave no remainder, then the expression has
a value, and both meanings exist and have this value. -/
theorem evaluators_agree {e : Expr} {kind : Kind} (typed : e.Typed kind) {env : Env Symbol}
    (defined : ∀ name, e.reads name = true → name ∈ env) (i : Interpretation)
    (nonzero : ∀ d ∈ e.divisions (i.store env), d.2 ≠ 0) (whole : ∀ d ∈ e.divisions (i.store env), Whole d) :
    ∃ v flat nested, e.eval (i.store env) = .ok v ∧
      Meaning.of .flat env e = .ok flat ∧ flat.value i = v ∧
      Meaning.of .nested env e = .ok nested ∧ nested.value i = v := by
  have fine := fun d made => And.intro (nonzero d made) (whole d made)
  obtain ⟨flat,meaning,value⟩ := (typed_matches .flat typed defined fine).value
  obtain ⟨nested,other,again⟩ := (typed_matches .nested typed defined fine).value
  exact ⟨flat.value i,flat,nested,value,meaning,rfl,other,Except.ok.inj (again.symm.trans value)⟩

/-- `x / 2 / (0 - 3) = 0 - 1 and not x < 0 and true`. -/
def chained : Expr :=
  .app .logic "and"
    [.app .compare "="
      [.app .arith "/" [.var "x",.int 2,.app .arith "-" [.int 0,.int 3]],.app .arith "-" [.int 0,.int 1]],
     .app .logic "not" [.app .compare "<" [.var "x",.int 0]],
     .truth (.bool true)]

theorem chained_typed : chained.Typed .truth := by
  have minus : ∀ n, Expr.Typed (.app .arith "-" [.int 0,.int n]) .integer := fun n =>
    .arith (by simp) (by simp) (by simp [Expr.Typed.int])
  have quotient : Expr.Typed (.app .arith "/" [.var "x",.int 2,.app .arith "-" [.int 0,.int 3]]) .integer :=
    .arith (by simp) (by simp) (by simp [Expr.Typed.int,Expr.Typed.var,minus])
  refine .connective (by simp) (by simp) ?_
  simp only [List.mem_cons,List.not_mem_nil,or_false,forall_eq_or_imp,forall_eq]
  exact ⟨.compare (by simp) quotient (minus 1),.not (.compare (by simp) (.var "x") (.int 0)),.truth true⟩

def onlyX : Env Symbol :=
  Std.TreeMap.empty.insert "x" ⟨"x",0⟩

def sevens : Interpretation :=
  ⟨fun _ => 7,id⟩

theorem chained_divisions : chained.divisions (sevens.store onlyX) = [(7,2),(3,-3)] := by
  decide +kernel

theorem evaluators_agree_chained : ∃ v flat nested,
    chained.eval (sevens.store onlyX) = .ok v ∧ Meaning.of .flat onlyX chained = .ok flat ∧
      flat.value sevens = v ∧ Meaning.of .nested onlyX chained = .ok nested ∧ nested.value sevens = v := by
  refine evaluators_agree chained_typed ?_ sevens ?_ ?_
  · intro name occurs
    have same : "x" = name := by simpa [chained,Expr.reads,Expr.someReads] using occurs
    simp [onlyX,same]
  · simp [chained_divisions]
  · simp [chained_divisions,Whole]

/-- `7 / (0 - 2)` -/
def sevenByMinusTwo : Expr :=
  .app .arith "/" [.int 7,.app .arith "-" [.int 0,.int 2]]

/-- The divisor is not zero, but the interpreter rounds down and the meanings do not. -/
theorem negative_quotients_differ :
    sevenByMinusTwo.Typed .integer ∧ sevenByMinusTwo.divisions (sevens.store {}) = [(7,-2)] ∧
      sevenByMinusTwo.eval (sevens.store {}) = .ok (.int (-4)) ∧
      ∃ flat nested, Meaning.of .flat {} sevenByMinusTwo = .ok flat ∧ flat.value sevens = .int (-3) ∧
        Meaning.of .nested {} sevenByMinusTwo = .ok nested ∧ nested.value sevens = .int (-3) := by
  refine ⟨?_,rfl,rfl,_,_,rfl,rfl,rfl,rfl⟩
  exact .arith (by simp) (by simp) (by simp [Expr.Typed.int,Expr.Typed.arith])

end Symbolic

end WhileExec
