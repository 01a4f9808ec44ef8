import Mathlib
import WhileExec.Proofs.Symbolic.Renamings

/-!
# States with other numbers

Two explorations of the same kind build the same terms and formulas, and only the numbers of the symbols in them
differ. So states are compared here as they are written, where `Renamings` compares what they mean: an expression means
in a renumbered state what it meant before, with its symbols renumbered.

While explorations go on, it is only known of some numbers what they become. `State.Matches` says that any renumbering
that respects these makes one state the other, so that more numbers can become known later.
-/

namespace WhileExec.Symbolic

section Renaming

variable (ρ : Nat → Nat)

@[simp] theorem Term.rename_isLit (t : Term) : (t.rename ρ).isLit = t.isLit := by
  cases t <;> rfl

theorem Formula.rename_compare (r : Relation) (a b : Term) :
    (Formula.compare r a b).rename ρ = .compare r (a.rename ρ) (b.rename ρ) := by
  simp only [compare,Term.rename_isLit]
  split <;> rfl

theorem Formula.renameAll_eq (fs : List Formula) : Formula.renameAll ρ fs = fs.map (Formula.rename ρ) := by
  induction fs with
  | nil => rfl
  | cons f fs ih => rw [renameAll,ih,List.map_cons]

/-- What is joined one by one may be renamed before or after that. -/
theorem rename_foldl {α : Type} {join : α → α → α} {rename : α → α}
    (renamed : ∀ a b, join (rename a) (rename b) = rename (join a b)) (first : α) (xs : List α) :
    rename (xs.foldl join first) = (xs.map rename).foldl join (rename first) := by
  rw [List.foldl_map]
  exact (List.foldl_hom rename renamed).symm

theorem Joining.rename_conjunction (joining : Joining) (fs : List Formula) :
    (joining.conjunction fs).rename ρ = joining.conjunction (fs.map (Formula.rename ρ)) := by
  cases joining with
  | flat => rw [conjunction,Formula.rename,Formula.renameAll_eq,conjunction]
  | nested =>
    apply rename_foldl
    intro f g
    rfl

theorem Joining.rename_disjunction (joining : Joining) (fs : List Formula) :
    (joining.disjunction fs).rename ρ = joining.disjunction (fs.map (Formula.rename ρ)) := by
  cases joining with
  | flat => rw [disjunction,Formula.rename,Formula.renameAll_eq,disjunction]
  | nested =>
    apply rename_foldl
    intro f g
    rfl

namespace Meaning

def rename : Meaning → Meaning
  | .term t => .term (t.rename ρ)
  | .formula f => .formula (f.rename ρ)

theorem rename_toTerm (m : Meaning) : (m.rename ρ).toTerm = m.toTerm.map (Term.rename ρ) := by
  cases m <;> rfl

theorem rename_toFormula (m : Meaning) : (m.rename ρ).toFormula = m.toFormula.map (Formula.rename ρ) := by
  cases m <;> rfl

theorem rename_mapM {α : Type} {convert : Meaning → Except Fault α} {change : α → α}
    (each : ∀ m, convert (m.rename ρ) = (convert m).map change) (ms : List Meaning) :
    (ms.map (rename ρ)).mapM convert = (ms.mapM convert).map (List.map change) := by
  induction ms with
  | nil => rfl
  | cons m ms ih =>
    rw [List.map_cons,List.mapM_cons,List.mapM_cons,each,ih]
    cases convert m with
    | error fault => rfl
    | ok a => cases ms.mapM convert <;> rfl

theorem rename_fold {op : Term → Term → Term}
    (renamed : ∀ a b, op (Term.rename ρ a) (Term.rename ρ b) = Term.rename ρ (op a b)) (ms : List Meaning) :
    fold op (ms.map (rename ρ)) = (fold op ms).map (rename ρ) := by
  rcases ms with _ | ⟨m,_ | ⟨n,ms⟩⟩
  · rfl
  · rfl
  · simp only [List.map_cons,fold]
    rw [← List.map_cons,rename_mapM ρ (rename_toTerm ρ),rename_toTerm]
    cases (n :: ms).mapM toTerm with
    | error fault => rfl
    | ok ts =>
      cases m.toTerm with
      | error fault => rfl
      | ok t => exact congrArg (fun t => Except.ok (Meaning.term t)) (rename_foldl renamed t ts).symm

theorem rename_arithmetic (op : String) (ms : List Meaning) :
    arithmetic op (ms.map (rename ρ)) = (arithmetic op ms).map (rename ρ) := by
  unfold arithmetic
  split
  case h_5 => rfl
  all_goals
    apply rename_fold
    intro a b
    rfl

theorem rename_comparison (op : String) (ms : List Meaning) :
    comparison op (ms.map (rename ρ)) = (comparison op ms).map (rename ρ) := by
  rcases ms with _ | ⟨m,_ | ⟨n,ms⟩⟩
  · rfl
  · rfl
  · simp only [List.map_cons,comparison]
    cases Relation.ofText? op with
    | none => rfl
    | some r =>
      simp only [rename_toTerm]
      cases m.toTerm with
      | error fault => rfl
      | ok a =>
        cases n.toTerm with
        | error fault => rfl
        | ok b => exact congrArg (fun f => Except.ok (Meaning.formula f)) (Formula.rename_compare ρ r a b).symm

theorem rename_connective (joining : Joining) (op : String) (ms : List Meaning) :
    connective joining op (ms.map (rename ρ)) = (connective joining op ms).map (rename ρ) := by
  unfold connective
  split
  · rcases ms with _ | ⟨m,_ | ⟨n,ms⟩⟩
    · rfl
    · simp only [List.map_cons,List.map_nil,rename_toFormula]
      cases m.toFormula <;> rfl
    · rfl
  · rw [rename_mapM ρ (rename_toFormula ρ)]
    cases ms.mapM toFormula with
    | error fault => rfl
    | ok fs => exact congrArg (fun f => Except.ok (Meaning.formula f)) (joining.rename_conjunction ρ fs).symm
  · rw [rename_mapM ρ (rename_toFormula ρ)]
    cases ms.mapM toFormula with
    | error fault => rfl
    | ok fs => exact congrArg (fun f => Except.ok (Meaning.formula f)) (joining.rename_disjunction ρ fs).symm
  · rfl

variable {ρ}

theorem rename_ofAll {joining : Joining} {env env' : Env Symbol} {es : List Expr}
    (each : ∀ e ∈ es, of joining env' e = (of joining env e).map (rename ρ)) :
    ofAll joining env' es = (ofAll joining env es).map (List.map (rename ρ)) := by
  induction es with
  | nil => rfl
  | cons e es ih =>
    rw [ofAll,ofAll,each e (by simp),ih fun e member => each e (by simp [member])]
    cases of joining env e with
    | error fault => rfl
    | ok m => cases ofAll joining env es <;> rfl

theorem rename_of {env env' : Env Symbol} (same : ∀ name : String, env'[name]? = env[name]?.map (Symbol.rename ρ))
    (joining : Joining) (e : Expr) : of joining env' e = (of joining env e).map (rename ρ) := by
  induction e using Expr.structural with
  | int k => rfl
  | truth v => rfl
  | var name =>
    simp only [of,same name]
    cases env[name]? <;> rfl
  | app form op args ih =>
    have all := rename_ofAll ih
    cases form with
    | plain => rfl
    | logic =>
      simp only [of,all]
      cases ofAll joining env args with
      | error fault => rfl
      | ok ms => exact rename_connective ρ joining op ms
    | compare =>
      simp only [of,all]
      cases ofAll joining env args with
      | error fault => rfl
      | ok ms => exact rename_comparison ρ op ms
    | arith =>
      simp only [of,all]
      cases ofAll joining env args with
      | error fault => rfl
      | ok ms => exact rename_arithmetic ρ op ms

end Meaning

end Renaming

/-- The second state is the first one with its symbols renumbered: the same bindings, and the same conditions in the
same order. -/
structure State.Renumbered (ρ : Nat → Nat) (a b : State) : Prop where
  env : ∀ name : String, b.env[name]? = a.env[name]?.map (Symbol.rename ρ)
  path : b.path = a.path.map (Formula.rename ρ)

namespace State.Renumbered

variable {ρ : Nat → Nat} {a b : State}

theorem formula (renumbered : a.Renumbered ρ b) (joining : Joining) (e : Expr) :
    b.formula joining e = (a.formula joining e).map (Formula.rename ρ) := by
  unfold State.formula
  rw [Meaning.rename_of renumbered.env]
  cases Meaning.of joining a.env e with
  | error fault => rfl
  | ok m => exact Meaning.rename_toFormula ρ m

theorem term (renumbered : a.Renumbered ρ b) (joining : Joining) (e : Expr) :
    b.term joining e = (a.term joining e).map (Term.rename ρ) := by
  unfold State.term
  rw [Meaning.rename_of renumbered.env]
  cases Meaning.of joining a.env e with
  | error fault => rfl
  | ok m => exact Meaning.rename_toTerm ρ m

theorem require (renumbered : a.Renumbered ρ b) (f : Formula) : (a.require f).Renumbered ρ (b.require (f.rename ρ)) :=
  ⟨renumbered.env,by simp [State.require,renumbered.path]⟩

theorem bind (renumbered : a.Renumbered ρ b) (name : String) (s : Symbol) :
    (a.bind name s).Renumbered ρ (b.bind name (s.rename ρ)) := by
  refine ⟨fun key => ?_,renumbered.path⟩
  simp only [State.bind,Std.TreeMap.getElem?_insert]
  split
  · rfl
  · exact renumbered.env key

end State.Renumbered

/-- The renumbering makes of the numbers what they are known to become. -/
def Respects (R : Nat → Nat → Prop) (ρ : Nat → Nat) : Prop :=
  ∀ i j, R i j → ρ i = j

theorem Respects.mono {R S : Nat → Nat → Prop} {ρ : Nat → Nat} (respects : Respects S ρ) (wider : R ≤ S) :
    Respects R ρ :=
  fun i j related => respects i j (wider i j related)

def Formula.Matches (R : Nat → Nat → Prop) (f g : Formula) : Prop :=
  ∀ ρ, Respects R ρ → g = f.rename ρ

def State.Matches (R : Nat → Nat → Prop) (a b : State) : Prop :=
  ∀ ρ, Respects R ρ → a.Renumbered ρ b

theorem Formula.Matches.not {R : Nat → Nat → Prop} {f g : Formula} (same : f.Matches R g) :
    (Formula.not f).Matches R (.not g) :=
  fun ρ respects => congrArg Formula.not (same ρ respects)

theorem Formula.Matches.mono {R S : Nat → Nat → Prop} {f g : Formula} (same : f.Matches R g) (wider : R ≤ S) :
    f.Matches S g :=
  fun ρ respects => same ρ (respects.mono wider)

namespace State.Matches

variable {R S : Nat → Nat → Prop} {a b : State}

theorem mono (same : a.Matches R b) (wider : R ≤ S) : a.Matches S b :=
  fun ρ respects => same ρ (respects.mono wider)

theorem formula (same : a.Matches R b) {joining : Joining} {e : Expr} {f g : Formula}
    (known : a.formula joining e = .ok f) (known' : b.formula joining e = .ok g) : f.Matches R g := by
  intro ρ respects
  have renamed := (same ρ respects).formula joining e
  rw [known,known'] at renamed
  cases renamed
  rfl

theorem require (same : a.Matches R b) {f g : Formula} (formulas : f.Matches R g) :
    (a.require f).Matches R (b.require g) := by
  intro ρ respects
  rw [formulas ρ respects]
  exact (same ρ respects).require f

theorem bind (same : a.Matches R b) (name : String) {m n : Nat} (related : R m n) :
    (a.bind name ⟨name,m⟩).Matches R (b.bind name ⟨name,n⟩) := by
  intro ρ respects
  have renamed : Symbol.rename ρ ⟨name,m⟩ = ⟨name,n⟩ := by rw [Symbol.rename,respects m n related]
  rw [← renamed]
  exact (same ρ respects).bind name _

/-- An assignment: the new symbols become each other, and are equated to the same term. -/
theorem assign (same : a.Matches R b) {joining : Joining} {name : String} {rhs : Expr} {t u : Term}
    (known : a.term joining rhs = .ok t) (known' : b.term joining rhs = .ok u) {m n : Nat} (related : R m n) :
    ((a.bind name ⟨name,m⟩).require (.compare .eq (.sym ⟨name,m⟩) t)).Matches R
      ((b.bind name ⟨name,n⟩).require (.compare .eq (.sym ⟨name,n⟩) u)) := by
  apply (same.bind name related).require
  intro ρ respects
  have renamed := (same ρ respects).term joining rhs
  rw [known,known'] at renamed
  cases renamed
  rw [Formula.rename_compare,Term.rename,Symbol.rename,respects m n related]

end State.Matches

section Scope

variable {ρ : Nat → Nat} {n : Nat}

theorem Term.rename_fixed (fixed : ∀ k < n, ρ k = k) {t : Term} (inScope : t.bound ≤ n) : t.rename ρ = t := by
  induction t with
  | lit k => rfl
  | sym s =>
    rw [rename,Symbol.rename,fixed s.index (by simpa [bound] using inScope)]
  | add a b left right | sub a b left right | mul a b left right | div a b left right =>
    simp only [bound] at inScope
    rw [rename,left (by omega),right (by omega)]

mutual

theorem Formula.rename_fixed (fixed : ∀ k < n, ρ k = k) : (f : Formula) → f.bound ≤ n → f.rename ρ = f
  | .bool b, _ => rfl
  | .rel r a b, inScope => by
    simp only [bound] at inScope
    rw [rename,Term.rename_fixed fixed (by omega),Term.rename_fixed fixed (by omega)]
  | .not f, inScope => by rw [rename,rename_fixed fixed f inScope]
  | .and fs, inScope => by rw [rename,renameAll_fixed fixed fs inScope]
  | .or fs, inScope => by rw [rename,renameAll_fixed fixed fs inScope]

theorem Formula.renameAll_fixed (fixed : ∀ k < n, ρ k = k) :
    (fs : List Formula) → boundAll fs ≤ n → Formula.renameAll ρ fs = fs
  | [], _ => rfl
  | f :: fs, inScope => by
    simp only [boundAll] at inScope
    rw [renameAll,rename_fixed fixed f (by omega),renameAll_fixed fixed fs (by omega)]

end

theorem State.renumbered_fixed (fixed : ∀ k < n, ρ k = k) {s : State} (inScope : s.Scoped n) : s.Renumbered ρ s := by
  refine ⟨fun name => ?_,?_⟩
  · cases known : s.env[name]? with
    | none => rfl
    | some symbol => rw [Option.map_some,Symbol.rename,fixed _ (inScope.env name symbol known)]
  · have all : ∀ f ∈ s.path, f.rename ρ = f := fun f member => f.rename_fixed fixed (inScope.path f member)
    rw [List.map_congr_left all,List.map_id']

end Scope

/-- What the solver answers does not depend on the numbers of the symbols. -/
def Solver.Uniform (solver : Solver) : Prop :=
  ∀ (ρ : Equiv.Perm Nat) (path : Path), solver.unsat (path.map (Formula.rename ρ)) = solver.unsat path

theorem Path.rename_holds (ρ : Nat → Nat) (i : Interpretation) (path : Path) :
    Path.holds i (path.map (Formula.rename ρ)) = path.holds (i.along ρ) := by
  simp [Path.holds,List.all_map,Function.comp_def,Formula.rename_eval]

/-- Right answers do not depend on numbers. -/
theorem Solver.Exact.uniform {solver : Solver} (exact : solver.Exact) : solver.Uniform := by
  intro ρ path
  rw [Bool.eq_iff_iff,exact,exact]
  constructor
  · intro none i
    have back : (i.along ρ.symm).along ρ = i := by simp [Interpretation.along,Symbol.rename]
    rw [← back,← Path.rename_holds]
    exact none (i.along ρ.symm)
  · intro none i
    rw [Path.rename_holds]
    exact none (i.along ρ)

namespace Pairing

variable {m n m' n' : Nat} {R S : Nat → Nat → Prop}

theorem rise (pairing : Pairing m n R) (left : m ≤ m') (right : n ≤ n') : Pairing m' n' R :=
  ⟨fun related => (pairing.left related).trans_le left,fun related => (pairing.right related).trans_le right,
    pairing.functional,pairing.injective⟩

theorem restrict (pairing : Pairing m n S) (fewer : R ≤ S) : Pairing m n R :=
  ⟨fun related => pairing.left (fewer _ _ related),fun related => pairing.right (fewer _ _ related),
    fun one two => pairing.functional (fewer _ _ one) (fewer _ _ two),
    fun one two => pairing.injective (fewer _ _ one) (fewer _ _ two)⟩

theorem add (pairing : Pairing m n R) : Pairing (m + 1) (n + 1) fun i j => R i j ∨ i = m ∧ j = n := by
  constructor
  · rintro i j (related | ⟨rfl,rfl⟩)
    · exact (pairing.left related).trans (Nat.lt_succ_self m)
    · exact Nat.lt_succ_self _
  · rintro i j (related | ⟨rfl,rfl⟩)
    · exact (pairing.right related).trans (Nat.lt_succ_self n)
    · exact Nat.lt_succ_self _
  · rintro i j k (one | ⟨rfl,rfl⟩) (two | ⟨new,rfl⟩)
    · exact pairing.functional one two
    · exact absurd (pairing.left one) (by omega)
    · exact absurd (pairing.left two) (lt_irrefl _)
    · rfl
  · rintro i j k (one | ⟨rfl,rfl⟩) (two | ⟨rfl,new⟩)
    · exact pairing.injective one two
    · exact absurd (pairing.right one) (by omega)
    · exact absurd (pairing.right two) (lt_irrefl _)
    · rfl

theorem unsat_eq {solver : Solver} (uniform : solver.Uniform) (pairing : Pairing m n R) {a b : State}
    (same : a.Matches R b) : solver.unsat b.path = solver.unsat a.path := by
  obtain ⟨ρ,respects⟩ := pairing.exists_perm
  rw [(same ρ respects).path,uniform ρ]

end Pairing

end WhileExec.Symbolic
