import Mathlib
import WhileExec.Proofs.Symbolic.LazyPartition

/-!
# Renamed symbols

Two explorations of one program number their symbols differently. What they make is compared by a relation between
numbers: terms and formulas are alike if they have the same value wherever related symbols have the same value. An
expression means alike things where variables stand for related symbols, whichever way connectives are built. If the
relation is one to one, alike states are possible together.
-/

namespace WhileExec.Symbolic

/-- Symbols with related numbers have the same value. -/
structure Interpretation.Fits (R : Nat → Nat → Prop) (i j : Interpretation) : Prop where
  symbol : ∀ name m n, R m n → i.symbol ⟨name,m⟩ = j.symbol ⟨name,n⟩
  byZero : i.byZero = j.byZero

/-- The symbols are of the same variable, and their numbers are related. -/
def Symbol.Like (R : Nat → Nat → Prop) (s t : Symbol) : Prop :=
  s.name = t.name ∧ R s.index t.index

def Term.Like (R : Nat → Nat → Prop) (t u : Term) : Prop :=
  ∀ i j, Interpretation.Fits R i j → t.eval i = u.eval j

def Formula.Like (R : Nat → Nat → Prop) (f g : Formula) : Prop :=
  ∀ i j, Interpretation.Fits R i j → f.eval i = g.eval j

inductive Meaning.Like (R : Nat → Nat → Prop) : Meaning → Meaning → Prop
  | term {t u : Term} (like : t.Like R u) : Like R (.term t) (.term u)
  | formula {f g : Formula} (like : f.Like R g) : Like R (.formula f) (.formula g)

def Env.Like (R : Nat → Nat → Prop) (env other : Env Symbol) : Prop :=
  ∀ name : String, Option.Rel (Symbol.Like R) env[name]? other[name]?

structure State.Like (R : Nat → Nat → Prop) (a b : State) : Prop where
  env : Env.Like R a.env b.env
  path : List.Forall₂ (Formula.Like R) a.path b.path

theorem Symbol.Like.eval {R : Nat → Nat → Prop} {s t : Symbol} (like : s.Like R t) : (Term.sym s).Like R (.sym t) := by
  obtain ⟨name,m⟩ := s
  obtain ⟨other,n⟩ := t
  obtain ⟨rfl,related⟩ := like
  exact fun i j fits => fits.symbol name m n related

section Meanings

variable {R : Nat → Nat → Prop}

theorem Term.foldl_like {op : Term → Term → Term}
    (keeps : ∀ {a b a' b' : Term}, a.Like R a' → b.Like R b' → (op a b).Like R (op a' b')) {t u : Term}
    {ts us : List Term} (first : t.Like R u) (rest : List.Forall₂ (Term.Like R) ts us) :
    (ts.foldl op t).Like R (us.foldl op u) := by
  induction rest generalizing t u with
  | nil => exact first
  | cons like _ ih => exact ih (keeps first like)

theorem Formula.Like.not {f g : Formula} (like : f.Like R g) : (Formula.not f).Like R (.not g) :=
  fun i j fits => by simp only [Formula.eval,like i j fits]

theorem Formula.compare_like (r : Relation) {a b a' b' : Term} (left : a.Like R a') (right : b.Like R b') :
    (Formula.compare r a b).Like R (.compare r a' b') := by
  intro i j fits
  rw [compare_eval,compare_eval,left i j fits,right i j fits]

/-- Alike formulas, all of them evaluated. -/
theorem Formula.map_eval_like {fs gs : List Formula} (like : List.Forall₂ (Formula.Like R) fs gs) {i j : Interpretation}
    (fits : i.Fits R j) : fs.map (Formula.eval i) = gs.map (Formula.eval j) := by
  induction like with
  | nil => rfl
  | cons first _ ih => rw [List.map_cons,List.map_cons,first i j fits,ih]

theorem Formula.conjunction_like (joining other : Joining) {fs gs : List Formula}
    (like : List.Forall₂ (Formula.Like R) fs gs) : (joining.conjunction fs).Like R (other.conjunction gs) := by
  intro i j fits
  have same := congrArg (·.all id) (map_eval_like like fits)
  simpa [conjunction_eval,List.all_map] using same

theorem Formula.disjunction_like (joining other : Joining) {fs gs : List Formula}
    (like : List.Forall₂ (Formula.Like R) fs gs) : (joining.disjunction fs).Like R (other.disjunction gs) := by
  intro i j fits
  have same := congrArg (·.any id) (map_eval_like like fits)
  simpa [disjunction_eval,List.any_map] using same

namespace Meaning

variable {m n : Meaning} {ms ns : List Meaning} {joining other : Joining}

theorem Like.toTerm {t u : Term} (like : m.Like R n) (left : m.toTerm = .ok t) (right : n.toTerm = .ok u) :
    t.Like R u := by
  cases like with
  | term like => cases left; cases right; exact like
  | formula => cases left

theorem Like.toFormula {f g : Formula} (like : m.Like R n) (left : m.toFormula = .ok f) (right : n.toFormula = .ok g) :
    f.Like R g := by
  cases like with
  | term => cases left
  | formula like => cases left; cases right; exact like

theorem mapM_like {α : Type} {alike : α → α → Prop} {convert : Meaning → Except Fault α}
    (each : ∀ {m n : Meaning} {a b : α}, m.Like R n → convert m = .ok a → convert n = .ok b → alike a b)
    (like : List.Forall₂ (Like R) ms ns) {as bs : List α} (left : ms.mapM convert = .ok as)
    (right : ns.mapM convert = .ok bs) : List.Forall₂ alike as bs := by
  induction like generalizing as bs with
  | nil => cases left; cases right; exact .nil
  | cons first _ ih =>
    rw [List.mapM_cons] at left right
    obtain ⟨a,one,left⟩ := bind_ok left
    obtain ⟨b,two,right⟩ := bind_ok right
    obtain ⟨as,ones,left⟩ := bind_ok left
    obtain ⟨bs,twos,right⟩ := bind_ok right
    cases left
    cases right
    exact .cons (each first one two) (ih ones twos)

theorem fold_like {op : Term → Term → Term}
    (keeps : ∀ {a b a' b' : Term}, a.Like R a' → b.Like R b' → (op a b).Like R (op a' b'))
    (like : List.Forall₂ (Like R) ms ns) (left : fold op ms = .ok m) (right : fold op ns = .ok n) : m.Like R n := by
  rcases like with _ | ⟨first,_ | ⟨second,rest⟩⟩
  · cases left
  · cases left
    cases right
    exact first
  · obtain ⟨ts,ones,left⟩ := bind_ok left
    obtain ⟨t,one,left⟩ := bind_ok left
    obtain ⟨us,twos,right⟩ := bind_ok right
    obtain ⟨u,two,right⟩ := bind_ok right
    cases left
    cases right
    exact .term (Term.foldl_like keeps (first.toTerm one two) (mapM_like Like.toTerm (.cons second rest) ones twos))

theorem arithmetic_like {op : String} (like : List.Forall₂ (Like R) ms ns) (left : arithmetic op ms = .ok m)
    (right : arithmetic op ns = .ok n) : m.Like R n := by
  unfold arithmetic at left right
  split at left
  · exact fold_like (fun one two i j fits => by simp only [Term.eval,one i j fits,two i j fits]) like left right
  · exact fold_like (fun one two i j fits => by simp only [Term.eval,one i j fits,two i j fits]) like left right
  · exact fold_like (fun one two i j fits => by simp only [Term.eval,one i j fits,two i j fits]) like left right
  · refine fold_like (fun one two i j fits => ?_) like left right
    simp only [Term.eval,one i j fits,two i j fits,fits.byZero]
  · contradiction

theorem comparison_like {op : String} (like : List.Forall₂ (Like R) ms ns) (left : comparison op ms = .ok m)
    (right : comparison op ns = .ok n) : m.Like R n := by
  rcases like with _ | ⟨first,_ | ⟨second,rest⟩⟩
  · cases left
  · cases left
  · simp only [comparison] at left right
    cases named : Relation.ofText? op with
    | none => rw [named] at left; cases left
    | some r =>
      rw [named] at left right
      obtain ⟨t,one,left⟩ := bind_ok left
      obtain ⟨u,two,left⟩ := bind_ok left
      obtain ⟨t',one',right⟩ := bind_ok right
      obtain ⟨u',two',right⟩ := bind_ok right
      cases left
      cases right
      exact .formula (Formula.compare_like r (first.toTerm one one') (second.toTerm two two'))

theorem connective_like {op : String} (like : List.Forall₂ (Like R) ms ns) (left : connective joining op ms = .ok m)
    (right : connective other op ns = .ok n) : m.Like R n := by
  unfold connective at left right
  split at left
  · rcases like with _ | ⟨first,_ | ⟨second,rest⟩⟩
    · cases left
    · obtain ⟨f,one,left⟩ := bind_ok left
      obtain ⟨g,two,right⟩ := bind_ok right
      cases left
      cases right
      exact .formula (first.toFormula one two).not
    · cases left
  · obtain ⟨fs,one,left⟩ := bind_ok left
    obtain ⟨gs,two,right⟩ := bind_ok right
    cases left
    cases right
    exact .formula (Formula.conjunction_like joining other (mapM_like Like.toFormula like one two))
  · obtain ⟨fs,one,left⟩ := bind_ok left
    obtain ⟨gs,two,right⟩ := bind_ok right
    cases left
    cases right
    exact .formula (Formula.disjunction_like joining other (mapM_like Like.toFormula like one two))
  · contradiction

theorem ofAll_like {env env' : Env Symbol} {es : List Expr}
    (each : ∀ e ∈ es, ∀ m n, of joining env e = .ok m → of other env' e = .ok n → m.Like R n)
    (left : ofAll joining env es = .ok ms) (right : ofAll other env' es = .ok ns) : List.Forall₂ (Like R) ms ns := by
  induction es generalizing ms ns with
  | nil => cases left; cases right; exact .nil
  | cons e es ih =>
    obtain ⟨m,one,left⟩ := bind_ok left
    obtain ⟨n,two,right⟩ := bind_ok right
    obtain ⟨ms,ones,left⟩ := bind_ok left
    obtain ⟨ns,twos,right⟩ := bind_ok right
    cases left
    cases right
    exact .cons (each e (by simp) m n one two) (ih (fun e member => each e (by simp [member])) ones twos)

theorem of_like {env env' : Env Symbol} (same : Env.Like R env env') {e : Expr} (left : of joining env e = .ok m)
    (right : of other env' e = .ok n) : m.Like R n := by
  induction e using Expr.structural generalizing m n with
  | int k => cases left; cases right; exact .term fun _ _ _ => rfl
  | truth v => cases left; cases right; exact .formula fun _ _ _ => rfl
  | var name =>
    simp only [of] at left right
    have related := same name
    cases bound : env[name]? with
    | none => rw [bound] at left; cases left
    | some s =>
      cases bound' : env'[name]? with
      | none => rw [bound'] at right; cases right
      | some t =>
        rw [bound] at left related
        rw [bound'] at right related
        cases left
        cases right
        cases related with
        | some like => exact .term like.eval
  | app form op args ih =>
    cases form with
    | plain => cases left
    | logic | arith | compare =>
      obtain ⟨ms,ones,left⟩ := bind_ok left
      obtain ⟨ns,twos,right⟩ := bind_ok right
      have like := ofAll_like (fun e member m n => ih e member) ones twos
      first
        | exact connective_like like left right
        | exact arithmetic_like like left right
        | exact comparison_like like left right

end Meaning

end Meanings

namespace State

/-- The formula that a condition means in a state. -/
def formula (s : State) (joining : Joining) (e : Expr) : Except Fault Formula := do
  (← Meaning.of joining s.env e).toFormula

def term (s : State) (joining : Joining) (e : Expr) : Except Fault Term := do
  (← Meaning.of joining s.env e).toTerm

/-- The state as its fork is. -/
def forked (s : State) : State :=
  { s with failed := false }

namespace Like

variable {R S : Nat → Nat → Prop} {a b : State} {joining other : Joining} {e : Expr}

theorem formula (like : a.Like R b) {f g : Formula} (left : a.formula joining e = .ok f)
    (right : b.formula other e = .ok g) : f.Like R g := by
  obtain ⟨m,one,left⟩ := Meaning.bind_ok left
  obtain ⟨n,two,right⟩ := Meaning.bind_ok right
  exact (Meaning.of_like like.env one two).toFormula left right

theorem term (like : a.Like R b) {t u : Term} (left : a.term joining e = .ok t) (right : b.term other e = .ok u) :
    t.Like R u := by
  obtain ⟨m,one,left⟩ := Meaning.bind_ok left
  obtain ⟨n,two,right⟩ := Meaning.bind_ok right
  exact (Meaning.of_like like.env one two).toTerm left right

theorem forked (like : a.Like R b) : a.forked.Like R b.forked :=
  ⟨like.env,like.path⟩

theorem require (like : a.Like R b) {f g : Formula} (same : f.Like R g) : (a.require f).Like R (b.require g) :=
  ⟨like.env,List.rel_append like.path (.cons same .nil)⟩

theorem bind (like : a.Like R b) (name : String) {m n : Nat} (related : R m n) :
    (a.bind name ⟨name,m⟩).Like R (b.bind name ⟨name,n⟩) := by
  refine ⟨fun key => ?_,like.path⟩
  simp only [State.bind,Std.TreeMap.getElem?_insert]
  split
  · exact .some ⟨rfl,related⟩
  · exact like.env key

theorem mono (like : a.Like R b) (more : ∀ m n, R m n → S m n) : a.Like S b := by
  have fits {i j : Interpretation} (fits : i.Fits S j) : i.Fits R j :=
    ⟨fun name m n related => fits.symbol name m n (more m n related),fits.byZero⟩
  refine ⟨fun name => ?_,like.path.imp fun f g same i j both => same i j (fits both)⟩
  have related := like.env name
  generalize a.env[name]? = s, b.env[name]? = t at related
  cases related with
  | none => exact .none
  | some same => exact .some ⟨same.1,more _ _ same.2⟩

theorem holds (like : a.Like R b) {i j : Interpretation} (fits : i.Fits R j) : a.path.holds i = b.path.holds j := by
  have same := congrArg (·.all id) (Formula.map_eval_like like.path fits)
  simpa [Path.holds,List.all_map] using same

theorem refl {n : Nat} {s : State} (inScope : s.Scoped n) (same : ∀ k < n, R k k) : s.Like R s := by
  refine ⟨fun name => ?_,?_⟩
  · cases bound : s.env[name]? with
    | none => exact .none
    | some symbol => exact .some ⟨rfl,same _ (inScope.env name symbol bound)⟩
  · refine List.forall₂_same.mpr fun f member i j fits => ?_
    refine (Formula.eval_congr (n := n) ⟨fun symbol below => ?_,fits.byZero.symm⟩ f (inScope.path f member)).symm
    exact (fits.symbol symbol.name _ _ (same _ below)).symm

end Like

end State

/-- Numbers below `m` are related to numbers below `n`, each to at most one. -/
structure Pairing (m n : Nat) (R : Nat → Nat → Prop) : Prop where
  left : ∀ {i j}, R i j → i < m
  right : ∀ {i j}, R i j → j < n
  functional : ∀ {i j k}, R i j → R i k → j = k
  injective : ∀ {i j k}, R i k → R j k → i = j

namespace Pairing

variable {m n : Nat} {R : Nat → Nat → Prop}

theorem grow (pairing : Pairing m n R) {n' : Nat} (more : n ≤ n') : Pairing m n' R :=
  ⟨pairing.left,fun related => (pairing.right related).trans_le more,pairing.functional,pairing.injective⟩

/-- An interpretation of the one symbols gives one of the other symbols. -/
theorem exists_fits (pairing : Pairing m n R) (i : Interpretation) : ∃ j, i.Fits R j := by
  classical
  refine ⟨⟨fun s => if known : ∃ k, R k s.index then i.symbol ⟨s.name,known.choose⟩ else 0,i.byZero⟩,?_,rfl⟩
  intro name k l related
  have known : ∃ k, R k l := ⟨k,related⟩
  simp only [known,dite_true]
  rw [pairing.injective related known.choose_spec]

theorem satisfiable (pairing : Pairing m n R) {a b : State} (like : a.Like R b)
    (possible : ∃ i, a.path.holds i = true) : ∃ j, b.path.holds j = true := by
  obtain ⟨i,holds⟩ := possible
  obtain ⟨j,fits⟩ := pairing.exists_fits i
  exact ⟨j,like.holds fits ▸ holds⟩

theorem exists_perm (pairing : Pairing m n R) : ∃ ρ : Equiv.Perm Nat, ∀ i j, R i j → ρ i = j := by
  classical
  choose! image related using fun i (known : ∃ j, R i j) => known
  let sources := (Finset.range m).filter fun i => ∃ j, R i j
  have known (i : sources) : R i (image i) := related i (Finset.mem_filter.mp i.2).2
  have injective : Function.Injective fun i : sources => image i := by
    intro i k same
    have there : R k (image i) := by
      rw [show image i = image k from same]
      exact known k
    exact Subtype.ext (pairing.injective (known i) there)
  -- Permutations take any list of distinct numbers to any other one.
  let listed := sources.equivFin.symm.toEmbedding
  obtain ⟨ρ,maps⟩ := (Equiv.Perm.isMultiplyPretransitive Nat sources.card).exists_smul_eq
    (listed.trans (.subtype _)) (listed.trans ⟨_,injective⟩)
  refine ⟨ρ,fun i j pair => ?_⟩
  have source : i ∈ sources := Finset.mem_filter.mpr ⟨Finset.mem_range.mpr (pairing.left pair),j,pair⟩
  have mapped : ρ i = image i := by simpa [listed] using DFunLike.congr_fun maps (sources.equivFin ⟨i,source⟩)
  exact mapped.trans (pairing.functional (known ⟨i,source⟩) pair)

end Pairing

/-- The symbol under another number. -/
def Symbol.rename (ρ : Nat → Nat) (s : Symbol) : Symbol :=
  ⟨s.name,ρ s.index⟩

def Term.rename (ρ : Nat → Nat) : Term → Term
  | .lit n => .lit n
  | .sym s => .sym (s.rename ρ)
  | .add a b => .add (a.rename ρ) (b.rename ρ)
  | .sub a b => .sub (a.rename ρ) (b.rename ρ)
  | .mul a b => .mul (a.rename ρ) (b.rename ρ)
  | .div a b => .div (a.rename ρ) (b.rename ρ)

mutual

def Formula.rename (ρ : Nat → Nat) : Formula → Formula
  | .bool b => .bool b
  | .rel r a b => .rel r (a.rename ρ) (b.rename ρ)
  | .not f => .not (f.rename ρ)
  | .and fs => .and (Formula.renameAll ρ fs)
  | .or fs => .or (Formula.renameAll ρ fs)

def Formula.renameAll (ρ : Nat → Nat) : List Formula → List Formula
  | [] => []
  | f :: fs => f.rename ρ :: Formula.renameAll ρ fs

end

/-- The integers that renamed symbols have. -/
def Interpretation.along (ρ : Nat → Nat) (i : Interpretation) : Interpretation :=
  ⟨fun s => i.symbol (s.rename ρ),i.byZero⟩

theorem Term.rename_eval (ρ : Nat → Nat) (i : Interpretation) (t : Term) :
    (t.rename ρ).eval i = t.eval (i.along ρ) := by
  induction t with
  | lit n => rfl
  | sym s => rfl
  | add a b left right | sub a b left right | mul a b left right => simp only [rename,eval,left,right]
  | div a b left right =>
    simp only [rename,eval,left,right]
    rfl

mutual

theorem Formula.rename_eval (ρ : Nat → Nat) (i : Interpretation) :
    (f : Formula) → (f.rename ρ).eval i = f.eval (i.along ρ)
  | .bool b => rfl
  | .rel r a b => by simp only [rename,eval,Term.rename_eval]
  | .not f => by simp only [rename,eval,rename_eval ρ i f]
  | .and fs => by simp only [rename,eval,renameAll_evalAll ρ i fs]
  | .or fs => by simp only [rename,eval,renameAll_evalAny ρ i fs]

theorem Formula.renameAll_evalAll (ρ : Nat → Nat) (i : Interpretation) :
    (fs : List Formula) → Formula.evalAll i (Formula.renameAll ρ fs) = Formula.evalAll (i.along ρ) fs
  | [] => rfl
  | f :: fs => by simp only [renameAll,evalAll,rename_eval ρ i f,renameAll_evalAll ρ i fs]

theorem Formula.renameAll_evalAny (ρ : Nat → Nat) (i : Interpretation) :
    (fs : List Formula) → Formula.evalAny i (Formula.renameAll ρ fs) = Formula.evalAny (i.along ρ) fs
  | [] => rfl
  | f :: fs => by simp only [renameAll,evalAny,rename_eval ρ i f,renameAll_evalAny ρ i fs]

end

/-- The same bindings and, in the same order, equivalent conditions, when the symbols of the first state are renamed. -/
structure State.Renames (ρ : Nat → Nat) (a b : State) : Prop where
  env : ∀ name : String, b.env[name]? = a.env[name]?.map (Symbol.rename ρ)
  path : List.Forall₂ (fun f g : Formula => ∀ i, g.eval i = (f.rename ρ).eval i) a.path b.path

theorem State.Like.renames {R : Nat → Nat → Prop} {ρ : Nat → Nat} {a b : State} (like : a.Like R b)
    (maps : ∀ i j, R i j → ρ i = j) : a.Renames ρ b := by
  constructor
  · intro name
    have related := like.env name
    generalize a.env[name]? = s, b.env[name]? = t at related
    cases related with
    | none => rfl
    | @some s t same =>
      obtain ⟨named,numbered⟩ := same
      simp only [Option.map_some,Symbol.rename,maps _ _ numbered,named]
  · refine like.path.imp fun f g same i => ?_
    rw [Formula.rename_eval]
    refine (same (i.along ρ) i ⟨fun name m n related => ?_,rfl⟩).symm
    simp only [Interpretation.along,Symbol.rename,maps m n related]

end WhileExec.Symbolic
