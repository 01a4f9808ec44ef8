import Mathlib
import WhileExec.Proofs.Definedness
import WhileExec.Proofs.Endings

/-!
# Runs from stores that agree

Two runs of a statement from stores that agree on what the statement uses undefined stay in step: they decide every
condition alike, so they iterate alike, end alike and fail alike. On the way the variables on which the stores agree
become more, since what one run defines the other one defines with the same value, and they never become fewer.
-/

namespace WhileExec

/-- The stores have the same values, or none, for all variables of a kind. -/
def Store.SameOn (P : String → Prop) (a b : Store) : Prop :=
  ∀ x, P x → a[x]? = b[x]?

namespace Store.SameOn

variable {P Q : String → Prop} {a b : Store}

theorem mono (same : SameOn P a b) (within : ∀ x, Q x → P x) : SameOn Q a b :=
  fun x member => same x (within x member)

theorem insert (same : SameOn P a b) (name : String) (v : Value) :
    SameOn (fun x => P x ∨ name = x) (a.insert name v) (b.insert name v) := by
  intro x member
  simp only [Std.TreeMap.getElem?_insert]
  split
  · rfl
  next apart =>
    rcases member with member | rfl
    · exact same x member
    · simp at apart

end Store.SameOn

namespace Expr

variable {a b : Store}

theorem someReads_iff {x : String} {es : List Expr} : someReads x es = true ↔ ∃ e ∈ es, e.reads x = true := by
  induction es with
  | nil => simp [someReads]
  | cons e es ih => simp [someReads,ih]

theorem evalAll_same {es : List Expr} (each : ∀ e ∈ es, e.eval a = e.eval b) : evalAll a es = evalAll b es := by
  induction es with
  | nil => rfl
  | cons e es ih => rw [evalAll,evalAll,each e (by simp),ih fun e member => each e (by simp [member])]

/-- Evaluation depends on the variables that occur, also in how it fails. -/
theorem eval_same (e : Expr) (same : Store.SameOn (fun x => e.reads x = true) a b) : e.eval a = e.eval b := by
  induction e using Expr.structural with
  | int n => rfl
  | truth v => rfl
  | var x => rw [eval,eval,same x (by simp [reads])]
  | app form op args ih =>
    have operands : evalAll a args = evalAll b args := by
      apply evalAll_same
      intro e member
      exact ih e member (same.mono fun x occurs => someReads_iff.mpr ⟨e,member,occurs⟩)
    cases form with
    | plain => rfl
    | logic | arith | compare => simp only [eval,operands]

end Expr

namespace Run

variable {α β : Type} {P Q R : String → Prop}

/-- Two computations end alike: with the same value in stores that agree on `Q`, or with the same fault in stores that
agree on `P`. -/
inductive InStep (P Q : String → Prop) : EStateM.Result Fault Machine α → EStateM.Result Fault Machine α → Prop
  | ok (a : α) {m n : Machine} (same : Store.SameOn Q m.store n.store) : InStep P Q (.ok a m) (.ok a n)
  | error (fault : Fault) {m n : Machine} (same : Store.SameOn P m.store n.store) :
    InStep P Q (.error fault m) (.error fault n)

namespace InStep

theorem mono {P' Q' : String → Prop} {r s : EStateM.Result Fault Machine α} (together : InStep P Q r s)
    (faults : ∀ x, P' x → P x) (values : ∀ x, Q' x → Q x) : InStep P' Q' r s := by
  cases together with
  | ok a same => exact .ok a (same.mono values)
  | error fault same => exact .error fault (same.mono faults)

theorem of_ok {a : α} {m : Machine} {r : EStateM.Result Fault Machine α} (together : InStep P Q (.ok a m) r) :
    ∃ n, r = .ok a n ∧ Store.SameOn Q m.store n.store := by
  cases together with
  | ok _ same => exact ⟨_,rfl,same⟩

theorem of_error {fault : Fault} {m : Machine} {r : EStateM.Result Fault Machine α}
    (together : InStep P Q (.error fault m) r) : ∃ n, r = .error fault n ∧ Store.SameOn P m.store n.store := by
  cases together with
  | error _ same => exact ⟨_,rfl,same⟩

theorem bind {action : Run α} {next : α → Run β} {m n : Machine} (first : InStep P Q (action m) (action n))
    (second : ∀ a m n, Store.SameOn Q m.store n.store → InStep P R (next a m) (next a n)) :
    InStep P R ((action >>= next) m) ((action >>= next) n) := by
  change InStep P R (action.bind next m) (action.bind next n)
  unfold EStateM.bind
  generalize action m = r at first ⊢
  generalize action n = s at first ⊢
  cases first with
  | ok a same => exact second a _ _ same
  | error fault same => exact .error fault same

theorem value {e : Expr} {m n : Machine} (within : ∀ x, e.reads x = true → P x)
    (same : Store.SameOn P m.store n.store) : InStep P P (Run.value e m) (Run.value e n) := by
  have alike := e.eval_same (same.mono within)
  simp only [Run.value,Bind.bind,EStateM.bind,get,getThe,MonadStateOf.get,EStateM.get,alike]
  cases e.eval n.store with
  | ok v => exact .ok v same
  | error fault => exact .error fault same

theorem demand {s : Stmt} {cond : Expr} {m n : Machine} (within : ∀ x, cond.reads x = true → P x)
    (same : Store.SameOn P m.store n.store) : InStep P P (Run.demand s cond m) (Run.demand s cond n) := by
  refine (value within same).bind fun v m n same => ?_
  split
  · exact .ok () same
  · cases (s.write 0).toExcept with
    | ok text => exact .error (.violated text) same
    | error fault => exact .error fault same

/-- Both loops iterate equally often if every iteration keeps what the stores agree on. -/
theorem iterate {cond : Expr} {body : Run Unit} (within : ∀ x, cond.reads x = true → P x)
    (step : ∀ m n, Store.SameOn P m.store n.store → InStep P P (body m) (body n)) (limit : Nat) (m n : Machine)
    (same : Store.SameOn P m.store n.store) :
    InStep P P (Run.iterate (Value.isTrue <$> Run.value cond) body limit m)
      (Run.iterate (Value.isTrue <$> Run.value cond) body limit n) := by
  have tests : ∀ m n, Store.SameOn P m.store n.store →
      InStep P P ((Value.isTrue <$> Run.value cond) m) ((Value.isTrue <$> Run.value cond) n) := by
    intro m n same
    rw [map_eq_pure_bind]
    exact (value within same).bind fun v m n same => .ok _ same
  induction limit generalizing m n with
  | zero =>
    refine (tests m n same).bind fun b m n same => ?_
    cases b with
    | true => exact .error .unending same
    | false => exact .ok () same
  | succ limit ih =>
    refine (tests m n same).bind fun b m n same => ?_
    cases b with
    | true => exact (step m n same).bind fun _ m n same => ih m n same
    | false => exact .ok () same

theorem forM_set (names : List String) (m n : Machine) (same : Store.SameOn P m.store n.store) :
    InStep P (fun x => P x ∨ names.contains x = true) ((names.forM fun name => Run.set name (.int 0)) m)
      ((names.forM fun name => Run.set name (.int 0)) n) := by
  induction names generalizing m n P with
  | nil => exact .ok () (by simpa using same)
  | cons name names ih =>
    refine (ih _ _ (same.insert name (.int 0))).mono (fun x => .inl) fun x member => ?_
    simp only [List.contains_cons,Bool.or_eq_true,beq_iff_eq] at member
    tauto

end InStep

end Run

/-- All variables that are defined at one point, and all that are used undefined on the way from there to another, are
of a kind. -/
structure Fact.Within (before after : Fact) (P : String → Prop) : Prop where
  defs : ∀ x ∈ before.defs, P x
  undefs : ∀ x ∈ after.undefs, P x

namespace Fact.Within

variable {f g : Fact} {P : String → Prop}

theorem narrow {f' g' : Fact} (within : Within f g P) (same : f'.defs = f.defs)
    (fewer : ∀ x ∈ g'.undefs, x ∈ g.undefs) : Within f' g' P :=
  ⟨fun x known => within.defs x (same ▸ known),fun x used => within.undefs x (fewer x used)⟩

theorem reads {e : Expr} (within : Within f (e.fact f) P) (x : String) (occurs : e.reads x = true) : P x := by
  by_cases known : x ∈ f.defs
  · exact within.defs x known
  · exact within.undefs x ((e.mem_fact_undefs f).mpr (.inr ⟨occurs,known⟩))

theorem after (within : Within f g P) (s : Stmt) : Within (s.fact f) g fun x => P x ∨ s.settles x = true := by
  refine ⟨fun x known => ?_,fun x used => .inl (within.undefs x used)⟩
  exact ((s.mem_fact_defs f).mp known).imp_left (within.defs x)

end Fact.Within

namespace Stmt

/-- Two runs from stores that agree on all that was defined and all that will be used undefined. In the end they agree
on what the statement settles as well. -/
theorem exec_inStep (limit : Nat) (s : Stmt) (f : Fact) {P : String → Prop} (m n : Machine)
    (within : Fact.Within f (s.fact f) P) (same : Store.SameOn P m.store n.store) :
    Run.InStep P (fun x => P x ∨ s.settles x = true) (s.exec limit m) (s.exec limit n) := by
  induction s using Stmt.structural generalizing f P m n with
  | skip | printState => exact .ok () (by simpa [settles] using same)
  | assign name rhs =>
    have evaluated : Fact.Within f (rhs.fact f) P := within.narrow rfl fun _ used => used
    refine (Run.InStep.value evaluated.reads same).bind fun v m n same => .ok () ?_
    simpa [settles] using same.insert name v
  | ifElse cond yes no left right =>
    have joined : ∀ x, x ∈ (yes.fact (cond.fact f)).undefs ∨ x ∈ (no.fact (cond.fact f)).undefs →
        x ∈ (fact f (.ifElse cond yes no)).undefs := fun x => Std.TreeSet.mem_union_iff.mpr
    have tested : Fact.Within f (cond.fact f) P :=
      within.narrow rfl fun x used => joined x (.inl (yes.fact_undefs used))
    refine (Run.InStep.value tested.reads same).bind fun v m n same => ?_
    split
    · have entered := within.narrow (cond.fact_defs f) fun x used => joined x (.inl used)
      refine (left _ m n entered same).mono (fun _ => id) fun x => Or.imp_right fun both => ?_
      exact (Bool.and_eq_true_iff.mp both).1
    · have entered := within.narrow (cond.fact_defs f) fun x used => joined x (.inr used)
      refine (right _ m n entered same).mono (fun _ => id) fun x => Or.imp_right fun both => ?_
      exact (Bool.and_eq_true_iff.mp both).2
  | ifOnly cond yes ih =>
    have joined : ∀ x, x ∈ (yes.fact (cond.fact f)).undefs ∨ x ∈ (cond.fact f).undefs →
        x ∈ (fact f (.ifOnly cond yes)).undefs := fun x => Std.TreeSet.mem_union_iff.mpr
    have tested : Fact.Within f (cond.fact f) P := within.narrow rfl fun x used => joined x (.inr used)
    simp only [settles,Bool.false_eq_true,or_false]
    refine (Run.InStep.value tested.reads same).bind fun v m n same => ?_
    split
    · have entered := within.narrow (cond.fact_defs f) fun x used => joined x (.inl used)
      exact (ih _ m n entered same).mono (fun _ => id) fun _ => .inl
    · exact .ok () same
  | loop cond body inv ih =>
    have joined : ∀ x, x ∈ (body.fact (cond.fact f)).undefs ∨ x ∈ (cond.fact f).undefs →
        x ∈ (fact f (.loop cond body inv)).undefs := fun x => Std.TreeSet.mem_union_iff.mpr
    have tested : Fact.Within f (cond.fact f) P := within.narrow rfl fun x used => joined x (.inr used)
    have entered : Fact.Within (cond.fact f) (body.fact (cond.fact f)) P :=
      within.narrow (cond.fact_defs f) fun x used => joined x (.inl used)
    simp only [settles,Bool.false_eq_true,or_false]
    -- what the stores agree on before the first iteration, they agree on before every later one
    exact Run.InStep.iterate tested.reads
      (fun m n same => (ih _ m n entered same).mono (fun _ => id) fun _ => .inl) limit m n same
  | assert cond | assume cond =>
    simp only [settles,Bool.false_eq_true,or_false]
    exact Run.InStep.demand (Fact.Within.reads within) same
  | havoc names => exact Run.InStep.forM_set names m n same
  | block items ih =>
    unfold exec
    simp only [fact] at within
    simp only [settles]
    induction items generalizing f P m n with
    | nil => exact .ok () (by simpa [someSettles] using same)
    | cons s ss rest =>
      have first : Fact.Within f (s.fact f) P := within.narrow rfl fun x used => fact_undefs (.block ss) used
      refine (ih s (by simp) f m n first same).bind fun _ m n same => ?_
      refine (rest (fun t member => ih t (by simp [member])) (s.fact f) m n (within.after s) same).mono
        (fun _ => .inl) fun x known => ?_
      simp only [someSettles,Bool.or_eq_true] at known
      tauto
  | hollow => exact .error .noItems same

/-- A run depends on the variables that are used undefined and on no others: from stores that agree on these, both runs
go on for ever, or both end, or both fail in the same way. The stores then still agree where they did, and if the runs
end they agree on all that is defined. -/
theorem exec_agreeing (s : Stmt) (m n : Machine)
    (same : ∀ x ∈ (s.fact {}).undefs, m.store[x]? = n.store[x]?) :
    (s.Diverges m ∧ s.Diverges n) ∨
      (∃ a b, s.Ends m (.ok () a) ∧ s.Ends n (.ok () b) ∧
        ∀ x : String, x ∈ (s.fact {}).defs ∨ m.store[x]? = n.store[x]? → a.store[x]? = b.store[x]?) ∨
      ∃ fault a b, s.Ends m (.error fault a) ∧ s.Ends n (.error fault b) ∧
        ∀ x : String, m.store[x]? = n.store[x]? → a.store[x]? = b.store[x]? := by
  have together := fun limit => s.exec_inStep limit {} m n ⟨by simp,same⟩ fun _ => id
  rcases s.diverges_or_ends m with diverges | ⟨result,settled,limit,ran⟩
  · refine .inl ⟨diverges,fun limit => ?_⟩
    obtain ⟨final,reached⟩ := diverges limit
    obtain ⟨other,reached,-⟩ := (reached ▸ together limit).of_error
    exact ⟨other,reached⟩
  · refine .inr ?_
    cases result with
    | ok u a =>
      obtain ⟨b,again,alike⟩ := (ran ▸ together limit).of_ok
      refine .inl ⟨a,b,⟨settled,limit,ran⟩,⟨Run.settled_ok u b,limit,again⟩,fun x known => alike x ?_⟩
      rcases known with defined | before
      · exact .inr (((s.mem_fact_defs {}).mp defined).resolve_left (by simp))
      · exact .inl before
    | error fault a =>
      obtain ⟨b,again,alike⟩ := (ran ▸ together limit).of_error
      have other : fault ≠ .unending := Run.settled_error.mp settled
      exact .inr ⟨fault,a,b,⟨settled,limit,ran⟩,⟨Run.settled_error.mpr other,limit,again⟩,alike⟩

/-- The number is nine, and the variables that the program defines itself have values from before. -/
def nineAgain : Machine :=
  { store := ((nine.store.insert "n" (.int 4)).insert "h" (.bool true)).insert "z" (.int 1), out := "h: 2\n" }

/-- The counts are the same, whatever they were before. -/
theorem halvings_agreeing : ∃ a b, halvings.Ends nine (.ok () a) ∧ halvings.Ends nineAgain (.ok () b) ∧
    nine.store["n"]? ≠ nineAgain.store["n"]? ∧ a.store["n"]? = b.store["n"]? ∧
    a.store["z"]? ≠ b.store["z"]? := by
  have undefs : (halvings.fact {}).undefs.toList = ["x"] := by decide +kernel
  have counted : "n" ∈ (halvings.fact {}).defs := by decide +kernel
  have same : ∀ x ∈ (halvings.fact {}).undefs, nine.store[x]? = nineAgain.store[x]? := by
    intro x used
    rw [← Std.TreeSet.mem_toList,undefs,List.mem_singleton] at used
    subst used
    rfl
  have ends : halvings.Ends nine _ := ⟨Run.settled_ok _ _,3,rfl⟩
  rcases exec_agreeing halvings nine nineAgain same with ⟨diverges,-⟩ | ⟨a,b,first,second,alike⟩ | ⟨_,_,_,fails,-⟩
  · exact absurd diverges ends.not_diverges
  · refine ⟨a,b,first,second,by decide +kernel,alike "n" (.inl counted),?_⟩
    have other : halvings.Ends nineAgain _ := ⟨Run.settled_ok _ _,3,rfl⟩
    cases first.unique ends
    cases second.unique other
    decide +kernel
  · cases fails.unique ends

end Stmt

end WhileExec
