import Mathlib
import WhileExec.Proofs.Symbolic.Courses
import WhileExec.Proofs.Symbolic.EagerSteps

/-!
# Courses of eager exploration

A statement that contains no list gives the results of all its courses that end in possible states. A loop takes all
its states one round further at a time, so the courses of a loop are followed for a whole family of states: any two
members have parted at some condition, and each member goes on by itself. A round is one iteration for all of them, and
what leaves the loop in one of ten rounds has done less than ten iterations.
-/

namespace WhileExec

/-- No block occurs, no branch without an alternative and no loop with an invariant. -/
def Stmt.listFree (s : Stmt) : Bool :=
  s.every fun
    | .block _ | .hollow | .ifOnly _ _ | .loop _ _ (some _) => false
    | _ => true

theorem Stmt.every_mono {p q : Stmt → Bool} (weaker : ∀ s, p s = true → q s = true) {s : Stmt}
    (all : s.every p = true) : s.every q = true := by
  induction s using Stmt.structural with
  | ifElse cond yes no left right =>
    simp only [every,Bool.and_eq_true] at all ⊢
    exact ⟨⟨weaker _ all.1.1,left all.1.2⟩,right all.2⟩
  | ifOnly cond yes ih | loop cond yes inv ih =>
    simp only [every,Bool.and_eq_true] at all ⊢
    exact ⟨weaker _ all.1,ih all.2⟩
  | block items ih =>
    simp only [every,Bool.and_eq_true,everyOf_iff] at all ⊢
    exact ⟨weaker _ all.1,fun s member => ih s member (all.2 s member)⟩
  | _ => exact weaker _ all

theorem Stmt.listFree_invariantFree {s : Stmt} (bare : s.listFree = true) : s.invariantFree = true := by
  apply Stmt.every_mono _ bare
  intro s
  cases s with
  | loop cond body inv => cases inv <;> simp
  | _ => simp

namespace Symbolic

open Course (Between)

namespace Eager

/-- States of a pool, each with the course that led to it. -/
abbrev Family := List (Handle × Course)

/-- Different states on courses that have parted. -/
def Apart (x y : Handle × Course) : Prop :=
  x.1 ≠ y.1 ∧ x.2.Diverges y.2

theorem Apart.symm {x y : Handle × Course} (apart : Apart x y) : Apart y x :=
  ⟨apart.1.symm,apart.2.symm⟩

instance : Std.Symm Apart := ⟨fun _ _ => Apart.symm⟩

/-- The states are in the pool, the symbols of their courses have been made, and any two of them are apart. -/
structure Known (p : Pool) (xs : Family) : Prop where
  valid : ∀ x ∈ xs, x.1 < p.states.size
  made : ∀ x ∈ xs, ∀ n ∈ x.2.numbers, n < p.symbols
  apart : xs.Pairwise Apart

/-- The second family is what the first one has become. Under the condition all of its states are possible. -/
structure Carries (condition : Prop) (G : Going) (p q : Pool) (xs ys : Family) : Prop where
  follows : ∀ y ∈ ys, ∃ x ∈ xs, ∃ e, y.2 = x.2 ++ e ∧ G .flat e (p.state x.1) (q.state y.1) ∧
    Between p.symbols q.symbols e
  complete : ∀ x ∈ xs, ∃ later, G.Complete p.symbols (p.state x.1) later ∧ ∀ d ∈ later, x.2 ++ d ∈ ys.map (·.2)
  possible : condition → ∀ y ∈ ys, q.Possible y.1

namespace Known

variable {p q : Pool} {xs ys zs : Family} {x : Handle × Course}

theorem perm (known : Known p xs) (perm : xs.Perm ys) : Known p ys :=
  ⟨fun x member => known.valid x (perm.mem_iff.mpr member),fun x member => known.made x (perm.mem_iff.mpr member),
    (perm.pairwise_iff fun apart => apart.symm).mp known.apart⟩

theorem sublist (known : Known p ys) (sub : xs.Sublist ys) : Known p xs :=
  ⟨fun x member => known.valid x (sub.subset member),fun x member => known.made x (sub.subset member),
    known.apart.sublist sub⟩

theorem ne_of_cons (known : Known p (x :: xs)) {y : Handle × Course} (member : y ∈ xs) : y.1 ≠ x.1 :=
  (List.rel_of_pairwise_cons known.apart member).1.symm

theorem ne_of_append (known : Known p (xs ++ ys)) {y z : Handle × Course} (one : y ∈ xs) (two : z ∈ ys) : y.1 ≠ z.1 :=
  ((List.pairwise_append.mp known.apart).2.2 y one z two).1

/-- A member of a family gives way to what it has become. -/
theorem replace {condition : Prop} {G : Going} (known : Known p (x :: zs)) (tame : Tame {x.1} p (ys.map (·.1)) q)
    (found : Known q ys) (carries : Carries condition G p q [x] ys) : Known q (ys ++ zs) := by
  have old (z) (member : z ∈ zs) : z.1 < p.states.size := known.valid z (List.mem_cons_of_mem x member)
  have older (z) (member : z ∈ zs) := known.made z (List.mem_cons_of_mem x member)
  refine ⟨fun z member => ?_,fun z member n made => ?_,?_⟩
  · rcases List.mem_append.mp member with member | member
    · exact found.valid z member
    · exact (old z member).trans_le tame.grows.size
  · rcases List.mem_append.mp member with member | member
    · exact found.made z member n made
    · exact (older z member n made).trans_le tame.grows.symbols
  · refine List.pairwise_append.mpr ⟨found.apart,known.apart.of_cons,fun y one z two => ?_⟩
    obtain ⟨apart,diverges⟩ := List.rel_of_pairwise_cons known.apart two
    obtain ⟨w,same,e,course,-,between⟩ := carries.follows y one
    obtain rfl := List.mem_singleton.mp same
    refine ⟨fun equal => ?_,?_⟩
    · have inside := tame.own y.1 (List.mem_map_of_mem one) (equal ▸ old z two)
      exact apart (inside.symm.trans equal)
    · rw [course]
      refine diverges.append_left fun n new made => ?_
      have := (between.within n new).1
      have := older z two n made
      omega

end Known

namespace Carries

variable {C D : Prop} {G H : Going} {p q r : Pool} {xs ys zs us vs : Family} {x : Handle × Course} {cond : Expr}

theorem nil : Carries C G p q [] [] :=
  ⟨by simp,by simp,by simp⟩

theorem of_one {later : List Course}
    (follows : ∀ y ∈ ys, ∃ e, y.2 = x.2 ++ e ∧ G .flat e (p.state x.1) (q.state y.1) ∧ Between p.symbols q.symbols e)
    (complete : G.Complete p.symbols (p.state x.1) later) (listed : ∀ d ∈ later, x.2 ++ d ∈ ys.map (·.2))
    (possible : C → ∀ y ∈ ys, q.Possible y.1) : Carries C G p q [x] ys := by
  refine ⟨fun y member => ⟨x,by simp,follows y member⟩,fun y member => ?_,possible⟩
  obtain rfl := List.mem_singleton.mp member
  exact ⟨later,complete,listed⟩

theorem follows_one (carries : Carries C G p q [x] ys) {y : Handle × Course} (member : y ∈ ys) :
    ∃ e, y.2 = x.2 ++ e ∧ G .flat e (p.state x.1) (q.state y.1) ∧ Between p.symbols q.symbols e := by
  obtain ⟨w,origin,rest⟩ := carries.follows y member
  exact List.mem_singleton.mp origin ▸ rest

theorem none (complete : G.Complete p.symbols (p.state x.1) []) : Carries C G p q [x] [] :=
  of_one (by simp) complete (by simp) (by simp)

theorem single {e : Course} {o : Handle} (going : G .flat e (p.state x.1) (q.state o))
    (between : Between p.symbols q.symbols e) (complete : G.Complete p.symbols (p.state x.1) [e])
    (possible : C → q.Possible o) : Carries C G p q [x] [(o,x.2 ++ e)] := by
  refine of_one (fun y member => ⟨e,?_⟩) complete (by simp) fun holds y member => ?_ <;>
    obtain rfl := List.mem_singleton.mp member
  · exact ⟨rfl,going,between⟩
  · exact possible holds

theorem mono (carries : Carries C G p q xs ys) (weaker : D → C) : Carries D G p q xs ys :=
  ⟨carries.follows,carries.complete,fun holds => carries.possible (weaker holds)⟩

theorem reorder (carries : Carries C G p q xs ys) (perm : ys.Perm zs) : Carries C G p q xs zs := by
  refine ⟨fun z member => carries.follows z (perm.mem_iff.mpr member),fun x member => ?_,fun holds z member =>
    carries.possible holds z (perm.mem_iff.mpr member)⟩
  obtain ⟨later,complete,listed⟩ := carries.complete x member
  exact ⟨later,complete,fun d found => (perm.map _).mem_iff.mp (listed d found)⟩

theorem kept {owned : Set Handle} (carries : Carries C G p q xs ys) (grows : q.Grows owned r)
    (valid : ∀ y ∈ ys, y.1 < q.states.size) (free : ∀ y ∈ ys, y.1 ∉ owned) : Carries C G p r xs ys := by
  refine ⟨fun y member => ?_,carries.complete,fun holds y member => ?_⟩
  · obtain ⟨x,origin,e,course,going,between⟩ := carries.follows y member
    have state := grows.others y.1 (valid y member) (free y member)
    exact ⟨x,origin,e,course,state ▸ going,between.mono le_rfl grows.symbols⟩
  · obtain ⟨i,store,represents⟩ := carries.possible holds y member
    exact ⟨i,store,represents.grows grows (free y member)⟩

theorem earlier {owned : Set Handle} (carries : Carries C G q r xs ys) (grows : p.Grows owned q)
    (valid : ∀ x ∈ xs, x.1 < p.states.size) (free : ∀ x ∈ xs, x.1 ∉ owned) : Carries C G p r xs ys := by
  refine ⟨fun y member => ?_,fun x member => ?_,carries.possible⟩
  · obtain ⟨x,origin,e,course,going,between⟩ := carries.follows y member
    rw [grows.others x.1 (valid x origin) (free x origin)] at going
    exact ⟨x,origin,e,course,going,between.mono grows.symbols le_rfl⟩
  · obtain ⟨later,complete,listed⟩ := carries.complete x member
    rw [grows.others x.1 (valid x member) (free x member)] at complete
    exact ⟨later,complete.mono grows.symbols fun _ => id,listed⟩

theorem append (first : Carries C G p q xs ys) (second : Carries D G p q us vs) :
    Carries (C ∧ D) G p q (xs ++ us) (ys ++ vs) := by
  refine ⟨fun y member => ?_,fun x member => ?_,fun holds y member => ?_⟩ <;>
    rcases List.mem_append.mp member with member | member
  · obtain ⟨x,origin,rest⟩ := first.follows y member
    exact ⟨x,List.mem_append_left _ origin,rest⟩
  · obtain ⟨x,origin,rest⟩ := second.follows y member
    exact ⟨x,List.mem_append_right _ origin,rest⟩
  · obtain ⟨later,complete,listed⟩ := first.complete x member
    exact ⟨later,complete,fun d found => by simpa using Or.inl (by simpa using listed d found)⟩
  · obtain ⟨later,complete,listed⟩ := second.complete x member
    exact ⟨later,complete,fun d found => by simpa using Or.inr (by simpa using listed d found)⟩
  · exact first.possible holds.1 y member
  · exact second.possible holds.2 y member

/-- What goes one way at a condition and what goes the other way. -/
theorem union (yes : Carries C (.fork cond G .never) p q xs ys) (no : Carries D (.fork cond .never H) p q xs zs) :
    Carries (C ∧ D) (.fork cond G H) p q xs (zs ++ ys) := by
  refine ⟨fun y member => ?_,fun x member => ?_,fun holds y member => ?_⟩
  · rcases List.mem_append.mp member with member | member
    · obtain ⟨x,origin,e,course,⟨f,known,⟨d,-,none⟩ | refused⟩,between⟩ := no.follows y member
      · exact none.elim
      · exact ⟨x,origin,e,course,⟨f,known,.inr refused⟩,between⟩
    · obtain ⟨x,origin,e,course,⟨f,known,taken | ⟨d,-,none⟩⟩,between⟩ := yes.follows y member
      · exact ⟨x,origin,e,course,⟨f,known,.inl taken⟩,between⟩
      · exact none.elim
  · obtain ⟨later,complete,listed⟩ := yes.complete x member
    obtain ⟨later',complete',listed'⟩ := no.complete x member
    refine ⟨later ++ later',?_,fun d found => ?_⟩
    · rintro R m m' joining a c b pairing like ⟨f,known,taken | refused⟩ between possible
      · obtain ⟨d,found,shape⟩ := complete pairing like ⟨f,known,.inl taken⟩ between possible
        exact ⟨d,List.mem_append_left _ found,shape⟩
      · obtain ⟨d,found,shape⟩ := complete' pairing like ⟨f,known,.inr refused⟩ between possible
        exact ⟨d,List.mem_append_right _ found,shape⟩
    · rw [List.map_append]
      rcases List.mem_append.mp found with found | found
      · exact List.mem_append_right _ (listed d found)
      · exact List.mem_append_left _ (listed' d found)
  · rcases List.mem_append.mp member with member | member
    · exact no.possible holds.2 y member
    · exact yes.possible holds.1 y member

/-- Whether a state comes from a member of the family is told by its course. -/
theorem origin (apart : xs.Pairwise Apart) (carries : Carries C G p q xs ys) {y : Handle × Course} (found : y ∈ ys)
    (member : x ∈ xs) {d : Course} (course : y.2 = x.2 ++ d) :
    G .flat d (p.state x.1) (q.state y.1) ∧ Between p.symbols q.symbols d := by
  obtain ⟨w,listed,e,same,going,between⟩ := carries.follows y found
  have equal : w = x := by
    by_contra different
    have parted := apart.forall listed member different
    exact parted.2.append_ne e d (same.symm.trans course)
  subst equal
  obtain rfl : e = d := List.append_cancel_left (same.symm.trans course)
  exact ⟨going,between⟩

theorem andThen (apart : xs.Pairwise Apart) (guided : G.Guided) (narrows : H.Guided) (first : Carries C G p q xs ys)
    (second : Carries D H q r ys zs) (enough : C → D) : Carries C (G.andThen H) p r xs zs := by
  refine ⟨fun z member => ?_,fun x member => ?_,fun holds => second.possible (enough holds)⟩
  · obtain ⟨y,middle,e',course',going',between'⟩ := second.follows z member
    obtain ⟨x,origin,e,course,going,between⟩ := first.follows y middle
    exact ⟨x,origin,e ++ e',by rw [course',course,List.append_assoc],⟨e,e',_,rfl,going,going'⟩,between.append between'⟩
  · have mine (y) (middle : y ∈ ys) (d : Course) (course : y.2 = x.2 ++ d) := origin apart first middle member course
    obtain ⟨later,complete,listed⟩ := first.complete x member
    choose! node middle course using fun d found => List.mem_map.mp (listed d found)
    choose! more complete' listed' using second.complete
    refine ⟨later.flatMap fun d => (more (node d)).map (d ++ ·),?_,fun d found => ?_⟩
    · refine Going.Complete.andThen id (fun d => more (node d)) guided narrows
        (fun d found => (mine _ (middle d found) d (course d found)).1)
        (fun d found => (mine _ (middle d found) d (course d found)).2)
        (complete.mono le_rfl (by simp)) fun d found => complete' _ (middle d found)
    · obtain ⟨first,here,rest⟩ := List.mem_flatMap.mp found
      obtain ⟨last,there,rfl⟩ := List.mem_map.mp rest
      have whole := listed' _ (middle first here) last there
      rwa [course first here,List.append_assoc] at whole

end Carries

section Conditions

variable {C : Prop} {G H : Going} {p q : Pool} {zs ys : Family} {x : Handle × Course} {cond : Expr} {f : Formula}
  {solver : Solver}

theorem Known.split (known : Known p (x :: zs)) (f : Formula) :
    Known (p.split x.1 f) ((x.1,x.2 ++ [.took true]) :: (p.states.size,x.2 ++ [.took false]) :: zs) := by
  have valid := known.valid x (by simp)
  have old (z) (member : z ∈ zs) : z.1 < p.states.size := known.valid z (List.mem_cons_of_mem x member)
  have diverges (z) (member : z ∈ zs) (way : Bool) : Course.Diverges (x.2 ++ [.took way]) z.2 :=
    (List.rel_of_pairwise_cons known.apart member).2.append_left (by simp)
  refine ⟨?_,?_,.cons ?_ (.cons ?_ known.apart.of_cons)⟩
  · simp only [List.mem_cons,forall_eq_or_imp,Pool.split_size]
    exact ⟨Nat.lt_succ_of_lt valid,Nat.lt_succ_self _,fun z member => Nat.lt_succ_of_lt (old z member)⟩
  · simpa using known.made
  · simp only [List.mem_cons,forall_eq_or_imp]
    refine ⟨⟨valid.ne,x.2,true,[],[],rfl,rfl,by simp⟩,fun z member => ?_⟩
    exact ⟨(known.ne_of_cons member).symm,diverges z member true⟩
  · exact fun z member => ⟨(old z member).ne',diverges z member false⟩

theorem Carries.taken (known : p.formula .flat x.1 cond = .ok f) (valid : x.1 < p.states.size)
    (carries : Carries C G (p.split x.1 f) q [(x.1,x.2 ++ [.took true])] ys) :
    Carries C (.fork cond G .never) p q [x] ys := by
  obtain ⟨later,complete,listed⟩ := carries.complete (x.1,x.2 ++ [.took true]) (by simp)
  rw [p.split_state f valid] at complete
  have none : Going.never.Complete p.symbols ((p.state x.1).forked.require f.not) [] := .never
  refine .of_one (fun y member => ?_) (.fork known complete none) (by simpa using listed) carries.possible
  obtain ⟨e,course,going,between⟩ := carries.follows_one member
  rw [p.split_state f valid] at going
  exact ⟨.took true :: e,by simp [course],⟨f,known,.inl ⟨e,rfl,going⟩⟩,between.took true⟩

theorem Carries.refused (known : p.formula .flat x.1 cond = .ok f) (valid : x.1 < p.states.size)
    (carries : Carries C G (p.split x.1 f) q [(p.states.size,x.2 ++ [.took false])] ys) :
    Carries C (.fork cond .never G) p q [x] ys := by
  have state : (p.split x.1 f).state p.states.size = (p.state x.1).forked.require f.not := by
    rw [p.split_new f valid,p.forked_new]
    rfl
  obtain ⟨later,complete,listed⟩ := carries.complete (p.states.size,x.2 ++ [.took false]) (by simp)
  rw [state] at complete
  have none : Going.never.Complete p.symbols ((p.state x.1).require f) [] := .never
  refine .of_one (fun y member => ?_) (.fork known none complete) (by simpa using listed) carries.possible
  obtain ⟨e,course,going,between⟩ := carries.follows_one member
  rw [state] at going
  exact ⟨.took false :: e,by simp [course],⟨f,known,.inr ⟨e,rfl,going⟩⟩,between.took false⟩

theorem split_scoped (known : p.formula .flat x.1 cond = .ok f) (possible : p.Possible x.1) :
    ((p.split x.1 f).state x.1).Scoped p.symbols ∧ ((p.split x.1 f).state p.states.size).Scoped p.symbols := by
  obtain ⟨i,store,represents⟩ := possible
  have bound := Pool.formula_bound known represents.inScope
  rw [p.split_state f represents.valid,p.split_new f represents.valid,p.forked_new]
  have refused := represents.inScope.require (f := f.not) bound
  exact ⟨represents.inScope.require bound,refused.env,refused.path⟩

/-- The state, unless it is impossible. -/
def remaining (solver : Solver) (p : Pool) (x : Handle × Course) : Family :=
  if solver.unsat (p.state x.1).path then [] else [x]

theorem remaining_states : (remaining solver p x).map (·.1) = possible solver p x.1 := by
  unfold remaining possible
  split <;> rfl

theorem remaining_sublist : (remaining solver p x).Sublist [x] := by
  unfold remaining
  split <;> simp

theorem remaining_cons_sublist : (remaining solver p x ++ zs).Sublist (x :: zs) :=
  remaining_sublist.append (.refl zs)

theorem remaining_carries (exact : solver.Exact) (valid : x.1 < p.states.size) :
    Carries ((p.state x.1).Scoped p.symbols) .stay p p [x] (remaining solver p x) := by
  unfold remaining
  split
  next refused => exact .none (.of_refused exact.sound .stay refused)
  next passed =>
    obtain ⟨i,holds⟩ := exact.satisfiable (by simpa using passed)
    have single : Carries ((p.state x.1).Scoped p.symbols) .stay p p [x] [(x.1,x.2 ++ [])] :=
      .single ⟨rfl,rfl⟩ (.nil le_rfl) (.stay (by simp)) fun inScope => .of_holds valid inScope holds
    simpa using single

end Conditions

/-- From a possible state the results are those of all courses. -/
def Traces (G : Going) (explore : Handle → Explore (List Handle)) : Prop :=
  ∀ x p results q, Known p [x] → explore x.1 p = .ok results q →
    ∃ ys : Family, ys.map (·.1) = results ∧ Known q ys ∧ Carries (p.Possible x.1) G p q [x] ys

variable {solver : Solver} {cond : Expr} {explore body : Handle → Explore (List Handle)} {G H : Going} {p q : Pool}
  {xs zs : Family} {x : Handle × Course} {results left entered : List Handle}

/-- The exploration asks by itself whether the state is possible. -/
theorem Traces.attempt (exact : solver.Exact) (guided : G.Guided) (traces : Traces G explore) (known : Known p [x])
    (ok : attempt solver explore x.1 p = .ok results q) :
    ∃ ys : Family, ys.map (·.1) = results ∧ Known q ys ∧ Carries ((p.state x.1).Scoped p.symbols) G p q [x] ys := by
  rw [attempt_apply] at ok
  split at ok
  next refused =>
    cases ok
    exact ⟨[],rfl,known.sublist (by simp),.none (.of_refused exact.sound guided refused)⟩
  next passed =>
    obtain ⟨i,holds⟩ := exact.satisfiable (by simpa using passed)
    obtain ⟨ys,states,found,carries⟩ := traces x p results q known ok
    exact ⟨ys,states,found,carries.mono fun inScope => .of_holds (known.valid x (by simp)) inScope holds⟩

/-- The state that leaves a loop, unless it is impossible. -/
theorem leaving_carries {f : Formula} (exact : solver.Exact) (known : p.formula .flat x.1 cond = .ok f)
    (valid : x.1 < p.states.size) (grows : (p.split x.1 f).Grows {x.1} q) :
    Carries (p.Possible x.1) (.fork cond .never .stay) p q [x]
      (remaining solver (p.split x.1 f) (p.states.size,x.2 ++ [.took false])) := by
  have size : p.states.size < (p.split x.1 f).states.size := by simp
  have leaving := remaining_carries exact (x := (p.states.size,x.2 ++ [.took false])) size
  have only {y : Handle × Course} (member : y ∈ remaining solver (p.split x.1 f) (p.states.size,x.2 ++ [.took false])) :
      y.1 = p.states.size := by
    rw [List.mem_singleton.mp (remaining_sublist.subset member)]
  have still := leaving.kept grows (fun y member => only member ▸ size) fun y member same =>
    valid.ne' (only member ▸ same)
  exact (still.refused known valid).mono fun possible => (split_scoped known possible).2

theorem advance_traces (exact : solver.Exact) (guided : G.Guided) (traces : Traces G body) (keeping : Keeping body)
    (known : Known p (x :: zs)) (ok : advance solver cond body x.1 p = .ok (left,entered) q) :
    ∃ ls es : Family, ls.map (·.1) = left ∧ es.map (·.1) = entered ∧
      Carries (p.Possible x.1) (.fork cond .never .stay) p q [x] ls ∧
      Carries (p.Possible x.1) (.fork cond G .never) p q [x] es ∧ Known q (es ++ (ls ++ zs)) := by
  obtain ⟨f,formula,attempted,rfl⟩ := advance_ok ok
  have valid := known.valid x (by simp)
  have parted := known.split f
  have tame := keeping.attempt (p.lt_split f valid) attempted
  have leaving := leaving_carries exact formula valid tame.grows
  obtain ⟨es,states,found,carries⟩ := traces.attempt exact guided (x := (x.1,x.2 ++ [.took true]))
    (parted.sublist (by simp)) attempted
  have entering := (carries.taken formula valid).mono fun possible => (split_scoped formula possible).1
  refine ⟨remaining solver (p.split x.1 f) (p.states.size,x.2 ++ [.took false]),es,remaining_states,states,leaving,
    entering,?_⟩
  rw [← states] at tame
  exact (parted.sublist (remaining_cons_sublist.cons_cons _)).replace tame found carries

theorem round_traces (exact : solver.Exact) (guided : G.Guided) (traces : Traces G body) (keeping : Keeping body)
    (known : Known p (xs ++ zs)) (ok : round solver cond body (xs.map (·.1)) p = .ok (left,entered) q) :
    ∃ ls es : Family, ls.map (·.1) = left ∧ es.map (·.1) = entered ∧
      Carries (∀ x ∈ xs, p.Possible x.1) (.fork cond .never .stay) p q xs ls ∧
      Carries (∀ x ∈ xs, p.Possible x.1) (.fork cond G .never) p q xs es ∧ Known q (es ++ (ls ++ zs)) := by
  induction xs generalizing p zs left entered with
  | nil =>
    cases ok
    exact ⟨[],[],rfl,rfl,.nil,.nil,known⟩
  | cons x xs ih =>
    have valid : ∀ k ∈ (x :: xs).map (·.1), k < p.states.size := by
      intro k member
      obtain ⟨y,listed,rfl⟩ := List.mem_map.mp member
      exact known.valid y (List.mem_append_left zs listed)
    rw [List.cons_append] at known
    obtain ⟨left₁,entered₁,mid,left₂,entered₂,advanced,rounded,first,inside,rfl,rfl⟩ := round_cons keeping valid ok
    obtain ⟨ls,es,rfl,rfl,leaving,entering,found⟩ := advance_traces exact guided traces keeping known advanced
    have moved : Known mid (xs ++ (es ++ (ls ++ zs))) := by
      refine found.perm (Multiset.coe_eq_coe.mp ?_)
      simp only [← Multiset.coe_add]
      abel
    obtain ⟨ls',es',rfl,rfl,leaving',entering',found'⟩ := ih moved rounded
    have grows := first.tame.grows
    have later := (round_round keeping inside rounded).tame.grows
    -- The states still to come are untouched so far, and those that are done stay as they are.
    have waiting : ∀ y ∈ xs, y.1 ∉ ({x.1} : Set Handle) := fun y member =>
      known.ne_of_cons (List.mem_append_left zs member)
    have old : ∀ y ∈ xs, y.1 < p.states.size := fun y member => known.valid y (by simp [member])
    have done (ys : Family) (sub : ∀ y ∈ ys, y ∈ es ++ (ls ++ zs)) :
        ∀ y ∈ ys, y.1 < mid.states.size ∧ y.1 ∉ {k | k ∈ xs.map (·.1)} := by
      intro y member
      refine ⟨moved.valid y (List.mem_append_right _ (sub y member)),fun again => ?_⟩
      obtain ⟨z,listed,same⟩ := List.mem_map.mp again
      exact moved.ne_of_append listed (sub y member) same
    have still : (∀ y ∈ x :: xs, p.Possible y.1) → p.Possible x.1 ∧ ∀ y ∈ xs, mid.Possible y.1 := by
      intro possible
      refine ⟨possible x (by simp),fun y member => ?_⟩
      obtain ⟨i,store,represents⟩ := possible y (by simp [member])
      exact ⟨i,store,represents.grows grows (waiting y member)⟩
    have gone := done ls (by simp +contextual)
    have kept := done es (by simp +contextual)
    refine ⟨ls ++ ls',es ++ es',by simp,by simp,?_,?_,found'.perm (Multiset.coe_eq_coe.mp ?_)⟩
    · exact ((leaving.kept later (fun y member => (gone y member).1) fun y member => (gone y member).2).append
        (leaving'.earlier grows old waiting)).mono still
    · exact ((entering.kept later (fun y member => (kept y member).1) fun y member => (kept y member).2).append
        (entering'.earlier grows old waiting)).mono still
    · simp only [← Multiset.coe_add]
      abel

/-- One result, which the entered state has become. -/
theorem single_traces {e : Course} (known : Known p [x]) (grows : p.Grows {x.1} q)
    (going : G .flat e (p.state x.1) (q.state x.1)) (between : Between p.symbols q.symbols e)
    (complete : G.Complete p.symbols (p.state x.1) [e]) (possible : p.Possible x.1 → q.Possible x.1) :
    ∃ ys : Family, ys.map (·.1) = [x.1] ∧ Known q ys ∧ Carries (p.Possible x.1) G p q [x] ys := by
  refine ⟨[(x.1,x.2 ++ e)],rfl,⟨?_,?_,by simp⟩,.single going between complete possible⟩ <;> intro y member <;>
    obtain rfl := List.mem_singleton.mp member
  · exact (known.valid x (by simp)).trans_le grows.size
  · intro n made
    rw [Course.numbers_append] at made
    rcases List.mem_append.mp made with made | made
    · exact (known.made x (by simp) n made).trans_le grows.symbols
    · exact (between.within n made).2

/-- The entered state, unless a condition that was required makes it impossible. -/
theorem required_traces {f : Formula} (exact : solver.Exact) (known : Known p [x])
    (formula : p.formula .flat x.1 cond = .ok f) (grows : p.Grows {x.1} q)
    (state : q.state x.1 = (p.state x.1).require f) :
    ∃ ys : Family, ys.map (·.1) = possible solver q x.1 ∧ Known q ys ∧
      Carries (p.Possible x.1) (.require cond) p q [x] ys := by
  have valid := known.valid x (by simp)
  have later : Known q [x] :=
    ⟨by simpa using valid.trans_le grows.size,
      fun y member n made => (known.made y member n made).trans_le grows.symbols,known.apart⟩
  have carries := remaining_carries exact (x := x) (valid.trans_le grows.size)
  obtain ⟨courses,complete,listed⟩ := carries.complete x (by simp)
  rw [state] at complete
  refine ⟨remaining solver q x,remaining_states,later.sublist remaining_sublist,?_⟩
  refine .of_one (fun y member => ?_) (.require formula complete grows.symbols) listed fun admitted =>
    carries.possible ?_
  · obtain ⟨e,course,⟨rfl,same⟩,between⟩ := carries.follows_one member
    exact ⟨[],course,⟨rfl,f,formula,same.trans state⟩,.nil grows.symbols⟩
  · obtain ⟨i,store,represents⟩ := admitted
    rw [state]
    exact (represents.inScope.require (Pool.formula_bound formula represents.inScope)).mono grows.symbols

theorem unroll_traces (exact : solver.Exact) (guided : G.Guided) (traces : Traces G body) (keeping : Keeping body)
    {rounds : Nat} (known : Known p (xs ++ zs)) (ok : unroll solver cond body rounds (xs.map (·.1)) p = .ok results q) :
    ∃ ys : Family, ys.map (·.1) = results ∧ Known q (ys ++ zs) ∧
      Carries (∀ x ∈ xs, p.Possible x.1) (.iterate cond G rounds) p q xs ys := by
  induction rounds generalizing p xs zs results with
  | zero =>
    cases ok
    exact ⟨[],rfl,known.sublist (List.sublist_append_right xs zs),by simp,fun x _ => ⟨[],.never,by simp⟩,by simp⟩
  | succ rounds ih =>
    obtain ⟨left,entered,mid,rest,rounded,unrolled,rfl⟩ := unroll_ok ok
    obtain ⟨ls,es,rfl,rfl,leaving,entering,found⟩ := round_traces exact guided traces keeping known rounded
    obtain ⟨ys,rfl,found',carries⟩ := ih found unrolled
    have valid : ∀ k ∈ es.map (·.1), k < mid.states.size := by
      intro k member
      obtain ⟨y,listed,rfl⟩ := List.mem_map.mp member
      exact found.valid y (List.mem_append_left _ listed)
    have later := (unroll_tame keeping valid unrolled).1.grows
    have still := leaving.kept later (fun y member => found.valid y (by simp [member])) fun y member again => by
      obtain ⟨z,listed,same⟩ := List.mem_map.mp again
      exact found.ne_of_append listed (List.mem_append_left zs member) same
    have whole := entering.andThen (List.pairwise_append.mp known.apart).1 (.fork cond guided .never)
      (.iterate cond guided rounds) carries entering.possible
    rw [Going.fork_andThen] at whole
    refine ⟨ls ++ ys,by simp,found'.perm (Multiset.coe_eq_coe.mp ?_),(whole.union still).mono fun all => ⟨all,all⟩⟩
    simp only [← Multiset.coe_add]
    abel

theorem Traces.branch {yes no : Handle → Explore (List Handle)} {f : Formula} {mid : Pool}
    {first second : List Handle} (exact : solver.Exact) (guided : G.Guided) (guided' : H.Guided) (one : Traces G yes)
    (two : Traces H no) (keeping : Keeping yes) (keeping' : Keeping no) (known : Known p [x])
    (formula : p.formula .flat x.1 cond = .ok f)
    (entered : Eager.attempt solver yes x.1 (p.split x.1 f) = .ok first mid)
    (refused : Eager.attempt solver no p.states.size mid = .ok second q) :
    ∃ ys : Family, ys.map (·.1) = first ++ second ∧ Known q ys ∧
      Carries (p.Possible x.1) (.fork cond G H) p q [x] ys := by
  have valid := known.valid x (by simp)
  have branched := keeping.branched keeping' valid entered refused
  have parted := known.split f
  obtain ⟨ys,rfl,found,carries⟩ := one.attempt exact guided (x := (x.1,x.2 ++ [.took true])) (parted.sublist (by simp))
    entered
  have waiting := (parted.replace branched.entered found carries).perm List.perm_append_comm
  obtain ⟨zs,rfl,found',carries'⟩ := two.attempt exact guided' (x := (p.states.size,x.2 ++ [.took false]))
    (waiting.sublist (by simp)) refused
  have all := (waiting.replace branched.refused found' carries').perm List.perm_append_comm
  have still := carries.kept branched.refused.grows found.valid fun y member => waiting.ne_of_cons member
  have before := carries'.earlier branched.entered.grows (by simp) (by simpa using valid.ne')
  refine ⟨ys ++ zs,by simp,all,?_⟩
  refine (((still.taken formula valid).union (before.refused formula valid)).mono fun possible => ?_).reorder
    List.perm_append_comm
  refine ⟨(split_scoped formula possible).1,?_⟩
  rw [branched.fork_state valid]
  exact (split_scoped formula possible).2.mono branched.entered.grows.symbols

end Eager

open Eager

/-- What a statement without lists gives are the results of all its courses with less than ten iterations of every
loop. -/
theorem eager_traces {solver : Solver} (exact : solver.Exact) (s : Stmt) (bare : s.listFree = true) :
    Traces (going 9 s) (eager solver s) := by
  induction s using Stmt.structural with
  | skip =>
    intro x p results q known ok
    cases ok
    exact single_traces known (.refl _ _) ⟨rfl,rfl⟩ (.nil le_rfl) (.stay (by simp)) id
  | printState =>
    intro x p results q known ok
    cases ok
    refine single_traces known ((Pool.Grows.printed p _).widen (Set.empty_subset _)) ⟨rfl,rfl⟩ (.nil le_rfl)
      (.stay (by simp)) ?_
    rintro ⟨i,store,represents⟩
    exact ⟨i,store,represents.grows (.printed p _) (Set.notMem_empty x.1)⟩
  | assign name rhs =>
    intro x p results q known ok
    obtain ⟨t,term,rfl,rfl⟩ := eager_assign_ok ok
    have valid := known.valid x (by simp)
    refine single_traces (e := [.made ⟨name,p.symbols⟩]) known (.assigned p x.1 name t) ?_
      ((Between.nil le_rfl).made name) (.assign (List.mem_singleton.mpr rfl)) fun admitted => ?_
    · exact ⟨t,p.symbols,term,rfl,p.assigned_state name t valid⟩
    · obtain ⟨i,store,represents⟩ := id admitted
      exact admitted.assigned name (Pool.term_bound term represents.inScope)
  | ifElse cond yes no left right =>
    simp only [Stmt.listFree,Stmt.every,Bool.true_and,Bool.and_eq_true] at bare
    intro x p results q known ok
    obtain ⟨f,first,mid,second,formula,entered,refused,rfl⟩ := eager_ifElse_ok ok
    exact Traces.branch exact (going_guided 9 yes) (going_guided 9 no) (left bare.1) (right bare.2)
      (eager_keeping solver yes (Stmt.listFree_invariantFree bare.1))
      (eager_keeping solver no (Stmt.listFree_invariantFree bare.2)) known formula entered refused
  | loop cond body inv ih =>
    cases inv with
    | some inv => simp [Stmt.listFree,Stmt.every] at bare
    | none =>
      simp only [Stmt.listFree,Stmt.every,Bool.true_and] at bare
      intro x p results q known ok
      have keeping := eager_keeping solver body (Stmt.listFree_invariantFree bare)
      have alone : Known p ([x] ++ []) := by simpa using known
      obtain ⟨ys,states,found,carries⟩ := unroll_traces exact (going_guided 9 body) (ih bare) keeping alone ok
      exact ⟨ys,states,by simpa using found,carries.mono (by simp)⟩
  | assert cond =>
    intro x p results q known ok
    obtain ⟨f,formula,grows,rfl⟩ := eager_assert_ok ok
    have valid := known.valid x (by simp)
    refine required_traces exact known formula ((Pool.Grows.split p x.1 f).trans grows ?_) ?_
    · exact fun k new old => absurd (new ▸ old) (lt_irrefl _)
    · rw [grows.others x.1 (p.lt_split f valid) valid.ne,p.split_state f valid]
  | assume cond =>
    intro x p results q known ok
    obtain ⟨f,formula,rfl,rfl⟩ := eager_assume_ok ok
    exact required_traces exact known formula (.required p x.1 f) (p.required_state f (known.valid x (by simp)))
  | havoc names =>
    intro x p results q known ok
    obtain ⟨rfl,rfl⟩ := eager_havoc_ok ok
    obtain ⟨c,course,between⟩ := Pool.havocked_going .flat names (known.valid x (by simp))
    exact single_traces known (.havocked p x.1 names) course between (.havoc course) fun admitted =>
      admitted.havocked names
  | ifOnly | block | hollow => simp [Stmt.listFree,Stmt.every] at bare

end Symbolic

end WhileExec
