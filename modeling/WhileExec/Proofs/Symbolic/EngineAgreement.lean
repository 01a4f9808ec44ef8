import Mathlib
import WhileExec.Proofs.Symbolic.Deciding
import WhileExec.Proofs.Symbolic.EagerCourses
import WhileExec.Proofs.Symbolic.EagerResults
import WhileExec.Proofs.Symbolic.LazyCourses

/-!
# Eager and lazy exploration agree

Both explorations of a statement without lists give the results of the same courses, with at most nine iterations
wherever a loop is entered: the eager one breadth first, in ten rounds, the lazy one depth first. Results of courses of
the same shape are matched. Where two courses of one exploration have parted, so have the courses of the same shapes in
the other, so that one renaming of the new symbols serves for all results.
-/

namespace WhileExec.Symbolic

open Course (Between Pairs)
open Trace (Taking)

/-- Symbols that were there before, and symbols made at the same place of matched courses. -/
def Related (n : Nat) (pairs : List (Course × Course)) (i j : Nat) : Prop :=
  (i = j ∧ i < n) ∨ ∃ c ∈ pairs, Pairs c.1 c.2 i j

/-- Courses of two explorations, matched by their shapes. -/
structure Matched (n : Nat) (pairs : List (Course × Course)) : Prop where
  shape : ∀ c ∈ pairs, c.1.shape = c.2.shape
  left : ∃ hi, ∀ c ∈ pairs, c.1.Between n hi
  right : ∃ hi, ∀ c ∈ pairs, c.2.Between n hi
  apart : ∀ c ∈ pairs, ∀ d ∈ pairs, c = d ∨ c.1.Diverges d.1 ∧ c.2.Diverges d.2

namespace Matched

variable {n i j k : Nat} {pairs : List (Course × Course)}

theorem swap (matching : Matched n pairs) : Matched n (pairs.map Prod.swap) := by
  refine ⟨?_,?_,?_,?_⟩ <;> simp only [List.forall_mem_map,Prod.fst_swap,Prod.snd_swap]
  · exact fun c member => (matching.shape c member).symm
  · exact matching.right
  · exact matching.left
  · intro c one d two
    rcases matching.apart c one d two with same | ⟨first,second⟩
    · exact .inl (congrArg Prod.swap same)
    · exact .inr ⟨second,first⟩

theorem related_swap (related : Related n pairs i j) : Related n (pairs.map Prod.swap) j i := by
  rcases related with ⟨rfl,below⟩ | ⟨c,member,pair⟩
  · exact .inl ⟨rfl,below⟩
  · exact .inr ⟨c.swap,List.mem_map_of_mem member,pair.symm⟩

theorem lt (matching : Matched n pairs) : ∃ m, ∀ i j, Related n pairs i j → i < m := by
  obtain ⟨hi,between⟩ := matching.left
  refine ⟨max n hi,?_⟩
  rintro i j (⟨-,below⟩ | ⟨c,member,place,name,here,-⟩)
  · exact lt_max_of_lt_left below
  · exact lt_max_of_lt_right ((between c member).within i (Course.mem_numbers here)).2

/-- Numbers that courses share were given before they parted, so that they are matched alike. -/
theorem functional (matching : Matched n pairs) (one : Related n pairs i j) (two : Related n pairs i k) : j = k := by
  obtain ⟨hi,between⟩ := matching.left
  have new {c : Course × Course} {j : Nat} (member : c ∈ pairs) (pair : Pairs c.1 c.2 i j) : ¬ i < n := by
    obtain ⟨place,name,here,-⟩ := pair
    exact Nat.not_lt.mpr ((between c member).within i (Course.mem_numbers here)).1
  rcases one with ⟨rfl,below⟩ | ⟨c,member,pair⟩ <;> rcases two with ⟨rfl,below'⟩ | ⟨d,member',pair'⟩
  · rfl
  · exact absurd below (new member' pair')
  · exact absurd below' (new member pair)
  · rcases matching.apart c member d member' with rfl | ⟨first,second⟩
    · obtain ⟨place,name,here,there⟩ := pair
      obtain ⟨place',name',here',there'⟩ := pair'
      cases (between c member).place_unique here here' rfl
      cases there.symm.trans there'
      rfl
    · exact first.pairs_functional second (matching.shape c member) (matching.shape d member') (between c member)
        (between d member') pair pair'

/-- One renaming serves for all matched courses. -/
theorem pairing (matching : Matched n pairs) : ∃ m m', Pairing m m' (Related n pairs) := by
  obtain ⟨m,left⟩ := matching.lt
  obtain ⟨m',right⟩ := matching.swap.lt
  refine ⟨m,m',fun {i j} => left i j,fun {i j} related => right j i (related_swap related),matching.functional,?_⟩
  exact fun one two => matching.swap.functional (related_swap one) (related_swap two)

end Matched

/-- Results that belong to all courses from a state, when `n` symbols have been made. -/
structure Charted {α : Type} (G : Going) (joining : Joining) (n : Nat) (s : State) (state : α → State)
    (course : α → Course) (xs : List α) : Prop where
  follows : ∀ x ∈ xs, G joining (course x) s (state x)
  between : ∃ hi, ∀ x ∈ xs, (course x).Between n hi
  apart : xs.Pairwise fun x y => (course x).Diverges (course y)
  complete : G.Complete n s (xs.map course)
  possible : ∀ x ∈ xs, ∃ i, (state x).path.holds i = true

namespace Charted

variable {α β : Type} {G : Going} {joining other : Joining} {n : Nat} {s : State} {state : α → State}
  {course : α → Course} {xs : List α} {state' : β → State} {course' : β → Course} {ys : List β}

theorem nodup (charted : Charted G joining n s state course xs) : xs.Nodup :=
  charted.apart.imp fun diverges same => diverges.shape_ne (by rw [same])

theorem diverges (charted : Charted G joining n s state course xs) {x y : α} (one : x ∈ xs) (two : y ∈ xs)
    (different : x ≠ y) : (course x).Diverges (course y) := by
  have : Std.Symm fun x y => (course x).Diverges (course y) := ⟨fun _ _ diverges => diverges.symm⟩
  exact charted.apart.forall one two different

theorem eq_of_shape (charted : Charted G joining n s state course xs) {x y : α} (one : x ∈ xs) (two : y ∈ xs)
    (shape : (course x).shape = (course y).shape) : x = y := by
  by_contra different
  exact (charted.diverges one two different).shape_ne shape

/-- Numbers of symbols that were there before stay as they are. -/
theorem same_pairing (n : Nat) : Pairing n n fun i j => i = j ∧ i < n :=
  ⟨fun related => related.2,fun related => related.1 ▸ related.2,fun one two => one.1.symm.trans two.1,
    fun one two => one.1.trans two.1.symm⟩

/-- Every result has one of a course of the same shape. -/
theorem exists_shape (left : Charted G joining n s state course xs) (right : Charted G other n s state' course' ys)
    (inScope : s.Scoped n) {x : α} (member : x ∈ xs) : ∃ y ∈ ys, (course' y).shape = (course x).shape := by
  obtain ⟨hi,between⟩ := left.between
  have like : s.Like (fun i j => i = j ∧ i < n) s := .refl inScope fun k below => ⟨rfl,below⟩
  obtain ⟨d,listed,shape⟩ := right.complete (same_pairing n) like (left.follows x member) (between x member)
    (left.possible x member)
  obtain ⟨y,found,rfl⟩ := List.mem_map.mp listed
  exact ⟨y,found,shape⟩

variable {matched : α → β}

theorem matched_perm (left : Charted G joining n s state course xs) (right : Charted G other n s state' course' ys)
    (inScope : s.Scoped n) (found : ∀ x ∈ xs, matched x ∈ ys)
    (shape : ∀ x ∈ xs, (course' (matched x)).shape = (course x).shape) : (xs.map matched).Perm ys := by
  have nodup : (xs.map matched).Nodup := by
    refine List.Nodup.map_on (fun x one y two same => left.eq_of_shape one two ?_) left.nodup
    rw [← shape x one,← shape y two,same]
  refine (List.perm_ext_iff_of_nodup nodup right.nodup).mpr fun y => ⟨fun member => ?_,fun member => ?_⟩
  · obtain ⟨x,listed,rfl⟩ := List.mem_map.mp member
    exact found x listed
  · obtain ⟨x,listed,same⟩ := right.exists_shape left inScope member
    have equal : matched x = y := right.eq_of_shape (found x listed) member ((shape x listed).trans same)
    exact List.mem_map.mpr ⟨x,listed,equal⟩

/-- The results of all courses of one exploration and of another are the same but for the numbers of new symbols. -/
theorem agree [Nonempty β] (guided : G.Guided) (inScope : s.Scoped n) (left : Charted G joining n s state course xs)
    (right : Charted G other n s state' course' ys) :
    ∃ ρ : Equiv.Perm Nat, (∀ k < n, ρ k = k) ∧ ∃ matched : α → β, (xs.map matched).Perm ys ∧
      ∀ x ∈ xs, (state x).Renames ρ (state' (matched x)) := by
  choose! matched found shape using fun x (member : x ∈ xs) => left.exists_shape right inScope member
  have matching : Matched n (xs.map fun x => (course x,course' (matched x))) := by
    obtain ⟨hi,between⟩ := left.between
    obtain ⟨hi',between'⟩ := right.between
    refine ⟨?_,⟨hi,?_⟩,⟨hi',?_⟩,?_⟩
    · simpa using fun x member => (shape x member).symm
    · simpa using between
    · simpa using fun x member => between' _ (found x member)
    · simp only [List.forall_mem_map]
      intro x one y two
      by_cases same : x = y
      · exact .inl (by rw [same])
      · refine .inr ⟨left.diverges one two same,right.diverges (found x one) (found y two) fun equal => same ?_⟩
        exact left.eq_of_shape one two (by rw [← shape x one,← shape y two,equal])
  obtain ⟨m,m',pairing⟩ := matching.pairing
  obtain ⟨ρ,maps⟩ := pairing.exists_perm
  have fixed : ∀ k < n, Related n (xs.map fun x => (course x,course' (matched x))) k k := fun k below =>
    .inl ⟨rfl,below⟩
  refine ⟨ρ,fun k below => maps k k (fixed k below),matched,left.matched_perm right inScope found shape,?_⟩
  intro x member
  obtain ⟨-,like⟩ := guided.alike [] [] (left.follows x member) (right.follows _ (found x member))
    (by simp [shape x member]) (State.Like.refl inScope fixed) fun i j pair => .inr ⟨_,List.mem_map_of_mem member,pair⟩
  exact like.renames maps

end Charted

section Engines

variable {solver : Solver} {pool q : Pool} {h : Handle} {s : Stmt}

theorem eager_charted (exact : solver.Exact) (bare : s.listFree = true) (possible : pool.Possible h)
    {results : List Handle} (ok : eager solver s h pool = .ok results q) :
    ∃ ys : Eager.Family, ys.map (·.1) = results ∧ results.Nodup ∧
      Charted (going 9 s) .flat pool.symbols (pool.state h) (fun y => q.state y.1) (·.2) ys := by
  obtain ⟨i,store,represents⟩ := id possible
  have alone : Eager.Known pool [(h,[])] := ⟨by simpa using represents.valid,by simp,by simp⟩
  obtain ⟨ys,rfl,known,carries⟩ := eager_traces exact s bare (h,[]) pool results q alone ok
  obtain ⟨later,complete,listed⟩ := carries.complete (h,[]) (by simp)
  refine ⟨ys,rfl,List.pairwise_map.mpr (known.apart.imp fun apart => apart.1),?_⟩
  refine ⟨fun y member => ?_,⟨q.symbols,fun y member => ?_⟩,known.apart.imp fun apart => apart.2,
    complete.mono le_rfl (by simpa using listed),fun y member => ?_⟩
  · obtain ⟨e,course,going,-⟩ := carries.follows_one member
    rw [course]
    exact going
  · obtain ⟨e,course,-,between⟩ := carries.follows_one member
    rw [course]
    exact between
  · obtain ⟨j,store,represents⟩ := carries.possible possible y member
    exact ⟨j,represents.allows.path⟩

theorem explore_charted (exact : solver.Exact) (valid : h < pool.states.size)
    (inScope : (pool.state h).Scoped pool.symbols) {bound : Nat} {ts : List Taking}
    (draws : (explore solver bound s h pool).Draws ts true q) :
    ∃ run : List (Taking × Course), run.map (·.1) = ts ∧
      Charted (going bound s) .nested pool.symbols (pool.state h) (fun x => x.1.state) (·.2) run := by
  obtain ⟨run,rfl,traced⟩ := (lazily_traces exact bound s).ifPossible exact (going_guided bound s) h pool ts q valid
    draws
  have parts := (lazily_partitions exact bound s).ifPossible exact h pool _ true q valid draws
  have within := ((explore_local solver bound s h pool valid).drawn draws).2
  refine ⟨run,rfl,traced.follows,⟨q.symbols,fun x member => ?_⟩,?_,traced.complete,fun x member => ?_⟩
  · exact (traced.between x member).mono le_rfl (within x.1 (List.mem_map_of_mem member)).symbols
  · refine traced.splits.imp_of_mem fun {x y} member _ splits => ?_
    obtain ⟨-,common,left,right,one,two,new⟩ := splits
    refine ⟨common,true,left,right,one,two,fun n early late => ?_⟩
    have made : n ∈ x.2.numbers := by simp [one,early]
    have below := ((traced.between x member).within n made).2
    have careful := draws.careful x.1 (List.mem_map_of_mem member)
    have above := new n late
    omega
  · obtain ⟨i,store,represents⟩ := parts.possible inScope x.1 (List.mem_map_of_mem member)
    exact ⟨i,represents.allows.path⟩

/-- The states that eager exploration returns and those that lazy exploration yields with a bound of nine iterations
are matched one to one, and are the same but for the numbers of the symbols made on the way. -/
theorem eager_explore_agree (exact : solver.Exact) {live : List (Search Handle)} (reachable : Reachable pool live)
    (valid : h < pool.states.size) (possible : ∃ i, (pool.state h).path.holds i = true) (bare : s.listFree = true)
    {results : List Handle} (returned : eager solver s h pool = .ok results q) {drawn : Trace.Drawn Handle}
    (yielded : (explore solver 9 s h).draw none pool = drawn) (unfailing : drawn.fault = none) :
    results.Nodup ∧ drawn.values.Nodup ∧ ∃ ρ : Equiv.Perm Nat, (∀ n < pool.symbols, ρ n = n) ∧
      ∃ matching : List (Handle × Handle), matching.map (·.1) = results ∧ (matching.map (·.2)).Perm drawn.values ∧
        ∀ pair ∈ matching, (q.state pair.1).Renames ρ (drawn.pool.state pair.2) := by
  subst yielded
  have inScope := reachable.settled.inScope h
  obtain ⟨i,holds⟩ := possible
  obtain ⟨ys,rfl,distinct,left⟩ := eager_charted exact bare (.of_holds valid inScope holds) returned
  obtain ⟨ts,-,values,same,whole⟩ := (explore_local solver 9 s).draw valid none
  have draws := whole rfl unfailing
  have distinct' := (explore_local solver 9 s h pool valid).distinct draws
  obtain ⟨run,rfl,right⟩ := explore_charted exact valid inScope draws
  have : Nonempty (Taking × Course) := ⟨(⟨0,pool,pool⟩,[])⟩
  obtain ⟨ρ,fixed,matched,perm,renames⟩ := left.agree (going_guided 9 s) inScope right
  refine ⟨distinct,values ▸ distinct',ρ,fixed,ys.map fun y => (y.1,(matched y).1.value),by simp,?_,?_⟩
  · have listed := perm.map (·.1.value)
    rw [values]
    simpa [Function.comp_def] using listed
  · simp only [List.forall_mem_map]
    intro y member
    have found := perm.mem_iff.mp (List.mem_map_of_mem member)
    rw [same _ (List.mem_map_of_mem found)]
    exact renames y member

end Engines

/-- Chooses a number again and again as long as it is large. If it was small, chooses another one. -/
def draining : Stmt :=
  .ifElse (.app .compare ">" [.var "x",.int 3])
    (.loop (.app .compare ">" [.var "x",.int 5]) (.havoc ["x"]) none) (.havoc ["y"])

/-- The ten states that leave the loop are found in opposite orders. In the tenth round one more number is chosen, so
that the symbol made after that has another number. With one iteration more there would be twelve states. -/
theorem draining_agree :
    ∃ solver : Solver, solver.Exact ∧ ∃ results q drawn, eager solver draining 0 positive = .ok results q ∧
      (explore solver 9 draining 0).draw none positive = drawn ∧ results = [2,3,4,5,6,7,8,9,10,11,1] ∧
      drawn.values = [11,10,9,8,7,6,5,4,3,2,1] ∧ (q.state 1).env["y"]? = some ⟨"y",11⟩ ∧
      (drawn.pool.state 1).env["y"]? = some ⟨"y",10⟩ ∧
      ((explore solver 10 draining 0).draw none positive).values.length = 12 ∧
      ∃ ρ : Equiv.Perm Nat, ρ 0 = 0 ∧ ∃ matching : List (Handle × Handle), matching.map (·.1) = results ∧
        (matching.map (·.2)).Perm drawn.values ∧
        ∀ pair ∈ matching, (q.state pair.1).Renames ρ (drawn.pool.state pair.2) := by
  have exact := Solver.precise_exact
  have passed : (eager .precise draining 0).passes positive (fun results q =>
      results = [2,3,4,5,6,7,8,9,10,11,1] && (q.state 1).env["y"]? = some ⟨"y",11⟩) = true := by decide +kernel
  obtain ⟨results,q,ok,known⟩ := Explore.ok_of_passes passed
  simp only [Bool.and_eq_true,decide_eq_true_eq] at known
  have yielded : (fun drawn : Trace.Drawn Handle => drawn.fault = none ∧ drawn.values = [11,10,9,8,7,6,5,4,3,2,1] ∧
      (drawn.pool.state 1).env["y"]? = some ⟨"y",10⟩) ((explore .precise 9 draining 0).draw none positive) := by
    decide +kernel
  obtain ⟨ended,values,other⟩ := yielded
  obtain ⟨-,-,ρ,fixed,agree⟩ := eager_explore_agree exact positive_reachable (by decide +kernel)
    ⟨⟨fun _ => 1,fun _ => 0⟩,by decide +kernel⟩ (by decide) ok rfl ended
  refine ⟨_,exact,results,q,_,ok,rfl,known.1,values,known.2,other,by decide +kernel,ρ,?_,agree⟩
  exact fixed 0 (by decide +kernel)

end WhileExec.Symbolic
