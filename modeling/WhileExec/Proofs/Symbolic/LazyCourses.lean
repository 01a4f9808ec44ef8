import Mathlib
import WhileExec.Proofs.Symbolic.Courses

/-!
# Courses of lazy exploration

A drawing of all results goes through all courses of a statement that end in possible states, in the order of a depth
first search: of two results the earlier one took the way where a condition holds and the later one the other way, and
the symbols that the later one made from there on are newer than the earlier result.
-/

namespace WhileExec.Symbolic

open Trace (Taking)
open Course (Between)

namespace Trace

theorem Draws.careful {t : Trace Handle} {ts : List Taking} {whole : Bool} {q : Pool} (draws : t.Draws ts whole q) :
    ∀ taken ∈ ts, taken.given.symbols ≤ taken.back.symbols := by
  induction draws with
  | done => simp
  | failed => simp
  | last => simp
  | next careful rest ih =>
    intro taken member
    rcases List.mem_cons.mp member with rfl | member
    · exact careful.symbols
    · exact ih taken member

theorem Owns.distinct {owned : Set Handle} {p q : Pool} {t : Trace Handle} {ts : List Taking} {whole : Bool}
    (owns : t.Owns owned p) (draws : t.Draws ts whole q) : (ts.map (·.value)).Nodup := by
  induction draws generalizing owned p with
  | done => simp
  | failed => simp
  | last => simp
  | @next value q r final resume ts whole careful rest ih =>
    cases owns with
    | yield kept grows valid own given within old resumed =>
      have later := resumed r careful.size
      refine List.nodup_cons.mpr ⟨fun member => ?_,ih later⟩
      obtain ⟨taken,listed,same⟩ := List.mem_map.mp member
      have mine := ((later.drawn rest).2 taken listed).own
      rw [same] at mine
      exact given (mine (valid.trans_le careful.size))

theorem Draws.of_single {h : Handle} {p q : Pool} {ts : List Taking} {whole : Bool}
    (draws : (Trace.yield h p .done).Draws ts whole q) : ∃ r, ts = [⟨h,p,r⟩] := by
  cases draws with
  | last => exact ⟨_,rfl⟩
  | next careful rest => cases rest; exact ⟨_,rfl⟩

end Trace

namespace Lazy

/-- The first result took the way where a condition holds, the second one the other way, after the first was given. -/
def Splits (x y : Taking × Course) : Prop :=
  x.1.back.symbols ≤ y.1.given.symbols ∧ ∃ common left right, x.2 = common ++ .took true :: left ∧
    y.2 = common ++ .took false :: right ∧ ∀ n ∈ Course.numbers right, x.1.back.symbols ≤ n

/-- The results that a search with these courses gives from a state, when `n` symbols have been made. -/
structure Traced (G : Going) (n : Nat) (s : State) (run : List (Taking × Course)) : Prop where
  follows : ∀ x ∈ run, G .nested x.2 s x.1.state
  between : ∀ x ∈ run, x.2.Between n x.1.given.symbols
  splits : run.Pairwise Splits
  complete : G.Complete n s (run.map (·.2))

/-- What a result was continued to before the next one was asked for. -/
structure Continued (H : Going) (t : Taking) (inner : List (Taking × Course)) : Prop where
  traced : Traced H t.given.symbols t.state inner
  ended : ∀ x ∈ inner, x.1.back.symbols ≤ t.back.symbols

def Traces (G : Going) (search : Handle → Search Handle) : Prop :=
  ∀ h p ts q, h < p.states.size → (search h p).Draws ts true q →
    ∃ run, run.map (·.1) = ts ∧ Traced G p.symbols (p.state h) run

namespace Traced

variable {G H : Going} {n n' : Nat} {s : State} {run others : List (Taking × Course)}

theorem nil (complete : G.Complete n s []) : Traced G n s [] :=
  ⟨by simp,by simp,.nil,complete⟩

theorem single {t : Taking} {c : Course} (going : G .nested c s t.state) (between : c.Between n t.given.symbols)
    (complete : G.Complete n s [c]) : Traced G n s [(t,c)] :=
  ⟨by simpa using going,by simpa using between,by simp,complete⟩

theorem require {cond : Expr} {f : Formula} (known : s.formula .nested cond = .ok f)
    (stays : Traced .stay n' (s.require f) run) (later : n ≤ n') : Traced (.require cond) n s run := by
  refine ⟨fun x member => ?_,fun x member => (stays.between x member).mono later le_rfl,stays.splits,
    .require known stays.complete later⟩
  obtain ⟨empty,same⟩ := stays.follows x member
  exact ⟨empty,f,known,same⟩

/-- All results where a condition holds, and then all results where it does not. -/
theorem fork {cond : Expr} {f : Formula} (known : s.formula .nested cond = .ok f)
    (yes : Traced G n (s.require f) run) (no : Traced H n' (s.forked.require (.not f)) others) (later : n ≤ n')
    (ended : ∀ x ∈ run, x.1.back.symbols ≤ n') :
    Traced (.fork cond G H) n s
      (run.map (Prod.map id (.took true :: ·)) ++ others.map (Prod.map id (.took false :: ·))) := by
  have within {way : Bool} {x y : Taking × Course} (splits : Splits x y) :
      Splits (x.map id (.took way :: ·)) (y.map id (.took way :: ·)) := by
    obtain ⟨before,common,left,right,one,two,new⟩ := splits
    exact ⟨before,.took way :: common,left,right,by simp [one],by simp [two],new⟩
  constructor
  · intro x member
    rcases List.mem_append.mp member with member | member <;> obtain ⟨y,listed,rfl⟩ := List.mem_map.mp member
    · exact ⟨f,known,.inl ⟨y.2,rfl,yes.follows y listed⟩⟩
    · exact ⟨f,known,.inr ⟨y.2,rfl,no.follows y listed⟩⟩
  · intro x member
    rcases List.mem_append.mp member with member | member <;> obtain ⟨y,listed,rfl⟩ := List.mem_map.mp member
    · exact (yes.between y listed).took true
    · exact ((no.between y listed).mono later le_rfl).took false
  · refine List.pairwise_append.mpr ⟨yes.splits.map _ fun _ _ => within,no.splits.map _ fun _ _ => within,?_⟩
    intro x one y two
    obtain ⟨x,listed,rfl⟩ := List.mem_map.mp one
    obtain ⟨y,listed',rfl⟩ := List.mem_map.mp two
    have between := no.between y listed'
    have before := ended x listed
    exact ⟨before.trans between.ordered,[],x.2,y.2,rfl,rfl,fun k made => before.trans (between.within k made).1⟩
  · refine (Going.Complete.fork known yes.complete (no.complete.mono later fun _ => id)).mono le_rfl ?_
    simp

theorem andThen {nodes : List ((Taking × Course) × List (Taking × Course))} (first : G.Guided) (second : H.Guided)
    (outer : Traced G n s (nodes.map (·.1))) (continued : ∀ g ∈ nodes, Continued H g.1.1 g.2) :
    Traced (G.andThen H) n s (nodes.flatMap fun g => g.2.map (Prod.map id (g.1.2 ++ ·))) := by
  have follows (g) (listed : g ∈ nodes) := outer.follows g.1 (List.mem_map_of_mem listed)
  have between (g) (listed : g ∈ nodes) := outer.between g.1 (List.mem_map_of_mem listed)
  have inner (g) (listed : g ∈ nodes) := (continued g listed).traced
  constructor
  · intro x member
    obtain ⟨g,listed,member⟩ := List.mem_flatMap.mp member
    obtain ⟨y,found,rfl⟩ := List.mem_map.mp member
    exact ⟨g.1.2,y.2,g.1.1.state,rfl,follows g listed,(inner g listed).follows y found⟩
  · intro x member
    obtain ⟨g,listed,member⟩ := List.mem_flatMap.mp member
    obtain ⟨y,found,rfl⟩ := List.mem_map.mp member
    exact (between g listed).append ((inner g listed).between y found)
  · refine List.pairwise_flatMap.mpr ⟨fun g listed => (inner g listed).splits.map _ ?_,?_⟩
    · rintro x y ⟨before,common,left,right,one,two,new⟩
      exact ⟨before,g.1.2 ++ common,left,right,by simp [one],by simp [two],new⟩
    · refine (List.pairwise_map.mp outer.splits).imp_of_mem ?_
      rintro g k listed listed' ⟨before,common,left,right,one,two,new⟩ x member y member'
      obtain ⟨x,found,rfl⟩ := List.mem_map.mp member
      obtain ⟨y,found',rfl⟩ := List.mem_map.mp member'
      have early := (continued g listed).ended x found
      have later := (inner k listed').between y found'
      refine ⟨early.trans (before.trans later.ordered),common,left ++ x.2,right ++ y.2,by simp [one],by simp [two],?_⟩
      intro i made
      rw [Course.numbers_append] at made
      rcases List.mem_append.mp made with made | made
      · exact early.trans (new i made)
      · exact early.trans (before.trans (later.within i made).1)
  · have found : G.Complete n s (nodes.map fun g => g.1.2) := outer.complete.mono le_rfl (by simp)
    have complete := found.andThen (fun g => g.1.2) (fun g => g.2.map (·.2)) first second follows between
      fun g listed => (inner g listed).complete
    exact complete.mono le_rfl (by simp [List.map_flatMap])

end Traced

/-- Results with their courses, each with the results that it was continued to. -/
theorem exists_nodes {H : Going} {groups : List (Taking × List Taking)} {run : List (Taking × Course)}
    (same : run.map (·.1) = groups.map (·.1))
    (each : ∀ g ∈ groups, ∃ inner : List (Taking × Course), inner.map (·.1) = g.2 ∧ Continued H g.1 inner) :
    ∃ nodes : List ((Taking × Course) × List (Taking × Course)), nodes.map (·.1) = run ∧
      (nodes.flatMap fun g => g.2.map (·.1)) = groups.flatMap (·.2) ∧ ∀ g ∈ nodes, Continued H g.1.1 g.2 := by
  induction groups generalizing run with
  | nil =>
    obtain rfl : run = [] := by simpa using same
    exact ⟨[],rfl,rfl,by simp⟩
  | cons g groups ih =>
    obtain ⟨x,run,rfl,first,rest⟩ := List.map_eq_cons_iff.mp same
    obtain ⟨inner,taken,holds⟩ := each g (by simp)
    obtain ⟨nodes,listed,all,every⟩ := ih rest fun g member => each g (by simp [member])
    refine ⟨(x,inner) :: nodes,by simp [listed],by simp [taken,all],?_⟩
    intro y member
    rcases List.mem_cons.mp member with rfl | member
    · exact first ▸ holds
    · exact every y member

namespace Traces

variable {solver : Solver} {cond : Expr} {search next : Handle → Search Handle} {G H : Going}

theorem pure : Traces .stay pure := by
  intro h p ts q valid draws
  obtain ⟨r,rfl⟩ := Trace.Draws.of_single draws
  exact ⟨[(_,[])],rfl,.single ⟨rfl,rfl⟩ (.nil le_rfl) (.stay (by simp))⟩

theorem none : Traces (G.andThen .never) fun _ => Search.none := by
  intro h p ts q valid draws
  cases draws
  refine ⟨[],rfl,.nil ?_⟩
  rintro R m m' joining a c b - - ⟨c₁,c₂,mid,-,-,none⟩
  exact none.elim

theorem ifPossible (exact : solver.Exact) (guided : G.Guided) (traces : Traces G search) :
    Traces G fun h => ifPossible solver h (search h) := by
  intro h p ts q valid draws
  simp only [ifPossible_apply] at draws
  split at draws
  next refused =>
    cases draws
    exact ⟨[],rfl,.nil (.of_refused exact.sound guided refused)⟩
  next => exact traces h p ts q valid draws

theorem bind (first : Traces G search) (second : Traces H next) (guided : G.Guided) (guided' : H.Guided)
    (owns : Local search) (owns' : Local next) : Traces (G.andThen H) fun h => search h >>= next := by
  intro h p ts q valid draws
  have mine := owns h p valid
  obtain ⟨groups,complete,last,outer,rfl,-,ended⟩ := Trace.Draws.of_bind mine owns' draws
  obtain ⟨rfl,rfl,inner⟩ := ended rfl
  obtain ⟨run,same,traced⟩ := first h p _ _ valid outer
  have each : ∀ g ∈ groups, ∃ sub : List (Taking × Course), sub.map (·.1) = g.2 ∧ Continued H g.1 sub := by
    intro g listed
    have inside := ((mine.drawn outer).2 g.1 (List.mem_map_of_mem listed)).valid
    obtain ⟨sub,taken,later⟩ := second _ _ _ _ inside (inner g listed)
    refine ⟨sub,taken,later,fun x member => ?_⟩
    exact ((owns' _ _ inside).made (inner g listed) x.1 (taken ▸ List.mem_map_of_mem member)).symbols
  obtain ⟨nodes,rfl,all,continued⟩ := exists_nodes same each
  refine ⟨_,?_,traced.andThen guided guided' continued⟩
  rw [← all,List.map_flatMap]
  simp [Function.comp_def]

theorem branch (exact : solver.Exact) (yes : Traces G search) (no : Traces H next) (guided : G.Guided)
    (guided' : H.Guided) (owns : Local search) : Traces (.fork cond G H) (branch solver cond search next) := by
  intro h p ts q valid draws
  rw [branch_apply] at draws
  cases known : p.formula .nested h cond with
  | error fault => simp only [known] at draws; cases draws
  | ok f =>
    simp only [known] at draws
    have older : h < (p.forked h).states.size := by simpa using Nat.lt_succ_of_lt valid
    have inside : h < ((p.forked h).required h f).states.size := by simpa using older
    obtain ⟨stopped,-⟩ | ⟨mid,ts,us,rfl,first,second⟩ := Trace.Draws.of_andThen draws
    · cases stopped
    have mine : Trace.Owns {h} ((p.forked h).required h f)
        (Lazy.ifPossible solver h (search h) ((p.forked h).required h f)) := owns.ifPossible h _ inside
    have apart : p.states.size ∉ ({h} : Set Handle) := valid.ne'
    have grows := (mine.drawn first).1
    have size : p.states.size < mid.states.size := lt_of_lt_of_le (by simp) grows.size
    obtain ⟨run,rfl,entered⟩ := yes.ifPossible exact guided h _ ts mid inside first
    rw [Pool.required_state _ f older,p.forked_old h valid] at entered
    obtain ⟨others,rfl,refused⟩ := no.ifPossible exact guided' _ _ us q (by simpa using size) second
    rw [mid.required_state _ size,grows.others _ (by simp) apart,Pool.required_other _ _ apart,p.forked_new h]
      at refused
    refine ⟨_,?_,entered.fork known refused grows.symbols fun x member => ?_⟩
    · simp [Function.comp_def]
    · exact (mine.made first x.1 (List.mem_map_of_mem member)).symbols

theorem unwind_step (exact : solver.Exact) {bound : Nat} (inside : Traces G fun h => again solver cond search h bound)
    (owns : Local fun h => again solver cond search h bound) :
    Traces (.fork cond G .stay) (unwind solver cond search bound) := by
  intro h p ts q valid draws
  rw [unwind_apply] at draws
  cases known : p.formula .nested h cond with
  | error fault => simp only [known] at draws; cases draws
  | ok f =>
    simp only [known] at draws
    have older := p.lt_split f valid
    obtain ⟨stopped,-⟩ | ⟨mid,ts,us,rfl,first,second⟩ := Trace.Draws.of_andThen draws
    · cases stopped
    have mine := owns h _ older
    have grows := (mine.drawn first).1
    have size : p.states.size < mid.states.size := lt_of_lt_of_le (by simp) grows.size
    obtain ⟨run,rfl,entered⟩ := inside h _ ts mid older first
    rw [p.split_state f valid] at entered
    obtain ⟨others,rfl,left⟩ := Traces.pure.ifPossible exact .stay _ mid us q size second
    rw [grows.others _ (by simp) valid.ne',p.split_new f valid,p.forked_new h] at left
    refine ⟨_,?_,entered.fork known left grows.symbols fun x member => ?_⟩
    · simp [Function.comp_def]
    · exact (mine.made first x.1 (List.mem_map_of_mem member)).symbols

theorem unwind (exact : solver.Exact) (body : Traces G search) (guided : G.Guided) (owns : Local search) (bound : Nat) :
    Traces (.iterate cond G (bound + 1)) (unwind solver cond search bound) := by
  induction bound with
  | zero => exact unwind_step exact .none (owns.again 0)
  | succ bound ih =>
    have rest := Going.Guided.iterate cond guided (bound + 1)
    have inside := (body.bind ih guided rest owns (owns.unwind bound)).ifPossible exact (guided.andThen rest)
    exact unwind_step exact inside (owns.again (bound + 1))

end Traces

end Lazy

open Lazy

theorem lazilyAll_traces {solver : Solver} (exact : solver.Exact) {bound : Nat} {ss : List Stmt}
    (each : ∀ s ∈ ss, Traces (going bound s) (lazily solver bound s)) :
    Traces (goingAll bound ss) (lazilyAll solver bound ss) := by
  induction ss with
  | nil => exact .pure
  | cons s ss ih =>
    have first := (each s (by simp)).ifPossible exact (going_guided bound s)
    have rest := ih fun s member => each s (by simp [member])
    intro h
    rw [lazilyAll_cons,goingAll]
    exact first.bind rest (going_guided bound s) (goingAll_guided bound ss) (lazily_local solver bound s).ifPossible
      (lazilyAll_local fun s _ => lazily_local solver bound s) h

/-- What a statement gives, drawn to the end, are the results of all its courses. -/
theorem lazily_traces {solver : Solver} (exact : solver.Exact) (bound : Nat) (s : Stmt) :
    Traces (going bound s) (lazily solver bound s) := by
  induction s using Stmt.structural with
  | skip => exact .pure
  | printState =>
    intro h p ts q valid draws
    rw [lazily_printState] at draws
    obtain ⟨r,rfl⟩ := Trace.Draws.of_single draws
    exact ⟨[(_,[])],rfl,.single ⟨rfl,rfl⟩ (.nil le_rfl) (.stay (by simp))⟩
  | assign name rhs =>
    intro h p ts q valid draws
    rw [lazily_assign] at draws
    cases known : p.term .nested h rhs with
    | error fault => simp only [known] at draws; cases draws
    | ok t =>
      simp only [known] at draws
      obtain ⟨r,rfl⟩ := Trace.Draws.of_single draws
      refine ⟨[(_,[.made ⟨name,p.symbols⟩])],rfl,.single ?_ ((Between.nil le_rfl).made name) ?_⟩
      · exact ⟨t,p.symbols,known,rfl,p.assigned_state name t valid⟩
      · exact .assign (List.mem_singleton.mpr rfl)
  | ifElse cond yes no left right =>
    intro h
    rw [lazily_ifElse]
    exact left.branch exact right (going_guided bound yes) (going_guided bound no) (lazily_local solver bound yes) h
  | ifOnly cond yes ih =>
    intro h
    rw [lazily_ifOnly]
    exact ih.branch exact .pure (going_guided bound yes) .stay (lazily_local solver bound yes) h
  | loop cond body inv ih =>
    intro h
    rw [lazily]
    exact ih.unwind exact (going_guided bound body) (lazily_local solver bound body) bound h
  | assert cond =>
    intro h p ts q valid draws
    rw [lazily_assert] at draws
    cases known : p.formula .nested h cond with
    | error fault => simp only [known] at draws; cases draws
    | ok f =>
      simp only [known] at draws
      have grows := checked_grows solver cond h p f
      split at draws
      next r checked =>
        rw [Explore.after_ok checked] at grows
        have inside := valid.trans_le grows.size
        obtain ⟨run,taken,traced⟩ := Traces.pure.ifPossible exact .stay h (r.required h f) ts q (by simpa using inside)
          draws
        rw [r.required_state f inside,grows.others h valid (Set.notMem_empty h)] at traced
        exact ⟨run,taken,traced.require known grows.symbols⟩
      next => cases draws
  | assume cond =>
    intro h p ts q valid draws
    rw [lazily_assume] at draws
    cases known : p.formula .nested h cond with
    | error fault => simp only [known] at draws; cases draws
    | ok f =>
      simp only [known] at draws
      obtain ⟨run,taken,traced⟩ := Traces.pure.ifPossible exact .stay h (p.required h f) ts q (by simpa using valid)
        draws
      rw [p.required_state f valid] at traced
      exact ⟨run,taken,traced.require known le_rfl⟩
  | havoc names =>
    intro h p ts q valid draws
    rw [lazily_havoc] at draws
    obtain ⟨r,rfl⟩ := Trace.Draws.of_single draws
    obtain ⟨c,course,between⟩ := Pool.havocked_going .nested names valid
    exact ⟨[(_,c)],rfl,.single course between (.havoc course)⟩
  | block items ih =>
    intro h
    rw [lazily]
    exact lazilyAll_traces exact ih h
  | hollow => intro h p ts q valid draws; cases draws

end WhileExec.Symbolic
