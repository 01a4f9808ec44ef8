import Mathlib
import WhileExec.Proofs.Symbolic.ScriptScope

/-!
# Fresh symbols

A record lists all actions on a pool, those done by hand and those of the engines, in their order. Its beginnings are
the points of all runs. At every point the states mention only symbols made before, paths have only been appended to,
and the equation of an assignment defines a symbol that the state did not mention: `recorded_fresh`.
-/

namespace WhileExec.Symbolic

/-- A variable is bound to the symbol, or a condition of the path mentions it. -/
def State.Mentions (s : Symbol) (state : State) : Prop :=
  (∃ name : String, state.env[name]? = some s) ∨ ∃ f ∈ state.path, f.Mentions s

theorem State.Scoped.lt {n : Nat} {state : State} (inScope : state.Scoped n) {s : Symbol} (mentions : state.Mentions s) :
    s.index < n := by
  rcases mentions with ⟨name,bound⟩ | ⟨f,member,inside⟩
  · exact inScope.env name s bound
  · exact f.bound_le.mp (inScope.path f member) s inside

def Action.made (p : Pool) : Action → List Symbol
  | symbol name => [⟨name,p.symbols⟩]
  | _ => []

/-- The symbols that the actions make, in their order. -/
def Pool.made (p : Pool) : List Action → List Symbol
  | [] => []
  | a :: as => a.made p ++ (a.apply p).made as

theorem Pool.le_made {p : Pool} {as : List Action} {s : Symbol} (member : s ∈ p.made as) : p.symbols ≤ s.index := by
  induction as generalizing p with
  | nil => contradiction
  | cons a as ih =>
    rcases List.mem_append.mp member with here | later
    · cases a with
      | symbol name =>
        rw [List.mem_singleton.mp here]
      | _ => contradiction
    · exact (Action.apply_symbols p a).trans (ih later)

theorem Pool.nodup_made (p : Pool) (as : List Action) : (p.made as).Nodup := by
  induction as generalizing p with
  | nil => exact List.nodup_nil
  | cons a as ih =>
    cases a with
    | symbol name =>
      refine List.nodup_cons.mpr ⟨fun again => ?_,ih _⟩
      exact absurd (le_made again) (Nat.not_succ_le_self p.symbols)
    | _ => exact ih _

theorem Pool.state_of_le {p : Pool} {k : Handle} (outside : p.states.size ≤ k) : p.state k = {} := by
  simp [state,outside]

theorem Pool.add_path (p : Pool) (s : State) (k : Handle) : (p.state k).path <+: ((p.add s).state k).path := by
  by_cases old : k < p.states.size
  · rw [p.add_other s old]
  · rw [state_of_le (Nat.le_of_not_lt old)]
    exact List.nil_prefix

theorem Pool.change_path (p : Pool) (h : Handle) (f : State → State) (appends : ∀ s, s.path <+: (f s).path)
    (k : Handle) : (p.state k).path <+: ((p.change h f).state k).path := by
  by_cases same : k = h
  · subst same
    by_cases valid : k < p.states.size
    · rw [p.change_state f valid]
      exact appends _
    · rw [state_of_le (Nat.le_of_not_lt valid)]
      exact List.nil_prefix
  · rw [p.change_other f same]

theorem Action.apply_path (p : Pool) (a : Action) (k : Handle) :
    (p.state k).path <+: ((a.apply p).state k).path := by
  cases a with
  | new => exact p.add_path _ k
  | fork h => exact p.add_path _ k
  | require h f => exact p.change_path h _ (fun s => List.prefix_append s.path [f]) k
  | equate h s t => exact p.change_path h _ (fun s => List.prefix_append s.path _) k
  | markFailed h => exact p.change_path h (fun s => { s with failed := true }) (fun _ => List.prefix_rfl) k
  | symbol name => exact List.prefix_refl (p.state k).path
  | bind h name s => exact p.change_path h (fun state => state.bind name s) (fun _ => List.prefix_rfl) k
  | output text => exact List.prefix_refl (p.state k).path
  | ask path => exact List.prefix_refl (p.state k).path

theorem Pool.through_path (p : Pool) (as : List Action) (k : Handle) :
    (p.state k).path <+: ((p.through as).state k).path := by
  induction as generalizing p with
  | nil => exact List.prefix_rfl
  | cons a as ih => exact (Action.apply_path p a k).trans (ih _)

/-- An equation comes right behind the making and the binding of its symbol. -/
theorem Orderly.equation {p : Pool} {as point later : List Action} {h : Handle} {s : Symbol} {t : Term}
    (orderly : Orderly p as) (found : as = point ++ .equate h s t :: later) :
    ∃ before name, point = before ++ [.symbol name,.bind h name s] ∧ s = ⟨name,(p.through before).symbols⟩ ∧
      t.bound ≤ s.index := by
  induction orderly generalizing point with
  | nil => simp at found
  | act plain rest ih =>
    rcases point with _ | ⟨b,point⟩
    · obtain ⟨rfl,-⟩ := List.cons.inj found
      exact plain.elim
    · obtain ⟨rfl,deeper⟩ := List.cons.inj found
      obtain ⟨before,name,rfl,known,bound⟩ := ih deeper
      exact ⟨_ :: before,name,rfl,known,bound⟩
  | @assign p k name u as made rest ih =>
    -- Of the three actions only the last is an equation, so `point` ends before it or behind it.
    rcases point with _ | ⟨b,_ | ⟨c,_ | ⟨d,point⟩⟩⟩
    · simp at found
    · simp at found
    · simp only [List.cons_append,List.nil_append,List.cons.injEq,Action.equate.injEq] at found
      obtain ⟨rfl,rfl,⟨rfl,rfl,rfl⟩,-⟩ := found
      exact ⟨[],name,rfl,rfl,made⟩
    · simp only [List.cons_append,List.cons.injEq] at found
      obtain ⟨rfl,rfl,rfl,deeper⟩ := found
      obtain ⟨before,other,rfl,known,bound⟩ := ih deeper
      exact ⟨_ :: _ :: _ :: before,other,rfl,known,bound⟩

/-- All that was done to a pool from the beginning on, the pool, and the searches under way, each with the script of
what it still does. By hand anything is done that mentions only symbols there are. A solver may answer differently
each time it is asked, but simplifies without new symbols. -/
inductive Recorded : List Action → Pool → List (Search Handle × Script Handle Unit) → Prop
  | start : Recorded [] {} []
  | act {as pool live} (before : Recorded as pool live) (a : Action) (plain : a.Plain pool.symbols) :
      Recorded (as ++ [a]) (a.apply pool) live
  | eager {as pool live} (before : Recorded as pool live) {solver : Solver} (keeps : solver.KeepsSymbols) (s : Stmt)
      (h : Handle) :
      Recorded (as ++ (Script.eager solver s h).actions pool) (Explore.after (eager solver s h) pool) live
  | explore {as pool live} (before : Recorded as pool live) (solver : Solver) (bound : Nat) (s : Stmt) (h : Handle) :
      Recorded as pool ((explore solver bound s h,Script.explore solver bound s h) :: live)
  | reorder {as pool live same} (before : Recorded as pool live) (perm : live.Perm same) : Recorded as pool same
  | yield {as pool q live search script value resume} (before : Recorded as pool ((search,script) :: live))
      (drawn : search pool = .yield value q resume) :
      Recorded (as ++ script.actions pool) q ((resume,script.rest pool) :: live)
  | done {as pool q live search script} (before : Recorded as pool ((search,script) :: live))
      (drawn : search pool = .done q) : Recorded (as ++ script.actions pool) q live
  | failed {as pool q live search script fault} (before : Recorded as pool ((search,script) :: live))
      (drawn : search pool = .failed fault q) : Recorded (as ++ script.actions pool) q live

/-- The record leads to the pool, its actions are in order, and each search under way does what its script says. -/
structure Recorded.Kept (as : List Action) (pool : Pool) (live : List (Search Handle × Script Handle Unit)) : Prop where
  reached : pool = Pool.through {} as
  orderly : Orderly {} as
  scripts : ∀ entry ∈ live, entry.1 = entry.2.trace
  tidy : ∀ entry ∈ live, ∀ q : Pool, q.Scoped → pool.symbols ≤ q.symbols →
    Script.Tidy (fun _ _ => True) q entry.2

theorem Pool.empty_scoped : ({} : Pool).Scoped := fun _ => ⟨by simp [Pool.state],by simp [Pool.state]⟩

namespace Recorded.Kept

variable {as bs : List Action} {pool q : Pool} {live rest : List (Search Handle × Script Handle Unit)}

theorem inScope (kept : Kept as pool live) : pool.Scoped := by
  rw [kept.reached]
  exact kept.orderly.keeps Pool.empty_scoped List.prefix_rfl

theorem more (kept : Kept as pool live) (orderly : Orderly pool bs) (through : q = pool.through bs)
    (fewer : ∀ entry ∈ rest, entry ∈ live) : Kept (as ++ bs) q rest := by
  have pools := kept.reached
  refine ⟨?_,kept.orderly.append (pools ▸ orderly),fun entry member => kept.scripts entry (fewer entry member),?_⟩
  · rw [Pool.through_append,← pools]
    exact through
  · intro entry member r inScope enough
    have symbols : pool.symbols ≤ q.symbols := through ▸ pool.through_symbols bs
    exact kept.tidy entry (fewer entry member) r inScope (symbols.trans enough)

theorem begin (kept : Kept as pool live) {script : Script Handle Unit}
    (tidy : ∀ q : Pool, q.Scoped → pool.symbols ≤ q.symbols → Script.Tidy (fun _ _ => True) q script) :
    Kept as pool ((script.trace,script) :: live) := by
  refine ⟨kept.reached,kept.orderly,fun entry member => ?_,fun entry member => ?_⟩
  · rcases List.mem_cons.mp member with rfl | member
    · rfl
    · exact kept.scripts entry member
  · rcases List.mem_cons.mp member with rfl | member
    · exact tidy
    · exact kept.tidy entry member

variable {search : Search Handle} {script : Script Handle Unit}

theorem script_eq (kept : Kept as pool ((search,script) :: live)) : search = script.trace :=
  kept.scripts (search,script) (by simp)

theorem script_tidy (kept : Kept as pool ((search,script) :: live)) : Script.Tidy (fun _ _ => True) pool script :=
  kept.tidy (search,script) (by simp) pool kept.inScope le_rfl

theorem draw (kept : Kept as pool ((search,script) :: live)) (through : q = pool.through (script.actions pool)) :
    Kept (as ++ script.actions pool) q live :=
  kept.more kept.script_tidy.orderly through fun _ member => List.mem_cons_of_mem _ member

end Recorded.Kept

theorem Recorded.kept {as : List Action} {pool : Pool} {live : List (Search Handle × Script Handle Unit)}
    (recorded : Recorded as pool live) : Recorded.Kept as pool live := by
  induction recorded with
  | start => exact ⟨rfl,.nil,by simp,by simp⟩
  | act before a plain ih => exact ih.more (.act plain .nil) rfl fun _ member => member
  | @eager as pool live before solver keeps s h ih =>
    have tidy := Script.eager_safe keeps s h pool.symbols pool ih.inScope le_rfl
    refine ih.more tidy.orderly ?_ fun _ member => member
    rw [← Script.eager_run]
    exact Script.run_after _ pool
  | explore before solver bound s h ih =>
    rw [← Script.explore_trace]
    exact ih.begin fun q inScope _ => Script.explore_safe solver bound s h q.symbols q inScope le_rfl
  | reorder before perm ih =>
    exact ⟨ih.reached,ih.orderly,fun entry member => ih.scripts entry (perm.mem_iff.mpr member),
      fun entry member => ih.tidy entry (perm.mem_iff.mpr member)⟩
  | @yield as pool q live search script value resume before drawn ih =>
    rw [ih.script_eq] at drawn
    obtain ⟨rfl,rfl⟩ := Script.trace_yield drawn
    exact (ih.draw rfl).begin fun r inScope enough => ih.script_tidy.resume inScope enough
  | done before drawn ih =>
    rw [ih.script_eq] at drawn
    exact ih.draw (Script.trace_done drawn)
  | failed before drawn ih =>
    rw [ih.script_eq] at drawn
    exact ih.draw (Script.trace_failed drawn)

/-- What holds at every point of a record, that is, behind each of its beginnings. -/
structure Fresh (as : List Action) : Prop where
  /-- The symbols that a state mentions were made before. -/
  made : ∀ point, point <+: as → ∀ (k : Handle) s, ((Pool.through {} point).state k).Mentions s →
    s.index < (Pool.through {} point).symbols
  /-- No symbol is made twice. -/
  distinct : (Pool.made {} as).Nodup
  /-- Paths are only appended to. -/
  appended : ∀ earlier later, earlier <+: later → later <+: as → ∀ k : Handle,
    ((Pool.through {} earlier).state k).path <+: ((Pool.through {} later).state k).path
  /-- A fork begins with the path of the state that was forked. -/
  inherited : ∀ point h later, point ++ [.fork h] <+: later → later <+: as →
    ((Pool.through {} point).state h).path <+:
      ((Pool.through {} later).state (Pool.through {} point).states.size).path
  /-- An assignment makes a symbol, binds it, and appends an equation for it. The symbol is neither in the term that
  it equals nor in the state before. -/
  defined : ∀ point h s t, point ++ [.equate h s t] <+: as → ∃ before name,
    point = before ++ [.symbol name,.bind h name s] ∧ s = ⟨name,(Pool.through {} before).symbols⟩ ∧
    ¬ t.Mentions s ∧ ¬ ((Pool.through {} before).state h).Mentions s ∧
    (h < (Pool.through {} before).states.size →
      ((Pool.through {} (point ++ [.equate h s t])).state h).path =
        ((Pool.through {} before).state h).path ++ [.compare .eq (.sym s) t])

theorem Pool.prefix_path (p : Pool) {earlier later : List Action} (past : earlier <+: later) (k : Handle) :
    ((p.through earlier).state k).path <+: ((p.through later).state k).path := by
  obtain ⟨rest,rfl⟩ := past
  rw [through_append]
  exact (p.through earlier).through_path rest k

/-- At every point of every exploration, from whatever states and mixed with whatever else, symbols are fresh. -/
theorem recorded_fresh {as : List Action} {pool : Pool} {live : List (Search Handle × Script Handle Unit)}
    (recorded : Recorded as pool live) :
    pool = Pool.through {} as ∧ (∀ entry ∈ live, entry.1 = entry.2.trace) ∧ Fresh as := by
  have kept := recorded.kept
  have inScope : ∀ point, point <+: as → (Pool.through {} point).Scoped :=
    fun _ => kept.orderly.keeps Pool.empty_scoped
  refine ⟨kept.reached,kept.scripts,?_,Pool.nodup_made {} as,?_,?_,?_⟩
  · exact fun point past k s mentions => (inScope point past k).lt mentions
  · exact fun earlier later past _ k => Pool.prefix_path {} past k
  · intro point h later past _
    have forked : ((Pool.through {} (point ++ [.fork h])).state (Pool.through {} point).states.size).path =
        ((Pool.through {} point).state h).path := by
      rw [Pool.through_append]
      change ((Pool.forked _ h).state _).path = _
      rw [Pool.forked_new]
    rw [← forked]
    exact Pool.prefix_path {} past _
  · rintro point h s t ⟨later,found⟩
    rw [List.append_assoc] at found
    obtain ⟨before,name,rfl,known,bound⟩ := kept.orderly.equation found.symm
    -- The symbol has the number that the counter had at `before`, and all that is mentioned there lies below it.
    have past : before <+: as := ⟨_,by rw [← found,List.append_assoc]⟩
    refine ⟨before,name,rfl,known,fun inside => ?_,fun inside => ?_,fun valid => ?_⟩
    · exact absurd (t.bound_le.mp bound s inside) (lt_irrefl _)
    · have lower := (inScope before past h).lt inside
      rw [known] at lower
      exact absurd lower (lt_irrefl _)
    · subst known
      rw [Pool.through_append,Pool.through_append]
      exact congrArg State.path (Pool.assigned_state _ name t valid)

/-- A variable with any value that is not positive in the end. -/
def clipping : Stmt :=
  .block [.havoc ["x"],.ifOnly (.app .compare ">" [.var "x",.int 0]) (.assign "x" (.int 0))]

/-- A lazy exploration from a new state. Its first result is marked before the second one is drawn. -/
def clippingRecord : List Action :=
  let above : Formula := .rel .lt (.lit 0) (.sym ⟨"x",0⟩)
  [.new,.ask [],.ask [],.symbol "x",.bind 0 "x" ⟨"x",0⟩,.ask [],.fork 0,.require 0 above,.ask [above],.symbol "x",
    .bind 0 "x" ⟨"x",1⟩,.equate 0 ⟨"x",1⟩ (.lit 0),.markFailed 0,.require 1 (.not above),.ask [.not above]]

theorem clippingRecord_fresh :
    ∃ pool live, Recorded clippingRecord pool live ∧ Pool.made {} clippingRecord = [⟨"x",0⟩,⟨"x",1⟩] ∧
      Fresh clippingRecord := by
  have begun := (Recorded.start.act .new trivial).explore .undecided 1 clipping 0
  have first := (begun.yield rfl).act (.markFailed 0) trivial
  have second : Recorded clippingRecord _ _ := first.yield rfl
  exact ⟨_,_,second,rfl,(recorded_fresh second).2.2⟩

end WhileExec.Symbolic
