import Mathlib
import WhileExec.Proofs.Symbolic.LazyCoverage
import WhileExec.Proofs.Symbolic.LazySoundness
import WhileExec.Proofs.Symbolic.LazyPartition

/-!
# Reports of violated assertions

What a lazy exploration prints is a log of listed states and of reports, and the reported states are those that it
has made and marked as failed. Every reported state comes from executions that violate the assertion it is reported
for, and every execution that violates an assertion is found in a reported state.

Between two results others may print and report as well. `Log` is therefore stated between any two pools, and the
contracts below ask for a log of whoever takes the results.
-/

namespace WhileExec.Symbolic

open Interpretation (Agrees)
open Trace (Taking)

/-- The text by which a state is reported where a statement fails. -/
def reportText (solver : Solver) (statement : Stmt) (s : State) : String :=
  "[symexec]: Error at " ++ ((statement.write 0).text ++ (" with " ++ s.text ++ "\n" ++
    ("[symexec]: Concrete state " ++
      (match s.concrete solver with
        | some values => values.listing fun value => value
        | none => "None") ++ "\n")))

/-- A part of what is printed: a state that is listed, or a state that is reported for an assertion. -/
inductive Entry where
  | listing (s : State)
  | report (k : Handle) (site : Site)

/-- The text of the entries, where reported states are as in the given pool. -/
def transcript (solver : Solver) (q : Pool) : List Entry → String
  | [] => ""
  | .listing s :: log => s.text ++ "\n" ++ transcript solver q log
  | .report k site :: log => reportText solver (.assert site.cond) (q.state k) ++ transcript solver q log

theorem transcript_append (solver : Solver) (q : Pool) (log more : List Entry) :
    transcript solver q (log ++ more) = transcript solver q log ++ transcript solver q more := by
  induction log with
  | nil => simp [transcript]
  | cons entry log ih => cases entry <;> simp [transcript,ih,String.append_assoc]

theorem transcript_congr {solver : Solver} {p q : Pool} {log : List Entry}
    (same : ∀ k site, .report k site ∈ log → q.state k = p.state k) :
    transcript solver q log = transcript solver p log := by
  induction log with
  | nil => rfl
  | cons entry log ih =>
    have rest := ih fun k site member => same k site (by simp [member])
    cases entry with
    | listing s => simp only [transcript,rest]
    | report k site => simp only [transcript,rest,same k site (by simp)]

/-- What was printed and marked between two pools: the reported states are just those that were made and have
failed, and what is reported is `good`. No other state is marked. -/
structure Log (solver : Solver) (good : Site → State → Prop) (p q : Pool) (log : List Entry) : Prop where
  flags : ∀ k < p.states.size, (q.state k).failed = (p.state k).failed
  out : q.out = p.out ++ transcript solver q log
  sound : ∀ k site, .report k site ∈ log →
    p.states.size ≤ k ∧ k < q.states.size ∧ (q.state k).failed = true ∧ good site (q.state k)
  complete : ∀ k, p.states.size ≤ k → k < q.states.size → (q.state k).failed = true → ∃ site, .report k site ∈ log

/-- Nothing is printed, and nothing marked. -/
structure Pool.Quiet (p q : Pool) : Prop where
  size : p.states.size ≤ q.states.size
  out : q.out = p.out
  old : ∀ k < p.states.size, (q.state k).failed = (p.state k).failed
  new : ∀ k, p.states.size ≤ k → (q.state k).failed = false

theorem Pool.printed_printed (p : Pool) (text more : String) :
    (p.printed text).printed more = p.printed (text ++ more) := by
  simp [printed,String.append_assoc]

theorem Pool.outside (p : Pool) {k : Handle} (beyond : p.states.size ≤ k) : p.state k = {} := by
  simp [Pool.state,beyond]

namespace Pool.Quiet

variable {p q r : Pool} {h : Handle}

theorem refl (p : Pool) : p.Quiet p := ⟨le_rfl,rfl,fun _ _ => rfl,fun k beyond => by rw [p.outside beyond]⟩

theorem trans (first : p.Quiet q) (second : q.Quiet r) : p.Quiet r := by
  refine ⟨first.size.trans second.size,second.out.trans first.out,fun k old => ?_,fun k beyond => ?_⟩
  · rw [second.old k (old.trans_le first.size),first.old k old]
  · by_cases inside : k < q.states.size
    · rw [second.old k inside,first.new k beyond]
    · exact second.new k (Nat.le_of_not_lt inside)

theorem change {f : State → State} (kept : ∀ s, (f s).failed = s.failed) : p.Quiet (p.change h f) := by
  refine ⟨by simp,rfl,fun k old => ?_,fun k beyond => ?_⟩
  · by_cases same : k = h
    · subst same
      rw [p.change_state f old,kept]
    · rw [p.change_other f same]
  · rw [Pool.outside _ (by simpa using beyond)]

theorem required (p : Pool) (h : Handle) (f : Formula) : p.Quiet (p.required h f) := change fun _ => rfl

theorem renewed (p : Pool) (h : Handle) (name : String) : p.Quiet (p.renewed h name) := by
  have changed : p.Quiet (p.change h fun s => s.bind name ⟨name,p.symbols⟩) := change fun _ => rfl
  exact ⟨changed.size,changed.out,changed.old,changed.new⟩

theorem forked (p : Pool) (h : Handle) : p.Quiet (p.forked h) := by
  refine ⟨by simp,rfl,fun k old => by rw [p.forked_old h old],fun k beyond => ?_⟩
  rcases beyond.eq_or_lt with rfl | beyond
  · rw [p.forked_new h]
  · rw [Pool.outside _ (by simpa using beyond)]

theorem split (p : Pool) (h : Handle) (f : Formula) : p.Quiet (p.split h f) :=
  ((forked p h).trans (required _ h f)).trans (required _ _ _)

theorem assigned (p : Pool) (h : Handle) (name : String) (t : Term) : p.Quiet (p.assigned h name t) :=
  (renewed p h name).trans (required _ h _)

theorem havocked (p : Pool) (h : Handle) (names : List String) : p.Quiet (p.havocked h names) := by
  induction names generalizing p with
  | nil => exact refl p
  | cons name names ih => exact (renewed p h name).trans (ih _)

end Pool.Quiet

namespace Log

variable {solver : Solver} {good : Site → State → Prop} {p mid q : Pool} {log more : List Entry} {h : Handle}

theorem of_quiet (quiet : p.Quiet q) : Log solver good p q [] := by
  refine ⟨quiet.old,by simp [transcript,quiet.out],by simp,fun k beyond _ failed => ?_⟩
  rw [quiet.new k beyond] at failed
  contradiction

theorem refl (p : Pool) : Log solver good p p [] := of_quiet (.refl p)

/-- States that have failed in the first part are left alone in the second. -/
theorem trans (first : Log solver good p mid log) (second : Log solver good mid q more)
    (before : p.states.size ≤ mid.states.size) (after : mid.states.size ≤ q.states.size)
    (kept : ∀ k, p.states.size ≤ k → k < mid.states.size → (mid.state k).failed = true → q.state k = mid.state k) :
    Log solver good p q (log ++ more) := by
  have same : ∀ k site, .report k site ∈ log → q.state k = mid.state k := by
    intro k site member
    obtain ⟨new,inside,failed,-⟩ := first.sound k site member
    exact kept k new inside failed
  refine ⟨fun k old => ?_,?_,fun k site member => ?_,fun k new inside failed => ?_⟩
  · rw [second.flags k (old.trans_le before),first.flags k old]
  · rw [second.out,first.out,transcript_append,transcript_congr same,String.append_assoc]
  · rcases List.mem_append.mp member with member | member
    · obtain ⟨new,inside,failed,known⟩ := first.sound k site member
      rw [same k site member]
      exact ⟨new,inside.trans_le after,failed,known⟩
    · obtain ⟨new,inside,failed,known⟩ := second.sound k site member
      exact ⟨before.trans new,inside,failed,known⟩
  · by_cases older : k < mid.states.size
    · obtain ⟨site,member⟩ := first.complete k new older (second.flags k older ▸ failed)
      exact ⟨site,List.mem_append_left more member⟩
    · obtain ⟨site,member⟩ := second.complete k (Nat.le_of_not_lt older) inside failed
      exact ⟨site,List.mem_append_right log member⟩

theorem after_quiet (quiet : p.Quiet mid) (log : Log solver good mid q more) (size : mid.states.size ≤ q.states.size) :
    Log solver good p q more := by
  refine (of_quiet quiet).trans log quiet.size size fun k new _ failed => ?_
  rw [quiet.new k new] at failed
  contradiction

/-- A part that changes only a state which was there before the first part began. -/
theorem append {a : Pool} (quiet : p.Quiet a) (first : Log solver good a mid log) (second : Log solver good mid q more)
    (before : a.states.size ≤ mid.states.size) (grows : mid.Grows {h} q) (old : h < a.states.size) :
    Log solver good p q (log ++ more) := by
  refine (first.trans second before grows.size fun k new inside _ => ?_).after_quiet quiet (before.trans grows.size)
  exact grows.others k inside (old.trans_le new).ne'

theorem listing (s : State) : Log solver good p (p.printed (s.text ++ "\n")) [.listing s] := by
  refine ⟨fun _ _ => rfl,by simp [transcript,Pool.printed],by simp,fun k new inside _ => ?_⟩
  exact absurd new (Nat.not_le_of_lt inside)

theorem report (quiet : p.Quiet q) (new : p.states.size ≤ h) (inside : h < q.states.size) (site : Site)
    (known : good site { q.state h with failed := true }) :
    Log solver good p ((q.printed (reportText solver (.assert site.cond) (q.state h))).marked h) [.report h site] := by
  have marked : ((q.printed (reportText solver (.assert site.cond) (q.state h))).marked h).state h =
      { q.state h with failed := true } := Pool.change_state _ _ inside
  refine ⟨fun k old => ?_,?_,?_,fun k beyond _ failed => ⟨site,?_⟩⟩
  · rw [Pool.marked,Pool.change_other _ _ (old.trans_le new).ne]
    exact quiet.old k old
  · simp only [transcript,marked,String.append_empty]
    change q.out ++ _ = p.out ++ _
    rw [quiet.out]
    rfl
  · intro k other member
    cases List.mem_singleton.mp member
    rw [marked]
    exact ⟨new,by simpa [Pool.marked] using inside,rfl,known⟩
  · by_cases same : k = h
    · simp [same]
    · rw [Pool.marked,Pool.change_other _ _ same] at failed
      exact absurd failed (by simp [quiet.new k beyond])

end Log

namespace Lazy

theorem printWritten_ok {w : Written} {p q : Pool} {u : Unit} (ok : Explore.printWritten w p = .ok u q) :
    q = p.printed w.text := by
  obtain ⟨text,r,written,ok⟩ := Explore.bind_ok ok
  unfold Written.toExcept at written
  cases fault : w.fault with
  | some cause => simp only [fault] at written; cases written
  | none =>
    simp only [fault] at written
    cases written
    cases ok
    rfl

theorem report_ok {solver : Solver} {s : Stmt} {h : Handle} {p q : Pool} (ok : report solver s h p = .ok () q) :
    q = (p.printed (reportText solver s (p.state h))).marked h := by
  unfold report at ok
  obtain ⟨_,a,first,ok⟩ := Explore.bind_ok ok
  rw [Explore.print_apply] at first
  injection first with _ first
  obtain ⟨_,b,second,ok⟩ := Explore.bind_ok ok
  replace second := printWritten_ok second
  obtain ⟨t,c,third,ok⟩ := Explore.bind_ok ok
  obtain ⟨rfl,rfl⟩ : b.state h = t ∧ b = c := by
    cases third
    exact ⟨rfl,rfl⟩
  obtain ⟨_,d,fourth,ok⟩ := Explore.bind_ok ok
  rw [Explore.print_apply] at fourth
  injection fourth with _ fourth
  obtain ⟨_,e,fifth,ok⟩ := Explore.bind_ok ok
  rw [Explore.print_apply] at fifth
  injection fifth with _ fifth
  rw [Explore.markFailed_apply] at ok
  injection ok with _ ok
  rw [← ok,← fifth,← fourth,second,← first,Pool.printed_printed,Pool.printed_printed,Pool.printed_printed]
  rfl

variable {solver : Solver} {cond : Expr} {search next : Handle → Search Handle} {good : Site → State → Prop}
  {R : Store → Store → Prop} {V W : Site → Store → Store → Prop} {h : Handle} {p q r : Pool} {ts : List Taking}
  {log : List Entry}

/-- While all results are drawn there is a log, and what is reported comes by `V` from the entered state. -/
def Reports (solver : Solver) (search : Handle → Search Handle) (V : Site → Store → Store → Prop) : Prop :=
  ∀ (good : Site → State → Prop) h p ts q, h < p.states.size → (search h p).Draws ts true q →
    (∀ site s, (p.state h).Follows (V site) s → solver.unsat s.path = false → good site s) →
    (∀ t ∈ ts, ∃ log, Log solver good t.given t.back log) → ∃ log, Log solver good p q log

theorem logged_yield (draws : (Trace.yield h q .done).Draws ts true r) (old : h < p.states.size)
    (size : p.states.size ≤ q.states.size) (first : Log solver good p q log)
    (takers : ∀ t ∈ ts, ∃ log, Log solver good t.given t.back log) : ∃ log, Log solver good p r log := by
  cases draws with
  | next careful rest =>
    cases rest
    obtain ⟨more,second⟩ := takers _ (List.mem_singleton_self _)
    exact ⟨_,first.trans second size careful.size fun k new inside _ =>
      careful.others k inside (old.trans_le new).ne'⟩

theorem logged_checked (draws : (ifPossible solver h (pure h) q).Draws ts true r) (old : h < p.states.size)
    (size : p.states.size ≤ q.states.size) (first : Log solver good p q log)
    (takers : ∀ t ∈ ts, ∃ log, Log solver good t.given t.back log) : ∃ log, Log solver good p r log := by
  rw [ifPossible_apply] at draws
  split at draws
  · cases draws; exact ⟨_,first⟩
  · exact logged_yield draws old size first takers

/-- What is checked stays as it is, unless it is possible and so is reported. -/
theorem check_ok {u : Unit} (ok : check solver cond h p = .ok u q) :
    (solver.unsat (p.state h).path = true ∧ q = p) ∨
      (solver.unsat (p.state h).path = false ∧
        q = (p.printed (reportText solver (.assert cond) (p.state h))).marked h) := by
  rw [check_apply] at ok
  split at ok
  next impossible => cases ok; exact .inl ⟨impossible,rfl⟩
  next possible => exact .inr ⟨by simpa using possible,report_ok ok⟩

/-- The case that an assertion excludes is reported for executions in which the condition is false. -/
theorem check_logged {f : Formula} {u : Unit} (site : Site) (same : site.cond = cond)
    (known : p.formula .nested h cond = .ok f) (typed : cond.isCondition = true)
    (ok : check solver cond p.states.size ((p.forked h).required p.states.size f.not) = .ok u q)
    (own : ∀ s, (p.state h).Follows (fun store final => cond.Decides store false ∧ final = store) s →
      solver.unsat s.path = false → good site s) : ∃ log, Log solver good p q log := by
  have quiet := (Pool.Quiet.forked p h).trans (.required _ p.states.size f.not)
  have inside : p.states.size < (p.forked h).states.size := by simp
  subst same
  rcases check_ok ok with ⟨-,rfl⟩ | ⟨possible,rfl⟩
  · exact ⟨[],.of_quiet quiet⟩
  · refine ⟨_,.report quiet le_rfl (by simp) site (own _ ?_ possible)⟩
    rw [(p.forked h).required_state _ inside]
    exact (Pool.follows_refused known typed).congr rfl rfl

theorem Reports.pure : Reports solver pure V :=
  fun _ _ p _ _ valid draws _ takers => logged_yield draws valid le_rfl (.refl p) takers

theorem Reports.mono (reports : Reports solver search V) (weaker : ∀ site store final, V site store final →
    W site store final) : Reports solver search W :=
  fun good h p ts q valid draws own => reports good h p ts q valid draws fun site s follows =>
    own site s (follows.mono (weaker site))

theorem Reports.ifPossible (reports : Reports solver search V) :
    Reports solver (fun h => ifPossible solver h (search h)) V := by
  intro good h p ts q valid draws own takers
  simp only [ifPossible_apply] at draws
  split at draws
  · cases draws; exact ⟨[],.refl p⟩
  · exact reports good h p ts q valid draws own takers

theorem Reports.bind (first : Reports solver search V) (justifies : Justifies search R) (second : Reports solver next W)
    (owns : Local search) (each : Local next) :
    Reports solver (fun h => search h >>= next) fun site store final =>
      V site store final ∨ ∃ mid, R store mid ∧ W site mid final := by
  intro good h p ts q valid draws own takers
  have mine := owns h p valid
  obtain ⟨groups,complete,last,outer,rfl,-,whole⟩ := Trace.Draws.of_bind mine each draws
  obtain ⟨rfl,rfl,inner⟩ := whole rfl
  refine first good h p _ last valid outer (fun site s follows => own site s (follows.mono fun _ _ => .inl)) ?_
  intro t member
  obtain ⟨g,listed,rfl⟩ := List.mem_map.mp member
  have inside := ((mine.drawn outer).2 g.1 member).valid
  have before := justifies h p _ _ last valid outer g.1 member
  refine second good _ _ _ _ inside (inner g listed) (fun site s follows => ?_) fun u drawn => ?_
  · exact own site s ((before.trans follows).mono fun _ _ => .inr)
  · exact takers u (List.mem_flatMap.mpr ⟨g,listed,drawn⟩)

theorem Reports.branch (typed : cond.isCondition = true) (yes : Reports solver search V) (no : Reports solver next W)
    (owns : Local search) (each : Local next) :
    Reports solver (branch solver cond search next) fun site store final =>
      (cond.Decides store true ∧ V site store final) ∨ (cond.Decides store false ∧ W site store final) := by
  intro good h p ts q valid draws own takers
  rw [branch_apply] at draws
  cases known : p.formula .nested h cond with
  | error fault => rw [known] at draws; cases draws
  | ok f =>
    rw [known] at draws
    obtain ⟨stopped,-⟩ | ⟨mid,ts,us,rfl,first,second⟩ := Trace.Draws.of_andThen draws
    · cases stopped
    have older : h < (p.forked h).states.size := by simpa using Nat.lt_succ_of_lt valid
    have inside : h < ((p.forked h).required h f).states.size := by simpa using older
    have apart : p.states.size ∉ ({h} : Set Handle) := valid.ne'
    have grows := ((owns.ifPossible h _ inside).drawn first).1
    have size : p.states.size < mid.states.size := lt_of_lt_of_le (by simp) grows.size
    have size' : p.states.size < (mid.required p.states.size f.not).states.size := by simpa using size
    obtain ⟨before,entered⟩ := yes.ifPossible good h _ ts mid inside first (fun site s follows => by
      rw [Pool.required_state _ f older,p.forked_old h valid] at follows
      exact own site s (((Pool.follows_required known typed).under follows).mono fun _ _ => .inl))
      fun t member => takers t (List.mem_append_left us member)
    obtain ⟨after,left⟩ := no.ifPossible good _ _ us q size' second (fun site s follows => by
      rw [mid.required_state _ size,grows.others _ (by simp) apart,Pool.required_other _ _ apart] at follows
      exact own site s (((Pool.follows_refused known typed).under follows).mono fun _ _ => .inr))
      fun t member => takers t (List.mem_append_right ts member)
    have later := ((each.ifPossible _ _ size').drawn second).1
    have quiet := (Pool.Quiet.forked p h).trans (.required _ h f)
    exact ⟨_,.append quiet entered (left.after_quiet (.required mid _ _) later.size) grows.size
      ((Pool.Grows.required mid _ _).trans_same later) (by simp)⟩

theorem Reports.unwind_step (typed : cond.isCondition = true) {bound : Nat}
    (inside : Reports solver (fun h => again solver cond search h bound) V)
    (owns : Local fun h => again solver cond search h bound) :
    Reports solver (unwind solver cond search bound) fun site store final =>
      cond.Decides store true ∧ V site store final := by
  intro good h p ts q valid draws own takers
  rw [unwind_apply] at draws
  cases known : p.formula .nested h cond with
  | error fault => rw [known] at draws; cases draws
  | ok f =>
    rw [known] at draws
    obtain ⟨stopped,-⟩ | ⟨mid,ts,us,rfl,first,second⟩ := Trace.Draws.of_andThen draws
    · cases stopped
    have older := p.lt_split f valid
    have grows := ((owns h _ older).drawn first).1
    have size : p.states.size < mid.states.size := lt_of_lt_of_le (by simp) grows.size
    obtain ⟨before,entered⟩ := inside good h _ ts mid older first (fun site s follows => by
      rw [p.split_state f valid] at follows
      exact own site s ((Pool.follows_required known typed).under follows))
      fun t member => takers t (List.mem_append_left us member)
    obtain ⟨after,left⟩ := logged_checked second size le_rfl (.refl mid)
      fun t member => takers t (List.mem_append_right ts member)
    have later := ((Local.pure.ifPossible _ mid size).drawn second).1
    exact ⟨_,.append (.split p h f) entered left grows.size later (by simp)⟩

theorem Reports.unwind (typed : cond.isCondition = true) (body : Reports solver search V) (justifies : Justifies search R)
    (owns : Local search) (bound : Nat) :
    Reports solver (unwind solver cond search bound) fun site => Breaks cond R (V site) bound := by
  induction bound with
  | zero =>
    have inside : Reports solver (fun h => again solver cond search h 0) fun _ _ _ => False := by
      intro good h p ts q valid draws own takers
      cases draws
      exact ⟨[],.refl p⟩
    exact (unwind_step typed inside (owns.again 0)).mono fun _ _ _ broken => broken.2
  | succ bound ih =>
    exact unwind_step typed (body.bind justifies ih owns (owns.unwind bound)).ifPossible (owns.again (bound + 1))

end Lazy

open Lazy

theorem lazilyAll_reports {solver : Solver} {bound : Nat} {ss : List Stmt} (outer : List Nat) (n : Nat)
    (typed : ∀ s ∈ ss, s.wellTyped = true)
    (each : ∀ s ∈ ss, ∀ outer, Reports solver (lazily solver bound s) fun site store final =>
      ∃ inner, site = inner.under outer ∧ s.Violates bound inner store final) :
    Reports solver (lazilyAll solver bound ss) fun site store final =>
      ∃ m inner, site = inner.under (outer ++ [n + m]) ∧ Stmt.ViolatesAll bound ss m inner store final := by
  induction ss generalizing n with
  | nil => exact .pure
  | cons s ss ih =>
    have first := (each s (by simp) (outer ++ [n])).ifPossible
    have rest := ih (n + 1) (fun s member => typed s (by simp [member])) fun s member => each s (by simp [member])
    intro good h
    rw [lazilyAll_cons]
    refine ((first.bind (lazily_justifies solver bound s (typed s (by simp))).ifPossible rest
      (lazily_local solver bound s).ifPossible (lazilyAll_local fun s _ => lazily_local solver bound s)).mono ?_) good h
    rintro site store final (⟨inner,rfl,violated⟩ | ⟨mid,run,m,inner,rfl,violated⟩)
    · exact ⟨0,inner,rfl,.inl ⟨rfl,violated⟩⟩
    · exact ⟨m + 1,inner,by rw [Nat.add_right_comm,Nat.add_assoc],.inr ⟨m,rfl,mid,run,violated⟩⟩

/-- What a statement reports comes from executions that violate the assertion. The place is seen from a statement
around it. -/
theorem lazily_reports (solver : Solver) (bound : Nat) (s : Stmt) (typed : s.wellTyped = true) (outer : List Nat) :
    Reports solver (lazily solver bound s) fun site store final =>
      ∃ inner, site = inner.under outer ∧ s.Violates bound inner store final := by
  induction s using Stmt.structural generalizing outer with
  | skip => exact .pure
  | printState =>
    intro good h p ts q valid draws own takers
    rw [lazily_printState] at draws
    exact logged_yield draws valid le_rfl (.listing (p.state h)) takers
  | assign name rhs =>
    intro good h p ts q valid draws own takers
    rw [lazily_assign] at draws
    cases known : p.term .nested h rhs with
    | error fault => rw [known] at draws; cases draws
    | ok t =>
      rw [known] at draws
      have quiet := Pool.Quiet.assigned p h name t
      exact logged_yield draws valid quiet.size (.of_quiet quiet) takers
  | ifElse cond yes no left right =>
    simp only [Stmt.wellTyped,Stmt.every,Stmt.sorted,Bool.and_eq_true] at typed
    intro good h
    rw [lazily_ifElse]
    refine (Reports.branch typed.1.1 (left typed.1.2 (outer ++ [0])) (right typed.2 (outer ++ [1]))
      (lazily_local solver bound yes) (lazily_local solver bound no)).mono ?_ good h
    rintro site store final (⟨holds,inner,rfl,violated⟩ | ⟨fails,inner,rfl,violated⟩)
    · exact ⟨_,(inner.under_under outer [0]).symm,.inl ⟨holds,inner,rfl,violated⟩⟩
    · exact ⟨_,(inner.under_under outer [1]).symm,.inr ⟨fails,inner,rfl,violated⟩⟩
  | ifOnly cond yes ih =>
    simp only [Stmt.wellTyped,Stmt.every,Stmt.sorted,Bool.and_eq_true] at typed
    intro good h
    rw [lazily_ifOnly]
    have none : Reports solver pure fun _ _ _ => False := .pure
    refine (Reports.branch typed.1 (ih typed.2 (outer ++ [0])) none (lazily_local solver bound yes) .pure).mono ?_ good h
    rintro site store final (⟨holds,inner,rfl,violated⟩ | ⟨-,never⟩)
    · exact ⟨_,(inner.under_under outer [0]).symm,holds,inner,rfl,violated⟩
    · exact never.elim
  | loop cond body inv ih =>
    simp only [Stmt.wellTyped,Stmt.every,Stmt.sorted,Bool.and_eq_true] at typed
    intro good h
    rw [lazily]
    refine (Reports.unwind typed.1 (ih typed.2 (outer ++ [0])) (lazily_justifies solver bound body typed.2)
      (lazily_local solver bound body) bound).mono ?_ good h
    intro site store final broken
    obtain ⟨inner,rfl,within⟩ := broken.inside
    exact ⟨_,(inner.under_under outer [0]).symm,inner,rfl,within⟩
  | assert cond =>
    intro good h p ts q valid draws own takers
    rw [lazily_assert] at draws
    cases known : p.formula .nested h cond with
    | error fault => rw [known] at draws; cases draws
    | ok f =>
      simp only [known] at draws
      have grows := checked_grows solver cond h p f
      split at draws
      next r checked =>
        rw [Explore.after_ok checked] at grows
        obtain ⟨log,logged⟩ := check_logged ⟨outer ++ [],cond⟩ rfl known typed checked fun s follows =>
          own _ s (follows.mono fun store final fails => ⟨⟨[],cond⟩,rfl,rfl,fails⟩)
        have after := logged.trans (.of_quiet (.required r h f)) grows.size (by simp) fun k new _ _ =>
          Pool.required_other r f (valid.trans_le new).ne'
        exact logged_checked draws valid (by simpa using grows.size) after takers
      next => cases draws
  | assume cond =>
    intro good h p ts q valid draws own takers
    rw [lazily_assume] at draws
    cases known : p.formula .nested h cond with
    | error fault => rw [known] at draws; cases draws
    | ok f =>
      rw [known] at draws
      exact logged_checked draws valid (by simp) (.of_quiet (.required p h f)) takers
  | havoc names =>
    intro good h p ts q valid draws own takers
    rw [lazily_havoc] at draws
    have quiet := Pool.Quiet.havocked p h names
    exact logged_yield draws valid quiet.size (.of_quiet quiet) takers
  | block items ih =>
    simp only [Stmt.wellTyped,Stmt.every,Stmt.sorted,Bool.and_eq_true] at typed
    have each := Stmt.everyOf_iff.mp typed.2
    intro good h
    rw [lazily]
    refine (lazilyAll_reports outer 0 each fun s member => ih s member (each s member)).mono ?_ good h
    rintro site store final ⟨m,inner,rfl,violated⟩
    exact ⟨_,by rw [inner.under_under,Nat.zero_add],m,inner,rfl,violated⟩
  | hollow => intro good h p ts q valid draws; cases draws

end WhileExec.Symbolic
