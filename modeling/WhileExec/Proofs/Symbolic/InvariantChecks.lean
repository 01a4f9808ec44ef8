import Mathlib
import WhileExec.Proofs.Definedness
import WhileExec.Proofs.Symbolic.Deciding
import WhileExec.Proofs.Symbolic.EagerResults

/-!
# Checks of loop invariants

What the check of an invariant does, cut where the state inside the loop has been loosened and nothing is assumed of
it yet. Each part has an inversion lemma: a check is silent because the solver has refused the opposite of the
invariant, or its message is part of what is printed.

Loosening gives new symbols to just those variables that the body writes on every way. What else the body may write
keeps the symbol it had before the loop: `loosen_renews`.
-/

namespace WhileExec.Symbolic

open Explore (bind_ok formula_ok)

/-- The message is part of what was printed in between. -/
def Pool.Prints (p q : Pool) (message : String) : Prop :=
  ∃ before after, q.out = p.out ++ (before ++ message ++ after)

namespace Pool.Prints

variable {p q r : Pool} {message text : String}

theorem later (prints : p.Prints q message) (more : r.out = q.out ++ text) : p.Prints r message := by
  obtain ⟨before,after,printed⟩ := prints
  exact ⟨before,after ++ text,by rw [more,printed]; simp only [String.append_assoc]⟩

theorem earlier (prints : q.Prints r message) (more : q.out = p.out ++ text) : p.Prints r message := by
  obtain ⟨before,after,printed⟩ := prints
  exact ⟨text ++ before,after,by rw [printed,more]; simp only [String.append_assoc]⟩

theorem printed (p : Pool) (message : String) : p.Prints (p.printed (message ++ "\n")) message :=
  ⟨"","\n",by simp [Pool.printed]⟩

theorem not_of_same (same : q.out = p.out) (some : message ≠ "") : ¬ p.Prints q message := by
  rintro ⟨before,after,printed⟩
  rw [same] at printed
  have lengths := congrArg String.length printed
  simp only [String.length_append] at lengths
  have : message.length = 0 := by omega
  exact some (String.length_eq_zero_iff.mp this)

end Pool.Prints

namespace Explore

variable {α β : Type} {h : Handle}

/-- The action only adds to what is printed. -/
def Appends (action : Explore α) : Prop :=
  ∀ p a q, action p = .ok a q → ∃ text, q.out = p.out ++ text

namespace Appends

theorem bind {action : Explore α} {next : α → Explore β} (first : Appends action)
    (second : ∀ a, Appends (next a)) : Appends (action >>= next) := by
  intro p b q ok
  obtain ⟨a,r,done,rest⟩ := bind_ok ok
  obtain ⟨text,before⟩ := first p a r done
  obtain ⟨more,after⟩ := second a r b q rest
  exact ⟨text ++ more,by rw [after,before,String.append_assoc]⟩

theorem of_same {action : Explore α} (same : ∀ p a q, action p = .ok a q → q.out = p.out) : Appends action :=
  fun p a q ok => ⟨"",by rw [same p a q ok,String.append_empty]⟩

theorem pure (a : α) : Appends (pure a : Explore α) := of_same fun _ _ _ ok => by cases ok; rfl

theorem state : Appends (Explore.state h) := of_same fun _ _ _ ok => by cases ok; rfl

theorem fork : Appends (Explore.fork h) := of_same fun _ _ _ ok => by cases ok; rfl

theorem require (f : Formula) : Appends (Explore.require h f) := of_same fun _ _ _ ok => by cases ok; rfl

theorem markFailed : Appends (Explore.markFailed h) := of_same fun _ _ _ ok => by cases ok; rfl

theorem isEmpty (solver : Solver) : Appends (Explore.isEmpty solver h) := of_same fun _ _ _ ok => by cases ok; rfl

theorem print (text : String) : Appends (Explore.print text) := fun _ _ _ ok => by cases ok; exact ⟨text,rfl⟩

theorem ofExcept (x : Except Fault α) : Appends (Explore.ofExcept x) := by
  cases x with
  | ok a => exact pure a
  | error fault => intro p a q ok; cases ok

theorem printWritten (w : Written) : Appends (Explore.printWritten w) := (ofExcept _).bind print

theorem printState : Appends (Explore.printState h) := state.bind fun _ => print _

theorem meaning (joining : Joining) (e : Expr) : Appends (Explore.meaning joining h e) :=
  state.bind fun _ => ofExcept _

theorem formula (joining : Joining) (e : Expr) : Appends (Explore.formula joining h e) :=
  (meaning joining e).bind fun _ => ofExcept _

theorem renew (name : String) : Appends (Explore.renew h name) := of_same fun _ _ _ ok => by cases ok; rfl

theorem forM {γ : Type} {action : γ → Explore Unit} (each : ∀ a, Appends (action a)) (as : List γ) :
    Appends (as.forM action) := by
  induction as with
  | nil => exact pure _
  | cons a as ih => exact (each a).bind fun _ => ih

theorem havoc (names : List String) : Appends (Explore.havoc h names) :=
  forM (fun name => (renew name).bind fun _ => pure _) names

theorem ite {b : Bool} {yes no : Explore α} (one : Appends yes) (two : Appends no) :
    Appends (if b then yes else no) := by
  cases b with
  | true => exact one
  | false => exact two

end Appends

end Explore

namespace Eager

open Explore

variable {solver : Solver} {cond : Expr} {body : Handle → Explore (List Handle)}

theorem unroll_appends (each : ∀ h, Appends (body h)) (rounds : Nat) (hs : List Handle) :
    Appends (unroll solver cond body rounds hs) := by
  have advances : ∀ h, Appends (advance solver cond body h) := by
    intro h
    refine (Appends.formula .flat cond).bind fun f => Appends.fork.bind fun exit => ?_
    refine (Appends.require f).bind fun _ => (Appends.require (.not f)).bind fun _ => ?_
    refine (Appends.isEmpty solver).bind fun _ => (Appends.isEmpty solver).bind fun empty => ?_
    cases empty with
    | true => exact .pure _
    | false => exact (each h).bind fun _ => .pure _
  have round : ∀ hs, Appends (round solver cond body hs) := by
    intro hs
    induction hs with
    | nil => exact .pure _
    | cons h hs ih => exact (advances h).bind fun _ => ih.bind fun _ => .pure _
  induction rounds generalizing hs with
  | zero => exact .pure _
  | succ rounds ih => exact (round hs).bind fun _ => (ih _).bind fun _ => .pure _

def entryMessage : String := "Invariant does not hold before initial loop entry"

def keptMessage : String := "Invariant does not hold within the loop"

variable {inv : Expr} {changed : List String} {h inside : Handle} {f : Formula} {p q : Pool}

/-- Both checks: the opposite of the invariant is required, and reported unless the solver refuses it. -/
def refute (solver : Solver) (h : Handle) (f : Formula) (report : Explore Unit) : Explore Unit := do
  Explore.require h (.not f)
  unless ← Explore.isEmpty solver h do report

def entryReport (inv : Expr) (h : Handle) : Explore Unit := do
  Explore.print (entryMessage ++ "\n")
  Explore.printWritten (inv.show ++ ("\n" : Written))
  Explore.printState h
  Explore.markFailed h

def keptReport (inv : Expr) (h : Handle) (f : Formula) : Explore Unit := do
  Explore.print (keptMessage ++ "\n")
  Explore.print "inv:  "
  Explore.printWritten (inv.show ++ ("\n" : Written))
  Explore.print ("inv_post:  " ++ f.text ++ "\n")
  Explore.print ("i:  " ++ (← Explore.state h).text ++ "\n")
  Explore.print ("pc " ++ (Formula.and (← Explore.state h).path).text ++ "\n")
  Explore.markFailed h

theorem checkEntry_eq : checkEntry solver inv h f = refute solver h f (entryReport inv h) := rfl

theorem checkKept_eq : checkKept solver inv h = (do
    let f ← simplified solver inv h
    refute solver h f (keptReport inv h f)) := rfl

/-- The message is printed, perhaps with more behind it, and only the one state is changed. -/
structure Reports (message : String) (h : Handle) (report : Explore Unit) : Prop where
  grows : ∀ p : Pool, p.Grows {h} (after report p)
  prints : ∀ p q, report p = .ok () q → p.Prints q message

theorem reports_print {message : String} {rest : Explore Unit} (grows : ∀ p : Pool, p.Grows {h} (after rest p))
    (appends : Appends rest) : Reports message h (do Explore.print (message ++ "\n"); rest) := by
  refine ⟨fun p => ?_,fun p q ok => ?_⟩
  · exact after_bind ((Pool.Grows.printed p _).widen (Set.empty_subset _)) fun _ q _ => grows q
  · obtain ⟨_,r,printed,ok⟩ := bind_ok ok
    rw [Explore.print_apply] at printed
    cases printed
    obtain ⟨text,more⟩ := appends _ _ _ ok
    exact (Pool.Prints.printed p message).later more

theorem entryReport_reports : Reports entryMessage h (entryReport inv h) := by
  have quiet : ∀ {q r : Pool}, q.Grows ∅ r → q.Grows {h} r := fun grows => grows.widen (Set.empty_subset _)
  refine reports_print (fun p => ?_) ?_
  · refine after_bind (quiet (printWritten_after _ p)) fun _ q _ => ?_
    exact after_bind (quiet (.printed q _)) fun _ q _ => .marked q h
  · exact (Appends.printWritten _).bind fun _ => Appends.printState.bind fun _ => .markFailed

theorem keptReport_reports : Reports keptMessage h (keptReport inv h f) := by
  have quiet : ∀ {q r : Pool}, q.Grows ∅ r → q.Grows {h} r := fun grows => grows.widen (Set.empty_subset _)
  refine reports_print (fun p => ?_) ?_
  · refine after_bind (quiet (.printed p _)) fun _ q _ => after_bind (quiet (printWritten_after _ q)) fun _ q _ => ?_
    refine after_bind (quiet (.printed q _)) fun _ q _ => after_bind (.refl _ q) fun _ q _ => ?_
    refine after_bind (quiet (.printed q _)) fun _ q _ => after_bind (.refl _ q) fun _ q _ => ?_
    exact after_bind (quiet (.printed q _)) fun _ q _ => .marked q h
  · refine (Appends.print _).bind fun _ => (Appends.printWritten _).bind fun _ => (Appends.print _).bind fun _ => ?_
    refine Appends.state.bind fun _ => (Appends.print _).bind fun _ => Appends.state.bind fun _ => ?_
    exact (Appends.print _).bind fun _ => .markFailed

theorem refute_appends {message : String} {report : Explore Unit} (reports : Reports message h report) :
    Appends (refute solver h f report) := by
  refine (Appends.require _).bind fun _ => (Appends.isEmpty solver).bind fun _ => .ite (.pure _) ?_
  intro p _ q ok
  obtain ⟨before,after,printed⟩ := reports.prints p q ok
  exact ⟨_,printed⟩

theorem refute_ok {message : String} {report : Explore Unit} (reports : Reports message h report)
    (ok : refute solver h f report p = .ok () q) :
    p.Grows {h} q ∧ (solver.unsat ((p.required h (.not f)).state h).path = true ∨ p.Prints q message) := by
  obtain ⟨_,r,required,rest⟩ := bind_ok ok
  rw [Explore.require_apply] at required
  cases required
  obtain ⟨empty,r,asked,rest⟩ := bind_ok rest
  rw [Explore.isEmpty_apply] at asked
  cases asked
  cases refused : solver.unsat ((p.required h (.not f)).state h).path with
  | true =>
    rw [refused] at rest
    cases rest
    exact ⟨.required p h _,.inl rfl⟩
  | false =>
    rw [refused] at rest
    have grows : (p.required h (.not f)).Grows {h} q := after_ok rest ▸ reports.grows _
    have prints := reports.prints (p.required h (.not f)) q rest
    exact ⟨(Pool.Grows.required p h _).trans_same grows,.inr prints⟩

theorem checkEntry_ok (ok : checkEntry solver inv h f p = .ok () q) :
    p.Grows {h} q ∧ (solver.unsat ((p.required h (.not f)).state h).path = true ∨ p.Prints q entryMessage) := by
  rw [checkEntry_eq] at ok
  exact refute_ok entryReport_reports ok

theorem simplified_ok (ok : simplified solver inv h p = .ok f q) :
    ∃ g, p.formula .flat h inv = .ok g ∧ f = solver.simplify g ∧ q = p := by
  obtain ⟨g,r,evaluated,rest⟩ := bind_ok ok
  obtain ⟨known,rfl⟩ := formula_ok evaluated
  cases rest
  exact ⟨g,known,rfl,rfl⟩

theorem simplified_appends : Appends (simplified solver inv h) := (Appends.formula .flat inv).bind fun _ => .pure _

theorem checkKept_ok (ok : checkKept solver inv h p = .ok () q) :
    ∃ f, p.formula .flat h inv = .ok f ∧ p.Grows {h} q ∧
      (solver.unsat ((p.required h (.not (solver.simplify f))).state h).path = true ∨ p.Prints q keptMessage) := by
  rw [checkKept_eq] at ok
  obtain ⟨f,r,evaluated,rest⟩ := bind_ok ok
  obtain ⟨g,known,rfl,rfl⟩ := simplified_ok evaluated
  exact ⟨g,known,refute_ok keptReport_reports rest⟩

/-- The check up to where the state inside the loop is found, with new symbols for what changes there. Nothing is
assumed of it yet. -/
def loosen (solver : Solver) (inv : Expr) (changed : List String) (h : Handle) : Explore Handle := do
  let f ← simplified solver inv h
  let inside ← Explore.fork h
  checkEntry solver inv h f
  Explore.havoc inside changed
  return inside

/-- The rest of the check. -/
def checkLoosened (solver : Solver) (cond inv : Expr) (body : Handle → Explore (List Handle)) (inside : Handle) :
    Explore (Option Handle) := do
  Explore.require inside (← simplified solver inv inside)
  discard <| Explore.meaning .flat inside cond
  let exit ← Explore.fork inside
  (← attempt solver body inside).forM (checkKept solver inv)
  return if ← Explore.isEmpty solver exit then none else some exit

/-- What a loop does behind the first part of its check. -/
def proceed (solver : Solver) (cond inv : Expr) (body : Handle → Explore (List Handle)) (h inside : Handle) :
    Explore (List Handle) := do
  match ← checkLoosened solver cond inv body inside with
  | some exit => return [exit]
  | none => unroll solver cond body rounds [h]

theorem checkInvariant_eq : checkInvariant solver cond inv changed body h =
    loosen solver inv changed h >>= checkLoosened solver cond inv body := by
  unfold checkInvariant loosen checkLoosened attempt
  simp only [bind_assoc,pure_bind]
  refine bind_congr fun f => bind_congr fun inside => bind_congr fun _ => bind_congr fun _ => ?_
  refine bind_congr fun g => bind_congr fun _ => bind_congr fun _ => bind_congr fun exit => bind_congr fun empty => ?_
  cases empty <;> rfl

theorem loop_eq (body : Stmt) : eager solver (.loop cond body (some inv)) h =
    loosen solver inv (solver.renewed body) h >>= proceed solver cond inv (eager solver body) h := by
  rw [eager,checkInvariant_eq,bind_assoc]
  refine bind_congr fun inside => bind_congr fun exit => ?_
  cases exit <;> rfl

theorem loosen_appends : Appends (loosen solver inv changed h) :=
  simplified_appends.bind fun _ => Appends.fork.bind fun _ =>
    (refute_appends entryReport_reports).bind fun _ => (Appends.havoc changed).bind fun _ => .pure _

theorem checkLoosened_appends (each : ∀ k, Appends (body k)) : Appends (checkLoosened solver cond inv body inside) := by
  refine simplified_appends.bind fun _ => (Appends.require _).bind fun _ => ?_
  refine ((Appends.meaning .flat cond).bind fun _ => .pure _).bind fun _ => Appends.fork.bind fun _ => ?_
  refine ((Appends.isEmpty solver).bind fun _ => .ite (.pure _) (each inside)).bind fun _ => ?_
  have kept : ∀ k, Appends (checkKept solver inv k) := fun k =>
    simplified_appends.bind fun _ => refute_appends keptReport_reports
  exact (Appends.forM kept _).bind fun _ => (Appends.isEmpty solver).bind fun _ => .pure _

theorem loosen_ok (ok : loosen solver inv changed h p = .ok inside q) :
    inside = p.states.size ∧ ∃ f r, p.formula .flat h inv = .ok f ∧
      checkEntry solver inv h (solver.simplify f) (p.forked h) = .ok () r ∧ q = r.havocked inside changed := by
  obtain ⟨_,r,evaluated,rest⟩ := bind_ok ok
  obtain ⟨f,known,rfl,rfl⟩ := simplified_ok evaluated
  obtain ⟨fork,s,forked,rest⟩ := bind_ok rest
  rw [Explore.fork_apply] at forked
  cases forked
  obtain ⟨_,s,checked,rest⟩ := bind_ok rest
  obtain ⟨_,t,havocked,rest⟩ := bind_ok rest
  rw [Explore.havoc_apply] at havocked
  cases havocked
  cases rest
  exact ⟨rfl,f,s,known,checked,rfl⟩

theorem meaning_ok {e : Expr} {m : Meaning} (ok : Explore.meaning .flat h e p = .ok m q) : q = p := by
  change Explore.ofExcept (Meaning.of .flat (p.state h).env e) p = _ at ok
  cases known : Meaning.of .flat (p.state h).env e with
  | ok n => rw [known] at ok; cases ok; rfl
  | error fault => rw [known] at ok; cases ok

theorem checkLoosened_ok {exit : Option Handle} (ok : checkLoosened solver cond inv body inside p = .ok exit q) :
    ∃ g results mid, p.formula .flat inside inv = .ok g ∧
      attempt solver body inside ((p.required inside (solver.simplify g)).forked inside) = .ok results mid ∧
      results.forM (checkKept solver inv) mid = .ok () q ∧
      exit = if solver.unsat (q.state p.states.size).path then none else some p.states.size := by
  obtain ⟨_,r,evaluated,rest⟩ := bind_ok ok
  obtain ⟨g,known,rfl,rfl⟩ := simplified_ok evaluated
  obtain ⟨_,s,required,rest⟩ := bind_ok rest
  rw [Explore.require_apply] at required
  cases required
  obtain ⟨_,s,tried,rest⟩ := bind_ok rest
  obtain ⟨m,t,tried,dropped⟩ := bind_ok tried
  cases dropped
  cases meaning_ok tried
  obtain ⟨_,s,forked,rest⟩ := bind_ok rest
  rw [Explore.fork_apply] at forked
  cases forked
  obtain ⟨results,mid,attempted,rest⟩ := bind_ok rest
  obtain ⟨_,s,checked,rest⟩ := bind_ok rest
  obtain ⟨_,t,asked,rest⟩ := bind_ok rest
  rw [Explore.isEmpty_apply] at asked
  cases asked
  cases rest
  exact ⟨g,results,mid,known,attempted,checked,by simp⟩

end Eager

/-- The variable has a symbol in the state that was made in between. -/
def Pool.Renews (p q : Pool) (h : Handle) (name : String) : Prop :=
  ∃ s, (q.state h).env[name]? = some s ∧ s.name = name ∧ p.symbols ≤ s.index ∧ s.index < q.symbols

namespace Pool

variable {p q r : Pool} {h : Handle} {name : String} {names : List String}

theorem Renews.earlier (renews : q.Renews r h name) (fewer : p.symbols ≤ q.symbols) : p.Renews r h name := by
  obtain ⟨s,bound,named,old,new⟩ := renews
  exact ⟨s,bound,named,fewer.trans old,new⟩

/-- A symbol that was there before is none that was made since. -/
theorem not_renews {k : Handle} (inScope : (p.state k).Scoped p.symbols)
    (same : (q.state h).env[name]? = (p.state k).env[name]?) : ¬ p.Renews q h name := by
  rintro ⟨s,bound,-,new,-⟩
  rw [same] at bound
  have old := inScope.env name s bound
  omega

theorem havocked_other (valid : h < p.states.size) (apart : name ∉ names) :
    ((p.havocked h names).state h).env[name]? = (p.state h).env[name]? := by
  induction names generalizing p with
  | nil => rfl
  | cons first names ih =>
    simp only [List.mem_cons,not_or] at apart
    change (((p.renewed h first).havocked h names).state h).env[name]? = _
    rw [ih (by simpa using valid) apart.2,p.renewed_state first valid]
    simp [State.bind,Std.TreeMap.getElem?_insert,Ne.symm apart.1]

theorem havocked_renews (valid : h < p.states.size) (member : name ∈ names) :
    p.Renews (p.havocked h names) h name := by
  induction names generalizing p with
  | nil => cases member
  | cons first names ih =>
    have older : h < (p.renewed h first).states.size := by simpa using valid
    by_cases again : name ∈ names
    · exact (ih older again).earlier (Nat.le_succ _)
    · obtain rfl : name = first := (List.mem_cons.mp member).resolve_right again
      have symbols := (Grows.havocked (p.renewed h name) h names).symbols
      refine ⟨⟨name,p.symbols⟩,?_,rfl,le_rfl,symbols⟩
      change (((p.renewed h name).havocked h names).state h).env[name]? = _
      rw [havocked_other older again,p.renewed_state name valid]
      simp [State.bind]

end Pool

section Loosened

variable {solver : Solver} {inv : Expr} {changed : List String} {body : Stmt} {pool q : Pool} {h inside : Handle}
  {name : String}

theorem loosen_other (valid : h < pool.states.size) (ok : Eager.loosen solver inv changed h pool = .ok inside q)
    (apart : name ∉ changed) : (q.state inside).env[name]? = (pool.state h).env[name]? := by
  obtain ⟨rfl,f,r,-,checked,rfl⟩ := Eager.loosen_ok ok
  have grows := (Eager.checkEntry_ok checked).1
  have older : pool.states.size < r.states.size := lt_of_lt_of_le (by simp) grows.size
  rw [Pool.havocked_other older apart,grows.others pool.states.size (by simp) valid.ne']
  simp

theorem loosen_renews_changed (ok : Eager.loosen solver inv changed h pool = .ok inside q)
    (member : name ∈ changed) : pool.Renews q inside name := by
  obtain ⟨rfl,f,r,-,checked,rfl⟩ := Eager.loosen_ok ok
  have grows := (Eager.checkEntry_ok checked).1
  have older : pool.states.size < r.states.size := lt_of_lt_of_le (by simp) grows.size
  exact (Pool.havocked_renews older member).earlier grows.symbols

theorem mem_renewed : name ∈ solver.renewed body ↔ body.settles name = true := by
  rw [(solver.renewed_perm body).mem_iff,Stmt.changed,Std.TreeSet.mem_toList,Stmt.mem_fact_defs]
  simp

theorem loosen_renews_iff (inScope : (pool.state h).Scoped pool.symbols) (valid : h < pool.states.size)
    (ok : Eager.loosen solver inv (solver.renewed body) h pool = .ok inside q) :
    pool.Renews q inside name ↔ body.settles name = true := by
  rw [← mem_renewed]
  refine ⟨fun renews => ?_,loosen_renews_changed ok⟩
  by_contra apart
  exact Pool.not_renews inScope (loosen_other valid ok apart) renews

/-- A loop with an invariant loosens its state first. A variable that an execution of the body changes has a new
symbol by then if the body writes it on every way. No other variables have; they keep the symbols that they had
before the loop. -/
theorem loosen_renews {live : List (Search Handle)} (reachable : Reachable pool live) (valid : h < pool.states.size)
    (ok : Eager.loosen solver inv (solver.renewed body) h pool = .ok inside q) (cond : Expr) :
    eager solver (.loop cond body (some inv)) h =
        Eager.loosen solver inv (solver.renewed body) h >>= Eager.proceed solver cond inv (eager solver body) h ∧
      (∀ limit store final name, body.Runs limit store final → final[name]? ≠ store[name]? →
        (body.writes name = true → body.settles name = true) → pool.Renews q inside name) ∧
      (∀ name, pool.Renews q inside name ↔ body.settles name = true) ∧
      ∀ name, body.settles name = false → (q.state inside).env[name]? = (pool.state h).env[name]? := by
  have inScope := reachable.settled.inScope h
  refine ⟨Eager.loop_eq body,fun limit store final name run differs steady => ?_,
    fun name => loosen_renews_iff inScope valid ok,fun name missed => loosen_other valid ok ?_⟩
  · have written : body.writes name = true := by
      by_contra apart
      exact differs (body.runs_frame (Bool.eq_false_iff.mpr apart) run)
    exact (loosen_renews_iff inScope valid ok).mpr (steady written)
  · rw [mem_renewed,missed]
    simp

/-- A state with three unknown variables. -/
def unknowns : Pool :=
  Explore.after (eager .undecided (.havoc ["x","y","z"]) 0) (Explore.after (.new {}) {})

theorem unknowns_reachable : Reachable unknowns [] := Reachable.start.new.eager Solver.undecided_keepsSymbols _ _

/-- The variables are zero. -/
def zeros : Store :=
  ((Std.TreeMap.empty.insert "x" (.int 0)).insert "y" (.int 0)).insert "z" (.int 0)

/-- Counts up, and tells the sign of another variable. -/
def countAndTell : Stmt :=
  .block [
    .assign "x" (.app .arith "+" [.var "x",.int 1]),
    .ifElse (.app .compare ">" [.var "y",.int 0]) (.assign "z" (.int 1)) (.assign "z" (.int 2))]

theorem loosen_renews_countAndTell :
    ∃ inside q, Eager.loosen .precise (.truth (.bool true)) (Solver.precise.renewed countAndTell) 0 unknowns =
        .ok inside q ∧
      unknowns.Renews q inside "x" ∧ unknowns.Renews q inside "z" ∧
      (q.state inside).env["y"]? = (unknowns.state 0).env["y"]? := by
  have passed : (Eager.loosen .precise (.truth (.bool true)) (Solver.precise.renewed countAndTell) 0).passes unknowns
      (fun _ _ => true) = true := by decide +kernel
  obtain ⟨inside,q,ok,-⟩ := Explore.ok_of_passes passed
  have run : countAndTell.Runs 0 zeros ((zeros.insert "x" (.int 1)).insert "z" (.int 2)) :=
    ⟨_,⟨_,rfl,rfl⟩,_,.inr ⟨⟨_,rfl,rfl⟩,_,rfl,rfl⟩,rfl⟩
  obtain ⟨-,changed,-,others⟩ := loosen_renews unknowns_reachable (by decide +kernel) ok (.truth (.bool true))
  exact ⟨inside,q,ok,changed 0 _ _ "x" run (by decide +kernel) (by decide),
    changed 0 _ _ "z" run (by decide +kernel) (by decide),others "y" (by decide)⟩

/-- Counts down and takes note of large numbers. -/
def countAndNote : Stmt :=
  .block [
    .assign "y" (.app .arith "-" [.var "y",.int 1]),
    .ifOnly (.app .compare ">" [.var "y",.int 5]) (.assign "x" (.int 1))]

/-- An execution of the body changes a variable that gets no new symbol, because there is a way past the
assignment. -/
theorem loosen_misses_note :
    ∃ inside q, Eager.loosen .precise (.truth (.bool true)) (Solver.precise.renewed countAndNote) 0 unknowns =
        .ok inside q ∧
      (∃ final, countAndNote.Runs 0 (zeros.insert "y" (.int 9)) final ∧
        final["x"]? ≠ (zeros.insert "y" (.int 9))["x"]?) ∧
      ¬ unknowns.Renews q inside "x" := by
  have passed : (Eager.loosen .precise (.truth (.bool true)) (Solver.precise.renewed countAndNote) 0).passes unknowns
      (fun _ _ => true) = true := by decide +kernel
  obtain ⟨inside,q,ok,-⟩ := Explore.ok_of_passes passed
  have run : countAndNote.Runs 0 (zeros.insert "y" (.int 9))
      (((zeros.insert "y" (.int 9)).insert "y" (.int 8)).insert "x" (.int 1)) :=
    ⟨_,⟨_,rfl,rfl⟩,_,.inl ⟨⟨_,rfl,rfl⟩,_,rfl,rfl⟩,rfl⟩
  refine ⟨inside,q,ok,⟨_,run,by decide +kernel⟩,?_⟩
  rw [loosen_renews_iff (unknowns_reachable.settled.inScope 0) (by decide +kernel) ok]
  decide

end Loosened

end WhileExec.Symbolic
