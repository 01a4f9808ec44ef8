import Mathlib
import WhileExec.Proofs.Definedness

/-!
# Ways through a program

A way through a statement takes either branch at every condition and goes round every loop any number of times,
whatever the conditions say. What counts is the order in which it reads and writes variables. The facts found in one
pass are those of all ways together: defined is what every way writes, used undefined is what some way reads before it
writes it. One visit of a loop's body is enough: what a later iteration reads first is read first, too, on the way that
begins with that iteration.
-/

namespace WhileExec

inductive Access where
  | read (name : String)
  | write (name : String)
  deriving DecidableEq, Repr

mutual

/-- The variables that an expression reads, in the order of evaluation. -/
def Expr.accesses : Expr → List Access
  | .var name => [.read name]
  | .app _ _ args => Expr.accessesAll args
  | _ => []

def Expr.accessesAll : List Expr → List Access
  | [] => []
  | e :: es => e.accesses ++ Expr.accessesAll es

end

/-- The reads and writes on a way through a statement. Invariants of loops are not read. -/
inductive Stmt.Way : Stmt → List Access → Prop
  | skip : Way .skip []
  | printState : Way .printState []
  | assign {name : String} {rhs : Expr} : Way (.assign name rhs) (rhs.accesses ++ [.write name])
  | yes {cond : Expr} {yes no : Stmt} {p : List Access} :
    yes.Way p → Way (.ifElse cond yes no) (cond.accesses ++ p)
  | no {cond : Expr} {yes no : Stmt} {p : List Access} :
    no.Way p → Way (.ifElse cond yes no) (cond.accesses ++ p)
  | enter {cond : Expr} {yes : Stmt} {p : List Access} : yes.Way p → Way (.ifOnly cond yes) (cond.accesses ++ p)
  | pass {cond : Expr} {yes : Stmt} : Way (.ifOnly cond yes) cond.accesses
  | leave {cond : Expr} {body : Stmt} {inv : Option Expr} : Way (.loop cond body inv) cond.accesses
  | iterate {cond : Expr} {body : Stmt} {inv : Option Expr} {p q : List Access} :
    body.Way p → Way (.loop cond body inv) q → Way (.loop cond body inv) (cond.accesses ++ p ++ q)
  | assert {cond : Expr} : Way (.assert cond) cond.accesses
  | assume {cond : Expr} : Way (.assume cond) cond.accesses
  | havoc {names : List String} : Way (.havoc names) (names.map .write)
  | done : Way (.block []) []
  | next {s : Stmt} {ss : List Stmt} {p q : List Access} :
    s.Way p → Way (.block ss) q → Way (.block (s :: ss)) (p ++ q)
  | hollow : Way .hollow []

/-- The variable is read, and it is not written before that. -/
def ReadsFirst (x : String) (way : List Access) : Prop :=
  ∃ before after, way = before ++ .read x :: after ∧ .write x ∉ before

namespace ReadsFirst

variable {x : String} {p q : List Access}

theorem nil : ¬ ReadsFirst x [] := by
  rintro ⟨before,after,same,-⟩
  simp at same

theorem append : ReadsFirst x (p ++ q) ↔ ReadsFirst x p ∨ (.write x ∉ p ∧ ReadsFirst x q) := by
  constructor
  · rintro ⟨before,after,same,apart⟩
    rcases List.append_eq_append_iff.mp same with ⟨between,rfl,rfl⟩ | ⟨between,rfl,rest⟩
    · simp only [List.mem_append,not_or] at apart
      exact .inr ⟨apart.1,between,after,rfl,apart.2⟩
    · cases between with
      | nil =>
        simp only [List.nil_append] at rest
        exact .inr ⟨by simpa using apart,[],after,rest.symm,by simp⟩
      | cons access between =>
        obtain ⟨rfl,-⟩ := List.cons.inj rest
        exact .inl ⟨before,between,rfl,apart⟩
  · rintro (⟨before,after,rfl,apart⟩ | ⟨apart,before,after,rfl,later⟩)
    · exact ⟨before,after ++ q,by simp,apart⟩
    · exact ⟨p ++ before,after,by simp,by simp [apart,later]⟩

theorem only_writes {names : List String} : ¬ ReadsFirst x (names.map .write) := by
  rintro ⟨before,after,same,-⟩
  have member : Access.read x ∈ names.map Access.write := by simp [same]
  simp at member

end ReadsFirst

namespace Expr

variable {x : String}

theorem write_accessesAll {es : List Expr} (each : ∀ e ∈ es, .write x ∉ e.accesses) :
    .write x ∉ accessesAll es := by
  induction es with
  | nil => simp [accessesAll]
  | cons e es ih =>
    simp only [accessesAll,List.mem_append,not_or]
    exact ⟨each e (by simp),ih fun e member => each e (by simp [member])⟩

theorem write_accesses (e : Expr) : .write x ∉ e.accesses := by
  induction e using Expr.structural with
  | int | truth | var => simp [accesses]
  | app form op args ih => exact write_accessesAll ih

theorem readsFirst_accessesAll {es : List Expr}
    (each : ∀ e ∈ es, ReadsFirst x e.accesses ↔ e.reads x = true) :
    ReadsFirst x (accessesAll es) ↔ someReads x es = true := by
  induction es with
  | nil => simp [accessesAll,someReads,ReadsFirst.nil]
  | cons e es ih =>
    rw [accessesAll,ReadsFirst.append,each e (by simp),ih fun e member => each e (by simp [member])]
    simp [someReads,write_accesses]

theorem readsFirst_accesses (e : Expr) : ReadsFirst x e.accesses ↔ e.reads x = true := by
  induction e using Expr.structural with
  | int | truth => simp [accesses,reads,ReadsFirst.nil]
  | var y =>
    simp only [accesses,reads,beq_iff_eq]
    constructor
    · rintro ⟨before,after,same,-⟩
      have member : Access.read x ∈ [Access.read y] := by simp [same]
      simpa [eq_comm] using member
    · rintro rfl
      exact ⟨[],[],rfl,by simp⟩
  | app form op args ih => exact readsFirst_accessesAll ih

theorem readsFirst_behind (e : Expr) {p : List Access} :
    ReadsFirst x (e.accesses ++ p) ↔ e.reads x = true ∨ ReadsFirst x p := by
  rw [ReadsFirst.append,readsFirst_accesses]
  simp [write_accesses]

end Expr

namespace Stmt

theorem exists_way (s : Stmt) : ∃ p, s.Way p := by
  induction s using Stmt.structural with
  | skip => exact ⟨_,.skip⟩
  | printState => exact ⟨_,.printState⟩
  | assign name rhs => exact ⟨_,.assign⟩
  | ifElse cond yes no left right =>
    obtain ⟨p,way⟩ := left
    exact ⟨_,.yes way⟩
  | ifOnly cond yes ih => exact ⟨_,.pass⟩
  | loop cond body inv ih => exact ⟨_,.leave⟩
  | assert cond => exact ⟨_,.assert⟩
  | assume cond => exact ⟨_,.assume⟩
  | havoc names => exact ⟨_,.havoc⟩
  | block items ih =>
    induction items with
    | nil => exact ⟨_,.done⟩
    | cons s ss rest =>
      obtain ⟨p,first⟩ := ih s (by simp)
      obtain ⟨q,later⟩ := rest fun t member => ih t (by simp [member])
      exact ⟨_,.next first later⟩
  | hollow => exact ⟨_,.hollow⟩

variable {x : String}

theorem not_settles_iff (s : Stmt) : s.settles x = false ↔ ∃ p, s.Way p ∧ .write x ∉ p := by
  induction s using Stmt.structural with
  | skip => exact iff_of_true rfl ⟨_,.skip,by simp⟩
  | printState => exact iff_of_true rfl ⟨_,.printState,by simp⟩
  | assign name rhs =>
    simp only [settles,beq_eq_false_iff_ne]
    constructor
    · intro other
      exact ⟨_,.assign,by simp [rhs.write_accesses,Ne.symm other]⟩
    · rintro ⟨p,way,unwritten⟩ rfl
      cases way
      simp at unwritten
  | ifElse cond yes no left right =>
    simp only [settles,Bool.and_eq_false_iff,left,right]
    constructor
    · rintro (⟨p,way,unwritten⟩ | ⟨p,way,unwritten⟩)
      · exact ⟨_,.yes way,by simp [cond.write_accesses,unwritten]⟩
      · exact ⟨_,.no way,by simp [cond.write_accesses,unwritten]⟩
    · rintro ⟨p,way,unwritten⟩
      cases way with
      | yes way => exact .inl ⟨_,way,fun written => unwritten (by simp [written])⟩
      | no way => exact .inr ⟨_,way,fun written => unwritten (by simp [written])⟩
  | ifOnly cond yes ih => exact iff_of_true rfl ⟨_,.pass,cond.write_accesses⟩
  | loop cond body inv ih => exact iff_of_true rfl ⟨_,.leave,cond.write_accesses⟩
  | assert cond => exact iff_of_true rfl ⟨_,.assert,cond.write_accesses⟩
  | assume cond => exact iff_of_true rfl ⟨_,.assume,cond.write_accesses⟩
  | havoc names =>
    constructor
    · intro apart
      exact ⟨_,.havoc,by simpa [settles] using apart⟩
    · rintro ⟨p,way,unwritten⟩
      cases way
      simpa [settles] using unwritten
  | block items ih =>
    simp only [settles]
    induction items with
    | nil => exact iff_of_true rfl ⟨_,.done,by simp⟩
    | cons s ss rest =>
      simp only [someSettles,Bool.or_eq_false_iff,ih s (by simp),rest fun t member => ih t (by simp [member])]
      constructor
      · rintro ⟨⟨p,first,apart⟩,⟨q,later,unwritten⟩⟩
        exact ⟨_,.next first later,by simp [apart,unwritten]⟩
      · rintro ⟨p,way,unwritten⟩
        cases way with
        | next first later =>
          simp only [List.mem_append,not_or] at unwritten
          exact ⟨⟨_,first,unwritten.1⟩,⟨_,later,unwritten.2⟩⟩
  | hollow => exact iff_of_true rfl ⟨_,.hollow,by simp⟩

theorem settles_iff (s : Stmt) : s.settles x = true ↔ ∀ p, s.Way p → .write x ∈ p := by
  rw [← not_iff_not,Bool.not_eq_true,not_settles_iff]
  simp

/-- Some way through the statement reads the variable before it has written it. -/
def Exposes (s : Stmt) (x : String) : Prop :=
  ∃ p, s.Way p ∧ ReadsFirst x p

theorem exposes_only {s : Stmt} {cond : Expr} (way : s.Way cond.accesses) (only : ∀ p, s.Way p → p = cond.accesses) :
    s.Exposes x ↔ cond.reads x = true := by
  constructor
  · rintro ⟨p,way,first⟩
    cases only p way
    exact cond.readsFirst_accesses.mp first
  · intro occurs
    exact ⟨_,way,cond.readsFirst_accesses.mpr occurs⟩

theorem exposes_assign {name : String} {rhs : Expr} : Exposes (.assign name rhs) x ↔ rhs.reads x = true := by
  have last : ¬ ReadsFirst x ([name].map .write) := ReadsFirst.only_writes
  constructor
  · rintro ⟨p,way,first⟩
    cases way
    exact (rhs.readsFirst_behind.mp first).resolve_right last
  · intro occurs
    exact ⟨_,.assign,rhs.readsFirst_behind.mpr (.inl occurs)⟩

theorem exposes_ifElse {cond : Expr} {yes no : Stmt} :
    Exposes (.ifElse cond yes no) x ↔ cond.reads x = true ∨ yes.Exposes x ∨ no.Exposes x := by
  constructor
  · rintro ⟨p,way,first⟩
    cases way with
    | yes way => exact (cond.readsFirst_behind.mp first).imp_right fun first => .inl ⟨_,way,first⟩
    | no way => exact (cond.readsFirst_behind.mp first).imp_right fun first => .inr ⟨_,way,first⟩
  · rintro (occurs | ⟨p,way,first⟩ | ⟨p,way,first⟩)
    · obtain ⟨p,way⟩ := yes.exists_way
      exact ⟨_,.yes way,cond.readsFirst_behind.mpr (.inl occurs)⟩
    · exact ⟨_,.yes way,cond.readsFirst_behind.mpr (.inr first)⟩
    · exact ⟨_,.no way,cond.readsFirst_behind.mpr (.inr first)⟩

theorem exposes_ifOnly {cond : Expr} {yes : Stmt} :
    Exposes (.ifOnly cond yes) x ↔ cond.reads x = true ∨ yes.Exposes x := by
  constructor
  · rintro ⟨p,way,first⟩
    cases way with
    | enter way => exact (cond.readsFirst_behind.mp first).imp_right fun first => ⟨_,way,first⟩
    | pass => exact .inl (cond.readsFirst_accesses.mp first)
  · rintro (occurs | ⟨p,way,first⟩)
    · exact ⟨_,.pass,cond.readsFirst_accesses.mpr occurs⟩
    · exact ⟨_,.enter way,cond.readsFirst_behind.mpr (.inr first)⟩

/-- All iterations together expose no more than the condition and one iteration do. -/
theorem exposes_loop {cond : Expr} {body : Stmt} {inv : Option Expr} :
    Exposes (.loop cond body inv) x ↔ cond.reads x = true ∨ body.Exposes x := by
  constructor
  · rintro ⟨p,way,first⟩
    -- the iterations are gone through one by one: the induction is on the way
    generalize same : Stmt.loop cond body inv = s at way
    induction way with
    | leave =>
      cases same
      exact .inl (cond.readsFirst_accesses.mp first)
    | @iterate _ _ _ p q one more _ ih =>
      cases same
      rw [List.append_assoc,cond.readsFirst_behind,ReadsFirst.append] at first
      rcases first with first | first | ⟨-,first⟩
      · exact .inl first
      · exact .inr ⟨p,one,first⟩
      · exact ih first rfl
    | _ => cases same
  · rintro (occurs | ⟨p,way,first⟩)
    · exact ⟨_,.leave,cond.readsFirst_accesses.mpr occurs⟩
    · refine ⟨_,.iterate way .leave,?_⟩
      rw [List.append_assoc,cond.readsFirst_behind,ReadsFirst.append]
      exact .inr (.inl first)

/-- The rest of a block exposes what some way up to it has not written. -/
theorem exposes_block {s : Stmt} {ss : List Stmt} :
    Exposes (.block (s :: ss)) x ↔ s.Exposes x ∨ (s.settles x = false ∧ Exposes (.block ss) x) := by
  rw [not_settles_iff]
  constructor
  · rintro ⟨p,way,first⟩
    cases way with
    | next one later =>
      rcases ReadsFirst.append.mp first with first | ⟨unwritten,first⟩
      · exact .inl ⟨_,one,first⟩
      · exact .inr ⟨⟨_,one,unwritten⟩,_,later,first⟩
  · rintro (⟨p,one,first⟩ | ⟨⟨p,one,unwritten⟩,q,later,first⟩)
    · obtain ⟨q,later⟩ := exists_way (.block ss)
      exact ⟨_,.next one later,ReadsFirst.append.mpr (.inl first)⟩
    · exact ⟨_,.next one later,ReadsFirst.append.mpr (.inr ⟨unwritten,first⟩)⟩

theorem mem_fact_undefs (s : Stmt) (f : Fact) :
    x ∈ (s.fact f).undefs ↔ x ∈ f.undefs ∨ (x ∉ f.defs ∧ s.Exposes x) := by
  induction s using Stmt.structural generalizing f with
  | skip | printState | hollow =>
    simp only [fact,iff_self_or]
    rintro ⟨-,p,way,first⟩
    cases way
    exact absurd first ReadsFirst.nil
  | assign name rhs =>
    rw [exposes_assign]
    change x ∈ (rhs.fact f).undefs ↔ _
    rw [rhs.mem_fact_undefs]
    tauto
  | ifElse cond yes no left right =>
    rw [exposes_ifElse]
    simp only [fact,Fact.join,Std.TreeSet.mem_union_iff,left,right,Expr.mem_fact_undefs,Expr.fact_defs]
    tauto
  | ifOnly cond yes ih =>
    rw [exposes_ifOnly]
    simp only [fact,Fact.join,Std.TreeSet.mem_union_iff,ih,Expr.mem_fact_undefs,Expr.fact_defs]
    tauto
  | loop cond body inv ih =>
    rw [exposes_loop]
    simp only [fact,Fact.join,Std.TreeSet.mem_union_iff,ih,Expr.mem_fact_undefs,Expr.fact_defs]
    tauto
  | assert cond =>
    rw [exposes_only .assert (by rintro p ⟨⟩; rfl),fact,cond.mem_fact_undefs]
    tauto
  | assume cond =>
    rw [exposes_only .assume (by rintro p ⟨⟩; rfl),fact,cond.mem_fact_undefs]
    tauto
  | havoc names =>
    rw [fact,foldl_define_undefs,iff_self_or]
    rintro ⟨-,p,way,first⟩
    cases way
    exact absurd first ReadsFirst.only_writes
  | block items ih =>
    simp only [fact]
    induction items generalizing f with
    | nil =>
      simp only [factAll,iff_self_or]
      rintro ⟨-,p,way,first⟩
      cases way
      exact absurd first ReadsFirst.nil
    | cons s ss rest =>
      rw [factAll,rest (fun t member => ih t (by simp [member])),ih s (by simp),mem_fact_defs,exposes_block]
      simp only [← Bool.not_eq_true]
      tauto

/-- One pass finds the facts of all ways: defined behind a statement is what was defined before or is written on every
way, and used undefined is what was so before or was not defined and is read on some way before it is written. -/
theorem fact_of_ways (s : Stmt) (f : Fact) (x : String) :
    (x ∈ (s.fact f).defs ↔ x ∈ f.defs ∨ ∀ p, s.Way p → .write x ∈ p) ∧
      (x ∈ (s.fact f).undefs ↔ x ∈ f.undefs ∨ (x ∉ f.defs ∧ ∃ p, s.Way p ∧ ReadsFirst x p)) := by
  refine ⟨?_,s.mem_fact_undefs f⟩
  rw [mem_fact_defs,settles_iff]

end Stmt

end WhileExec
