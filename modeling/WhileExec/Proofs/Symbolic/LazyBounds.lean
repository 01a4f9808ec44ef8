import Mathlib
import WhileExec.Proofs.Symbolic.EngineAgreement
import WhileExec.Proofs.Symbolic.LazyDrawing
import WhileExec.Proofs.Symbolic.Renumbering

/-!
# More iterations

With a higher bound on loops lazy exploration gives all the results that it gave before, in the same order, and others
between them. The others make symbols of their own, so that the numbers of later symbols go up.

Two explorations are followed side by side. `Trace.Embeds` says that a search gives what another one gives, and
possibly more: at each result of the second either the first has the same result, or it waits. Nothing is asked of the
solver but that it does not look at numbers.
-/

namespace WhileExec.Symbolic

/-- States of two pools that are the same but for numbers of which it is known what they become. -/
structure Twins (R : Nat → Nat → Prop) (p : Pool) (h : Handle) (p' : Pool) (h' : Handle) : Prop where
  valid : h < p.states.size
  valid' : h' < p'.states.size
  pairing : Pairing p.symbols p'.symbols R
  same : (p.state h).Matches R (p'.state h')

namespace Twins

variable {R S : Nat → Nat → Prop} {p p' r r' : Pool} {h h' : Handle}

/-- The states are still the same when other states have changed. -/
theorem still {owned owned' : Set Handle} (twins : Twins R p h p' h') (wider : R ≤ S)
    (pairing : Pairing r.symbols r'.symbols S) (grows : p.Grows owned r) (grows' : p'.Grows owned' r')
    (free : h ∉ owned) (free' : h' ∉ owned') : Twins S r h r' h' := by
  refine ⟨twins.valid.trans_le grows.size,twins.valid'.trans_le grows'.size,pairing,?_⟩
  rw [grows.others h twins.valid free,grows'.others h' twins.valid' free']
  exact twins.same.mono wider

theorem formula (twins : Twins R p h p' h') {e : Expr} {f g : Formula} (known : p.formula .nested h e = .ok f)
    (known' : p'.formula .nested h' e = .ok g) : f.Matches R g :=
  twins.same.formula known known'

theorem forked (twins : Twins R p h p' h') : Twins R (p.forked h) p.states.size (p'.forked h') p'.states.size := by
  refine ⟨by simp,by simp,twins.pairing,fun ρ respects => ?_⟩
  rw [p.forked_new,p'.forked_new]
  exact ⟨(twins.same ρ respects).env,(twins.same ρ respects).path⟩

theorem required (twins : Twins R p h p' h') {f g : Formula} (same : f.Matches R g) :
    Twins R (p.required h f) h (p'.required h' g) h' := by
  refine ⟨by simpa using twins.valid,by simpa using twins.valid',twins.pairing,?_⟩
  rw [p.required_state f twins.valid,p'.required_state g twins.valid']
  exact twins.same.require same

/-- Copies are the same also while the states that were copied go on under a condition. -/
theorem waiting (twins : Twins R p h p' h') (f g : Formula) :
    Twins R ((p.forked h).required h f) p.states.size ((p'.forked h').required h' g) p'.states.size := by
  have grows : (p.forked h).Grows {h} ((p.forked h).required h f) := .required _ h f
  have grows' : (p'.forked h').Grows {h'} ((p'.forked h').required h' g) := .required _ h' g
  exact twins.forked.still le_rfl twins.pairing grows grows' twins.valid.ne' twins.valid'.ne'

theorem renewed (twins : Twins R p h p' h') (name : String) :
    Twins (fun i j => R i j ∨ i = p.symbols ∧ j = p'.symbols) (p.renewed h name) h (p'.renewed h' name) h' := by
  refine ⟨by simpa using twins.valid,by simpa using twins.valid',twins.pairing.add,?_⟩
  rw [p.renewed_state name twins.valid,p'.renewed_state name twins.valid']
  exact (twins.same.mono fun _ _ => Or.inl).bind name (.inr ⟨rfl,rfl⟩)

theorem assigned (twins : Twins R p h p' h') {name : String} {rhs : Expr} {t u : Term}
    (known : p.term .nested h rhs = .ok t) (known' : p'.term .nested h' rhs = .ok u) :
    Twins (fun i j => R i j ∨ i = p.symbols ∧ j = p'.symbols) (p.assigned h name t) h (p'.assigned h' name u) h' := by
  refine ⟨by simpa using twins.valid,by simpa using twins.valid',twins.pairing.add,?_⟩
  rw [p.assigned_state name t twins.valid,p'.assigned_state name u twins.valid']
  exact (twins.same.mono fun _ _ => Or.inl).assign known known' (.inr ⟨rfl,rfl⟩)

theorem havocked (twins : Twins R p h p' h') (names : List String) :
    ∃ S, R ≤ S ∧ Twins S (p.havocked h names) h (p'.havocked h' names) h' := by
  induction names generalizing R p p' with
  | nil => exact ⟨R,le_rfl,twins⟩
  | cons name names ih =>
    obtain ⟨S,wider,later⟩ := ih (twins.renewed name)
    exact ⟨S,le_trans (fun _ _ => Or.inl) wider,later⟩

end Twins

namespace Trace

/-- What a search does once it is resumed with a pool in which only its last result was changed. -/
theorem Owns.resume {owned : Set Handle} {p q r : Pool} {value : Handle} {resume : Pool → Trace Handle}
    (owns : (Trace.yield value q resume).Owns owned p) (careful : q.Grows {value} r) :
    ∃ kept, (resume r).Owns kept r ∧ ∀ s, r.Grows kept s → p.Grows owned s := by
  cases owns with
  | yield kept grows valid own given within old resumed =>
    have before : p.Grows owned r := grows.trans careful fun k same older => by
      rw [Set.mem_singleton_iff.mp same] at older ⊢
      exact own older
    exact ⟨kept,resumed r careful.size,fun s later => before.trans later within⟩

/-- The results of the first search are, in order, among those of the second one, unless one of them fails. Between
two results the pools may have grown, and more may have become known about numbers. -/
inductive Embeds : (Nat → Nat → Prop) → Trace Handle → Trace Handle → Prop
  | stopped {R : Nat → Nat → Prop} {fault : Fault} {q : Pool} {t' : Trace Handle} : Embeds R (.failed fault q) t'
  | broken {R : Nat → Nat → Prop} {t : Trace Handle} {fault : Fault} {q' : Pool} : Embeds R t (.failed fault q')
  | done {R : Nat → Nat → Prop} {q q' : Pool} (pairing : Pairing q.symbols q'.symbols R) :
      Embeds R (.done q) (.done q')
  | both {R S : Nat → Nat → Prop} {value value' : Handle} {q q' : Pool} {resume resume' : Pool → Trace Handle}
      (wider : R ≤ S) (twins : Twins S q value q' value')
      (resumed : ∀ T r r', S ≤ T → Pairing r.symbols r'.symbols T → q.Grows {value} r → q'.Grows {value'} r' →
        Embeds T (resume r) (resume' r')) : Embeds R (.yield value q resume) (.yield value' q' resume')
  | extra {R : Nat → Nat → Prop} {t : Trace Handle} {value' : Handle} {q' : Pool} {resume' : Pool → Trace Handle}
      (resumed : ∀ r', q'.Grows {value'} r' → Embeds R t (resume' r')) : Embeds R t (.yield value' q' resume')

namespace Embeds

variable {R S : Nat → Nat → Prop} {owned owned' : Set Handle} {p p' : Pool} {t t' : Trace Handle}

theorem restrict (embeds : t.Embeds S t') (fewer : R ≤ S) : t.Embeds R t' := by
  induction embeds generalizing R with
  | stopped => exact .stopped
  | broken => exact .broken
  | done pairing => exact .done (pairing.restrict fewer)
  | both wider twins resumed _ => exact .both (fewer.trans wider) twins resumed
  | extra resumed ih => exact .extra fun r' careful => ih r' careful fewer

theorem single {q q' : Pool} {h h' : Handle} (wider : R ≤ S) (twins : Twins S q h q' h') :
    (Trace.yield h q .done).Embeds R (.yield h' q' .done) :=
  .both wider twins fun _ _ _ _ pairing _ _ => .done pairing

/-- The first search waits for all results of a part of the second. -/
theorem skip {next' : Pool → Trace Handle} (owns' : t'.Owns owned' p')
    (after : ∀ r', p'.Grows owned' r' → t.Embeds R (next' r')) : t.Embeds R (t'.andThen next') := by
  induction t' generalizing owned' p' with
  | done q' => cases owns' with | done grows => exact after q' grows
  | failed fault q' => exact .broken
  | yield value' q' resume' ih =>
    apply Embeds.extra
    intro r' careful
    obtain ⟨kept,resumed,back⟩ := owns'.resume careful
    exact ih r' resumed fun s' later => after s' (back s' later)

theorem of_done (pairing : Pairing p.symbols p'.symbols R) (owns' : t'.Owns owned' p') :
    (Trace.done p).Embeds R t' := by
  rw [← t'.andThen_done]
  exact skip owns' fun r' grows => .done (pairing.rise le_rfl grows.symbols)

theorem andThen {next next' : Pool → Trace Handle} (embeds : t.Embeds R t') (owns : t.Owns owned p)
    (owns' : t'.Owns owned' p')
    (after : ∀ T r r', R ≤ T → Pairing r.symbols r'.symbols T → p.Grows owned r → p'.Grows owned' r' →
      (next r).Embeds T (next' r')) : (t.andThen next).Embeds R (t'.andThen next') := by
  induction embeds generalizing owned owned' p p' with
  | stopped => exact .stopped
  | broken => exact .broken
  | @done R q q' pairing =>
    cases owns with
    | done grows => cases owns' with | done grows' => exact after R q q' le_rfl pairing grows grows'
  | both wider twins resumed ih =>
    refine .both wider twins fun T r r' more pairing careful careful' => ?_
    obtain ⟨kept,rest,back⟩ := owns.resume careful
    obtain ⟨kept',rest',back'⟩ := owns'.resume careful'
    apply ih T r r' more pairing careful careful' rest rest'
    intro U s s' most pairing grows grows'
    exact after U s s' (wider.trans (more.trans most)) pairing (back s grows) (back' s' grows')
  | extra resumed ih =>
    refine .extra fun r' careful' => ?_
    obtain ⟨kept',rest',back'⟩ := owns'.resume careful'
    apply ih r' careful' owns rest'
    intro T s s' more pairing grows grows'
    exact after T s s' more pairing grows (back' s' grows')

/-- Each result is handed on. What comes of a result that only the second search has is waited for. -/
theorem bind {next next' : Handle → Pool → Trace Handle} (embeds : t.Embeds R t') (owns : t.Owns owned p)
    (owns' : t'.Owns owned' p') (inner : ∀ h q, h < q.states.size → (next h q).Owns {h} q)
    (inner' : ∀ h q, h < q.states.size → (next' h q).Owns {h} q)
    (each : ∀ S q h q' h', Twins S q h q' h' → (next h q).Embeds S (next' h' q')) :
    (t.bind next).Embeds R (t'.bind next') := by
  induction embeds generalizing owned owned' p p' with
  | stopped => exact .stopped
  | broken => exact .broken
  | done pairing => exact .done pairing
  | both wider twins resumed ih =>
    have first := each _ _ _ _ _ twins
    refine (first.andThen (inner _ _ twins.valid) (inner' _ _ twins.valid') ?_).restrict wider
    intro T r r' more pairing careful careful'
    obtain ⟨kept,rest,-⟩ := owns.resume careful
    obtain ⟨kept',rest',-⟩ := owns'.resume careful'
    exact ih T r r' more pairing careful careful' rest rest'
  | @extra R t value' q' resume' resumed ih =>
    have valid' : value' < q'.states.size := by cases owns' with | yield _ _ valid _ _ _ _ _ => exact valid
    apply skip (inner' value' q' valid')
    intro r' careful'
    obtain ⟨kept',rest',-⟩ := owns'.resume careful'
    exact ih r' careful' owns rest'

/-- All results drawn on both sides: those of the first search are the same, in the end, as some of the second one in
the same order. -/
theorem drawn (embeds : t.Embeds R t') (owns : t.Owns owned p) (owns' : t'.Owns owned' p')
    (unfailing : (t.draw none).fault = none) (unfailing' : (t'.draw none).fault = none) :
    ∃ S, R ≤ S ∧ Pairing (t.draw none).pool.symbols (t'.draw none).pool.symbols S ∧
      ∃ few, few.Sublist (t'.draw none).values ∧
        List.Forall₂ (fun o o' => ((t.draw none).pool.state o).Matches S ((t'.draw none).pool.state o'))
          (t.draw none).values few := by
  induction embeds generalizing owned owned' p p' with
  | stopped => cases unfailing
  | broken => cases unfailing'
  | @done R q q' pairing => exact ⟨R,le_rfl,pairing,[],.refl _,.nil⟩
  | @both R S value value' q q' resume resume' wider twins resumed ih =>
    obtain ⟨kept,rest,-⟩ := owns.resume (.refl _ q)
    obtain ⟨kept',rest',-⟩ := owns'.resume (.refl _ q')
    obtain ⟨T,more,pairing,few,sub,each⟩ := ih S q q' le_rfl twins.pairing (.refl _ q) (.refl _ q') rest rest'
      unfailing unfailing'
    -- The results given here are not touched by what is drawn behind them.
    have last := owns.draw_state 1 value (List.mem_singleton.mpr rfl)
    have last' := owns'.draw_state 1 value' (List.mem_singleton.mpr rfl)
    refine ⟨T,wider.trans more,pairing,value' :: few,sub.cons_cons value',.cons ?_ each⟩
    rw [← last,← last']
    exact twins.same.mono more
  | @extra R t value' q' resume' resumed ih =>
    obtain ⟨kept',rest',-⟩ := owns'.resume (.refl _ q')
    obtain ⟨T,more,pairing,few,sub,each⟩ := ih q' (.refl _ q') owns rest' unfailing unfailing'
    exact ⟨T,more,pairing,few,sub.cons value',each⟩

end Embeds

end Trace

namespace Lazy

/-- From states that are the same but for numbers, the second search gives what the first gives, and possibly more. -/
def Embeds (search search' : Handle → Search Handle) : Prop :=
  ∀ R p h p' h', Twins R p h p' h' → (search h p).Embeds R (search' h' p')

variable {solver : Solver} {cond : Expr} {search search' next next' : Handle → Search Handle}

namespace Embeds

theorem pure : Embeds pure pure := fun _ _ _ _ _ twins => .single le_rfl twins

theorem ifPossible (uniform : solver.Uniform) (embeds : Embeds search search') :
    Embeds (fun h => ifPossible solver h (search h)) fun h => ifPossible solver h (search' h) := by
  intro R p h p' h' twins
  simp only [ifPossible_apply,twins.pairing.unsat_eq uniform twins.same]
  split
  · exact .done twins.pairing
  · exact embeds R p h p' h' twins

theorem bind (first : Embeds search search') (second : Embeds next next') (owns : Local search)
    (owns' : Local search') (inner : Local next) (inner' : Local next') :
    Embeds (fun h => search h >>= next) fun h => search' h >>= next' :=
  fun R p h p' h' twins =>
    (first R p h p' h' twins).bind (owns h p twins.valid) (owns' h' p' twins.valid') inner inner' second

theorem branch (uniform : solver.Uniform) (yes : Embeds search search') (no : Embeds next next')
    (owns : Local search) (owns' : Local search') :
    Embeds (branch solver cond search next) (branch solver cond search' next') := by
  intro R p h p' h' twins
  rw [branch_apply,branch_apply]
  cases known : p.formula .nested h cond with
  | error fault => exact .stopped
  | ok f =>
    cases known' : p'.formula .nested h' cond with
    | error fault => exact .broken
    | ok g =>
      have same := twins.formula known known'
      have forked : Twins R (p.forked h) h (p'.forked h') h' :=
        twins.still le_rfl twins.pairing (.forked p h) (.forked p' h') (Set.notMem_empty h) (Set.notMem_empty h')
      have entered := forked.required same
      have waiting := twins.waiting f g
      apply (yes.ifPossible uniform R _ h _ h' entered).andThen (owns.ifPossible h _ entered.valid)
        (owns'.ifPossible h' _ entered.valid')
      intro T r r' wider pairing grows grows'
      have refused := waiting.still wider pairing grows grows' twins.valid.ne' twins.valid'.ne'
      exact no.ifPossible uniform T _ _ _ _ (refused.required (same.not.mono wider))

theorem unwind_step (uniform : solver.Uniform) {bound bound' : Nat}
    (inside : Embeds (fun h => again solver cond search h bound) fun h => again solver cond search' h bound')
    (owns : Local fun h => again solver cond search h bound)
    (owns' : Local fun h => again solver cond search' h bound') :
    Embeds (unwind solver cond search bound) (unwind solver cond search' bound') := by
  intro R p h p' h' twins
  rw [unwind_apply,unwind_apply]
  cases known : p.formula .nested h cond with
  | error fault => exact .stopped
  | ok f =>
    cases known' : p'.formula .nested h' cond with
    | error fault => exact .broken
    | ok g =>
      have same := twins.formula known known'
      have forked : Twins R (p.forked h) h (p'.forked h') h' :=
        twins.still le_rfl twins.pairing (.forked p h) (.forked p' h') (Set.notMem_empty h) (Set.notMem_empty h')
      have entered : Twins R (p.split h f) h (p'.split h' g) h' :=
        (forked.required same).still le_rfl twins.pairing (.required _ p.states.size (.not f))
          (.required _ p'.states.size (.not g)) twins.valid.ne twins.valid'.ne
      have waiting : Twins R (p.split h f) p.states.size (p'.split h' g) p'.states.size :=
        (twins.waiting f g).required same.not
      apply (inside R _ h _ h' entered).andThen (owns h _ entered.valid) (owns' h' _ entered.valid')
      intro T r r' wider pairing grows grows'
      have left := waiting.still wider pairing grows grows' twins.valid.ne' twins.valid'.ne'
      exact Embeds.pure.ifPossible uniform T _ _ _ _ left

/-- More iterations of a body that gives more. -/
theorem unwind (uniform : solver.Uniform) (body : Embeds search search') (owns : Local search)
    (owns' : Local search') {bound bound' : Nat} (le : bound ≤ bound') :
    Embeds (unwind solver cond search bound) (unwind solver cond search' bound') := by
  induction bound generalizing bound' with
  | zero =>
    refine unwind_step uniform ?_ (owns.again 0) (owns'.again bound')
    intro R p h p' h' twins
    exact .of_done twins.pairing (owns'.again bound' h' p' twins.valid')
  | succ bound ih =>
    obtain ⟨more,rfl⟩ : ∃ more, bound' = more + 1 := ⟨bound' - 1,by omega⟩
    have inside := body.bind (ih (Nat.le_of_succ_le_succ le)) owns owns' (owns.unwind bound) (owns'.unwind more)
    exact unwind_step uniform (inside.ifPossible uniform) (owns.again (bound + 1)) (owns'.again (more + 1))

end Embeds

end Lazy

open Lazy

section Bounds

variable {solver : Solver} {bound bound' : Nat}

theorem lazilyAll_embeds (uniform : solver.Uniform) {ss : List Stmt}
    (each : ∀ s ∈ ss, Lazy.Embeds (lazily solver bound s) (lazily solver bound' s)) :
    Lazy.Embeds (lazilyAll solver bound ss) (lazilyAll solver bound' ss) := by
  induction ss with
  | nil => exact .pure
  | cons s ss ih =>
    have rest := ih fun s member => each s (by simp [member])
    have whole := ((each s (by simp)).ifPossible uniform).bind rest (lazily_local solver bound s).ifPossible
      (lazily_local solver bound' s).ifPossible (lazilyAll_local fun s _ => lazily_local solver bound s)
      (lazilyAll_local fun s _ => lazily_local solver bound' s)
    intro R p h p' h' twins
    rw [lazilyAll_cons,lazilyAll_cons]
    exact whole R p h p' h' twins

theorem lazily_embeds (uniform : solver.Uniform) (le : bound ≤ bound') (s : Stmt) :
    Lazy.Embeds (lazily solver bound s) (lazily solver bound' s) := by
  induction s using Stmt.structural with
  | skip => exact .pure
  | printState =>
    intro R p h p' h' twins
    rw [lazily_printState,lazily_printState]
    apply Trace.Embeds.single le_rfl
    exact twins.still le_rfl twins.pairing (.printed p _) (.printed p' _) (Set.notMem_empty h) (Set.notMem_empty h')
  | assign name rhs =>
    intro R p h p' h' twins
    rw [lazily_assign,lazily_assign]
    cases known : p.term .nested h rhs with
    | error fault => exact .stopped
    | ok t =>
      cases known' : p'.term .nested h' rhs with
      | error fault => exact .broken
      | ok u => exact .single (fun _ _ => Or.inl) (twins.assigned known known')
  | ifElse cond yes no left right =>
    intro R p h p' h' twins
    rw [lazily_ifElse,lazily_ifElse]
    exact left.branch uniform right (lazily_local solver bound yes) (lazily_local solver bound' yes) R p h p' h' twins
  | ifOnly cond yes ih =>
    intro R p h p' h' twins
    rw [lazily_ifOnly,lazily_ifOnly]
    exact ih.branch uniform .pure (lazily_local solver bound yes) (lazily_local solver bound' yes) R p h p' h' twins
  | loop cond body inv ih =>
    intro R p h p' h' twins
    rw [lazily,lazily]
    exact ih.unwind uniform (lazily_local solver bound body) (lazily_local solver bound' body) le R p h p' h' twins
  | assert cond =>
    intro R p h p' h' twins
    rw [lazily_assert,lazily_assert]
    cases known : p.formula .nested h cond with
    | error fault => exact .stopped
    | ok f =>
      cases known' : p'.formula .nested h' cond with
      | error fault => exact .broken
      | ok g =>
        have grows := checked_grows solver cond h p f
        have grows' := checked_grows solver cond h' p' g
        simp only
        split
        next q checked =>
          split
          next q' checked' =>
            rw [Explore.after_ok checked] at grows
            rw [Explore.after_ok checked'] at grows'
            have later := twins.still le_rfl (twins.pairing.rise grows.symbols grows'.symbols) grows grows'
              (Set.notMem_empty h) (Set.notMem_empty h')
            exact Lazy.Embeds.pure.ifPossible uniform R _ h _ h' (later.required (twins.formula known known'))
          next => exact .broken
        next => exact .stopped
  | assume cond =>
    intro R p h p' h' twins
    rw [lazily_assume,lazily_assume]
    cases known : p.formula .nested h cond with
    | error fault => exact .stopped
    | ok f =>
      cases known' : p'.formula .nested h' cond with
      | error fault => exact .broken
      | ok g => exact Lazy.Embeds.pure.ifPossible uniform R _ h _ h' (twins.required (twins.formula known known'))
  | havoc names =>
    intro R p h p' h' twins
    rw [lazily_havoc,lazily_havoc]
    obtain ⟨S,wider,later⟩ := twins.havocked names
    exact .single wider later
  | block items ih =>
    intro R p h p' h' twins
    rw [lazily,lazily]
    exact lazilyAll_embeds uniform ih R p h p' h' twins
  | hollow => exact fun _ _ _ _ _ _ => .stopped

end Bounds

/-- States with the same bindings and conditions, in pools whose states are all in scope. Numbers that both pools have
given stay as they are. -/
theorem Twins.of_copies {p p' : Pool} {h h' : Handle} (inScope : p.Scoped) (inScope' : p'.Scoped)
    (valid : h < p.states.size) (valid' : h' < p'.states.size)
    (env : ∀ name : String, (p'.state h').env[name]? = (p.state h).env[name]?)
    (path : (p'.state h').path = (p.state h).path) :
    Twins (fun i j => i = j ∧ i < min p.symbols p'.symbols) p h p' h' := by
  have older : (p.state h).Scoped (min p.symbols p'.symbols) := by
    refine ⟨fun name symbol known => ?_,fun f member => ?_⟩
    · have known' : (p'.state h').env[name]? = some symbol := (env name).trans known
      exact lt_min ((inScope h).env name symbol known) ((inScope' h').env name symbol known')
    · have member' : f ∈ (p'.state h').path := path ▸ member
      exact le_min ((inScope h).path f member) ((inScope' h').path f member')
  refine ⟨valid,valid',?_,fun ρ respects => ?_⟩
  · refine ⟨fun related => ?_,fun related => ?_,fun one two => one.1.symm.trans two.1,fun one two => ?_⟩
    · exact related.2.trans_le (min_le_left _ _)
    · exact related.1 ▸ related.2.trans_le (min_le_right _ _)
    · exact one.1.trans two.1.symm
  · have kept := State.renumbered_fixed (fun k below => respects k k ⟨rfl,below⟩) older
    exact ⟨fun name => (env name).trans (kept.env name),path.trans kept.path⟩

/-- A higher bound loses no result, with any solver whose answers do not depend on the numbers of symbols. From two
copies of a state, one program is explored with one bound and with a higher one. If neither exploration fails, the
results of the first are, in order, results of the second: the same bindings and the same conditions, when the symbols
made on the way are renumbered. -/
theorem explore_bound_raised {solver : Solver} (uniform : solver.Uniform) {pool pool' : Pool}
    {live live' : List (Search Handle)} (reachable : Reachable pool live) (reachable' : Reachable pool' live')
    {h h' : Handle} (valid : h < pool.states.size) (valid' : h' < pool'.states.size)
    (env : ∀ name : String, (pool'.state h').env[name]? = (pool.state h).env[name]?)
    (path : (pool'.state h').path = (pool.state h).path) (s : Stmt) {bound bound' : Int} (le : bound ≤ bound')
    {drawn drawn' : Trace.Drawn Handle} (lower : (explore solver bound.toNat s h).draw none pool = drawn)
    (higher : (explore solver bound'.toNat s h').draw none pool' = drawn') (unfailing : drawn.fault = none)
    (unfailing' : drawn'.fault = none) :
    ∃ ρ : Equiv.Perm Nat, (∀ n, n < pool.symbols → n < pool'.symbols → ρ n = n) ∧
      ∃ few, few.Sublist drawn'.values ∧
        List.Forall₂ (fun o o' => (drawn.pool.state o).Renumbered ρ (drawn'.pool.state o')) drawn.values few := by
  subst lower higher
  have twins := Twins.of_copies reachable.settled.inScope reachable'.settled.inScope valid valid' env path
  have embeds := (lazily_embeds uniform (Int.toNat_le_toNat le) s).ifPossible uniform _ _ _ _ _ twins
  obtain ⟨S,wider,pairing,few,sub,each⟩ := embeds.drawn (explore_local solver bound.toNat s h pool valid)
    (explore_local solver bound'.toNat s h' pool' valid') unfailing unfailing'
  obtain ⟨ρ,respects⟩ := pairing.exists_perm
  refine ⟨ρ,fun n old old' => ?_,few,sub,each.imp fun _ _ same => same ρ respects⟩
  exact respects n n (wider n n ⟨rfl,lt_min old old'⟩)

/-- With two iterations there is one more result, which comes first. The symbol made last is then the fourth one, not
the third. -/
theorem draining_bound_raised :
    ∃ solver : Solver, solver.Uniform ∧ ∃ drawn drawn', (explore solver 1 draining 0).draw none positive = drawn ∧
      (explore solver 2 draining 0).draw none positive = drawn' ∧ drawn.values = [3,2,1] ∧
      drawn'.values = [4,3,2,1] ∧ (drawn.pool.state 1).env["y"]? = some ⟨"y",2⟩ ∧
      (drawn'.pool.state 1).env["y"]? = some ⟨"y",3⟩ ∧
      ∃ ρ : Equiv.Perm Nat, ρ 0 = 0 ∧ ∃ few, few.Sublist drawn'.values ∧
        List.Forall₂ (fun o o' => (drawn.pool.state o).Renumbered ρ (drawn'.pool.state o')) drawn.values few := by
  have uniform := Solver.precise_exact.uniform
  have valid : 0 < positive.states.size := by decide +kernel
  have older : 0 < positive.symbols := by decide +kernel
  have ended : ((explore .precise 1 draining 0).draw none positive).fault = none := by decide +kernel
  have ended' : ((explore .precise 2 draining 0).draw none positive).fault = none := by decide +kernel
  obtain ⟨ρ,fixed,same⟩ := explore_bound_raised uniform positive_reachable positive_reachable valid valid (fun _ => rfl)
    rfl draining (show (1 : Int) ≤ 2 by decide) rfl rfl ended ended'
  refine ⟨_,uniform,_,_,rfl,rfl,?_,?_,?_,?_,ρ,fixed 0 older older,same⟩
  · decide +kernel
  · decide +kernel
  · decide +kernel
  · decide +kernel

end WhileExec.Symbolic
