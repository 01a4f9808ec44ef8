import Mathlib
import WhileExec.Symbolic.Search
import WhileExec.Proofs.Symbolic.Changes

/-!
# Drawing results

Between two results of a search whoever takes them may change the pool. `Trace.Owns` says which states a search
depends on and may change: those it owns when it starts, and those it makes. A result is given away for good: whatever
was done to the pool in between, the search never touches a result again.

`Trace.Draws` is a drawing of some results, with the pools before and after the taker's work; the taker changes no
state but the result taken. It takes a search composed of others apart into drawings of these.
-/

namespace WhileExec.Symbolic

namespace Trace

variable {α β : Type}

theorem andThen_done (t : Trace α) : t.andThen .done = t := by
  induction t with
  | done => rfl
  | failed => rfl
  | yield value pool resume ih => simp only [andThen,ih]

/-- A search under way on the pool `p`, which owns some of its states. -/
inductive Owns : Set Handle → Pool → Trace Handle → Prop
  | done {owned : Set Handle} {p q : Pool} (grows : p.Grows owned q) : Owns owned p (.done q)
  | failed {owned : Set Handle} {p q : Pool} {fault : Fault} (grows : p.Grows owned q) :
      Owns owned p (.failed fault q)
  | yield {owned : Set Handle} {p q : Pool} {value : Handle} {resume : Pool → Trace Handle} (kept : Set Handle)
      (grows : p.Grows owned q) (valid : value < q.states.size)
      (own : value < p.states.size → value ∈ owned) (given : value ∉ kept)
      (within : ∀ k ∈ kept, k < p.states.size → k ∈ owned) (old : ∀ k ∈ kept, k < q.states.size)
      (resumed : ∀ r : Pool, q.states.size ≤ r.states.size → Owns kept r (resume r)) :
      Owns owned p (.yield value q resume)

theorem Owns.mono {owned more : Set Handle} {p q : Pool} {t : Trace Handle} (owns : Owns owned q t)
    (grows : p.Grows more q) (within : ∀ k ∈ owned, k < p.states.size → k ∈ more) : Owns more p t := by
  cases owns with
  | done after => exact .done (grows.trans after within)
  | failed after => exact .failed (grows.trans after within)
  | yield kept after valid own given inside old resumed =>
    refine .yield kept (grows.trans after within) valid (fun older => ?_) given (fun k member older => ?_) old resumed
    · exact within _ (own (older.trans_le grows.size)) older
    · exact within k (inside k member (older.trans_le grows.size)) older

/-- One search after another: the second keeps its states while the first is under way. -/
theorem Owns.andThen {owned kept : Set Handle} {p : Pool} {t : Trace Handle} {next : Pool → Trace Handle}
    (owns : Owns owned p t) (apart : ∀ k ∈ kept, k ∉ owned) (old : ∀ k ∈ kept, k < p.states.size)
    (after : ∀ r : Pool, p.states.size ≤ r.states.size → Owns kept r (next r)) :
    Owns (owned ∪ kept) p (t.andThen next) := by
  induction owns with
  | @done owned p q grows =>
    exact (after q grows.size).mono (grows.widen Set.subset_union_left) fun k member _ => .inr member
  | failed grows => exact .failed (grows.widen Set.subset_union_left)
  | @yield owned p q value resume first grows valid own given within before resumed ih =>
    refine .yield (first ∪ kept) (grows.widen Set.subset_union_left) valid (fun older => .inl (own older)) ?_ ?_ ?_ ?_
    · rintro (member | member)
      · exact given member
      · exact apart value member (own (old value member))
    · rintro k (member | member) older
      · exact .inl (within k member older)
      · exact .inr member
    · rintro k (member | member)
      · exact before k member
      · exact (old k member).trans_le grows.size
    · intro r taken
      have older : p.states.size ≤ r.states.size := grows.size.trans taken
      exact ih r taken (fun k member also => apart k member (within k also (old k member)))
        (fun k member => (old k member).trans_le older) fun s later => after s (older.trans later)

/-- Each result is handed to another search, which owns it from then on. -/
theorem Owns.bind {owned : Set Handle} {p : Pool} {t : Trace Handle} {next : Handle → Pool → Trace Handle}
    (owns : Owns owned p t) (each : ∀ h q, h < q.states.size → Owns {h} q (next h q)) :
    Owns owned p (t.bind next) := by
  induction owns with
  | done grows => exact .done grows
  | failed grows => exact .failed grows
  | @yield owned p q value resume kept grows valid own given within old resumed ih =>
    have composed := (each value q valid).andThen
      (fun k member same => given (Set.mem_singleton_iff.mp same ▸ member)) old ih
    refine composed.mono grows ?_
    rintro k (rfl | member) older
    · exact own older
    · exact within k member older

/-- A result that was taken: the pool when it was given, and the pool with which the search was resumed. -/
structure Taking where
  value : Handle
  given : Pool
  back : Pool

/-- A drawing of results. It is whole if it went on until there were none left. -/
inductive Draws : Trace Handle → List Taking → Bool → Pool → Prop
  | done {q : Pool} : Draws (.done q) [] true q
  | failed {fault : Fault} {q : Pool} : Draws (.failed fault q) [] false q
  | last {value : Handle} {p : Pool} {resume : Pool → Trace Handle} :
      Draws (.yield value p resume) [⟨value,p,p⟩] false p
  | next {value : Handle} {p r q : Pool} {resume : Pool → Trace Handle} {ts : List Taking} {whole : Bool}
      (careful : p.Grows {value} r) (rest : Draws (resume r) ts whole q) :
      Draws (.yield value p resume) (⟨value,p,r⟩ :: ts) whole q

/-- What is known of a result that was taken while a search went from `p` to `q`. -/
structure Taking.Within (owned : Set Handle) (p q : Pool) (t : Taking) : Prop where
  grows : p.Grows owned t.given
  valid : t.value < t.given.states.size
  own : t.value < p.states.size → t.value ∈ owned
  lasts : q.state t.value = t.back.state t.value
  symbols : t.given.symbols ≤ q.symbols

theorem Owns.drawn {owned : Set Handle} {p q : Pool} {t : Trace Handle} {ts : List Taking} {whole : Bool}
    (owns : Owns owned p t) (draws : t.Draws ts whole q) :
    p.Grows owned q ∧ ∀ taken ∈ ts, taken.Within owned p q := by
  induction draws generalizing owned p with
  | done => cases owns with | done grows => exact ⟨grows,by simp⟩
  | failed => cases owns with | failed grows => exact ⟨grows,by simp⟩
  | @last value q resume =>
    cases owns with
    | yield kept grows valid own given within old resumed =>
      refine ⟨grows,fun taken member => ?_⟩
      rw [List.mem_singleton.mp member]
      exact ⟨grows,valid,own,rfl,le_rfl⟩
  | @next value q r final resume ts whole careful rest ih =>
    cases owns with
    | yield kept grows valid own given within old resumed =>
      obtain ⟨later,each⟩ := ih (resumed r careful.size)
      have before : p.Grows owned r := grows.trans careful fun k same older => by
        rw [Set.mem_singleton_iff.mp same] at older ⊢
        exact own older
      have inside : ∀ k ∈ kept, k < p.states.size → k ∈ owned := within
      refine ⟨before.trans later inside,fun taken member => ?_⟩
      rcases List.mem_cons.mp member with rfl | member
      · exact ⟨grows,valid,own,later.others value (valid.trans_le careful.size) given,
          careful.symbols.trans later.symbols⟩
      · have known := each taken member
        exact ⟨before.trans known.grows inside,known.valid,
          fun older => inside _ (known.own (older.trans_le before.size)) older,known.lasts,known.symbols⟩

/-- What is made between taking a result and resuming the search is never touched by the search. -/
theorem Owns.made {owned : Set Handle} {p q : Pool} {t : Trace Handle} {ts : List Taking} {whole : Bool}
    (owns : Owns owned p t) (draws : t.Draws ts whole q) :
    ∀ taken ∈ ts, taken.back.Grows {k | k < taken.given.states.size} q := by
  induction draws generalizing owned p with
  | done => simp
  | failed => simp
  | @last value q resume =>
    intro taken member
    rw [List.mem_singleton.mp member]
    exact .refl _ q
  | @next value q r final resume ts whole careful rest ih =>
    cases owns with
    | yield kept grows valid own given within old resumed =>
      have resuming := resumed r careful.size
      intro taken member
      rcases List.mem_cons.mp member with rfl | member
      · exact (resuming.drawn rest).1.widen old
      · exact ih resuming taken member

theorem Draws.of_andThen {t : Trace Handle} {next : Pool → Trace Handle} {ts : List Taking} {whole : Bool} {q : Pool}
    (draws : (t.andThen next).Draws ts whole q) :
    (whole = false ∧ t.Draws ts false q) ∨
      ∃ mid first second, ts = first ++ second ∧ t.Draws first true mid ∧ (next mid).Draws second whole q := by
  induction t generalizing ts with
  | done p => exact .inr ⟨p,[],ts,rfl,.done,draws⟩
  | failed fault p => cases draws; exact .inl ⟨rfl,.failed⟩
  | yield value p resume ih =>
    cases draws with
    | last => exact .inl ⟨rfl,.last⟩
    | next careful rest =>
      rcases ih _ rest with ⟨stopped,rest⟩ | ⟨mid,first,second,rfl,rest,after⟩
      · exact .inl ⟨stopped,.next careful rest⟩
      · exact .inr ⟨mid,_ :: first,second,rfl,.next careful rest,after⟩

/-- Results of one search together with what was drawn from the search that each was handed to. -/
theorem Draws.of_bind {owned : Set Handle} {p : Pool} {t : Trace Handle} {next : Handle → Pool → Trace Handle}
    {ts : List Taking} {whole : Bool} {q : Pool} (owns : t.Owns owned p)
    (each : ∀ h q, h < q.states.size → (next h q).Owns {h} q) (draws : (t.bind next).Draws ts whole q) :
    ∃ (groups : List (Taking × List Taking)) (complete : Bool) (final : Pool),
      t.Draws (groups.map (·.1)) complete final ∧ ts = groups.flatMap (·.2) ∧
      (∀ g ∈ groups, ∃ ended last, (next g.1.value g.1.given).Draws g.2 ended last) ∧
      (whole = true → complete = true ∧ final = q ∧
        ∀ g ∈ groups, (next g.1.value g.1.given).Draws g.2 true g.1.back) := by
  induction t generalizing owned p ts with
  | done r =>
    cases draws
    exact ⟨[],true,_,.done,rfl,by simp,by simp⟩
  | failed fault r =>
    cases draws
    exact ⟨[],false,_,.failed,rfl,by simp,by simp⟩
  | yield value r resume ih =>
    cases owns with
    | yield kept grows valid own given within old resumed =>
      have mine := each value r valid
      rcases Draws.of_andThen draws with ⟨rfl,inner⟩ | ⟨mid,first,second,rfl,inner,outer⟩
      · refine ⟨[(⟨value,r,r⟩,ts)],false,r,.last,by simp,fun g member => ?_,by simp⟩
        rw [List.mem_singleton.mp member]
        exact ⟨_,_,inner⟩
      · have careful := (mine.drawn inner).1
        obtain ⟨groups,complete,final,drawn,rfl,inside,ended⟩ := ih mid (resumed mid careful.size) outer
        refine ⟨(⟨value,r,mid⟩,first) :: groups,complete,final,.next careful drawn,by simp,?_,?_⟩
        · intro g member
          rcases List.mem_cons.mp member with rfl | member
          · exact ⟨_,_,inner⟩
          · exact inside g member
        · intro all
          refine ⟨(ended all).1,(ended all).2.1,fun g member => ?_⟩
          rcases List.mem_cons.mp member with rfl | member
          · exact inner
          · exact (ended all).2.2 g member

/-- Drawing without touching the results. A drawing of all results that did not fail is whole. -/
theorem draws_of_draw (t : Trace Handle) (wanted : Option Nat) (begun : wanted ≠ some 0) :
    ∃ ts whole, t.Draws ts whole (t.draw wanted).pool ∧ (t.draw wanted).values = ts.map (·.value) ∧
      (∀ taken ∈ ts, taken.back = taken.given) ∧
      (wanted = none → (t.draw wanted).fault = none → whole = true) := by
  induction t generalizing wanted with
  | done q => exact ⟨[],true,.done,rfl,by simp,fun _ _ => rfl⟩
  | failed fault q => exact ⟨[],false,.failed,rfl,by simp,fun _ none => by cases none⟩
  | yield value p resume ih =>
    match wanted with
    | some 0 => contradiction
    | some 1 => exact ⟨_,false,.last,rfl,by simp,by simp⟩
    | some (n + 2) =>
      obtain ⟨ts,whole,draws,values,same,-⟩ := ih p (some (n + 1)) (by simp)
      exact ⟨⟨value,p,p⟩ :: ts,whole,.next (.refl _ p) draws,by simp [draw,values],by simpa using same,by simp⟩
    | none =>
      obtain ⟨ts,whole,draws,values,same,ended⟩ := ih p none (by simp)
      exact ⟨⟨value,p,p⟩ :: ts,whole,.next (.refl _ p) draws,by simp [draw,values],by simpa using same,
        fun _ ok => ended rfl ok⟩

end Trace

namespace Search

variable {α β : Type}

theorem lift_bind (action : Explore α) (next : α → Search β) (p : Pool) :
    ((liftM action : Search α) >>= next) p = match action p with
      | .ok a q => next a q
      | .error fault q => .failed fault q := by
  change Trace.bind next (match action p with
    | .ok value pool => .yield value pool .done
    | .error fault pool => .failed fault pool) = _
  cases action p with
  | ok a q => exact (next a q).andThen_done
  | error fault q => rfl

theorem also_apply (first second : Search α) (p : Pool) : first.also second p = (first p).andThen second := rfl

end Search

end WhileExec.Symbolic
