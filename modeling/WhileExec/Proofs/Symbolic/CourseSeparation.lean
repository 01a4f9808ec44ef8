import Mathlib
import WhileExec.Proofs.Symbolic.Courses

/-!
# Courses that part

Courses part at a condition only: one state requires it and the other one refuses it, and from there on states only
become narrower. So the ends of two courses that have parted have no interpretation in common.
-/

namespace WhileExec.Symbolic

open Course (Pairs)

theorem Course.Pairs.self {c : Course} {i j : Nat} (pair : Pairs c c i j) : i = j := by
  obtain ⟨k,name,here,there⟩ := pair
  cases here.symm.trans there
  rfl

/-- A course in two parts takes a way in the first or in the second. -/
theorem Course.took_append {c d common rest : Course} {way : Bool} (same : c ++ d = common ++ .took way :: rest) :
    (∃ more, common = c ++ more ∧ d = more ++ .took way :: rest) ∨ ∃ more, c = common ++ .took way :: more := by
  rcases List.append_eq_append_iff.mp same with ⟨more,whole,second⟩ | ⟨more,first,later⟩
  · exact .inl ⟨more,whole,second⟩
  · cases more with
    | nil => exact .inl ⟨[],by simpa using first.symm,by simpa using later.symm⟩
    | cons event more =>
      cases later
      exact .inr ⟨more,first⟩

namespace Going

variable {G H : Going}

/-- From one state two courses of which one begins like the other are the same, and lead to the same. -/
theorem Guided.deterministic (guided : G.Guided) {c d x y : Course} {a a' b b' : State} (one : G .flat c a b)
    (two : G .flat d a' b') (same : c ++ x = d ++ y) (like : a.Like Eq a') : c = d ∧ b.Like Eq b' := by
  have shapes : c.shape ++ x.shape = d.shape ++ y.shape := by rw [← Course.shape_append,same,Course.shape_append]
  obtain ⟨shape,alike⟩ := guided.alike x.shape y.shape one two shapes like fun i j pair => by
    have whole : Pairs (c ++ x) (d ++ y) i j := pair.append_left
    rw [same] at whole
    exact whole.self
  have length : c.length = d.length := by simpa using congrArg List.length shape
  exact ⟨(List.append_inj same length).1,alike⟩

/-- Courses that part lead to states that have no interpretation in common. -/
def Separates (G : Going) : Prop :=
  ∀ ⦃common left right : Course⦄ ⦃way : Bool⦄ ⦃a a' b b' : State⦄, G .flat (common ++ .took way :: left) a b →
    G .flat (common ++ .took (!way) :: right) a' b' → a.Like Eq a' → ∀ i, b.path.holds i = true →
      b'.path.holds i = false

namespace Separates

theorem of_straight (straight : ∀ c a b, G .flat c a b → ∀ way, .took way ∉ c) : G.Separates := by
  intro common left right way a a' b b' one
  exact absurd (by simp) (straight _ _ _ one way)

theorem stay : stay.Separates := by
  apply of_straight
  rintro c a b ⟨rfl,-⟩ way
  exact List.not_mem_nil

theorem never : never.Separates := of_straight fun _ _ _ none => none.elim

theorem require (cond : Expr) : (require cond).Separates := by
  apply of_straight
  rintro c a b ⟨rfl,-⟩ way
  exact List.not_mem_nil

theorem assign (name : String) (rhs : Expr) : (assign name rhs).Separates := by
  apply of_straight
  rintro c a b ⟨t,n,-,rfl,-⟩ way
  simp

theorem havoc (names : List String) : (havoc names).Separates := by
  apply of_straight
  intro c a b going way member
  have marked : Event.mark (.took way) ∈ c.shape := List.mem_map_of_mem member
  rw [havoc_shape going] at marked
  simp [Event.mark] at marked

theorem fork (cond : Expr) (yes : G.Separates) (no : H.Separates) (guided : G.Guided) (guided' : H.Guided) :
    (fork cond G H).Separates := by
  rintro common left right way a a' b b' ⟨f,known,ways⟩ ⟨g,known',ways'⟩ like i holds
  have same := like.formula known known'
  have fits : Interpretation.Fits Eq i i := ⟨fun name m n equal => equal ▸ rfl,rfl⟩
  cases common with
  | nil =>
    -- The courses part here: one state requires the condition, and the other one refuses it.
    rw [Bool.eq_false_iff]
    intro holds'
    have opposite : f.eval i = g.eval i := same i i fits
    rcases ways with ⟨c,taken,one⟩ | ⟨c,taken,one⟩ <;> rcases ways' with ⟨d,taken',two⟩ | ⟨d,taken',two⟩ <;>
      simp only [List.nil_append,List.cons.injEq,Event.took.injEq] at taken taken'
    · simp [taken.1] at taken'
    · have required := (State.require_holds.mp (guided.narrows one i holds)).2
      have refused := (State.require_holds.mp (guided'.narrows two i holds')).2
      simp [Formula.eval,← opposite,required] at refused
    · have refused := (State.require_holds.mp (guided'.narrows one i holds)).2
      have required := (State.require_holds.mp (guided.narrows two i holds')).2
      simp [Formula.eval,opposite,required] at refused
    · simp [taken.1] at taken'
  | cons event common =>
    rcases ways with ⟨c,taken,one⟩ | ⟨c,taken,one⟩ <;> rcases ways' with ⟨d,taken',two⟩ | ⟨d,taken',two⟩ <;>
      simp only [List.cons_append,List.cons.injEq] at taken taken'
    · rw [← taken.2] at one
      rw [← taken'.2] at two
      exact yes one two (like.require same) i holds
    · cases taken.1.symm.trans taken'.1
    · cases taken.1.symm.trans taken'.1
    · rw [← taken.2] at one
      rw [← taken'.2] at two
      exact no one two (like.forked.require same.not) i holds

/-- The courses part while they go the first part, or behind it. Neither has gone the first part before the other. -/
theorem andThen (first : G.Separates) (second : H.Separates) (guided : G.Guided) (guided' : H.Guided) :
    (andThen G H).Separates := by
  rintro common left right way a a' b b' ⟨c,d,mid,whole,one,two⟩ ⟨c',d',mid',whole',one',two'⟩ like i holds
  rcases Course.took_append whole.symm with ⟨more,rfl,rfl⟩ | ⟨more,rfl⟩ <;>
    rcases Course.took_append whole'.symm with ⟨more',behind,rfl⟩ | ⟨more',rfl⟩
  · obtain ⟨rfl,alike⟩ := guided.deterministic one one' behind like
    obtain rfl := List.append_cancel_left behind
    exact second two two' alike i holds
  · obtain ⟨equal,-⟩ := guided.deterministic (x := more ++ .took (!way) :: more') (y := []) one one' (by simp) like
    simp at equal
  · obtain ⟨equal,-⟩ := guided.deterministic (x := []) (y := more' ++ .took way :: more) one one'
      (by simp [behind]) like
    simp [behind] at equal
  · have parted := first one one' like i (guided'.narrows two i holds)
    rw [Bool.eq_false_iff] at parted ⊢
    exact fun holds' => parted (guided'.narrows two' i holds')

theorem iterate (cond : Expr) (body : G.Separates) (guided : G.Guided) (turns : Nat) :
    (iterate cond G turns).Separates := by
  induction turns with
  | zero => exact never
  | succ turns ih =>
    have later : (Going.iterate cond G turns).Guided := .iterate cond guided turns
    exact fork cond (body.andThen ih guided later) stay (guided.andThen later) .stay

end Separates

end Going

theorem goingAll_separates {bound : Nat} {ss : List Stmt} (each : ∀ s ∈ ss, (going bound s).Separates) :
    (goingAll bound ss).Separates := by
  induction ss with
  | nil => exact .stay
  | cons s ss ih =>
    rw [goingAll]
    exact (each s (by simp)).andThen (ih fun s member => each s (by simp [member])) (going_guided bound s)
      (goingAll_guided bound ss)

theorem going_separates (bound : Nat) (s : Stmt) : (going bound s).Separates := by
  induction s using Stmt.structural with
  | skip => exact .stay
  | printState => exact .stay
  | assign name rhs => exact .assign name rhs
  | ifElse cond yes no left right => exact .fork cond left right (going_guided bound yes) (going_guided bound no)
  | ifOnly cond yes ih => exact .fork cond ih .stay (going_guided bound yes) .stay
  | loop cond body inv ih => exact .iterate cond ih (going_guided bound body) (bound + 1)
  | assert cond => exact .require cond
  | assume cond => exact .require cond
  | havoc names => exact .havoc names
  | block items ih => exact goingAll_separates ih
  | hollow => exact .never

end WhileExec.Symbolic
