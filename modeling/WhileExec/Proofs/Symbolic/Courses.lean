import Mathlib
import WhileExec.Proofs.Symbolic.Renamings

/-!
# Courses of an exploration

A course lists what leads to a result: the ways taken at conditions and the symbols made. Its shape forgets the
numbers of the symbols. `going` says which courses a statement has from a state, and where they end; it knows of
no pool, no solver and no order in which results are found.

Courses of the same shape that start in alike states end in alike states, if the symbols made at the same place count
as related. So the shape of a course says all about its result but the numbers of new symbols.
-/

namespace WhileExec.Symbolic

inductive Event where
  | took (way : Bool)
  | made (symbol : Symbol)

/-- The event without the number of its symbol. -/
def Event.mark : Event → Bool ⊕ String
  | .took way => .inl way
  | .made symbol => .inr symbol.name

def Event.number? : Event → Option Nat
  | .took _ => none
  | .made symbol => some symbol.index

abbrev Course := List Event

namespace Course

def shape (c : Course) : List (Bool ⊕ String) :=
  c.map Event.mark

def numbers (c : Course) : List Nat :=
  c.filterMap Event.number?

@[simp] theorem shape_nil : shape [] = [] := rfl
@[simp] theorem shape_cons (e : Event) (c : Course) : shape (e :: c) = e.mark :: c.shape := rfl
@[simp] theorem shape_append (c d : Course) : shape (c ++ d) = c.shape ++ d.shape := List.map_append
@[simp] theorem shape_length (c : Course) : c.shape.length = c.length := List.length_map _

@[simp] theorem numbers_nil : numbers [] = [] := rfl
@[simp] theorem numbers_took (way : Bool) (c : Course) : numbers (.took way :: c) = c.numbers := rfl
@[simp] theorem numbers_made (symbol : Symbol) (c : Course) :
    numbers (.made symbol :: c) = symbol.index :: c.numbers := rfl
@[simp] theorem numbers_append (c d : Course) : numbers (c ++ d) = c.numbers ++ d.numbers := List.filterMap_append

theorem mem_numbers {u : Course} {k : Nat} {symbol : Symbol} (here : u[k]? = some (.made symbol)) :
    symbol.index ∈ u.numbers :=
  List.mem_filterMap.mpr ⟨_,List.mem_of_getElem? here,rfl⟩

/-- The symbols were made one after the other while the number of symbols went from `lo` to `hi`. -/
structure Between (lo hi : Nat) (c : Course) : Prop where
  ordered : lo ≤ hi
  within : ∀ n ∈ c.numbers, lo ≤ n ∧ n < hi
  increasing : c.numbers.Pairwise (· < ·)

namespace Between

variable {lo mid hi : Nat} {c d u : Course}

theorem nil (ordered : lo ≤ hi) : Between lo hi [] :=
  ⟨ordered,by simp,by simp⟩

theorem took (between : c.Between lo hi) (way : Bool) : Between lo hi (.took way :: c) :=
  ⟨between.ordered,between.within,between.increasing⟩

theorem of_took {way : Bool} (between : Between lo hi (.took way :: c)) : c.Between lo hi :=
  ⟨between.ordered,between.within,between.increasing⟩

theorem made (between : c.Between (lo + 1) hi) (name : String) : Between lo hi (.made ⟨name,lo⟩ :: c) := by
  have ordered := between.ordered
  constructor
  · omega
  · intro n member
    rcases List.mem_cons.mp member with rfl | member
    · omega
    · have := between.within n member
      omega
  · exact .cons (fun n member => (between.within n member).1) between.increasing

theorem mono (between : c.Between lo hi) {lo' hi' : Nat} (lower : lo' ≤ lo) (higher : hi ≤ hi') :
    c.Between lo' hi' := by
  have ordered := between.ordered
  refine ⟨by omega,fun n member => ?_,between.increasing⟩
  have := between.within n member
  omega

theorem append (first : c.Between lo mid) (second : d.Between mid hi) : Between lo hi (c ++ d) := by
  refine ⟨first.ordered.trans second.ordered,fun n member => ?_,?_⟩
  · rw [numbers_append] at member
    have := first.ordered
    have := second.ordered
    rcases List.mem_append.mp member with member | member
    · have := first.within n member
      omega
    · have := second.within n member
      omega
  · rw [numbers_append]
    refine List.pairwise_append.mpr ⟨first.increasing,second.increasing,fun m one n two => ?_⟩
    exact (first.within m one).2.trans_le (second.within n two).1

/-- A course can be parted anywhere: the second part begins with the first symbol that it makes. -/
theorem part (between : Between lo hi (c ++ d)) : ∃ mid, c.Between lo mid ∧ d.Between mid hi := by
  obtain ⟨ordered,within,increasing⟩ := between
  rw [numbers_append] at within increasing
  obtain ⟨first,second,across⟩ := List.pairwise_append.mp increasing
  have left : ∀ n ∈ c.numbers, lo ≤ n ∧ n < hi := fun n member => within n (List.mem_append_left _ member)
  have right : ∀ n ∈ d.numbers, lo ≤ n ∧ n < hi := fun n member => within n (List.mem_append_right _ member)
  cases none : d.numbers with
  | nil => exact ⟨hi,⟨ordered,left,first⟩,⟨le_rfl,by simp [none],second⟩⟩
  | cons n rest =>
    rw [none] at second right across
    refine ⟨n,⟨(right n (by simp)).1,fun m member => ⟨(left m member).1,across m member n (by simp)⟩,first⟩,
      ⟨(right n (by simp)).2.le,fun m member => ?_,none ▸ second⟩⟩
    rw [none] at member
    refine ⟨?_,(right m member).2⟩
    rcases List.mem_cons.mp member with rfl | member
    · exact le_rfl
    · exact (List.rel_of_pairwise_cons second member).le

theorem lt (between : u.Between lo hi) {k l : Nat} {s t : Symbol} (one : u[k]? = some (.made s))
    (two : u[l]? = some (.made t)) (before : k < l) : s.index < t.index := by
  have parted : u = u.take l ++ u.drop l := (List.take_append_drop l u).symm
  have increasing := between.increasing
  rw [parted,numbers_append] at increasing
  have early : s.index ∈ numbers (u.take l) := mem_numbers (k := k) (by rw [List.getElem?_take_of_lt before,one])
  have late : t.index ∈ numbers (u.drop l) := mem_numbers (k := 0) (by rw [List.getElem?_drop,Nat.add_zero,two])
  exact (List.pairwise_append.mp increasing).2.2 _ early _ late

theorem place_unique (between : u.Between lo hi) {k l : Nat} {s t : Symbol} (one : u[k]? = some (.made s))
    (two : u[l]? = some (.made t)) (same : s.index = t.index) : k = l := by
  rcases Nat.lt_trichotomy k l with before | equal | after
  · have := between.lt one two before
    omega
  · exact equal
  · have := between.lt two one after
    omega

end Between

/-- Symbols of one variable made at the same place of two courses have these numbers. -/
def Pairs (u v : Course) (i j : Nat) : Prop :=
  ∃ (k : Nat) (name : String), u[k]? = some (.made ⟨name,i⟩) ∧ v[k]? = some (.made ⟨name,j⟩)

namespace Pairs

variable {u v u' v' : Course} {i j : Nat}

theorem head (name : String) : Pairs (.made ⟨name,i⟩ :: u) (.made ⟨name,j⟩ :: v) i j :=
  ⟨0,name,rfl,rfl⟩

theorem cons (pair : Pairs u v i j) (e e' : Event) : Pairs (e :: u) (e' :: v) i j := by
  obtain ⟨k,name,one,two⟩ := pair
  exact ⟨k + 1,name,one,two⟩

theorem append_left (pair : Pairs u v i j) : Pairs (u ++ u') (v ++ v') i j := by
  obtain ⟨k,name,one,two⟩ := pair
  refine ⟨k,name,?_,?_⟩
  · rw [List.getElem?_append_left (List.getElem?_eq_some_iff.mp one).1,one]
  · rw [List.getElem?_append_left (List.getElem?_eq_some_iff.mp two).1,two]

theorem append_right (pair : Pairs u' v' i j) (length : u.length = v.length) : Pairs (u ++ u') (v ++ v') i j := by
  obtain ⟨k,name,one,two⟩ := pair
  refine ⟨u.length + k,name,?_,?_⟩
  · rw [List.getElem?_append_right (by omega),Nat.add_sub_cancel_left,one]
  · rw [List.getElem?_append_right (by omega),length,Nat.add_sub_cancel_left,two]

theorem symm (pair : Pairs u v i j) : Pairs v u j i := by
  obtain ⟨k,name,one,two⟩ := pair
  exact ⟨k,name,two,one⟩

end Pairs

/-- Courses that part at a condition and make different symbols from there on. -/
def Diverges (c d : Course) : Prop :=
  ∃ common way left right, c = common ++ .took way :: left ∧ d = common ++ .took (!way) :: right ∧
    (numbers left).Disjoint (numbers right)

namespace Diverges

variable {c d e : Course}

theorem symm (diverges : c.Diverges d) : d.Diverges c := by
  obtain ⟨common,way,left,right,rfl,rfl,disjoint⟩ := diverges
  exact ⟨common,!way,right,left,rfl,by simp,disjoint.symm⟩

theorem append_left (diverges : c.Diverges d) (new : ∀ n ∈ e.numbers, n ∉ d.numbers) : Diverges (c ++ e) d := by
  obtain ⟨common,way,left,right,rfl,rfl,disjoint⟩ := diverges
  refine ⟨common,way,left ++ e,right,by simp,rfl,?_⟩
  rw [numbers_append]
  refine List.disjoint_append_left.mpr ⟨disjoint,fun n member made => new n member ?_⟩
  rw [numbers_append]
  exact List.mem_append_right _ made

theorem shape_ne (diverges : c.Diverges d) : c.shape ≠ d.shape := by
  obtain ⟨common,way,left,right,rfl,rfl,-⟩ := diverges
  simp [Event.mark]

/-- However the courses go on, they stay different. -/
theorem append_ne (diverges : c.Diverges d) (c' d' : Course) : c ++ c' ≠ d ++ d' := by
  obtain ⟨common,way,left,right,rfl,rfl,-⟩ := diverges
  simp

/-- A number that two courses share was given before they parted, and then at the same place. -/
theorem shared {lo hi : Nat} {common left right u v : Course} {way : Bool} (one : u = common ++ .took way :: left)
    (two : v = common ++ .took (!way) :: right) (disjoint : (numbers left).Disjoint (numbers right))
    (between : u.Between lo hi) (between' : v.Between lo hi) {k l : Nat} {s t : Symbol}
    (here : u[k]? = some (.made s)) (there : v[l]? = some (.made t)) (same : s.index = t.index) :
    k = l ∧ k < common.length := by
  have early {n : Nat} (before : n < common.length) : u[n]? = v[n]? := by
    rw [one,two,List.getElem?_append_left before,List.getElem?_append_left before]
  have late {common rest w : Course} {n : Nat} {e : Symbol} {b : Bool} (parted : w = common ++ .took b :: rest)
      (after : common.length ≤ n) (made : w[n]? = some (.made e)) : e.index ∈ rest.numbers := by
    rw [parted,List.getElem?_append_right after] at made
    simpa using mem_numbers made
  by_cases before : k < common.length
  · exact ⟨between'.place_unique (early before ▸ here) there same,before⟩
  by_cases before' : l < common.length
  · have place := between.place_unique here ((early before').trans there) same
    omega
  · have shared := late two (Nat.not_lt.mp before') there
    exact absurd (same ▸ shared) (disjoint (late one (Nat.not_lt.mp before) here))

/-- Two pairs of courses of the same shapes part at the same place. -/
theorem common_shape {α : Type} {a b a' b' : α} {xs ys us vs us' vs' : List α} (one : xs ++ a :: us = ys ++ a' :: us')
    (two : xs ++ b :: vs = ys ++ b' :: vs') (differ : a ≠ b) (differ' : a' ≠ b') : xs = ys := by
  induction xs generalizing ys with
  | nil =>
    cases ys with
    | nil => rfl
    | cons y ys =>
      simp only [List.nil_append,List.cons_append,List.cons.injEq] at one two
      exact absurd (one.1.trans two.1.symm) differ
  | cons x xs ih =>
    cases ys with
    | nil =>
      simp only [List.nil_append,List.cons_append,List.cons.injEq] at one two
      exact absurd (one.1.symm.trans two.1) differ'
    | cons y ys =>
      simp only [List.cons_append,List.cons.injEq] at one two
      rw [one.1,ih one.2 two.2]

/-- Courses that part from each other pair a shared number with one number only. -/
theorem pairs_functional {lo hi : Nat} {c' d' : Course} (first : c.Diverges c') (second : d.Diverges d')
    (shape : c.shape = d.shape) (shape' : c'.shape = d'.shape) (between : c.Between lo hi) (between' : c'.Between lo hi)
    {i j k : Nat} (one : Pairs c d i j) (two : Pairs c' d' i k) : j = k := by
  obtain ⟨common,way,left,right,parted,parted',disjoint⟩ := first
  obtain ⟨other,way',left',right',parting,parting',-⟩ := second
  obtain ⟨place,name,here,there⟩ := one
  obtain ⟨place',name',here',there'⟩ := two
  obtain ⟨rfl,before⟩ := shared parted parted' disjoint between between' here here' rfl
  rw [parted,parting,shape_append,shape_append,shape_cons,shape_cons] at shape
  rw [parted',parting',shape_append,shape_append,shape_cons,shape_cons] at shape'
  have length := congrArg List.length (common_shape shape shape' (by simp [Event.mark]) (by simp [Event.mark]))
  rw [shape_length,shape_length] at length
  rw [parting,List.getElem?_append_left (length ▸ before)] at there
  rw [parting',List.getElem?_append_left (length ▸ before)] at there'
  cases there.symm.trans there'
  rfl

end Diverges

end Course

open Course (Pairs)

/-- The symbols that two courses make at the same places are related as well. -/
theorem Pairing.extend {m n m' n' : Nat} {R : Nat → Nat → Prop} (pairing : Pairing m n R) {c d : Course}
    (left : c.Between m m') (right : d.Between n n') : Pairing m' n' fun i j => R i j ∨ Pairs c d i j := by
  have above := left.ordered
  have above' := right.ordered
  have fromLeft {i j : Nat} (pair : Pairs c d i j) : m ≤ i ∧ i < m' := by
    obtain ⟨k,name,one,-⟩ := pair
    exact left.within i (Course.mem_numbers one)
  have fromRight {i j : Nat} (pair : Pairs c d i j) : n ≤ j ∧ j < n' := by
    obtain ⟨k,name,-,two⟩ := pair
    exact right.within j (Course.mem_numbers two)
  constructor
  · rintro i j (related | pair)
    · exact (pairing.left related).trans_le above
    · exact (fromLeft pair).2
  · rintro i j (related | pair)
    · exact (pairing.right related).trans_le above'
    · exact (fromRight pair).2
  · rintro i j k (one | one) (two | two)
    · exact pairing.functional one two
    · exact absurd (pairing.left one) (Nat.not_lt.mpr (fromLeft two).1)
    · exact absurd (pairing.left two) (Nat.not_lt.mpr (fromLeft one).1)
    · obtain ⟨place,name,here,there⟩ := one
      obtain ⟨place',name',here',there'⟩ := two
      cases left.place_unique here here' rfl
      cases there.symm.trans there'
      rfl
  · rintro i j k (one | one) (two | two)
    · exact pairing.injective one two
    · exact absurd (pairing.right one) (Nat.not_lt.mpr (fromRight two).1)
    · exact absurd (pairing.right two) (Nat.not_lt.mpr (fromRight one).1)
    · obtain ⟨place,name,here,there⟩ := one
      obtain ⟨place',name',here',there'⟩ := two
      cases right.place_unique there there' rfl
      cases here.symm.trans here'
      rfl

/-- Courses, each with the state it starts in and the state it ends in. -/
abbrev Going := Joining → Course → State → State → Prop

namespace Going

def stay : Going := fun _ c a b => c = [] ∧ b = a

def never : Going := fun _ _ _ _ => False

/-- One after the other. -/
def andThen (first second : Going) : Going := fun joining c a b =>
  ∃ c₁ c₂ mid, c = c₁ ++ c₂ ∧ first joining c₁ a mid ∧ second joining c₂ mid b

/-- One of two ways, by a condition; the state that refuses it is a fork. -/
def fork (cond : Expr) (yes no : Going) : Going := fun joining c a b =>
  ∃ f, a.formula joining cond = .ok f ∧
    ((∃ d, c = .took true :: d ∧ yes joining d (a.require f) b) ∨
      ∃ d, c = .took false :: d ∧ no joining d (a.forked.require (.not f)) b)

def require (cond : Expr) : Going := fun joining c a b =>
  c = [] ∧ ∃ f, a.formula joining cond = .ok f ∧ b = a.require f

def assign (name : String) (rhs : Expr) : Going := fun joining c a b =>
  ∃ t n, a.term joining rhs = .ok t ∧ c = [.made ⟨name,n⟩] ∧
    b = (a.bind name ⟨name,n⟩).require (.compare .eq (.sym ⟨name,n⟩) t)

def havoc : List String → Going
  | [] => stay
  | name :: names => fun joining c a b =>
    ∃ n d, c = .made ⟨name,n⟩ :: d ∧ havoc names joining d (a.bind name ⟨name,n⟩) b

theorem havoc_shape {names : List String} {joining : Joining} {c : Course} {a b : State}
    (going : havoc names joining c a b) : c.shape = names.map .inr := by
  induction names generalizing c a with
  | nil =>
    obtain ⟨rfl,-⟩ := going
    rfl
  | cons name names ih =>
    obtain ⟨n,d,rfl,rest⟩ := going
    rw [Course.shape_cons,ih rest]
    rfl

/-- Less than a number of iterations. -/
def iterate (cond : Expr) (body : Going) : Nat → Going
  | 0 => never
  | turns + 1 => fork cond (body.andThen (iterate cond body turns)) stay

theorem fork_andThen (cond : Expr) (G H : Going) :
    (fork cond G never).andThen H = fork cond (G.andThen H) never := by
  funext joining c a b
  apply propext
  constructor
  · rintro ⟨c₁,c₂,mid,rfl,⟨f,known,⟨d,rfl,taken⟩ | ⟨d,-,none⟩⟩,rest⟩
    · exact ⟨f,known,.inl ⟨d ++ c₂,rfl,d,c₂,mid,rfl,taken,rest⟩⟩
    · exact none.elim
  · rintro ⟨f,known,⟨d,rfl,d₁,d₂,mid,rfl,taken,rest⟩ | ⟨d,-,none⟩⟩
    · exact ⟨.took true :: d₁,d₂,mid,rfl,⟨f,known,.inl ⟨d₁,rfl,taken⟩⟩,rest⟩
    · exact none.elim

/-- A later state admits less than an earlier one, and the shape of a course determines where it leads. -/
structure Guided (G : Going) : Prop where
  narrows : ∀ {joining c a b}, G joining c a b → b.Narrows a
  alike : ∀ {R joining other c d a a' b b'} (x y : List (Bool ⊕ String)), G joining c a b → G other d a' b' →
    c.shape ++ x = d.shape ++ y → a.Like R a' → (∀ i j, Pairs c d i j → R i j) → c.shape = d.shape ∧ b.Like R b'

namespace Guided

variable {G H : Going}

theorem stay : Guided stay := by
  constructor
  · rintro joining c a b ⟨-,rfl⟩
    exact .refl _
  · rintro R joining other c d a a' b b' x y ⟨rfl,rfl⟩ ⟨rfl,rfl⟩ - like -
    exact ⟨rfl,like⟩

theorem never : Guided never :=
  ⟨fun none => none.elim,fun _ _ none => none.elim⟩

theorem andThen (first : Guided G) (second : Guided H) : Guided (G.andThen H) := by
  constructor
  · rintro joining c a b ⟨c₁,c₂,mid,-,one,two⟩
    exact (second.narrows two).trans (first.narrows one)
  · rintro R joining other c d a a' b b' x y ⟨c₁,c₂,mid,rfl,one,two⟩ ⟨d₁,d₂,mid',rfl,one',two'⟩ shapes like pairs
    simp only [Course.shape_append,List.append_assoc] at shapes ⊢
    obtain ⟨shape,like⟩ := first.alike _ _ one one' shapes like fun i j pair => pairs i j pair.append_left
    have length : c₁.length = d₁.length := by simpa using congrArg List.length shape
    rw [shape,List.append_cancel_left_eq] at shapes
    obtain ⟨shape',like⟩ := second.alike x y two two' shapes like fun i j pair => pairs i j (pair.append_right length)
    exact ⟨by rw [shape,shape'],like⟩

theorem fork (cond : Expr) (yes : Guided G) (no : Guided H) : Guided (fork cond G H) := by
  constructor
  · rintro joining c a b ⟨f,-,⟨d,-,taken⟩ | ⟨d,-,refused⟩⟩
    · exact (yes.narrows taken).trans (.require a f)
    · exact (no.narrows refused).trans (.require a.forked _)
  · rintro R joining other c d a a' b b' x y ⟨f,known,ways⟩ ⟨g,known',ways'⟩ shapes like pairs
    have same := like.formula known known'
    rcases ways with ⟨c,rfl,one⟩ | ⟨c,rfl,one⟩ <;> rcases ways' with ⟨d,rfl,two⟩ | ⟨d,rfl,two⟩ <;>
      simp only [Course.shape_cons,Event.mark,List.cons_append,List.cons.injEq,Sum.inl.injEq,Bool.true_eq_false,
        Bool.false_eq_true,true_and,false_and] at shapes
    · obtain ⟨shape,like⟩ := yes.alike x y one two shapes (like.require same) fun i j pair => pairs i j (pair.cons _ _)
      exact ⟨by simp [shape],like⟩
    · obtain ⟨shape,like⟩ := no.alike x y one two shapes (like.forked.require same.not) fun i j pair =>
        pairs i j (pair.cons _ _)
      exact ⟨by simp [shape],like⟩

theorem require (cond : Expr) : Guided (require cond) := by
  constructor
  · rintro joining c a b ⟨-,f,-,rfl⟩
    exact .require a f
  · rintro R joining other c d a a' b b' x y ⟨rfl,f,known,rfl⟩ ⟨rfl,g,known',rfl⟩ - like -
    exact ⟨rfl,like.require (like.formula known known')⟩

theorem assign (name : String) (rhs : Expr) : Guided (assign name rhs) := by
  constructor
  · rintro joining c a b ⟨t,n,-,-,rfl⟩
    exact .require (a.bind name ⟨name,n⟩) _
  · rintro R joining other c d a a' b b' x y ⟨t,m,known,rfl,rfl⟩ ⟨u,n,known',rfl,rfl⟩ - like pairs
    have related : R m n := pairs m n (.head name)
    have symbols : Symbol.Like R ⟨name,m⟩ ⟨name,n⟩ := ⟨rfl,related⟩
    exact ⟨rfl,(like.bind name related).require (Formula.compare_like .eq symbols.eval (like.term known known'))⟩

theorem havoc (names : List String) : Guided (havoc names) := by
  induction names with
  | nil => exact .stay
  | cons name names ih =>
    constructor
    · rintro joining c a b ⟨n,d,-,rest⟩
      exact (ih.narrows rest).trans fun _ holds => holds
    · rintro R joining other c d a a' b b' x y ⟨m,c,rfl,one⟩ ⟨n,d,rfl,two⟩ shapes like pairs
      have related : R m n := pairs m n (.head name)
      have rest : Course.shape c ++ x = Course.shape d ++ y := by simpa [Event.mark] using shapes
      obtain ⟨shape,like⟩ := ih.alike x y one two rest (like.bind name related) fun i j pair =>
        pairs i j (pair.cons _ _)
      exact ⟨by simp [shape,Event.mark],like⟩

theorem iterate (cond : Expr) (body : Guided G) (turns : Nat) : Guided (iterate cond G turns) := by
  induction turns with
  | zero => exact .never
  | succ turns ih => exact .fork cond (body.andThen ih) .stay

end Guided

/-- Every course from a state like this one that ends in a possible state has the shape of a listed one. The listed
courses start where `n` symbols have been made. -/
def Complete (G : Going) (n : Nat) (s : State) (cs : List Course) : Prop :=
  ∀ ⦃R m m' joining a c b⦄, Pairing m n R → a.Like R s → G joining c a b → c.Between m m' →
    (∃ i, b.path.holds i = true) → ∃ d ∈ cs, d.shape = c.shape

namespace Complete

variable {G H : Going} {n n' : Nat} {s : State} {cs ds : List Course} {cond : Expr}

theorem mono (complete : G.Complete n' s cs) (later : n ≤ n') (more : ∀ c ∈ cs, c ∈ ds) : G.Complete n s ds := by
  intro R m m' joining a c b pairing like going between possible
  obtain ⟨d,member,shape⟩ := complete (pairing.grow later) like going between possible
  exact ⟨d,more d member,shape⟩

/-- No course from a refused state ends in a possible one. -/
theorem of_refused {solver : Solver} (sound : solver.Sound) (guided : G.Guided) (refused : solver.unsat s.path = true) :
    G.Complete n s cs := by
  rintro R m m' joining a c b pairing like going - ⟨i,holds⟩
  obtain ⟨j,contrary⟩ := pairing.satisfiable like ⟨i,guided.narrows going i holds⟩
  rw [sound _ j refused] at contrary
  contradiction

theorem never : never.Complete n s cs := by
  rintro R m m' joining a c b - - ⟨⟩

theorem stay (member : [] ∈ cs) : stay.Complete n s cs := by
  rintro R m m' joining a c b - - ⟨rfl,-⟩ - -
  exact ⟨[],member,rfl⟩

theorem require {joining : Joining} {f : Formula} (known : s.formula joining cond = .ok f)
    (stays : Going.stay.Complete n' (s.require f) cs) (later : n ≤ n') : (require cond).Complete n s cs := by
  rintro R m m' joining' a c b pairing like ⟨empty,g,known',rfl⟩ between possible
  have staying : Going.stay joining' c (a.require g) (a.require g) := ⟨empty,rfl⟩
  exact stays (pairing.grow later) (like.require (like.formula known' known)) staying between possible

theorem assign {name : String} {rhs : Expr} {k : Nat} (member : [.made ⟨name,k⟩] ∈ cs) :
    (assign name rhs).Complete n s cs := by
  rintro R m m' joining a c b - - ⟨t,l,-,rfl,-⟩ - -
  exact ⟨_,member,rfl⟩

theorem havoc {names : List String} {c : Course} {joining : Joining} {a b : State}
    (found : Going.havoc names joining c a b) : (havoc names).Complete n s [c] := by
  intro R m m' joining' a' d b' _ _ going _ _
  exact ⟨c,by simp,(havoc_shape found).trans (havoc_shape going).symm⟩

theorem fork {f : Formula} {joining : Joining} (known : s.formula joining cond = .ok f)
    (yes : G.Complete n (s.require f) cs) (no : H.Complete n (s.forked.require (.not f)) ds) :
    (fork cond G H).Complete n s (cs.map (.took true :: ·) ++ ds.map (.took false :: ·)) := by
  rintro R m m' joining' a c b pairing like ⟨g,known',ways⟩ between possible
  have same := like.formula known' known
  rcases ways with ⟨c,rfl,going⟩ | ⟨c,rfl,going⟩
  · obtain ⟨d,member,shape⟩ := yes pairing (like.require same) going between.of_took possible
    exact ⟨.took true :: d,by simp [member],by simp [shape]⟩
  · obtain ⟨d,member,shape⟩ := no pairing (like.forked.require same.not) going between.of_took possible
    exact ⟨.took false :: d,by simp [member],by simp [shape]⟩

theorem andThen {joining : Joining} {α : Type} {nodes : List α} (course : α → Course) {count : α → Nat}
    {state : α → State} (later : α → List Course) (guided : G.Guided) (narrows : H.Guided)
    (follows : ∀ x ∈ nodes, G joining (course x) s (state x)) (between : ∀ x ∈ nodes, (course x).Between n (count x))
    (first : G.Complete n s (nodes.map course)) (second : ∀ x ∈ nodes, H.Complete (count x) (state x) (later x)) :
    (G.andThen H).Complete n s (nodes.flatMap fun x => (later x).map (course x ++ ·)) := by
  rintro R m m' joining' a c b pairing like ⟨c₁,c₂,mid,rfl,one,two⟩ within ⟨i,holds⟩
  obtain ⟨half,early,late⟩ := within.part
  obtain ⟨d,member,shape⟩ := first pairing like one early ⟨i,narrows.narrows two i holds⟩
  obtain ⟨x,listed,rfl⟩ := List.mem_map.mp member
  have extended := pairing.extend early (between x listed)
  obtain ⟨-,alike⟩ := guided.alike [] [] one (follows x listed) (by simp [shape]) (like.mono fun i j => Or.inl)
    fun i j => Or.inr
  obtain ⟨d,member,shape'⟩ := second x listed extended alike two late ⟨i,holds⟩
  exact ⟨course x ++ d,List.mem_flatMap.mpr ⟨x,listed,List.mem_map_of_mem member⟩,by simp [shape,shape']⟩

end Complete

end Going

theorem Pool.havocked_going (joining : Joining) (names : List String) {p : Pool} {h : Handle}
    (valid : h < p.states.size) :
    ∃ c, Going.havoc names joining c (p.state h) ((p.havocked h names).state h) ∧
      c.Between p.symbols (p.havocked h names).symbols := by
  induction names generalizing p with
  | nil => exact ⟨[],⟨rfl,rfl⟩,.nil le_rfl⟩
  | cons name names ih =>
    obtain ⟨c,going,between⟩ := ih (p := p.renewed h name) (by simpa using valid)
    rw [p.renewed_state name valid] at going
    exact ⟨.made ⟨name,p.symbols⟩ :: c,⟨p.symbols,c,rfl,going⟩,between.made name⟩

mutual

/-- The courses of a statement, with at most `bound` iterations wherever a loop is entered. -/
def going (bound : Nat) : Stmt → Going
  | .skip => .stay
  | .printState => .stay
  | .assign name rhs => .assign name rhs
  | .ifElse cond yes no => .fork cond (going bound yes) (going bound no)
  | .ifOnly cond yes => .fork cond (going bound yes) .stay
  | .loop cond body _ => .iterate cond (going bound body) (bound + 1)
  | .assert cond => .require cond
  | .assume cond => .require cond
  | .havoc names => .havoc names
  | .block items => goingAll bound items
  | .hollow => .never

def goingAll (bound : Nat) : List Stmt → Going
  | [] => .stay
  | s :: ss => .andThen (going bound s) (goingAll bound ss)

end

theorem goingAll_guided_of {bound : Nat} {ss : List Stmt} (each : ∀ s ∈ ss, (going bound s).Guided) :
    (goingAll bound ss).Guided := by
  induction ss with
  | nil => exact .stay
  | cons s ss ih =>
    rw [goingAll]
    exact .andThen (each s (by simp)) (ih fun s member => each s (by simp [member]))

theorem going_guided (bound : Nat) (s : Stmt) : (going bound s).Guided := by
  induction s using Stmt.structural with
  | skip => exact .stay
  | printState => exact .stay
  | assign name rhs => exact .assign name rhs
  | ifElse cond yes no left right => exact .fork cond left right
  | ifOnly cond yes ih => exact .fork cond ih .stay
  | loop cond body inv ih => exact .iterate cond ih (bound + 1)
  | assert cond => exact .require cond
  | assume cond => exact .require cond
  | havoc names => exact .havoc names
  | block items ih => exact goingAll_guided_of ih
  | hollow => exact .never

theorem goingAll_guided (bound : Nat) (ss : List Stmt) : (goingAll bound ss).Guided :=
  goingAll_guided_of fun s _ => going_guided bound s

end WhileExec.Symbolic
