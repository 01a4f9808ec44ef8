import Mathlib
import WhileExec.Grammar.Reading

/-!
# Reading without places and messages

What a parsing expression reads depends on the text that follows and on nothing else: not on the place, not on the
failures recorded so far. `Peg.take` evaluates an expression so, and `outcome` is what a rule comes to at a text. It
satisfies the equation of the grammar, `outcome_eq`: a rule is read by its body, with the outcomes of the rules that
the body calls.

The equation holds because every rule reads something whenever it succeeds, and because a rule calls only rules of a
lower rank before it has read anything.
-/

namespace WhileExec.Grammar

/-- How a text was left: read up to `rest`, or failed, or stopped for good. -/
inductive Taken (α : Type) where
  | ok (value : α) (rest : List Char) (cut : Bool)
  | fail (cut : Bool)
  | stop

namespace Taken

variable {α β : Type}

def map (f : α → β) : Taken α → Taken β
  | .ok value rest cut => .ok (f value) rest cut
  | .fail cut => .fail cut
  | .stop => .stop

def behindCut (passed : Bool) : Taken α → Taken α
  | .ok value rest cut => .ok value rest (passed || cut)
  | .fail cut => .fail (passed || cut)
  | .stop => .stop

/-- One part after the other. -/
def andThen (next : α → List Char → Taken β) : Taken α → Taken β
  | .ok value rest cut => (next value rest).behindCut cut
  | .fail cut => .fail cut
  | .stop => .stop

/-- One option and the next one. Cuts are forgotten where an option succeeds. -/
def orElse : Taken α → Taken α → Taken α
  | .ok value rest _, _ => .ok value rest false
  | .fail false, other => other
  | .fail true, _ => .stop
  | .stop, _ => .stop

/-- The value is made into another one, or the reading is over. -/
def close (f : α → Except Fault β) : Taken α → Taken β
  | .ok value rest cut =>
    match f value with
    | .ok closed => .ok closed rest cut
    | .error _ => .stop
  | .fail cut => .fail cut
  | .stop => .stop

section Equations

variable (f : α → β) (next : α → List Char → Taken β) (g : α → Except Fault β) (other : Taken α) (value : α)
  (rest : List Char) (cut passed : Bool)

@[simp] theorem map_ok : (ok value rest cut).map f = .ok (f value) rest cut := rfl
@[simp] theorem map_fail : (fail cut : Taken α).map f = .fail cut := rfl
@[simp] theorem map_stop : (stop : Taken α).map f = .stop := rfl
@[simp] theorem behindCut_ok : (ok value rest cut).behindCut passed = .ok value rest (passed || cut) := rfl
@[simp] theorem behindCut_fail : (fail cut : Taken α).behindCut passed = .fail (passed || cut) := rfl
@[simp] theorem behindCut_stop : (stop : Taken α).behindCut passed = .stop := rfl
@[simp] theorem andThen_ok : (ok value rest cut).andThen next = (next value rest).behindCut cut := rfl
@[simp] theorem andThen_fail : (fail cut : Taken α).andThen next = .fail cut := rfl
@[simp] theorem andThen_stop : (stop : Taken α).andThen next = .stop := rfl
@[simp] theorem orElse_ok : (ok value rest cut).orElse other = .ok value rest false := rfl
@[simp] theorem orElse_fail : (fail false : Taken α).orElse other = other := rfl
@[simp] theorem orElse_cut : (fail true : Taken α).orElse other = .stop := rfl
@[simp] theorem orElse_stop : (stop : Taken α).orElse other = .stop := rfl
@[simp] theorem close_fail : (fail cut : Taken α).close g = .fail cut := rfl
@[simp] theorem close_stop : (stop : Taken α).close g = .stop := rfl

theorem close_ok {closed : β} (known : g value = .ok closed) : (ok value rest cut).close g = .ok closed rest cut := by
  simp [close,known]

end Equations

end Taken

/-- The text without the layout in front of it. -/
def skipped (text : List Char) : List Char :=
  (skipLayout false 0 text).rest

/-- What follows a token that stands in front and does not run on. -/
def tokenRest? (token text : List Char) : Option (List Char) :=
  (dropText? token text).filter fun rest => !runsOn token rest

def gatherTake (separator item : List Char → Taken (Parts Reading)) :
    Nat → List Char → Taken (List (Parts Reading × Parts Reading))
  | 0, text => .ok [] text false
  | fuel + 1, text =>
    match separator text with
    | .ok mark next _ =>
      match item next with
      | .ok value after _ => (gatherTake separator item fuel after).map ((mark,value) :: ·)
      | _ => .stop
    | .fail false => .ok [] text false
    | _ => .stop

def Peg.take (call : Rule → List Char → Taken Reading) : Peg → List Char → Taken (Parts Reading)
  | .token word, text =>
    match tokenRest? word.toList (skipped text) with
    | some rest => .ok { last := some (.text word) } rest false
    | none => .fail false
  | .pattern p, text =>
    match p.take text with
    | [] => .fail false
    | taken => .ok { last := some (.text (String.ofList taken)) } (text.drop taken.length) false
  | .call r, text => (call r text).map fun value => { last := some value }
  | .cut, text => .ok {} text true
  | .named field e, text => (e.take call text).map fun p => { p with fields := p.fields ++ p.last.toList.map (field,·) }
  | .keep e, text => (e.take call text).map fun p => { p with kept := p.last }
  | .seq a b, text => (a.take call text).andThen fun p next => (b.take call next).map p.append
  | .orElse a b, text => (a.take call text).orElse (b.take call text)
  | .fail _, _ => .fail false
  | .optional e, text => (e.take call text).orElse (.ok {} text false)
  | .gather separator item, text => (item.take call text).andThen fun first next =>
      (gatherTake (separator.take call) (item.take call) next.length next).map (gathered .list first)

/-- A rule at a text, given what the rules that it calls come to. -/
def Rule.take (call : Rule → List Char → Taken Reading) (r : Rule) (text : List Char) : Taken Reading :=
  (r.body.take call (if r.skips then skipped text else text)).close (Reading.close r)

/-- As `Rule.take`, where `fuel` bounds how deep rules call each other. -/
def Rule.taken : Nat → Rule → List Char → Taken Reading
  | 0, _, _ => .stop
  | fuel + 1, r, text => r.take (Rule.taken fuel) text

theorem skipLayout_rest (comment : Bool) (pos other : Nat) (t : List Char) :
    (skipLayout comment pos t).rest = (skipLayout comment other t).rest := by
  induction t generalizing comment pos other with
  | nil => rfl
  | cons c t ih =>
    unfold skipLayout
    split
    · exact ih _ _ _
    · split
      · exact ih _ _ _
      · split
        · exact ih _ _ _
        · rfl

theorem skipLayout_length (comment : Bool) (pos : Nat) (text : List Char) :
    (skipLayout comment pos text).rest.length ≤ text.length := by
  induction text generalizing comment pos with
  | nil => simp [skipLayout]
  | cons c text ih =>
    unfold skipLayout
    split
    · exact (ih _ _).trans (Nat.le_succ _)
    · split
      · exact (ih _ _).trans (Nat.le_succ _)
      · split
        · exact (ih _ _).trans (Nat.le_succ _)
        · exact le_rfl

theorem skipped_length (text : List Char) : (skipped text).length ≤ text.length :=
  skipLayout_length false 0 text

theorem dropText?_eq_some {token text rest : List Char} : dropText? token text = some rest ↔ text = token ++ rest := by
  induction token generalizing text with
  | nil => simp [dropText?,eq_comm]
  | cons c token ih =>
    cases text with
    | nil => simp [dropText?]
    | cons d text =>
      simp only [dropText?,beq_iff_eq,List.cons_append,List.cons.injEq]
      split
      next same => simp [ih,same]
      next other => simp [Ne.symm other]

theorem tokenRest?_eq_some {token text rest : List Char} :
    tokenRest? token text = some rest ↔ text = token ++ rest ∧ runsOn token rest = false := by
  simp [tokenRest?,Option.filter_eq_some_iff,dropText?_eq_some]

theorem Pattern.take_length (p : Pattern) (text : List Char) : (p.take text).length ≤ text.length := by
  have shorter (q : Char → Bool) (t : List Char) : (t.takeWhile q).length ≤ t.length :=
    (List.takeWhile_sublist q).length_le
  cases p with
  | integer =>
    simp only [Pattern.take]
    split
    · split
      · simpa using shorter isHexDigit _
      · exact shorter _ _
    · exact shorter _ _
  | word =>
    simp only [Pattern.take]
    split
    · simp
    · split
      · simp
      · exact shorter _ _
  | lineBreaks => exact shorter _ _

/-- The expression reads something whenever it succeeds. -/
def Peg.solid : Peg → Bool
  | .token word => !word.toList.isEmpty
  | .pattern _ | .call _ | .fail _ => true
  | .cut | .optional _ => false
  | .named _ e | .keep e => e.solid
  | .seq a b => a.solid || b.solid
  | .orElse a b => a.solid && b.solid
  | .gather _ item => item.solid

/-- The rules that are called before anything is read. -/
@[simp] def Peg.heads : Peg → List Rule
  | .token _ | .pattern _ | .cut | .fail _ => []
  | .call r => [r]
  | .named _ e | .keep e | .optional e => e.heads
  | .seq a b => if a.solid then a.heads else a.heads ++ b.heads
  | .orElse a b => a.heads ++ b.heads
  | .gather separator item => item.heads ++ separator.heads

/-- Rules read something whenever they succeed. -/
def Forward (call : Rule → List Char → Taken Reading) : Prop :=
  ∀ r text value rest cut, call r text = .ok value rest cut → rest.length < text.length

namespace Taken

variable {α β : Type} {x y : Taken α} {rest : List Char} {cut : Bool}

theorem map_eq_ok {f : α → β} {value : β} :
    x.map f = .ok value rest cut ↔ ∃ v, x = .ok v rest cut ∧ f v = value := by
  cases x <;> simp [and_comm,and_left_comm]

theorem andThen_eq_ok {next : α → List Char → Taken β} {value : β} :
    x.andThen next = .ok value rest cut ↔
      ∃ v mid before after, x = .ok v mid before ∧ next v mid = .ok value rest after ∧ cut = (before || after) := by
  cases x with
  | ok v mid before =>
    constructor
    · intro read
      cases later : next v mid with
      | ok w last after =>
        simp only [andThen,later,behindCut,ok.injEq] at read
        obtain ⟨rfl,rfl,rfl⟩ := read
        exact ⟨v,mid,before,after,rfl,later,rfl⟩
      | fail | stop => simp [later] at read
    · rintro ⟨_,_,_,after,same,later,rfl⟩
      cases same
      simp [later]
  | fail | stop => simp

theorem orElse_eq_ok {value : α} :
    x.orElse y = .ok value rest cut ↔
      (cut = false ∧ ∃ c, x = .ok value rest c) ∨ (x = .fail false ∧ y = .ok value rest cut) := by
  cases x with
  | ok v mid before => simp [eq_comm,and_comm,and_left_comm]
  | fail passed => cases passed <;> simp
  | stop => simp

end Taken

theorem gatherTake_forward {separator item : List Char → Taken (Parts Reading)}
    (marks : ∀ text p rest cut, separator text = .ok p rest cut → rest.length ≤ text.length)
    (items : ∀ text p rest cut, item text = .ok p rest cut → rest.length ≤ text.length) {fuel : Nat}
    {text rest : List Char} {entries : List (Parts Reading × Parts Reading)} {cut : Bool}
    (read : gatherTake separator item fuel text = .ok entries rest cut) : rest.length ≤ text.length := by
  induction fuel generalizing text entries with
  | zero => cases read; exact le_rfl
  | succ fuel ih =>
    unfold gatherTake at read
    split at read
    next mark next _ marked =>
      split at read
      next value after _ valued =>
        obtain ⟨more,read,-⟩ := Taken.map_eq_ok.mp read
        exact (ih read).trans ((items _ _ _ _ valued).trans (marks _ _ _ _ marked))
      · cases read
    · cases read; exact le_rfl
    · cases read

theorem Peg.take_forward {call : Rule → List Char → Taken Reading} (forward : Forward call) (e : Peg)
    {text rest : List Char} {p : Parts Reading} {cut : Bool} (read : e.take call text = .ok p rest cut) :
    rest.length ≤ text.length ∧ (e.solid = true → rest.length < text.length) := by
  induction e generalizing text rest p cut with
  | token word =>
    unfold take at read
    split at read
    next found =>
      cases read
      have size := congrArg List.length (tokenRest?_eq_some.mp found).1
      rw [List.length_append] at size
      have least := skipped_length text
      refine ⟨by omega,fun solid => ?_⟩
      have : 0 < word.toList.length := by simpa [Peg.solid,List.length_pos_iff] using solid
      omega
    · cases read
  | pattern p =>
    unfold take at read
    split at read
    · cases read
    next empty =>
      cases read
      have size := p.take_length text
      have some := List.length_pos_iff.mpr empty
      rw [List.length_drop]
      exact ⟨by omega,fun _ => by omega⟩
  | call r =>
    obtain ⟨value,read,-⟩ := Taken.map_eq_ok.mp read
    exact ⟨(forward _ _ _ _ _ read).le,fun _ => forward _ _ _ _ _ read⟩
  | cut => cases read; exact ⟨le_rfl,by simp [solid]⟩
  | named field e ih =>
    obtain ⟨q,read,-⟩ := Taken.map_eq_ok.mp read
    exact ih read
  | keep e ih =>
    obtain ⟨q,read,-⟩ := Taken.map_eq_ok.mp read
    exact ih read
  | seq a b first second =>
    obtain ⟨p,mid,_,_,one,two,-⟩ := Taken.andThen_eq_ok.mp read
    obtain ⟨q,two,-⟩ := Taken.map_eq_ok.mp two
    have before := first one
    have after := second two
    refine ⟨after.1.trans before.1,fun solid => ?_⟩
    rcases Bool.or_eq_true_iff.mp solid with solid | solid
    · exact after.1.trans_lt (before.2 solid)
    · exact (after.2 solid).trans_le before.1
  | orElse a b first second =>
    rcases Taken.orElse_eq_ok.mp read with ⟨-,_,read⟩ | ⟨-,read⟩
    · exact ⟨(first read).1,fun solid => (first read).2 (Bool.and_eq_true_iff.mp solid).1⟩
    · exact ⟨(second read).1,fun solid => (second read).2 (Bool.and_eq_true_iff.mp solid).2⟩
  | fail message => cases read
  | optional e ih =>
    rcases Taken.orElse_eq_ok.mp read with ⟨-,_,read⟩ | ⟨-,read⟩
    · exact ⟨(ih read).1,by simp [solid]⟩
    · cases read; exact ⟨le_rfl,by simp [solid]⟩
  | gather separator item marks items =>
    obtain ⟨first,mid,_,_,one,two,-⟩ := Taken.andThen_eq_ok.mp read
    obtain ⟨q,two,-⟩ := Taken.map_eq_ok.mp two
    have after := gatherTake_forward (fun _ _ _ _ read => (marks read).1) (fun _ _ _ _ read => (items read).1) two
    exact ⟨after.trans (items one).1,fun solid => after.trans_lt ((items one).2 solid)⟩

theorem Rule.body_solid (r : Rule) : r.body.solid = true := by
  cases r <;> rfl

theorem Rule.take_forward {call : Rule → List Char → Taken Reading} (forward : Forward call) :
    Forward (Rule.take call) := by
  intro r text value rest cut read
  unfold Rule.take at read
  cases body : r.body.take call (if r.skips then skipped text else text) with
  | ok p next passed =>
    rw [body] at read
    have size := (r.body.take_forward forward body).2 r.body_solid
    have least := skipped_length text
    simp only [Taken.close] at read
    split at read
    · cases read
      split at size <;> omega
    · cases read
  | fail | stop => rw [body] at read; cases read

theorem Rule.taken_forward (fuel : Nat) : Forward (Rule.taken fuel) := by
  induction fuel with
  | zero => intro r text value rest cut read; cases read
  | succ fuel ih => exact Rule.take_forward ih

theorem gatherTake_congr {separator item mark other : List Char → Taken (Parts Reading)} {size : Nat}
    (marks : ∀ text p rest cut, separator text = .ok p rest cut → rest.length ≤ text.length)
    (items : ∀ text p rest cut, item text = .ok p rest cut → rest.length ≤ text.length)
    (sameMark : ∀ text, text.length ≤ size → separator text = mark text)
    (sameItem : ∀ text, text.length ≤ size → item text = other text) (fuel : Nat) {text : List Char}
    (short : text.length ≤ size) : gatherTake separator item fuel text = gatherTake mark other fuel text := by
  induction fuel generalizing text with
  | zero => rfl
  | succ fuel ih =>
    unfold gatherTake
    rw [← sameMark text short]
    cases marked : separator text with
    | ok value next cut =>
      have behind := (marks _ _ _ _ marked).trans short
      simp only
      rw [← sameItem next behind]
      cases valued : item next with
      | ok more after cut => simp only; rw [ih ((items _ _ _ _ valued).trans behind)]
      | fail | stop => rfl
    | fail passed => cases passed <;> rfl
    | stop => rfl

namespace Peg

/-- At the text, the expression may ask what the rule comes to at `t`: if `t` is shorter, or if the rule is one of its
heads and `t` is no longer. -/
def Asks (e : Peg) (text : List Char) (r : Rule) (t : List Char) : Prop :=
  t.length < text.length ∨ (t.length ≤ text.length ∧ r ∈ e.heads)

namespace Asks

variable {a b e : Peg} {r : Rule} {text mid t : List Char}

theorem call (r : Rule) (text : List Char) : (call r).Asks text r text :=
  .inr ⟨le_rfl,by simp⟩

theorem shorten (asks : e.Asks mid r t) (short : mid.length ≤ text.length) : e.Asks text r t :=
  asks.imp (·.trans_le short) fun near => ⟨near.1.trans short,near.2⟩

theorem seq_left (asks : a.Asks text r t) : (seq a b).Asks text r t :=
  asks.imp id fun near => ⟨near.1,by rw [heads]; split <;> simp [near.2]⟩

/-- Behind a part that reads something the text is shorter, and any rule may be asked for. -/
theorem seq_right (asks : b.Asks mid r t)
    (ahead : mid.length ≤ text.length ∧ (a.solid = true → mid.length < text.length)) : (seq a b).Asks text r t := by
  rcases asks with shorter | ⟨short,head⟩
  · exact .inl (shorter.trans_le ahead.1)
  · by_cases solid : a.solid = true
    · exact .inl (short.trans_lt (ahead.2 solid))
    · exact .inr ⟨short.trans ahead.1,by simp [solid,head]⟩

theorem orElse_left (asks : a.Asks text r t) : (orElse a b).Asks text r t :=
  asks.imp id fun near => ⟨near.1,by simp [near.2]⟩

theorem orElse_right (asks : b.Asks text r t) : (orElse a b).Asks text r t :=
  asks.imp id fun near => ⟨near.1,by simp [near.2]⟩

theorem separator (asks : a.Asks mid r t) (short : mid.length ≤ text.length) : (gather a b).Asks text r t :=
  (asks.shorten short).imp id fun near => ⟨near.1,by simp [near.2]⟩

theorem item (asks : b.Asks mid r t) (short : mid.length ≤ text.length) : (gather a b).Asks text r t :=
  (asks.shorten short).imp id fun near => ⟨near.1,by simp [near.2]⟩

end Asks

theorem take_congr {call other : Rule → List Char → Taken Reading} (forward : Forward call) (e : Peg)
    {text : List Char} (same : ∀ r t, e.Asks text r t → call r t = other r t) : e.take call text = e.take other text := by
  induction e generalizing text with
  | token | pattern | cut | fail => rfl
  | call r =>
    unfold take
    rw [same r text (.call r text)]
  | named field e ih =>
    unfold take
    rw [ih same]
  | keep e ih =>
    unfold take
    rw [ih same]
  | seq a b first second =>
    unfold take
    rw [← first fun r t asks => same r t asks.seq_left]
    cases read : a.take call text with
    | ok p next cut =>
      simp only [Taken.andThen_ok]
      rw [second fun r t asks => same r t (asks.seq_right (a.take_forward forward read))]
    | fail | stop => rfl
  | orElse a b first second =>
    unfold take
    rw [first fun r t asks => same r t asks.orElse_left,second fun r t asks => same r t asks.orElse_right]
  | optional e ih =>
    unfold take
    rw [ih same]
  | gather separator item marks items =>
    unfold take
    have sameMark : ∀ t, t.length ≤ text.length → separator.take call t = separator.take other t :=
      fun t short => marks fun r u asks => same r u (asks.separator short)
    have sameItem : ∀ t, t.length ≤ text.length → item.take call t = item.take other t :=
      fun t short => items fun r u asks => same r u (asks.item short)
    rw [← sameItem text le_rfl]
    cases read : item.take call text with
    | ok p next cut =>
      simp only [Taken.andThen_ok]
      rw [gatherTake_congr (fun _ _ _ _ read => (separator.take_forward forward read).1)
        (fun _ _ _ _ read => (item.take_forward forward read).1) sameMark sameItem _ (item.take_forward forward read).1]
    | fail | stop => rfl

end Peg

/-- A rule stands above the rules that it calls before it has read anything. -/
def Rule.rank : Rule → Nat
  | .integerText | .nameText | .newlineText => 0
  | .name | .number | .negNumber => 1
  | .atom => 2
  | .factor => 3
  | .mult | .division => 4
  | .term => 5
  | .addition | .subtraction => 6
  | .aexp => 7
  | .rexp | .rop | .boolConst => 8
  | .batom => 9
  | .bfactor => 10
  | .bterm => 11
  | .bexp => 12
  | .skipStmt | .asgnStmt | .blockStmt | .ifStmt | .whileStmt | .assertStmt | .assumeStmt | .havocStmt
  | .printStateStmt | .varList => 12
  | .stmt => 13
  | .stmtList => 14
  | .start => 15

theorem Rule.rank_lt {r s : Rule} (head : s ∈ r.body.heads) : s.rank < r.rank := by
  have all : ∀ s ∈ r.body.heads, s.rank < r.rank := by cases r <;> decide +kernel
  exact all s head

theorem Rule.rank_bound (r : Rule) : r.rank < 64 := by
  cases r <;> decide

/-- How deep rules can call each other from here on. -/
def Rule.depth (r : Rule) (text : List Char) : Nat :=
  64 * text.length + r.rank

theorem Rule.entered_length (r : Rule) (text : List Char) :
    (if r.skips then skipped text else text).length ≤ text.length := by
  split
  · exact skipped_length text
  · exact le_rfl

theorem Rule.depth_lt {r s : Rule} {text t : List Char}
    (asks : r.body.Asks (if r.skips then skipped text else text) s t) : s.depth t < r.depth text := by
  unfold depth
  rcases asks.shorten (r.entered_length text) with shorter | ⟨short,head⟩
  · have := s.rank_bound
    omega
  · have := Rule.rank_lt head
    omega

theorem Rule.taken_eq {n m : Nat} {r : Rule} {text : List Char} (first : r.depth text < n) (second : r.depth text < m) :
    r.taken n text = r.taken m text := by
  induction n generalizing m r text with
  | zero => omega
  | succ n ih =>
    obtain ⟨m,rfl⟩ : ∃ k, m = k + 1 := ⟨m - 1,by omega⟩
    unfold taken Rule.take
    rw [r.body.take_congr (Rule.taken_forward n) fun s t asks => ?_]
    have lower := Rule.depth_lt asks
    exact ih (by omega) (by omega)

/-- What a rule comes to at a text. -/
def outcome (r : Rule) (text : List Char) : Taken Reading :=
  r.taken (depthBound text) text

theorem depth_lt_bound (r : Rule) (text : List Char) : r.depth text < depthBound text := by
  have := r.rank_bound
  unfold Rule.depth depthBound
  omega

theorem outcome_forward : Forward outcome :=
  fun r text value rest cut read => Rule.taken_forward _ r text value rest cut read

theorem outcome_eq (r : Rule) (text : List Char) : outcome r text = r.take outcome text := by
  have enough := depth_lt_bound r text
  obtain ⟨n,bound⟩ : ∃ n, depthBound text = n + 1 := ⟨64 * text.length + 63,rfl⟩
  rw [outcome,bound,Rule.taken]
  unfold Rule.take
  rw [r.body.take_congr (Rule.taken_forward n) fun s t asks => ?_]
  have lower := Rule.depth_lt asks
  exact Rule.taken_eq (by omega) (depth_lt_bound s t)

end WhileExec.Grammar
