import Mathlib
import WhileExec.Proofs.Grammar.Evaluation

/-!
# Reading with a table

The reader keeps the outcome of every rule at every place and looks it up when it comes there again. What it finds in
the table is what reading the rule again would give, because all places belong to one text. So a text is read with
the table as it is without: `readText_eq_ok`.
-/

namespace WhileExec.Grammar

variable {α β : Type} {text : List Char}

/-- The result, with the text that follows in place of the cursor. -/
@[simp]
def Result.taken : Result α → Taken α
  | .ok value next cut => .ok value next.rest cut
  | .fail _ cut => .fail cut
  | .abort _ => .stop
  | .fault _ => .stop

/-- The cursor is a place in the text. -/
def Cursor.Of (text : List Char) (c : Cursor) : Prop :=
  c.pos ≤ text.length ∧ c.rest = text.drop c.pos

/-- The outcome is as expected, and its cursor a place in the text. -/
structure Outcome.Shows (text : List Char) (expected : Taken α) (o : Outcome α) : Prop where
  result : o.result.taken = expected
  place : ∀ value next cut, o.result = .ok value next cut → next.Of text

/-- Whatever is in the table is what the rule comes to at the place. -/
def Table.Right (text : List Char) (table : Table Reading) : Prop :=
  ∀ r pos o, pos ≤ text.length → table[Rule.key r pos]? = some o → o.Shows text (outcome r (text.drop pos))

/-- The action computes the expected outcome and keeps the table right. -/
def Gives (text : List Char) (expected : Taken α) (action : StateM (Table Reading) (Outcome α)) : Prop :=
  ∀ table, Table.Right text table → (action table).1.Shows text expected ∧ Table.Right text (action table).2

theorem Gives.pure {expected : Taken α} {o : Outcome α} (seen : o.Shows text expected) :
    Gives text expected (pure o) :=
  fun _ right => ⟨seen,right⟩

theorem Gives.bind {x : Taken α} {y : Taken β} {action : StateM (Table Reading) (Outcome α)}
    {next : Outcome α → StateM (Table Reading) (Outcome β)} (first : Gives text x action)
    (second : ∀ o, o.Shows text x → Gives text y (next o)) : Gives text y (action >>= next) := by
  intro table right
  obtain ⟨seen,kept⟩ := first table right
  exact second _ seen _ kept

namespace Cursor

theorem skipLayout_pos (comment : Bool) (pos : Nat) (t : List Char) :
    ∃ n, skipLayout comment pos t = ⟨pos + n,t.drop n⟩ ∧ n ≤ t.length := by
  induction t generalizing comment pos with
  | nil => exact ⟨0,rfl,le_rfl⟩
  | cons c t ih =>
    have later (b : Bool) : ∃ n, skipLayout b (pos + 1) t = ⟨pos + n,(c :: t).drop n⟩ ∧ n ≤ (c :: t).length := by
      obtain ⟨n,same,bound⟩ := ih b (pos + 1)
      exact ⟨n + 1,by rw [same]; simp [Nat.add_assoc,Nat.add_comm 1],by simpa using bound⟩
    unfold skipLayout
    split
    · exact later _
    · split
      · exact later _
      · split
        · exact later _
        · exact ⟨0,rfl,Nat.zero_le _⟩

theorem skip_rest (c : Cursor) : c.skip.rest = skipped c.rest :=
  skipLayout_rest false c.pos 0 c.rest

theorem Of.advance {c : Cursor} (inside : c.Of text) (n : Nat) (bound : n ≤ c.rest.length) :
    Cursor.Of text ⟨c.pos + n,c.rest.drop n⟩ := by
  obtain ⟨least,same⟩ := inside
  refine ⟨?_,by rw [same,List.drop_drop]⟩
  rw [same,List.length_drop] at bound
  show c.pos + n ≤ text.length
  omega

theorem Of.skip {c : Cursor} (inside : c.Of text) : c.skip.Of text := by
  obtain ⟨n,same,bound⟩ := skipLayout_pos false c.pos c.rest
  rw [Cursor.skip,same]
  exact inside.advance n bound

theorem token?_eq (token : List Char) (c : Cursor) :
    c.token? true token = (tokenRest? token c.rest).map fun rest => ⟨c.pos + token.length,rest⟩ := by
  unfold token? tokenRest?
  cases dropText? token c.rest with
  | none => rfl
  | some rest => cases on : runsOn token rest <;> simp [on,Option.filter]

theorem Of.token {c : Cursor} (inside : c.Of text) {token rest : List Char}
    (found : tokenRest? token c.rest = some rest) : Cursor.Of text ⟨c.pos + token.length,rest⟩ := by
  have split := (tokenRest?_eq_some.mp found).1
  have after := inside.advance token.length (by simp [split])
  rwa [split,List.drop_left] at after

end Cursor

namespace Outcome.Shows

variable {o : Outcome α} {x : Taken α}

theorem map (seen : o.Shows text x) (f : α → β) : (o.map f).Shows text (x.map f) := by
  obtain ⟨rfl,place⟩ := seen
  unfold Outcome.map
  cases result : o.result with
  | ok value next cut =>
    refine ⟨rfl,fun _ _ _ same => ?_⟩
    cases same
    exact place value next cut result
  | fail | abort | fault => exact ⟨rfl,by simp⟩

theorem behindCut (seen : o.Shows text x) (passed : Bool) : (o.behindCut passed).Shows text (x.behindCut passed) := by
  obtain ⟨rfl,place⟩ := seen
  unfold Outcome.behindCut
  cases result : o.result with
  | ok value next cut =>
    refine ⟨rfl,fun _ _ _ same => ?_⟩
    cases same
    exact place value next cut result
  | fail failure cut => exact ⟨rfl,by simp⟩
  | abort | fault => exact ⟨by simp [result],by simp [result]⟩

theorem after (seen : o.Shows text x) (earlier : Option Failure) : (o.after earlier).Shows text x :=
  ⟨seen.result,seen.place⟩

end Outcome.Shows

theorem gatherRest_gives {separator item : Cursor → StateM (Table Reading) (Outcome (Parts Reading))}
    {mark value : List Char → Taken (Parts Reading)} (size : Nat)
    (marks : ∀ c : Cursor, c.Of text → c.rest.length ≤ size → Gives text (mark c.rest) (separator c))
    (items : ∀ c : Cursor, c.Of text → c.rest.length ≤ size → Gives text (value c.rest) (item c))
    (markForward : ∀ t p rest cut, mark t = .ok p rest cut → rest.length ≤ t.length)
    (valueForward : ∀ t p rest cut, value t = .ok p rest cut → rest.length ≤ t.length) (fuel : Nat) {c : Cursor}
    (inside : c.Of text) (short : c.rest.length ≤ size) :
    Gives text (gatherTake mark value fuel c.rest) (gatherRest separator item fuel c) := by
  induction fuel generalizing c with
  | zero => exact .pure ⟨rfl,fun _ _ _ same => by cases same; exact inside⟩
  | succ fuel ih =>
    unfold gatherRest gatherTake
    refine (marks c inside short).bind fun s seen => ?_
    rw [← seen.result]
    cases read : s.result with
    | ok m next cut =>
      have place := seen.place m next cut read
      have behind := (markForward c.rest m next.rest cut (by rw [← seen.result,read]; rfl)).trans short
      simp only [Result.taken]
      refine (items next place behind).bind fun i given => ?_
      rw [← given.result]
      cases valued : i.result with
      | ok v after last =>
        have beyond := (valueForward next.rest v after.rest last (by rw [← given.result,valued]; rfl)).trans behind
        simp only [Result.taken]
        exact (ih (given.place v after last valued) beyond).bind fun rest known => .pure ((known.map _).after _)
      | fail | abort | fault => exact .pure ⟨rfl,by simp⟩
    | fail failure cut =>
      cases cut with
      | true => exact .pure ⟨rfl,by simp⟩
      | false => exact .pure ⟨rfl,fun _ _ _ same => by cases same; exact inside⟩
    | abort | fault => exact .pure ⟨rfl,by simp⟩

namespace Peg

/-- At this place the expression is evaluated as without the table. -/
def Evaluates (text : List Char) (call : Rule → Cursor → StateM (Table Reading) (Outcome Reading)) (e : Peg)
    (here : Cursor) : Prop :=
  Gives text (e.take outcome here.rest) (e.eval Reading.builder true call here)

section Evaluates

variable {call : Rule → Cursor → StateM (Table Reading) (Outcome Reading)} {a b e : Peg} {here : Cursor}

theorem token_evaluates (word : String) (inside : here.Of text) : (token word).Evaluates text call here := by
  unfold Evaluates take eval
  rw [← here.skip_rest]
  simp only [Cursor.token?_eq]
  cases found : tokenRest? word.toList here.skip.rest with
  | some rest => exact .pure ⟨rfl,fun _ _ _ same => by cases same; exact inside.skip.token found⟩
  | none => exact .pure ⟨rfl,by simp⟩

theorem pattern_evaluates (p : Pattern) (inside : here.Of text) : (pattern p).Evaluates text call here := by
  have size := p.take_length here.rest
  unfold Evaluates take eval Cursor.pattern?
  cases taken : p.take here.rest with
  | nil => exact .pure ⟨rfl,by simp⟩
  | cons c cs =>
    rw [taken] at size
    exact .pure ⟨rfl,fun _ _ _ same => by cases same; exact inside.advance _ size⟩

namespace Evaluates

theorem named (given : e.Evaluates text call here) (field : String) : (named field e).Evaluates text call here :=
  Gives.bind given fun _ seen => .pure (seen.map _)

theorem keep (given : e.Evaluates text call here) : (keep e).Evaluates text call here :=
  Gives.bind given fun _ seen => .pure (seen.map _)

theorem seq (first : a.Evaluates text call here)
    (second : ∀ p (next : Cursor) passed, a.take outcome here.rest = .ok p next.rest passed → next.Of text →
      b.Evaluates text call next) : (seq a b).Evaluates text call here := by
  refine Gives.bind first fun x seen => ?_
  unfold take
  cases read : x.result with
  | ok p next passed =>
    have taken : a.take outcome here.rest = .ok p next.rest passed := by rw [← seen.result,read]; rfl
    rw [taken]
    exact (second p next passed taken (seen.place p next passed read)).bind fun y given =>
      .pure (((given.map _).behindCut passed).after _)
  | fail | abort | fault =>
    rw [← seen.result]
    exact .pure ⟨by simp [read],by simp [read]⟩

theorem orElse (first : a.Evaluates text call here) (second : b.Evaluates text call here) :
    (orElse a b).Evaluates text call here := by
  refine Gives.bind first fun x seen => ?_
  unfold take
  rw [← seen.result]
  cases read : x.result with
  | ok p next passed => exact .pure ⟨rfl,fun _ _ _ same => by cases same; exact seen.place p next passed read⟩
  | fail failure passed =>
    cases passed with
    | true => exact .pure ⟨rfl,by simp⟩
    | false => exact second.bind fun y given => .pure (given.after _)
  | abort | fault => exact .pure ⟨by simp [read],by simp [read]⟩

theorem optional (given : e.Evaluates text call here) (inside : here.Of text) :
    (optional e).Evaluates text call here := by
  refine Gives.bind given fun x seen => ?_
  unfold take
  rw [← seen.result]
  cases read : x.result with
  | ok p next passed => exact .pure ⟨rfl,fun _ _ _ same => by cases same; exact seen.place p next passed read⟩
  | fail failure passed =>
    cases passed with
    | true => exact .pure ⟨rfl,by simp⟩
    | false => exact .pure ⟨rfl,fun _ _ _ same => by cases same; exact inside⟩
  | abort | fault => exact .pure ⟨by simp [read],by simp [read]⟩

/-- Separators and items are evaluated at places that are no further from the end. -/
theorem gather (here : Cursor) (inside : here.Of text)
    (marks : ∀ c : Cursor, c.Of text → c.rest.length ≤ here.rest.length → a.Evaluates text call c)
    (items : ∀ c : Cursor, c.Of text → c.rest.length ≤ here.rest.length → b.Evaluates text call c) :
    (gather a b).Evaluates text call here := by
  refine Gives.bind (items here inside le_rfl) fun x seen => ?_
  unfold take
  cases read : x.result with
  | ok first next passed =>
    have taken : b.take outcome here.rest = .ok first next.rest passed := by rw [← seen.result,read]; rfl
    rw [taken]
    exact (gatherRest_gives here.rest.length marks items
      (fun _ _ _ _ read => (a.take_forward outcome_forward read).1)
      (fun _ _ _ _ read => (b.take_forward outcome_forward read).1) _ (seen.place first next passed read)
      (b.take_forward outcome_forward taken).1).bind fun y given => .pure (((given.map _).behindCut passed).after _)
  | fail | abort | fault =>
    rw [← seen.result]
    exact .pure ⟨by simp [read],by simp [read]⟩

end Evaluates

theorem evaluates (e : Peg) (inside : here.Of text)
    (calls : ∀ r (c : Cursor), c.Of text → e.Asks here.rest r c.rest → Gives text (outcome r c.rest) (call r c)) :
    e.Evaluates text call here := by
  induction e generalizing here with
  | token word => exact token_evaluates word inside
  | pattern p => exact pattern_evaluates p inside
  | call r => exact Gives.bind (calls r here inside (.call r here.rest)) fun _ seen => .pure (seen.map _)
  | cut => exact .pure ⟨rfl,fun _ _ _ same => by cases same; exact inside⟩
  | named field e ih => exact (ih inside calls).named field
  | keep e ih => exact (ih inside calls).keep
  | seq a b first second =>
    refine .seq (first inside fun r c place asks => calls r c place asks.seq_left) ?_
    intro p next passed taken beyond
    have ahead := a.take_forward outcome_forward taken
    exact second beyond fun r c place asks => calls r c place (asks.seq_right ahead)
  | orElse a b first second =>
    exact (first inside fun r c place asks => calls r c place asks.orElse_left).orElse
      (second inside fun r c place asks => calls r c place asks.orElse_right)
  | fail message => exact .pure ⟨rfl,by simp⟩
  | optional e ih => exact (ih inside calls).optional inside
  | gather separator item marks items =>
    exact .gather here inside
      (fun c place short => marks place fun r d spot asks => calls r d spot (asks.separator short))
      (fun c place short => items place fun r d spot asks => calls r d spot (asks.item short))

end Evaluates

end Peg

theorem Rule.eval_gives {call : Rule → Cursor → StateM (Table Reading) (Outcome Reading)} (r : Rule) {here : Cursor}
    (inside : here.Of text)
    (calls : ∀ s (c : Cursor), c.Of text → s.depth c.rest < r.depth here.rest →
      Gives text (outcome s c.rest) (call s c)) :
    Gives text (outcome r here.rest) (r.eval Reading.builder true call here) := by
  rw [outcome_eq]
  unfold Rule.take Rule.eval
  have entered : (if r.skips then here.skip else here).Of text ∧
      (if r.skips then here.skip else here).rest = if r.skips then skipped here.rest else here.rest := by
    split
    · exact ⟨inside.skip,here.skip_rest⟩
    · exact ⟨inside,rfl⟩
  rw [← entered.2]
  refine Gives.bind (r.body.evaluates entered.1 fun s c place asks => calls s c place ?_) fun o seen => ?_
  · rw [entered.2] at asks
    exact Rule.depth_lt asks
  rw [← seen.result]
  cases read : o.result with
  | ok parts next cut =>
    simp only [Result.taken,Taken.close,Reading.builder]
    cases closed : Reading.close r parts with
    | ok value => exact .pure ⟨rfl,fun _ _ _ same => by cases same; exact seen.place parts next cut read⟩
    | error cause => exact .pure ⟨rfl,by simp⟩
  | fail | abort | fault => exact .pure ⟨rfl,by simp⟩

theorem Rule.key_inj {r s : Rule} {m n : Nat} (same : r.key m = s.key n) : r = s ∧ m = n := by
  have bound (r : Rule) : r.ctorIdx < 64 := by cases r <;> decide
  unfold key at same
  have := bound r
  have := bound s
  have index : r.ctorIdx = s.ctorIdx := by omega
  refine ⟨?_,by omega⟩
  cases r <;> cases s <;> first | rfl | cases index

theorem Table.Right.insert {table : Table Reading} (right : Table.Right text table) {r : Rule} {pos : Nat}
    {o : Outcome Reading} (seen : o.Shows text (outcome r (text.drop pos))) :
    Table.Right text (table.insert (r.key pos) o) := by
  intro s n other bound found
  rw [Std.TreeMap.getElem?_insert] at found
  split at found
  next same =>
    obtain ⟨rfl,rfl⟩ := Rule.key_inj (compare_eq_iff_eq.mp same)
    cases found
    exact seen
  next => exact right s n other bound found

theorem Rule.read_found {fuel : Nat} {r : Rule} {here : Cursor} {table : Table Reading} {o : Outcome Reading}
    (found : table[r.key here.pos]? = some o) : r.read Reading.builder true (fuel + 1) here table = (o,table) := by
  simp only [Rule.read,bind,StateT.bind,get,getThe,MonadStateOf.get,StateT.get,pure,found]
  rfl

theorem Rule.read_missing {fuel : Nat} {r : Rule} {here : Cursor} {table later : Table Reading} {o : Outcome Reading}
    (missing : table[r.key here.pos]? = none)
    (evaluated : r.eval Reading.builder true (Rule.read Reading.builder true fuel) here table = (o,later)) :
    r.read Reading.builder true (fuel + 1) here table = (o,later.insert (r.key here.pos) o) := by
  simp only [Rule.read,bind,StateT.bind,get,getThe,MonadStateOf.get,StateT.get,pure,missing,evaluated]
  rfl

/-- A rule is read as without the table, if it may call others deep enough. -/
theorem Rule.read_gives (fuel : Nat) (r : Rule) {here : Cursor} (inside : here.Of text)
    (enough : r.depth here.rest < fuel) :
    Gives text (outcome r here.rest) (r.read Reading.builder true fuel here) := by
  induction fuel generalizing r here with
  | zero => omega
  | succ fuel ih =>
    intro table right
    cases found : table[r.key here.pos]? with
    | some o =>
      have known := right r here.pos o inside.1 found
      rw [← inside.2] at known
      rw [Rule.read_found found]
      exact ⟨known,right⟩
    | none =>
      obtain ⟨seen,kept⟩ := r.eval_gives inside (fun s c place lower => ih s place (by omega)) table right
      rw [Rule.read_missing found rfl]
      refine ⟨seen,kept.insert ?_⟩
      rw [← inside.2]
      exact seen

theorem Table.Right.empty (text : List Char) : Table.Right text {} := by
  intro r pos o bound found
  simp at found

theorem outcome_suffix {r : Rule} {text rest : List Char} {value : Reading} {cut : Bool}
    (read : outcome r text = .ok value rest cut) : ∃ n ≤ text.length, rest = text.drop n := by
  have inside : Cursor.Of text ⟨0,text⟩ := ⟨Nat.zero_le _,rfl⟩
  obtain ⟨seen,-⟩ := r.read_gives (depthBound text) inside (depth_lt_bound r text) {} (.empty text)
  change Outcome.Shows text (outcome r text) _ at seen
  generalize (r.read Reading.builder true (depthBound text) ⟨0,text⟩ {}).1 = o at seen
  have result := seen.result
  rw [read] at result
  cases known : o.result with
  | ok v next passed =>
    rw [known] at result
    cases result
    exact ⟨next.pos,seen.place _ next _ known⟩
  | fail | abort | fault => rw [known] at result; cases result

/-- A text is read from a rule as the rule comes to at the text; reading stops in front of what is left. -/
theorem readText_eq_ok {r : Rule} {text : String} {value : Reading} {stop : Nat} :
    readText Reading.builder true r text = .ok (value,stop) ↔
      ∃ rest cut, outcome r text.toList = .ok value rest cut ∧ stop ≤ text.toList.length ∧
        rest = text.toList.drop stop := by
  have inside : (Cursor.ofText text).Of text.toList := ⟨Nat.zero_le _,rfl⟩
  obtain ⟨seen,-⟩ := r.read_gives (depthBound (Cursor.ofText text).rest) inside (depth_lt_bound r _) {} (.empty _)
  change Outcome.Shows text.toList (outcome r text.toList) _ at seen
  unfold readText
  simp only [StateT.run]
  generalize (r.read Reading.builder true (depthBound (Cursor.ofText text).rest) (Cursor.ofText text) {}).1 = o at seen ⊢
  rw [← seen.result]
  cases read : o.result with
  | ok v next cut =>
    obtain ⟨bound,same⟩ := seen.place v next cut read
    simp only [Except.ok.injEq,Prod.mk.injEq,Result.taken,Taken.ok.injEq]
    constructor
    · rintro ⟨rfl,rfl⟩
      exact ⟨next.rest,cut,⟨rfl,rfl,rfl⟩,bound,same⟩
    · rintro ⟨rest,_,⟨rfl,rfl,rfl⟩,least,left⟩
      have length := congrArg List.length (same.symm.trans left)
      simp only [List.length_drop] at length
      exact ⟨rfl,by omega⟩
  | fail | abort | fault => simp

theorem Reading.read_eq_ok {r : Rule} {text : String} {value : Reading} {stop : Nat} :
    Reading.read r.text text = .ok (value,stop) ↔
      ∃ rest cut, outcome r text.toList = .ok value rest cut ∧ stop ≤ text.toList.length ∧
        rest = text.toList.drop stop := by
  have named : Rule.ofText? r.text = some r := by cases r <;> rfl
  rw [Reading.read,readTextFrom,named]
  exact readText_eq_ok

/-- A program is read from the first rule, up to wherever that may be. -/
theorem parse_eq_ok {text : String} {value : Reading} :
    parse text = .ok value ↔ ∃ rest cut, outcome .start text.toList = .ok value rest cut := by
  unfold parse
  constructor
  · intro read
    cases whole : readText Reading.builder true .start text with
    | ok pair =>
      rw [whole] at read
      cases read
      obtain ⟨rest,cut,read,-⟩ := readText_eq_ok.mp whole
      exact ⟨rest,cut,read⟩
    | error fault => rw [whole] at read; cases read
  · rintro ⟨rest,cut,read⟩
    obtain ⟨stop,bound,left⟩ := outcome_suffix read
    rw [readText_eq_ok.mpr ⟨rest,cut,read,bound,left⟩]
    rfl

end WhileExec.Grammar
