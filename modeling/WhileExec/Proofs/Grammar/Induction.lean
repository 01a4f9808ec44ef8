import Mathlib
import WhileExec.Proofs.Grammar.Evaluation

/-!
# Induction on what has been read

`Peg.Reads` takes a successful reading apart: into the texts where its parts begin and end, the values of the rules
that were called, and the options that had failed before. Whatever is known of the rules called is known there, so
that a property of all readings is shown one rule at a time: `outcome_induction`.
-/

namespace WhileExec.Grammar

/-- Items and the separators in front of them, one after the other. -/
def Gathers (mark value : List Char → Parts Reading → List Char → Prop) :
    List (Parts Reading × Parts Reading) → List Char → List Char → Prop
  | [], text, rest => rest = text
  | entry :: entries, text, rest =>
    ∃ t u, mark text entry.1 t ∧ value t entry.2 u ∧ Gathers mark value entries u rest

/-- The expression succeeds at the text with these parts, and leaves `rest`. -/
def Peg.Reads (Q : Rule → List Char → Reading → List Char → Prop) :
    Peg → List Char → Parts Reading → List Char → Prop
  | .token word, text, p, rest => tokenRest? word.toList (skipped text) = some rest ∧ p = { last := some (.text word) }
  | .pattern q, text, p, rest => q.take text ≠ [] ∧ p = { last := some (.text (String.ofList (q.take text))) } ∧
      rest = text.drop (q.take text).length
  | .call r, text, p, rest => ∃ value cut, outcome r text = .ok value rest cut ∧ Q r text value rest ∧
      p = { last := some value }
  | .cut, text, p, rest => p = {} ∧ rest = text
  | .named field e, text, p, rest => ∃ q, e.Reads Q text q rest ∧
      p = { q with fields := q.fields ++ q.last.toList.map (field,·) }
  | .keep e, text, p, rest => ∃ q, e.Reads Q text q rest ∧ p = { q with kept := q.last }
  | .seq a b, text, p, rest => ∃ x mid y, a.Reads Q text x mid ∧ b.Reads Q mid y rest ∧ p = x.append y
  | .orElse a b, text, p, rest => a.Reads Q text p rest ∨ (a.take outcome text = .fail false ∧ b.Reads Q text p rest)
  | .fail _, _, _, _ => False
  | .optional e, text, p, rest => e.Reads Q text p rest ∨ (e.take outcome text = .fail false ∧ p = {} ∧ rest = text)
  | .gather separator item, text, p, rest => ∃ first mid entries, item.Reads Q text first mid ∧
      Gathers (separator.Reads Q) (item.Reads Q) entries mid rest ∧ p = gathered .list first entries

theorem gathers_of_take {mark value : List Char → Taken (Parts Reading)}
    {M V : List Char → Parts Reading → List Char → Prop} {size : Nat}
    (markForward : ∀ text p rest cut, mark text = .ok p rest cut → rest.length ≤ text.length)
    (valueForward : ∀ text p rest cut, value text = .ok p rest cut → rest.length ≤ text.length)
    (marks : ∀ text p rest cut, text.length ≤ size → mark text = .ok p rest cut → M text p rest)
    (values : ∀ text p rest cut, text.length ≤ size → value text = .ok p rest cut → V text p rest) {fuel : Nat}
    {text rest : List Char} {entries : List (Parts Reading × Parts Reading)} {cut : Bool} (short : text.length ≤ size)
    (read : gatherTake mark value fuel text = .ok entries rest cut) : Gathers M V entries text rest := by
  induction fuel generalizing text entries with
  | zero => cases read; rfl
  | succ fuel ih =>
    unfold gatherTake at read
    split at read
    next m next _ marked =>
      split at read
      next v after _ valued =>
        obtain ⟨more,later,rfl⟩ := Taken.map_eq_ok.mp read
        have behind := (markForward _ _ _ _ marked).trans short
        exact ⟨next,after,marks _ _ _ _ short marked,values _ _ _ _ behind valued,
          ih ((valueForward _ _ _ _ valued).trans behind) later⟩
      · cases read
    · cases read; rfl
    · cases read

theorem Peg.reads_of_take {Q : Rule → List Char → Reading → List Char → Prop} (e : Peg) {text rest : List Char}
    {p : Parts Reading} {cut : Bool} (read : e.take outcome text = .ok p rest cut)
    (known : ∀ r t value left cut, e.Asks text r t → outcome r t = .ok value left cut → Q r t value left) :
    e.Reads Q text p rest := by
  induction e generalizing text rest p cut with
  | token word =>
    unfold take at read
    split at read
    next found => cases read; exact ⟨found,rfl⟩
    · cases read
  | pattern q =>
    unfold take at read
    split at read
    · cases read
    next some => cases read; exact ⟨some,rfl,rfl⟩
  | call r =>
    obtain ⟨value,called,rfl⟩ := Taken.map_eq_ok.mp read
    exact ⟨value,cut,called,known r text value rest cut (.call r text) called,rfl⟩
  | cut => cases read; exact ⟨rfl,rfl⟩
  | named field e ih =>
    obtain ⟨q,inner,rfl⟩ := Taken.map_eq_ok.mp read
    exact ⟨q,ih inner known,rfl⟩
  | keep e ih =>
    obtain ⟨q,inner,rfl⟩ := Taken.map_eq_ok.mp read
    exact ⟨q,ih inner known,rfl⟩
  | seq a b first second =>
    obtain ⟨x,mid,_,_,one,two,-⟩ := Taken.andThen_eq_ok.mp read
    obtain ⟨y,last,rfl⟩ := Taken.map_eq_ok.mp two
    have ahead := a.take_forward outcome_forward one
    refine ⟨x,mid,y,first one fun r t value left cut asks => ?_,second last fun r t value left cut asks => ?_,rfl⟩
    · exact known r t value left cut asks.seq_left
    · exact known r t value left cut (asks.seq_right ahead)
  | orElse a b first second =>
    rcases Taken.orElse_eq_ok.mp read with ⟨-,_,read⟩ | ⟨failed,read⟩
    · exact .inl (first read fun r t value left cut asks => known r t value left cut asks.orElse_left)
    · exact .inr ⟨failed,second read fun r t value left cut asks => known r t value left cut asks.orElse_right⟩
  | fail message => cases read
  | optional e ih =>
    rcases Taken.orElse_eq_ok.mp read with ⟨-,_,read⟩ | ⟨failed,read⟩
    · exact .inl (ih read known)
    · cases read; exact .inr ⟨failed,rfl,rfl⟩
  | gather separator item marks items =>
    obtain ⟨first,mid,_,_,one,two,-⟩ := Taken.andThen_eq_ok.mp read
    obtain ⟨entries,later,rfl⟩ := Taken.map_eq_ok.mp two
    have item_reads (t p rest cut) (short : t.length ≤ text.length) (read : item.take outcome t = .ok p rest cut) :
        item.Reads Q t p rest :=
      items read fun r u value left cut asks => known r u value left cut (asks.item short)
    have separator_reads (t p rest cut) (short : t.length ≤ text.length)
        (read : separator.take outcome t = .ok p rest cut) : separator.Reads Q t p rest :=
      marks read fun r u value left cut asks => known r u value left cut (asks.separator short)
    refine ⟨first,mid,entries,item_reads _ _ _ _ le_rfl one,?_,rfl⟩
    exact gathers_of_take (fun _ _ _ _ read => (separator.take_forward outcome_forward read).1)
      (fun _ _ _ _ read => (item.take_forward outcome_forward read).1) separator_reads item_reads
      (item.take_forward outcome_forward one).1 later

/-- The parts of an expression that succeeds, where nothing is known of the rules that it calls. -/
theorem Peg.reads_any {e : Peg} {text rest : List Char} {p : Parts Reading} {cut : Bool}
    (read : e.take outcome text = .ok p rest cut) : e.Reads (fun _ _ _ _ => True) text p rest :=
  e.reads_of_take read fun _ _ _ _ _ _ _ => trivial

/-- A property of all readings of all rules, shown for each rule from what its body reads. -/
theorem outcome_induction {Q : Rule → List Char → Reading → List Char → Prop}
    (step : ∀ r text value rest p, r.body.Reads Q (if r.skips then skipped text else text) p rest →
      Reading.close r p = .ok value → Q r text value rest) {r : Rule} {text rest : List Char} {value : Reading}
    {cut : Bool} (read : outcome r text = .ok value rest cut) : Q r text value rest := by
  have all : ∀ n r text value rest cut, r.depth text < n → outcome r text = .ok value rest cut →
      Q r text value rest := by
    intro n
    induction n with
    | zero => intro r text value rest cut deep; omega
    | succ n ih =>
      intro r text value rest cut deep read
      rw [outcome_eq] at read
      unfold Rule.take at read
      cases body : r.body.take outcome (if r.skips then skipped text else text) with
      | ok p next passed =>
        rw [body] at read
        simp only [Taken.close] at read
        split at read
        next closed =>
          cases read
          refine step r text _ _ p (r.body.reads_of_take body fun s t v left c asks known => ?_) closed
          have lower := Rule.depth_lt asks
          exact ih s t v left c (by omega) known
        · cases read
      | fail | stop => rw [body] at read; cases read
  exact all _ r text value rest cut (Nat.lt_succ_self _) read

end WhileExec.Grammar
