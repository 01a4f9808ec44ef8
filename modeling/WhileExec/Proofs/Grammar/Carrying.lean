import Mathlib
import WhileExec.Proofs.Grammar.Fronts

/-!
# Parts of a text that are read alike

A reading carries over to other texts if the part that was read is read with the same result before any text that may
follow it. What may follow is a condition on that text. One lemma for each way to combine parsing expressions says what
it asks of the texts between the parts; these texts begin as they did, so that most conditions are on first characters.
-/

namespace WhileExec.Grammar

/-- Before any text that may follow, the same value is read from the same part of the text. -/
def Carries {α : Type} (read : List Char → Taken α) (F : List Char → Prop) (text : List Char) (value : α)
    (rest : List Char) : Prop :=
  ∃ part bare, text = part ++ rest ∧ Piece part bare ∧
    ∀ other, Junction rest other → F other → ∃ cut, read (part ++ other) = .ok value other cut

namespace Carries

variable {α β : Type} {read again : List Char → Taken α} {F G : List Char → Prop} {text mid rest : List Char}
  {value : α}

theorem lift (carries : Carries read F text value rest) (weaker : ∀ other, G other → F other)
    (same : ∀ next other cut, read next = .ok value other cut → G other → ∃ c, again next = .ok value other c) :
    Carries again G text value rest := by
  obtain ⟨part,bare,rfl,piece,reads⟩ := carries
  refine ⟨part,bare,rfl,piece,fun other junction follows => ?_⟩
  obtain ⟨cut,known⟩ := reads other junction (weaker other follows)
  exact same _ other cut known follows

theorem mono (carries : Carries read F text value rest) (weaker : ∀ other, G other → F other) :
    Carries read G text value rest :=
  carries.lift weaker fun _ _ cut known _ => ⟨cut,known⟩

theorem map (carries : Carries read F text value rest) (f : α → β) :
    Carries (fun t => (read t).map f) F text (f value) rest := by
  obtain ⟨part,bare,rfl,piece,reads⟩ := carries
  refine ⟨part,bare,rfl,piece,fun other junction follows => ?_⟩
  obtain ⟨cut,known⟩ := reads other junction follows
  exact ⟨cut,by simp only [known,Taken.map_ok]⟩

theorem of_skipped (carries : Carries read F (skipped text) value rest) (skips : ∀ t, read (skipped t) = read t) :
    Carries read F text value rest := by
  obtain ⟨part,bare,front,piece,reads⟩ := carries
  have twice : skipped text = bare ++ rest := by
    rw [← skipped_skipped,front]
    exact piece.skips rest
  obtain ⟨whole,same,further⟩ := exists_piece twice piece.some
  refine ⟨whole,bare,same,further,fun other junction follows => ?_⟩
  obtain ⟨cut,known⟩ := reads other junction follows
  refine ⟨cut,?_⟩
  rw [← skips,piece.skips] at known
  rw [← skips,further.skips,known]

end Carries

section Expressions

variable {F G : List Char → Prop} {a b e : Peg} {text mid rest : List Char} {p q : Parts Reading}

theorem carries_of_body {r : Rule} {value : Reading} (skips : r.skips = true)
    (carries : Carries (r.body.take outcome) F (skipped text) p rest) (closed : Reading.close r p = .ok value) :
    Carries (outcome r) F text value rest := by
  obtain ⟨part,bare,front,piece,reads⟩ := carries
  have twice : skipped text = bare ++ rest := by
    rw [← skipped_skipped,front]
    exact piece.skips rest
  have same : part = bare := List.append_cancel_right (front.symm.trans twice)
  obtain ⟨whole,split,further⟩ := exists_piece twice piece.some
  refine ⟨whole,bare,split,further,fun other junction follows => ?_⟩
  obtain ⟨cut,known⟩ := reads other junction follows
  refine ⟨cut,?_⟩
  rw [outcome_body skips,further.skips,← same,known]
  exact Taken.close_ok _ _ _ _ closed

theorem carries_token {word : String} (found : tokenRest? word.toList (skipped text) = some rest)
    (written : word.toList ≠ []) :
    Carries ((Peg.token word).take outcome) (fun _ => True) text { last := some (.text word) } rest := by
  obtain ⟨front,ends⟩ := tokenRest?_eq_some.mp found
  obtain ⟨part,same,piece⟩ := exists_piece front written
  exact ⟨part,_,same,piece,fun other junction _ => ⟨false,take_token word (piece.skips other) (junction.runsOn ends)⟩⟩

/-- One part after the other: what stands behind the first one is the second one. -/
theorem carries_seq (first : Carries (a.take outcome) F text p mid) (second : Carries (b.take outcome) G mid q rest)
    (fits : ∀ next u cut, Junction mid next → b.take outcome next = .ok q u cut → F next) :
    Carries ((Peg.seq a b).take outcome) G text (p.append q) rest := by
  obtain ⟨one,bare,rfl,piece,reads⟩ := first
  obtain ⟨two,_,rfl,-,readsOn⟩ := second
  refine ⟨one ++ two,bare ++ two,by simp,piece.append two,fun other junction follows => ?_⟩
  obtain ⟨c,later⟩ := readsOn other junction follows
  have middle := junction.append two
  obtain ⟨d,now⟩ := reads _ middle (fits _ _ _ middle later)
  refine ⟨d || c,?_⟩
  rw [List.append_assoc,Peg.take_seq,now,Taken.andThen_ok,later]
  rfl

theorem carries_cut (carries : Carries (b.take outcome) G text q rest) :
    Carries ((Peg.seq .cut b).take outcome) G text (({} : Parts Reading).append q) rest := by
  obtain ⟨part,bare,rfl,piece,reads⟩ := carries
  refine ⟨part,bare,rfl,piece,fun other junction follows => ?_⟩
  obtain ⟨c,known⟩ := reads other junction follows
  refine ⟨true,?_⟩
  rw [Peg.take_seq,Peg.take_cut,Taken.andThen_ok,known]
  rfl

theorem carries_optional (carries : Carries (e.take outcome) G text q rest) :
    Carries ((Peg.optional e).take outcome) G text q rest :=
  carries.lift (fun _ => id) fun next other cut known _ => ⟨false,by rw [Peg.take_optional,known]; rfl⟩

theorem carries_seq_missing (carries : Carries (a.take outcome) F text p rest)
    (fits : ∀ other, G other → F other ∧ e.take outcome other = .fail false) :
    Carries ((Peg.seq a (.optional e)).take outcome) G text (p.append {}) rest := by
  obtain ⟨part,bare,rfl,piece,reads⟩ := carries
  refine ⟨part,bare,rfl,piece,fun other junction follows => ?_⟩
  obtain ⟨may,failed⟩ := fits other follows
  obtain ⟨c,known⟩ := reads other junction may
  refine ⟨c || false,?_⟩
  rw [Peg.take_seq,known,Taken.andThen_ok,Peg.take_optional,failed]
  rfl

theorem carries_missing_seq (carries : Carries (b.take outcome) G text q rest)
    (fits : ∀ next u cut, b.take outcome next = .ok q u cut → e.take outcome next = .fail false) :
    Carries ((Peg.seq (.optional e) b).take outcome) G text (({} : Parts Reading).append q) rest := by
  obtain ⟨part,bare,rfl,piece,reads⟩ := carries
  refine ⟨part,bare,rfl,piece,fun other junction follows => ?_⟩
  obtain ⟨c,known⟩ := reads other junction follows
  refine ⟨false || c,?_⟩
  rw [Peg.take_seq,Peg.take_optional,fits _ _ _ known,Taken.orElse_fail,Taken.andThen_ok,known]
  rfl

/-- The texts that the items of a list stand in front of are those of the items behind them, or what follows the
list. -/
theorem carries_entries {separator item : Peg} {Q : Rule → List Char → Reading → List Char → Prop}
    {entries : List (Parts Reading × Parts Reading)} (solid : separator.solid = true)
    (marks : ∀ t p u, separator.Reads Q t p u → Carries (separator.take outcome) (fun _ => True) t p u)
    (items : ∀ t p u, item.Reads Q t p u → Carries (item.take outcome) F t p u)
    (fits : ∀ next p u cut, separator.take outcome next = .ok p u cut → F next)
    (ends : ∀ other, G other → F other ∧ separator.take outcome other = .fail false)
    (reads : Gathers (separator.Reads Q) (item.Reads Q) entries text rest) :
    ∃ part, text = part ++ rest ∧ ∀ other, Junction rest other → G other → F (part ++ other) ∧
      ∀ fuel, (part ++ other).length ≤ fuel →
        gatherTake (separator.take outcome) (item.take outcome) fuel (part ++ other) = .ok entries other false := by
  induction entries generalizing text with
  | nil =>
    cases reads
    refine ⟨[],rfl,fun other _ follows => ⟨(ends other follows).1,fun fuel _ => ?_⟩⟩
    exact gatherTake_end (ends other follows).2 fuel
  | cons entry entries ih =>
    obtain ⟨t,u,mark,value,more⟩ := reads
    obtain ⟨one,_,rfl,-,marked⟩ := marks _ _ _ mark
    obtain ⟨two,_,rfl,-,valued⟩ := items _ _ _ value
    obtain ⟨three,rfl,later⟩ := ih more
    refine ⟨one ++ (two ++ three),by simp,fun other junction follows => ?_⟩
    obtain ⟨may,last⟩ := later other junction follows
    have behind := junction.append three
    obtain ⟨c,item⟩ := valued _ behind may
    obtain ⟨d,now⟩ := marked _ (behind.append two) trivial
    simp only [List.append_assoc] at item now ⊢
    refine ⟨fits _ _ _ _ now,fun fuel enough => ?_⟩
    have shorter := (separator.take_forward outcome_forward now).2 solid
    obtain ⟨size,rfl⟩ := Nat.exists_eq_add_one_of_ne_zero (by omega : fuel ≠ 0)
    rw [gatherTake_step now item,last size (by simp only [List.length_append] at shorter enough ⊢; omega)]
    rfl

theorem carries_gather {separator item : Peg} {Q : Rule → List Char → Reading → List Char → Prop}
    (solid : separator.solid = true)
    (marks : ∀ t p u, separator.Reads Q t p u → Carries (separator.take outcome) (fun _ => True) t p u)
    (items : ∀ t p u, item.Reads Q t p u → Carries (item.take outcome) F t p u)
    (fits : ∀ next p u cut, separator.take outcome next = .ok p u cut → F next)
    (ends : ∀ other, G other → F other ∧ separator.take outcome other = .fail false)
    (reads : (Peg.gather separator item).Reads Q text p rest) :
    Carries ((Peg.gather separator item).take outcome) G text p rest := by
  obtain ⟨first,_,entries,value,more,rfl⟩ := reads
  obtain ⟨part,rfl,later⟩ := carries_entries solid marks items fits ends more
  obtain ⟨one,bare,rfl,piece,valued⟩ := items _ _ _ value
  refine ⟨one ++ part,bare ++ part,by simp,piece.append part,fun other junction follows => ?_⟩
  obtain ⟨may,last⟩ := later other junction follows
  obtain ⟨c,item⟩ := valued _ (junction.append part) may
  refine ⟨c || false,?_⟩
  rw [List.append_assoc,Peg.take_gather,item,Taken.andThen_ok,last _ le_rfl]
  rfl

end Expressions

section Fronts

variable {chars text rest : List Char} {p : Parts Reading} {cut : Bool}

/-- What the token or the rule reads begins with none of the characters. -/
def Peg.avoids (chars : List Char) : Peg → Bool
  | .token word => word.toList.head?.any fun c => !chars.contains c
  | .call .rop => ['<','=','>'].all fun c => !chars.contains c
  | .call r => r.opens && chars.all marks.contains
  | _ => false

theorem stops_of_take {e : Peg} (leads : e.leads = true) (avoids : e.front.all (Peg.avoids chars) = true)
    (read : e.take outcome text = .ok p rest cut) : Stops chars text := by
  have reads := Peg.reads_any read
  obtain ⟨a,member,q,u,now⟩ := reads.front leads
  have known := List.all_eq_true.mp avoids a member
  cases a with
  | token word =>
    obtain ⟨found,-⟩ := now
    obtain ⟨c,first,apart⟩ := (Option.any_eq_true _ _).mp known
    exact stops_of_token found first (by simpa using apart)
  | call r =>
    obtain ⟨_,_,called,-,-⟩ := now
    by_cases sign : r = .rop
    · subst sign
      refine stops_of_rop called fun c member => ?_
      have apart := List.all_eq_true.mp known c member
      simpa using apart
    · have both : (r.opens && chars.all marks.contains) = true := by
        unfold Peg.avoids at known
        split at known
        next same => cases same
        next same => cases same; contradiction
        next same => cases same; exact known
        · cases known
      rw [Bool.and_eq_true] at both
      refine (outcome_begins both.1 called).mono fun c member => ?_
      simpa using List.all_eq_true.mp both.2 c member
  | pattern | cut | named | keep | seq | orElse | fail | optional | gather => cases known

end Fronts

end WhileExec.Grammar
