import Mathlib
import WhileExec.Proofs.Grammar.Operators
import WhileExec.Proofs.Sharing.Maximality

/-!
# Expressions after sharing

What a cell looks like once it is shared: every constant has become the first one of its number, and all else is as it
was, `shareAll_exprs`. So the expressions are kept as long as no truth constant occurs beside the integer of the same
value, and their values are kept in any case. Operators must determine the forms of applications, as they do in all
that is read from a text. Nodes may be shared from the start, or each may be one of its own, `ofExprs_coherent`.
-/

namespace WhileExec

namespace Cell

section Fresh

variable {next mid after : Nat} {c : Cell} {cs : List Cell} {e : Expr} {es : List Expr}

theorem ofExpr_app (form : Form) (op : String) (run : (ofExprs es).run (next + 1) = (cs,after)) :
    (ofExpr (.app form op es)).run next = (.app next form op cs,after) := by
  rw [ofExpr]
  change (Cell.app next form op ((ofExprs es).run (next + 1)).1,((ofExprs es).run (next + 1)).2) = _
  rw [run]

theorem ofExprs_cons (one : (ofExpr e).run next = (c,mid)) (more : (ofExprs es).run mid = (cs,after)) :
    (ofExprs (e :: es)).run next = (c :: cs,after) := by
  rw [ofExprs]
  change (((ofExpr e).run next).1 :: ((ofExprs es).run ((ofExpr e).run next).2).1,
    ((ofExprs es).run ((ofExpr e).run next).2).2) = _
  rw [one,more]

theorem ofExprs_ids_of
    (each : ∀ e ∈ es, ∀ {next c after}, (ofExpr e).run next = (c,after) →
      c.expr = e ∧ ∃ size, after = next + size ∧ c.preorder.map Cell.id = List.range' next size)
    (run : (ofExprs es).run next = (cs,after)) :
    cs.map expr = es ∧ ∃ size, after = next + size ∧ (preorderAll cs).map Cell.id = List.range' next size := by
  induction es generalizing next cs with
  | nil =>
    rw [ofExprs] at run
    cases run
    exact ⟨rfl,0,rfl,rfl⟩
  | cons e es ih =>
    rcases one : (ofExpr e).run next with ⟨c,mid⟩
    rcases more : (ofExprs es).run mid with ⟨rest,last⟩
    cases (ofExprs_cons one more).symm.trans run
    obtain ⟨same,size,rfl,ids⟩ := each e (by simp) one
    obtain ⟨others,further,rfl,ids'⟩ := ih (fun e member => each e (by simp [member])) more
    refine ⟨by simp [same,others],size + further,by omega,?_⟩
    rw [preorderAll,List.map_append,ids,ids',List.range'_append_1]

theorem ofExpr_ids (run : (ofExpr e).run next = (c,after)) :
    c.expr = e ∧ ∃ size, after = next + size ∧ c.preorder.map Cell.id = List.range' next size := by
  induction e using Expr.structural generalizing next c after with
  | app form op args ih =>
    rcases operands : (ofExprs args).run (next + 1) with ⟨cs,last⟩
    obtain ⟨same,size,rfl,ids⟩ := ofExprs_ids_of (fun e member _ _ _ run => ih e member run) operands
    cases (ofExpr_app form op operands).symm.trans run
    refine ⟨by rw [expr_app,same],size + 1,by omega,?_⟩
    rw [preorder,List.map_cons,ids,List.range'_succ]
    rfl
  | _ =>
    rw [ofExpr] at run
    cases run
    exact ⟨rfl,1,rfl,rfl⟩

theorem ofExprs_coherent (es : List Expr) :
    Coherent ((ofExprs es).run 0).1 ∧ ((ofExprs es).run 0).1.map expr = es := by
  obtain ⟨same,size,-,ids⟩ := ofExprs_ids_of (fun _ _ _ _ _ run => ofExpr_ids run) (Prod.eta ((ofExprs es).run 0)).symm
  refine ⟨fun a left b right equal => ?_,same⟩
  have distinct : ((preorderAll ((ofExprs es).run 0).1).map Cell.id).Nodup := by
    rw [ids]
    exact List.nodup_range'
  exact List.inj_on_of_nodup_map distinct left right equal

end Fresh

/-- The constant of this number that comes first in the cells. -/
def firstConstant (cells : List Cell) (n : Int) : Expr :=
  ((preorderAll cells).find? (·.key == .value n)).elim (.int n) expr

theorem numeric_of_key {c : Cell} {n : Int} (key : c.key = .value n) : c.expr.numeric = .int n := by
  cases c <;> simp_all [Cell.key,expr]

theorem numeric_firstConstant (cells : List Cell) (n : Int) : (firstConstant cells n).numeric = .int n := by
  unfold firstConstant
  cases found : (preorderAll cells).find? (·.key == .value n) with
  | none => rfl
  | some first => exact numeric_of_key (by simpa using List.find?_some found)

theorem alone_of_key {c : Cell} {n : Int} (key : c.key = .value n) : c.args = [] ∧ ∀ cs, c.withArgs cs = c := by
  cases c <;> simp_all [Cell.key,args,withArgs]

theorem key_withArgs_value {c : Cell} {cs : List Cell} {n : Int} :
    (c.withArgs cs).key = .value n ↔ c.key = .value n := by
  cases c <;> simp [Cell.key,withArgs]

theorem sharing_value (n : Int) :
    (∀ (c : Cell) (table : Table) first after, c.share.run table = (first,after) →
      after.lookup (.value n) = (table.lookup (.value n)).or (c.preorder.find? (·.key == .value n))) ∧
    ∀ cs table firsts after, (shareAll cs).run table = (firsts,after) →
      after.lookup (.value n) = (table.lookup (.value n)).or ((preorderAll cs).find? (·.key == .value n)) := by
  apply sharing_induction
  case nil => simp [preorderAll]
  case cons =>
    intro c cs table first mid firsts after one more
    rw [more,one,preorderAll,List.find?_append,Option.or_assoc]
  case node =>
    intro c table firsts mid first after operands run
    rw [intern_at run,operands,preorder_eq]
    by_cases constant : c.key = .value n
    · obtain ⟨none,alone⟩ := alone_of_key constant
      simp [none,alone,constant,preorderAll]
    · simp [key_withArgs_value,constant]

section Results

variable {given : Set Cell} {table : Table} {forms : String → Form} {c first : Cell}

theorem Table.Sound.formed (sound : Table.Sound given table) (known : ∀ o ∈ given, o.expr.Formed forms)
    (filed : table.lookup c.key = some c) : c.expr.Formed forms := by
  induction c using structural with
  | step c ih =>
    obtain ⟨o,member,node,-⟩ := sound.origin filed
    have origin := known o member
    cases o with
    | app id form op cs =>
      rw [expr_app] at origin
      cases origin with
      | app _ each =>
        rw [node,withArgs,expr_app]
        apply Expr.Formed.app
        intro e operand
        obtain ⟨a,listed,rfl⟩ := List.mem_map.mp operand
        exact ih a listed (sound.within filed a listed)
    | _ =>
      rw [node]
      constructor

theorem Table.Sound.expr_eq (sound : Table.Sound given table) (graph : Graph given)
    (known : ∀ o ∈ given, o.expr.Formed forms) {constants : Int → Expr}
    (firsts : ∀ n d, table.lookup (.value n) = some d → d.expr = constants n) (member : c ∈ given)
    (stands : table.Stands c first) : first.expr = c.expr.withConstants constants := by
  induction c using structural generalizing first with
  | step c ih =>
    obtain ⟨each,key⟩ := sound.operands graph stands
    have formed := sound.formed known (sound.filed stands)
    have given := known c member
    have filed := sound.filed stands
    rw [key] at filed
    cases c with
    | int id n => exact firsts n first filed
    | truth id v => exact firsts v.toInt first filed
    | var id name =>
      cases first <;> simp_all [Cell.key,withArgs,expr]
    | app id form op cs =>
      cases first with
      | app id' form' op' cs' =>
        -- The key does not tell the form, but the operator does.
        simp only [Cell.key,withArgs,args,Key.app.injEq,and_true] at key
        subst key
        rw [expr_app] at formed given
        cases formed
        cases given
        have operands : cs.map (fun a => a.expr.withConstants constants) = cs'.map expr := by
          apply map_eq_map_iff_forall₂.mpr
          exact forall₂_imp_of_mem each fun a listed b _ stands =>
            (ih a listed (graph.closed _ member a listed) stands).symm
        rw [expr_app,expr_app,Expr.withConstants_app,← operands,List.map_map]
        rfl
      | _ => simp [Cell.key,withArgs] at key

theorem formed_below (formed : c.expr.Formed forms) {a : Cell} (below : a ∈ c.preorder) : a.expr.Formed forms := by
  induction c using structural with
  | step c ih =>
    rcases mem_preorder.mp below with rfl | below
    · exact formed
    · obtain ⟨d,operand,below⟩ := mem_preorderAll.mp below
      apply ih d operand _ below
      cases c with
      | app id form op cs =>
        rw [expr_app] at formed
        cases formed with
        | app _ each => exact each d.expr (List.mem_map_of_mem operand)
      | _ => simp [args] at operand

/-- Sharing replaces constants by the first ones of their numbers, and nothing else. -/
theorem shareAll_exprs {cells results : List Cell} (coherent : Coherent cells)
    (formed : ∀ c ∈ cells, c.expr.Formed forms) (run : (shareAll cells).run [] = (results,table)) :
    List.Forall₂ (fun c r => r.expr = c.expr.withConstants (firstConstant cells)) cells results := by
  obtain ⟨sound,-,each⟩ := shareAll_sound coherent.graph mem_preorderAll_self (.nil _) run
  have known : ∀ o ∈ {a | a ∈ preorderAll cells}, o.expr.Formed forms := by
    intro o member
    obtain ⟨c,listed,below⟩ := mem_preorderAll.mp member
    exact formed_below (formed c listed) below
  have firsts : ∀ n d, table.lookup (.value n) = some d → d.expr = firstConstant cells n := by
    intro n d filed
    rw [(sharing_value n).2 cells [] results table run,List.lookup_nil,Option.none_or] at filed
    rw [firstConstant,filed,Option.elim_some]
  exact forall₂_imp_of_mem each fun c member r _ stands =>
    sound.expr_eq coherent.graph known firsts (mem_preorderAll_self c member) stands

end Results

/-- A truth constant and the integer of the same value both occur. -/
def Mixed (cells : List Cell) : Prop :=
  ∃ i n j v, Cell.int i n ∈ preorderAll cells ∧ Cell.truth j v ∈ preorderAll cells ∧ v.toInt = n

theorem alike_withConstants {constants : Int → Expr} {c : Cell} :
    (c.expr.withConstants constants).alike c.expr = true ↔
      ∀ d ∈ c.preorder, ∀ n, d.key = .value n → (constants n).alike d.expr = true := by
  induction c using structural with
  | step c ih =>
    rw [preorder_eq,List.forall_mem_cons]
    cases c with
    | app id form op cs =>
      have operands :
          ((Cell.app id form op cs).expr.withConstants constants).alike (Cell.app id form op cs).expr = true ↔
            ∀ a ∈ cs, (a.expr.withConstants constants).alike a.expr = true := by
        simp [Expr.alike,Expr.alikeAll_iff,List.forall₂_same]
      rw [operands]
      constructor
      · intro each
        refine ⟨by simp [Cell.key],fun d below => ?_⟩
        obtain ⟨a,listed,below⟩ := mem_preorderAll.mp below
        exact (ih a listed).mp (each a listed) d below
      · rintro ⟨-,each⟩ a listed
        exact (ih a listed).mpr fun d below => each d (mem_preorderAll.mpr ⟨a,listed,below⟩)
    | var id name => simp [Expr.alike,expr,Cell.key,args,preorderAll]
    | _ => simp [expr,Cell.key,args,preorderAll]

theorem alike_of_unmixed {cells : List Cell} (unmixed : ¬Mixed cells) {a b : Cell} (left : a ∈ preorderAll cells)
    (right : b ∈ preorderAll cells) {n : Int} (one : a.key = .value n) (other : b.key = .value n) :
    a.expr.alike b.expr = true := by
  cases a with
  | int i m =>
    cases b with
    | int => simp_all [Cell.key,expr,Expr.alike]
    | truth j v => exact absurd ⟨i,m,j,v,left,right,by simp_all [Cell.key]⟩ unmixed
    | _ => simp [Cell.key] at other
  | truth j v =>
    cases b with
    | int i m => exact absurd ⟨i,m,j,v,right,left,by simp_all [Cell.key]⟩ unmixed
    | truth => simp_all [Cell.key,expr,Expr.alike,Value.alike]
    | _ => simp [Cell.key] at other
  | _ => simp [Cell.key] at one

theorem alike_firstConstant_iff {cells : List Cell} :
    (∀ d ∈ preorderAll cells, ∀ n, d.key = .value n → (firstConstant cells n).alike d.expr = true) ↔ ¬Mixed cells := by
  constructor
  · rintro kept ⟨i,n,j,v,left,right,rfl⟩
    have first := kept _ left _ rfl
    have second := kept _ right _ rfl
    -- No constant is both of the integers and of the truth values.
    cases constant : firstConstant cells v.toInt <;> simp [constant,expr,Expr.alike] at first second
  · intro unmixed d member n key
    unfold firstConstant
    cases found : (preorderAll cells).find? (·.key == .value n) with
    | none => simpa [key] using List.find?_eq_none.mp found d member
    | some first =>
      apply alike_of_unmixed unmixed (List.mem_of_find?_eq_some found) member _ key
      simpa using List.find?_some found

/-- What is read from texts is kept by sharing exactly if no truth constant occurs beside the integer of its value. In
any case constants are all that changes. -/
theorem shareAll_alike_iff {cells : List Cell} (coherent : Coherent cells)
    (produced : ∀ c ∈ cells, Grammar.Produced c.expr) :
    ∃ results : List Cell, Item.shareAll (cells.map .cell) = results.map .cell ∧
      List.Forall₂ (fun c r => r.expr = c.expr.withConstants (firstConstant cells)) cells results ∧
      (List.Forall₂ (fun c r => r.expr.alike c.expr = true) cells results ↔ ¬Mixed cells) := by
  rcases run : (shareAll cells).run [] with ⟨results,table⟩
  have exprs := shareAll_exprs coherent (fun c member => (produced c member).formed) run
  refine ⟨results,Item.shareAll_cells run,exprs,?_⟩
  rw [← alike_firstConstant_iff]
  constructor
  · intro alike d member n key
    have both := List.Forall₂.mp (fun c r same alike => And.intro (same ▸ alike) same) exprs alike
    have kept := ((List.forall₂_and_left cells results).mp both).1
    obtain ⟨c,listed,below⟩ := mem_preorderAll.mp member
    exact alike_withConstants.mp (kept c listed) d below n key
  · intro firsts
    refine forall₂_imp_of_mem exprs fun c member r _ same => ?_
    rw [same]
    exact alike_withConstants.mpr fun d below => firsts d (mem_preorderAll.mpr ⟨c,member,below⟩)

/-- `x < 1 and true`, where the truth constant comes second, and `false or 6 / x = 0`, where the integer does. -/
def mixture : List Cell :=
  ((ofExprs
    [.app .logic "and" [.app .compare "<" [.var "x",.int 1],.truth (.bool true)],
      .app .logic "or" [.truth (.bool false),
        .app .compare "=" [.app .arith "/" [.int 6,.var "x"],.int 0]]]).run 0).1

theorem mixture_produced : ∀ c ∈ mixture, Grammar.Produced c.expr := by
  have first : Grammar.outcome .bexp "x < 1 and true".toList = .ok (.expr _) [] false := rfl
  have second : Grammar.outcome .bexp "false or 6 / x = 0".toList = .ok (.expr _) [] false := rfl
  intro c member
  have listed := List.mem_map_of_mem (f := expr) member
  rw [mixture,(ofExprs_coherent _).2] at listed
  simp only [List.mem_cons,List.not_mem_nil,or_false] at listed
  rcases listed with same | same <;> rw [same]
  · exact .of_outcome first
  · exact .of_outcome second

/-- The truth constant becomes an integer, and the integer a truth constant. -/
theorem shareAll_alike_iff_mixture :
    Coherent mixture ∧ (∀ c ∈ mixture, Grammar.Produced c.expr) ∧ Mixed mixture ∧
      ∃ results : List Cell, Item.shareAll (mixture.map .cell) = results.map .cell ∧
        results.map expr =
          [.app .logic "and" [.app .compare "<" [.var "x",.int 1],.int 1],
            .app .logic "or" [.truth (.bool false),
              .app .compare "=" [.app .arith "/" [.int 6,.var "x"],.truth (.bool false)]]] ∧
        ¬List.Forall₂ (fun c r => r.expr.alike c.expr = true) mixture results := by
  have coherent : Coherent mixture := (ofExprs_coherent _).1
  have integer : Cell.int 3 1 ∈ preorderAll mixture := List.mem_iff_getElem?.mpr ⟨3,rfl⟩
  have truth : Cell.truth 4 (.bool true) ∈ preorderAll mixture := List.mem_iff_getElem?.mpr ⟨4,rfl⟩
  have mixed : Mixed mixture := ⟨3,1,4,.bool true,integer,truth,rfl⟩
  obtain ⟨results,run,exprs,kept⟩ := shareAll_alike_iff coherent mixture_produced
  refine ⟨coherent,mixture_produced,mixed,results,run,?_,fun alike => kept.mp alike mixed⟩
  rw [← map_eq_map_iff_forall₂.mpr (exprs.imp fun _ _ => Eq.symm)]
  rfl

/-- Where `true` and `1` are shared together, `true` stands for both. -/
theorem one_becomes_true :
    Grammar.Produced (.truth (.bool true)) ∧ Grammar.Produced (.int 1) ∧
      Item.shareAll (((ofExprs [.truth (.bool true),.int 1]).run 0).1.map .cell) =
        [.cell (.truth 0 (.bool true)),.cell (.truth 0 (.bool true))] ∧
      (Expr.truth (.bool true)).alike (.int 1) = false := by
  have truth : Grammar.outcome .bexp "true".toList = .ok (.expr (.truth (.bool true))) [] false := rfl
  have integer : Grammar.outcome .aexp "1".toList = .ok (.expr (.int 1)) [] false := rfl
  exact ⟨.of_outcome truth,.of_outcome integer,rfl,rfl⟩

/-- Every result has the value of what was given, with truth values for ones and zeros at most, or fails as it does. -/
theorem shareAll_evaluates {cells : List Cell} (coherent : Coherent cells)
    (produced : ∀ c ∈ cells, Grammar.Produced c.expr) :
    ∃ results : List Cell, Item.shareAll (cells.map .cell) = results.map .cell ∧
      ∀ store : Store, List.Forall₂ (fun c r =>
        EvalAlike (fun v w => v.alike w = true) (c.expr.eval store) (r.expr.eval store)) cells results := by
  rcases run : (shareAll cells).run [] with ⟨results,table⟩
  have exprs := shareAll_exprs coherent (fun c member => (produced c member).formed) run
  refine ⟨results,Item.shareAll_cells run,fun store => exprs.imp fun c r same => ?_⟩
  have numeric : c.expr.numeric = r.expr.numeric := by
    rw [same,Expr.numeric_withConstants (numeric_firstConstant cells)]
  exact (Expr.evalAlike_of_numeric numeric).mono fun _ _ => Value.alike_iff.mpr

theorem shareAll_evaluates_mixture :
    Coherent mixture ∧ (∀ c ∈ mixture, Grammar.Produced c.expr) ∧
      ∃ results : List Cell, Item.shareAll (mixture.map .cell) = results.map .cell ∧
        ∀ store : Store, List.Forall₂ (fun c r =>
          EvalAlike (fun v w => v.alike w = true) (c.expr.eval store) (r.expr.eval store)) mixture results := by
  have coherent : Coherent mixture := (ofExprs_coherent _).1
  exact ⟨coherent,mixture_produced,shareAll_evaluates coherent mixture_produced⟩

end Cell

end WhileExec
