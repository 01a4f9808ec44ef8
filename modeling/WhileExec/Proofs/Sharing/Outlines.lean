import Mathlib
import WhileExec.Interpreter
import WhileExec.Proofs.Typing

/-!
# Expressions up to the kinds of their constants

A truth constant counts as the integer one or zero. `Expr.numeric` writes all constants as integers, and `Expr.outline`
also leaves out the forms of applications. Two expressions with the same numeric form evaluate alike,
`evalAlike_of_numeric`: no operation tells a truth value from the integer of the same value. `Expr.Formed` says that the
operator of every application determines its form.
-/

namespace WhileExec

theorem map_eq_map_iff_forall₂ {α β γ : Type} {f : α → γ} {g : β → γ} {as : List α} {bs : List β} :
    as.map f = bs.map g ↔ List.Forall₂ (fun a b => f a = g b) as bs := by
  rw [← List.forall₂_eq_eq_eq,List.forall₂_map_left_iff,List.forall₂_map_right_iff]

theorem forall₂_imp_of_mem {α β : Type} {R S : α → β → Prop} {as : List α} {bs : List β}
    (each : List.Forall₂ R as bs) (imp : ∀ a ∈ as, ∀ b ∈ bs, R a b → S a b) : List.Forall₂ S as bs := by
  induction each with
  | nil => exact .nil
  | cons first _ ih =>
    exact .cons (imp _ (by simp) _ (by simp) first)
      (ih fun a inLeft b inRight => imp a (by simp [inLeft]) b (by simp [inRight]))

theorem exists_of_forall₂_right {α β : Type} {R : α → β → Prop} {as : List α} {bs : List β}
    (each : List.Forall₂ R as bs) {b : β} (member : b ∈ bs) : ∃ a ∈ as, R a b := by
  induction each with
  | nil => simp at member
  | cons first _ ih =>
    rcases List.mem_cons.mp member with rfl | member
    · exact ⟨_,by simp,first⟩
    · obtain ⟨a,listed,related⟩ := ih member
      exact ⟨a,by simp [listed],related⟩

theorem exists_forall₂_left {α β : Type} {R : α → β → Prop} {bs : List β} (each : ∀ b ∈ bs, ∃ a, R a b) :
    ∃ as, List.Forall₂ R as bs := by
  induction bs with
  | nil => exact ⟨[],.nil⟩
  | cons b bs ih =>
    obtain ⟨a,first⟩ := each b (by simp)
    obtain ⟨as,rest⟩ := ih fun b member => each b (by simp [member])
    exact ⟨a :: as,.cons first rest⟩

theorem forall₂_unique {α β : Type} {R S : α → β → Prop} {as : List α} {bs cs : List β} (left : List.Forall₂ R as bs)
    (right : List.Forall₂ S as cs) (unique : ∀ a ∈ as, ∀ b c, R a b → S a c → b = c) : bs = cs := by
  induction left generalizing cs with
  | nil => cases right; rfl
  | cons first _ ih =>
    cases right with
    | cons other more =>
      rw [unique _ (by simp) _ _ first other,ih more fun a member => unique a (by simp [member])]

namespace Expr

mutual

/-- The expression with other constants, chosen by their numbers, and with other forms. -/
def recast (constants : Int → Expr) (forms : Form → Form) : Expr → Expr
  | .int n => constants n
  | .truth v => constants v.toInt
  | .var name => .var name
  | .app form op args => .app (forms form) op (recastAll constants forms args)

def recastAll (constants : Int → Expr) (forms : Form → Form) : List Expr → List Expr
  | [] => []
  | e :: es => e.recast constants forms :: recastAll constants forms es

end

def withConstants (constants : Int → Expr) (e : Expr) : Expr := e.recast constants id

def numeric (e : Expr) : Expr := e.withConstants .int

def outline (e : Expr) : Expr := e.recast .int fun _ => .plain

theorem recastAll_eq (constants : Int → Expr) (forms : Form → Form) (es : List Expr) :
    recastAll constants forms es = es.map (recast constants forms) := by
  induction es with
  | nil => rfl
  | cons e es ih => rw [recastAll,ih,List.map_cons]

@[simp] theorem outline_int (n : Int) : (int n).outline = .int n := rfl
@[simp] theorem outline_truth (v : Value) : (truth v).outline = .int v.toInt := rfl
@[simp] theorem outline_var (name : String) : (var name).outline = .var name := rfl
@[simp] theorem outline_app (form : Form) (op : String) (args : List Expr) :
    (app form op args).outline = .app .plain op (args.map outline) := by
  rw [outline,recast,recastAll_eq]
  rfl

section Constants

variable (constants : Int → Expr)

@[simp] theorem withConstants_int (n : Int) : (int n).withConstants constants = constants n := rfl
@[simp] theorem withConstants_truth (v : Value) : (truth v).withConstants constants = constants v.toInt := rfl
@[simp] theorem withConstants_var (name : String) : (var name).withConstants constants = .var name := rfl
@[simp] theorem withConstants_app (form : Form) (op : String) (args : List Expr) :
    (app form op args).withConstants constants = .app form op (args.map (withConstants constants)) := by
  rw [withConstants,recast,recastAll_eq]
  rfl

end Constants

@[simp] theorem numeric_int (n : Int) : (int n).numeric = .int n := rfl
@[simp] theorem numeric_truth (v : Value) : (truth v).numeric = .int v.toInt := rfl
@[simp] theorem numeric_var (name : String) : (var name).numeric = .var name := rfl
@[simp] theorem numeric_app (form : Form) (op : String) (args : List Expr) :
    (app form op args).numeric = .app form op (args.map numeric) :=
  withConstants_app .int form op args

/-- Other constants of the same numbers make no difference to the numeric form. -/
theorem numeric_withConstants {constants : Int → Expr} (same : ∀ n, (constants n).numeric = .int n) (e : Expr) :
    (e.withConstants constants).numeric = e.numeric := by
  induction e using Expr.structural with
  | int n => exact same n
  | truth v => exact same v.toInt
  | var name => rfl
  | app form op args ih =>
    rw [withConstants_app,numeric_app,numeric_app,List.map_map]
    congr 1
    exact List.map_congr_left ih

theorem alikeAll_iff {as bs : List Expr} :
    alikeAll as bs = true ↔ List.Forall₂ (fun a b => a.alike b = true) as bs := by
  induction as generalizing bs with
  | nil => cases bs <;> simp [alikeAll]
  | cons a as ih => cases bs <;> simp [alikeAll,ih]

theorem outline_of_alike {a b : Expr} (same : a.alike b = true) : a.outline = b.outline := by
  induction a using Expr.structural generalizing b with
  | int n => cases b <;> simp_all [alike]
  | truth v => cases b <;> simp_all [alike,Value.alike]
  | var name => cases b <;> simp_all [alike]
  | app form op args ih =>
    cases b with
    | app g p bs =>
      simp only [alike,Bool.and_eq_true,beq_iff_eq,alikeAll_iff] at same
      obtain ⟨⟨-,rfl⟩,each⟩ := same
      have outlines := map_eq_map_iff_forall₂.mpr (forall₂_imp_of_mem each fun a member _ _ same => ih a member same)
      rw [outline_app,outline_app,outlines]
    | _ => simp [alike] at same

/-- Every application has the form that belongs to its operator. -/
inductive Formed (forms : String → Form) : Expr → Prop
  | int (n : Int) : Formed forms (.int n)
  | truth (v : Value) : Formed forms (.truth v)
  | var (name : String) : Formed forms (.var name)
  | app (op : String) {args : List Expr} (each : ∀ e ∈ args, Formed forms e) : Formed forms (.app (forms op) op args)

end Expr

/-- Two evaluations end alike: with related results, or with the same fault. -/
inductive EvalAlike {α β : Type} (R : α → β → Prop) : Except Fault α → Except Fault β → Prop
  | ok {a : α} {b : β} (related : R a b) : EvalAlike R (.ok a) (.ok b)
  | error (fault : Fault) : EvalAlike R (.error fault) (.error fault)

namespace EvalAlike

variable {α β γ δ : Type} {R : α → β → Prop} {S : γ → δ → Prop} {x : Except Fault α} {y : Except Fault β}

theorem bind {f : α → Except Fault γ} {g : β → Except Fault δ} (first : EvalAlike R x y)
    (next : ∀ a b, R a b → EvalAlike S (f a) (g b)) : EvalAlike S (x >>= f) (y >>= g) := by
  cases first with
  | ok related => exact next _ _ related
  | error fault => exact .error fault

theorem mono {T : α → β → Prop} (alike : EvalAlike R x y) (wider : ∀ a b, R a b → T a b) : EvalAlike T x y := by
  cases alike with
  | ok related => exact .ok (wider _ _ related)
  | error fault => exact .error fault

end EvalAlike

namespace Value

/-- The values are the same number. -/
def Same (v w : Value) : Prop := v.toInt = w.toInt

theorem alike_iff {v w : Value} : v.alike w = true ↔ v.Same w := by simp [alike,Same]

variable {v w v' w' : Value} {op : String} {vs ws : List Value}

theorem Same.isTrue (same : v.Same w) : v.isTrue = w.isTrue := by
  unfold Value.isTrue
  rw [same]

theorem Same.both (left : v.Same v') (right : w.Same w') : (v.both w).Same (v'.both w') := by
  unfold Value.both
  rw [left.isTrue]
  split
  · exact right
  · exact left

theorem Same.either (left : v.Same v') (right : w.Same w') : (v.either w).Same (v'.either w') := by
  unfold Value.either
  rw [left.isTrue]
  split
  · exact left
  · exact right

theorem foldl_same {f : Value → Value → Value}
    (respects : ∀ v v' w w' : Value, v.Same v' → w.Same w' → (f v w).Same (f v' w')) (start : v.Same w)
    (each : List.Forall₂ Same vs ws) : (vs.foldl f v).Same (ws.foldl f w) := by
  induction each generalizing v w with
  | nil => exact start
  | cons first _ ih => exact ih (respects _ _ _ _ start first)

theorem connective_same (each : List.Forall₂ Same vs ws) : EvalAlike Same (connective op vs) (connective op ws) := by
  unfold connective
  split
  · rcases each with _ | ⟨first,_ | ⟨second,rest⟩⟩
    · exact .error _
    · refine .ok ?_
      rw [first.isTrue]
      rfl
    · exact .error _
  · exact .ok (foldl_same (fun _ _ _ _ => Same.both) rfl each)
  · exact .ok (foldl_same (fun _ _ _ _ => Same.either) rfl each)
  · exact .error _

theorem foldlM_same {f : Value → Value → Except Fault Value}
    (respects : ∀ v v' w w' : Value, v.Same v' → w.Same w' → EvalAlike Same (f v w) (f v' w')) (start : v.Same w)
    (each : List.Forall₂ Same vs ws) : EvalAlike Same (vs.foldlM f v) (ws.foldlM f w) := by
  induction each generalizing v w with
  | nil => exact .ok start
  | cons first _ ih =>
    rw [List.foldlM_cons,List.foldlM_cons]
    exact (respects _ _ _ _ start first).bind fun _ _ next => ih next

theorem fold_same {f : Value → Value → Except Fault Value}
    (respects : ∀ v v' w w' : Value, v.Same v' → w.Same w' → EvalAlike Same (f v w) (f v' w'))
    (each : List.Forall₂ Same vs ws) : EvalAlike Same (fold f vs) (fold f ws) := by
  cases each with
  | nil => exact .error _
  | cons first rest => exact foldlM_same respects first rest

theorem divide_same (left : v.Same v') (right : w.Same w') : EvalAlike Same (divide v w) (divide v' w') := by
  unfold divide
  rw [left,right]
  split
  · exact .error _
  · exact .ok rfl

theorem integers_same (f : Int → Int → Int) (v v' w w' : Value) (left : v.Same v') (right : w.Same w') :
    EvalAlike Same (.ok (.int (f v.toInt w.toInt))) (.ok (.int (f v'.toInt w'.toInt))) := by
  rw [left,right]
  exact .ok rfl

theorem arithmetic_same (each : List.Forall₂ Same vs ws) : EvalAlike Same (arithmetic op vs) (arithmetic op ws) := by
  unfold arithmetic
  split
  · exact fold_same (integers_same (· + ·)) each
  · exact fold_same (integers_same (· - ·)) each
  · exact fold_same (integers_same (· * ·)) each
  · exact fold_same (fun _ _ _ _ => divide_same) each
  · exact .error _

theorem comparison_same (left : v.Same v') (right : w.Same w') :
    EvalAlike Same (comparison op v w) (comparison op v' w') := by
  unfold comparison
  rw [left,right]
  split <;> first | exact .ok rfl | exact .error _

end Value

theorem Form.apply_same (form : Form) {op : String} {vs ws : List Value} (each : List.Forall₂ Value.Same vs ws) :
    EvalAlike Value.Same (form.apply op vs) (form.apply op ws) := by
  cases form with
  | plain => exact .error _
  | logic => exact Value.connective_same each
  | arith => exact Value.arithmetic_same each
  | compare =>
    rcases each with _ | ⟨first,_ | ⟨second,rest⟩⟩
    · exact .error _
    · exact .error _
    · exact Value.comparison_same first second

namespace Expr

variable {store : Store}

theorem evalAll_same_values {as bs : List Expr}
    (each : List.Forall₂ (fun a b => EvalAlike Value.Same (a.eval store) (b.eval store)) as bs) :
    EvalAlike (List.Forall₂ Value.Same) (evalAll store as) (evalAll store bs) := by
  induction each with
  | nil => exact .ok .nil
  | cons first _ ih =>
    simp only [evalAll]
    exact first.bind fun _ _ value => ih.bind fun _ _ values => .ok (.cons value values)

theorem eval_app_same {form : Form} {op : String} {as bs : List Expr}
    (each : List.Forall₂ (fun a b => EvalAlike Value.Same (a.eval store) (b.eval store)) as bs) :
    EvalAlike Value.Same ((app form op as).eval store) ((app form op bs).eval store) := by
  cases form with
  | plain => exact .error _
  | logic | arith | compare =>
    simp only [eval]
    exact (evalAll_same_values each).bind fun _ _ values => Form.apply_same _ values

/-- Expressions that differ in the kinds of their constants only have the same value, or fail with the same fault. -/
theorem evalAlike_of_numeric {a b : Expr} (same : a.numeric = b.numeric) :
    EvalAlike Value.Same (a.eval store) (b.eval store) := by
  induction a using Expr.structural generalizing b with
  | int n => cases b <;> simp_all [eval] <;> exact .ok rfl
  | truth v => cases b <;> simp_all [eval] <;> exact .ok (by simp_all [Value.Same,Value.toInt])
  | var name =>
    cases b with
    | var other =>
      simp only [numeric_var,var.injEq] at same
      subst same
      simp only [eval]
      split
      · exact .ok rfl
      · exact .error _
    | _ => simp at same
  | app form op args ih =>
    cases b with
    | app g p bs =>
      simp only [numeric_app,app.injEq] at same
      obtain ⟨rfl,rfl,numerics⟩ := same
      exact eval_app_same (forall₂_imp_of_mem (map_eq_map_iff_forall₂.mp numerics) fun a member _ _ same =>
        ih a member same)
    | _ => simp at same

end Expr

end WhileExec
