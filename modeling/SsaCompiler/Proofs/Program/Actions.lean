import SsaCompiler.Program.ToGraph

/-!
# What a statement does, besides computing words

A run of a statement divides, and it decides which way to go. Both are **actions**
(`Action`), and what a statement may do is a list of them, in the order of evaluation
(`Stmt.Performs`). *Nothing is said of the words*, so every condition may turn out
either way, and both operands of a connective and both arms of a conditional
expression are evaluated.

A division is told by its number in the text (`Stmt.divisions`), which is the same in
every round of a loop. So **an action says which division is performed**, not only
that there is one.

The decisions tell all the rest: two lists of actions with the same decisions are
the same (`Stmt.Performs.eq_of_decisions_eq`).
-/

namespace SsaCompiler

open List

variable {more more' : List Bool}

/-- The division that an operator asks for, if any. -/
def Operator.divisions : Operator → List ArithOp
  | arith op => if op.hasEffect then [op] else []
  | _ => []

/-- **The divisions of an expression**, in the order of evaluation. -/
def Expr.divisions : Expr → List ArithOp
  | int _ | bool _ | var _ => []
  | binary op lhs rhs => lhs.divisions ++ rhs.divisions ++ op.divisions
  | neg operand | bitNot operand | logicNot operand => operand.divisions
  | cond condition ifTrue ifFalse =>
    condition.divisions ++ ifTrue.divisions ++ ifFalse.divisions

/-- **The divisions of a statement**, in the order of the text. What stands behind a
return does not count. -/
def Stmt.divisions : Stmt → List ArithOp
  | skip => []
  | seq first rest => first.divisions ++ if first.returns then [] else rest.divisions
  | declare _ _ init => init.elim [] Expr.divisions
  | assign _ op value => value.divisions ++ op.elim [] Operator.divisions
  | ifThen condition body | loop condition body => condition.divisions ++ body.divisions
  | ifElse condition body otherwise =>
    condition.divisions ++ body.divisions ++ otherwise.divisions
  | ret value => value.divisions

/-- **What happens in a run**: a division, told by its number in the text, or a
decision. -/
inductive Action where
  | divides (number : Nat) (op : ArithOp)
  | decides (taken : Bool)
deriving DecidableEq

namespace Action

/-- The way that an action decides on. -/
def decision? : Action → Option Bool
  | divides _ _ => none
  | decides taken => some taken

/-- **The decisions among some actions.** -/
def decisions (actions : List Action) : List Bool :=
  actions.filterMap decision?

/-- **Some divisions**, one after the other, from a number on. -/
def divisions : Nat → List ArithOp → List Action
  | _, [] => []
  | number, op :: ops => .divides number op :: divisions (number + 1) ops

end Action

/-- **A statement performs some actions**, and goes on or returns. Its divisions have
numbers from a given one on. -/
inductive Stmt.Performs : Stmt → Nat → List Action → Flow → Prop
  | skip {k : Nat} : Performs .skip k [] .continues
  | done {first rest : Stmt} {k : Nat} {actions : List Action}
      (h : Performs first k actions .returns) : Performs (.seq first rest) k actions .returns
  | next {first rest : Stmt} {k : Nat} {actions more : List Action} {flow : Flow}
      (h : Performs first k actions .continues)
      (hrest : Performs rest (k + first.divisions.length) more flow) :
      Performs (.seq first rest) k (actions ++ more) flow
  | declare {name : String} {ty : Ty} {k : Nat} : Performs (.declare name ty none) k [] .continues
  | define {name : String} {ty : Ty} {e : Expr} {k : Nat} :
      Performs (.declare name ty (some e)) k (Action.divisions k e.divisions) .continues
  | assign {name : String} {e : Expr} {k : Nat} :
      Performs (.assign name none e) k (Action.divisions k e.divisions) .continues
  | update {name : String} {op : Operator} {e : Expr} {k : Nat} :
      Performs (.assign name (some op) e) k (Action.divisions k (e.divisions ++ op.divisions))
        .continues
  | enter {c : Expr} {body : Stmt} {k : Nat} {actions : List Action} {flow : Flow}
      (h : Performs body (k + c.divisions.length) actions flow) :
      Performs (.ifThen c body) k (Action.divisions k c.divisions ++ .decides true :: actions) flow
  | avoid {c : Expr} {body : Stmt} {k : Nat} :
      Performs (.ifThen c body) k (Action.divisions k c.divisions ++ [.decides false]) .continues
  | left {c : Expr} {body otherwise : Stmt} {k : Nat} {actions : List Action} {flow : Flow}
      (h : Performs body (k + c.divisions.length) actions flow) :
      Performs (.ifElse c body otherwise) k
        (Action.divisions k c.divisions ++ .decides true :: actions) flow
  | right {c : Expr} {body otherwise : Stmt} {k : Nat} {actions : List Action} {flow : Flow}
      (h : Performs otherwise (k + c.divisions.length + body.divisions.length) actions flow) :
      Performs (.ifElse c body otherwise) k
        (Action.divisions k c.divisions ++ .decides false :: actions) flow
  | round {c : Expr} {body : Stmt} {k : Nat} {actions more : List Action} {flow : Flow}
      (h : Performs body (k + c.divisions.length) actions .continues)
      (hrest : Performs (.loop c body) k more flow) :
      Performs (.loop c body) k
        (Action.divisions k c.divisions ++ .decides true :: (actions ++ more)) flow
  | leave {c : Expr} {body : Stmt} {k : Nat} {actions : List Action}
      (h : Performs body (k + c.divisions.length) actions .returns) :
      Performs (.loop c body) k (Action.divisions k c.divisions ++ .decides true :: actions) .returns
  | exit {c : Expr} {body : Stmt} {k : Nat} :
      Performs (.loop c body) k (Action.divisions k c.divisions ++ [.decides false]) .continues
  | ret {e : Expr} {k : Nat} : Performs (.ret e) k (Action.divisions k e.divisions) .returns

namespace Action

@[simp] theorem decisions_append (a b : List Action) :
    decisions (a ++ b) = decisions a ++ decisions b :=
  filterMap_append

@[simp] theorem decisions_divisions (k : Nat) (ops : List ArithOp) :
    decisions (divisions k ops) = [] := by
  induction ops generalizing k with
  | nil => rfl
  | cons op ops ih => exact ih (k + 1)

/-- Decisions after some divisions agree one by one. -/
theorem decides_inj {k k' : Nat} {ops ops' : List ArithOp} {taken taken' : Bool}
    {actions actions' : List Action}
    (h : decisions (divisions k ops ++ decides taken :: actions) ++ more
      = decisions (divisions k' ops' ++ decides taken' :: actions') ++ more') :
    taken = taken' ∧ decisions actions ++ more = decisions actions' ++ more' := by
  rw [decisions_append, decisions_append, decisions_divisions, decisions_divisions] at h
  exact List.cons.inj h

theorem divisions_append (k : Nat) (a b : List ArithOp) :
    divisions k (a ++ b) = divisions k a ++ divisions (k + a.length) b := by
  induction a generalizing k with
  | nil => rfl
  | cons op a ih =>
    rw [cons_append, divisions, divisions, ih, Nat.add_right_comm]
    rfl

end Action

namespace Stmt.Performs

variable {body : Stmt} {k : Nat} {actions actions' : List Action} {flow flow' : Flow}

/-- **Decisions that agree as far as they go** belong to the same actions. -/
theorem unique (h : body.Performs k actions flow) (h' : body.Performs k actions' flow')
    (heq : Action.decisions actions ++ more = Action.decisions actions' ++ more') :
    actions = actions' ∧ flow = flow' ∧ more = more' := by
  induction h generalizing actions' flow' more more' with
  | skip | declare | define | assign | update | ret =>
    cases h'
    exact ⟨rfl, rfl, by simpa using heq⟩
  | done h ih =>
    cases h' with
    | done h' => exact ih h' heq
    | next h' _ =>
      rw [Action.decisions_append, append_assoc] at heq
      obtain ⟨-, hf, -⟩ := ih h' heq
      cases hf
  | next h hr ih ihrest =>
    rw [Action.decisions_append, append_assoc] at heq
    cases h' with
    | done h' =>
      obtain ⟨-, hf, -⟩ := ih h' heq
      cases hf
    | next h' hr' =>
      rw [Action.decisions_append, append_assoc] at heq
      obtain ⟨rfl, -, heq⟩ := ih h' heq
      obtain ⟨rfl, hf, heq⟩ := ihrest hr' heq
      exact ⟨rfl, hf, heq⟩
  | enter h ih =>
    cases h' with
    | enter h' =>
      obtain ⟨rfl, hf, heq⟩ := ih h' (Action.decides_inj heq).2
      exact ⟨rfl, hf, heq⟩
    | avoid => cases (Action.decides_inj heq).1
  | avoid =>
    cases h' with
    | enter h' => cases (Action.decides_inj heq).1
    | avoid => exact ⟨rfl, rfl, (Action.decides_inj heq).2⟩
  | left h ih =>
    cases h' with
    | left h' =>
      obtain ⟨rfl, hf, heq⟩ := ih h' (Action.decides_inj heq).2
      exact ⟨rfl, hf, heq⟩
    | right h' => cases (Action.decides_inj heq).1
  | right h ih =>
    cases h' with
    | left h' => cases (Action.decides_inj heq).1
    | right h' =>
      obtain ⟨rfl, hf, heq⟩ := ih h' (Action.decides_inj heq).2
      exact ⟨rfl, hf, heq⟩
  | round h hr ih ihrest =>
    cases h' with
    | round h' hr' =>
      replace heq := (Action.decides_inj heq).2
      rw [Action.decisions_append, Action.decisions_append, append_assoc, append_assoc] at heq
      obtain ⟨rfl, -, heq⟩ := ih h' heq
      obtain ⟨rfl, hf, heq⟩ := ihrest hr' heq
      exact ⟨rfl, hf, heq⟩
    | leave h' =>
      replace heq := (Action.decides_inj heq).2
      rw [Action.decisions_append, append_assoc] at heq
      obtain ⟨-, hf, -⟩ := ih h' heq
      cases hf
    | exit => cases (Action.decides_inj heq).1
  | leave h ih =>
    cases h' with
    | round h' hr' =>
      replace heq := (Action.decides_inj heq).2
      rw [Action.decisions_append, append_assoc] at heq
      obtain ⟨-, hf, -⟩ := ih h' heq
      cases hf
    | leave h' =>
      obtain ⟨rfl, hf, heq⟩ := ih h' (Action.decides_inj heq).2
      exact ⟨rfl, hf, heq⟩
    | exit => cases (Action.decides_inj heq).1
  | exit =>
    cases h' with
    | round h' hr' | leave h' => cases (Action.decides_inj heq).1
    | exit => exact ⟨rfl, rfl, (Action.decides_inj heq).2⟩

/-- The decisions tell the actions. -/
theorem eq_of_decisions_eq (h : body.Performs k actions flow) (h' : body.Performs k actions' flow')
    (heq : Action.decisions actions = Action.decisions actions') : actions = actions' :=
  (h.unique h' (congrArg (· ++ []) heq)).1

end Stmt.Performs

end SsaCompiler
