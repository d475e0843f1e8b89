import TypedCore.Lowering.Stmt
import TypedCore.Proofs.Conditions

/-!
# The meaning of statements

A big-step semantics for statements. An `Effect` relates the world before a statement to the worlds it
may end in and to the way it is left: a `return` leaves all statements around it, and a loop decides its
condition before every pass. A statement that runs forever relates the world before it to nothing.
-/

namespace TypedCore

open Machine

/-- How a statement is left. -/
inductive Flow where
  | normal
  | returned

abbrev Machine.Effect (M : Machine) := M.World → Flow → M.World → Prop

variable {M : Machine}

namespace Machine.Effect

/-- An evaluation whose result is not needed. -/
def after {α : Type} (m : M.RunM α) (flow : Flow) : M.Effect := fun ω k ω' =>
  k = flow ∧ ∃ a, m ω = some (a, ω')

def skip : M.Effect := after (pure ()) .normal

/-- What comes after a return is not run. -/
def seq (a b : M.Effect) : M.Effect := fun ω k ω' =>
  (∃ ω₁, a ω .normal ω₁ ∧ b ω₁ k ω') ∨ (k = .returned ∧ a ω .returned ω')

def branch (m : M.RunM Bool) (a b : M.Effect) : M.Effect := fun ω k ω' =>
  ∃ d ω₁, m ω = some (d, ω₁) ∧ (if d then a else b) ω₁ k ω'

inductive Repeats (m : M.RunM Bool) (a : M.Effect) : M.World → Flow → M.World → Prop
  | done {ω ω' : M.World} (h : m ω = some (false, ω')) : Repeats m a ω .normal ω'
  | again {ω ω₁ ω₂ ω' : M.World} {k : Flow} (h : m ω = some (true, ω₁)) (ha : a ω₁ .normal ω₂)
      (hrest : Repeats m a ω₂ k ω') : Repeats m a ω k ω'
  | left {ω ω₁ ω' : M.World} (h : m ω = some (true, ω₁)) (ha : a ω₁ .returned ω') :
      Repeats m a ω .returned ω'

end Machine.Effect

namespace Eval

variable (t : TypeTable) (env : M.Env)

mutual

/-- Declarations have no meaning here. -/
def statement : Stmt → M.Effect
  | .expr e => .after (meaning t env e).value .normal
  | .ret none => .after (pure ()) .returned
  | .ret (some e) => .after (meaning t env e).value .returned
  | .decl _ => fun _ _ _ => False
  | .ifThen cond body => .branch (shortCircuit t env cond) (statements body) .skip
  | .ifElse cond thenBody elseBody =>
    .branch (shortCircuit t env cond) (statements thenBody) (statements elseBody)
  | .loop cond body => Effect.Repeats (shortCircuit t env cond) (statements body)
  | .block body => statements body

def statements : List Stmt → M.Effect
  | [] => .skip
  | st :: rest => .seq (statement st) (statements rest)

end

/-- The statements of a body, each with the types that are known when it is reached. -/
def body : List (TypeTable × Stmt) → M.Effect
  | [] => .skip
  | p :: rest => .seq (statement p.1 env p.2) (body rest)

/-- Each parameter is put into a slot; `index` is the number of the first. -/
def enter (regs : M.Regs) (index : Nat) (env : M.Env) : List Parameter → M.RunM M.Env
  | [] => return env
  | p :: rest => do
    let slot ← .alloca p.ty
    .store (regs index) slot p.ty
    enter regs (index + 1) (fun symbol => if symbol = p.symbol then some slot else env symbol) rest

end Eval

namespace Stmt

mutual

/-- There are no declarations, and every condition is one of `C`. -/
def Plain (C : Expr → Prop) : Stmt → Prop
  | .expr _ => True
  | .ret _ => True
  | .decl _ => False
  | .ifThen cond body => C cond ∧ AllPlain C body
  | .ifElse cond thenBody elseBody => C cond ∧ AllPlain C thenBody ∧ AllPlain C elseBody
  | .loop cond body => C cond ∧ AllPlain C body
  | .block body => AllPlain C body

def AllPlain (C : Expr → Prop) : List Stmt → Prop
  | [] => True
  | st :: rest => Plain C st ∧ AllPlain C rest

end

variable {C C' : Expr → Prop}

mutual

theorem Plain.imp (hC : ∀ e, C e → C' e) : ∀ {st : Stmt}, Plain C st → Plain C' st
  | .expr _, h | .ret _, h | .decl _, h => h
  | .ifThen _ _, h => ⟨hC _ h.1, AllPlain.imp hC h.2⟩
  | .ifElse _ _ _, h => ⟨hC _ h.1, AllPlain.imp hC h.2.1, AllPlain.imp hC h.2.2⟩
  | .loop _ _, h => ⟨hC _ h.1, AllPlain.imp hC h.2⟩
  | .block _, h => AllPlain.imp hC h

theorem AllPlain.imp (hC : ∀ e, C e → C' e) : ∀ {sts : List Stmt}, AllPlain C sts → AllPlain C' sts
  | [], h => h
  | _ :: _, h => ⟨h.1.imp hC, AllPlain.imp hC h.2⟩

end

end Stmt

end TypedCore
