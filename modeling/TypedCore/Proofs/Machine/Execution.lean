import Mathlib.Logic.Relation
import Mathlib.Tactic.Common
import TypedCore.Ir.Function

/-!
# Running the code of a function

A `Machine` says what words and storage are and what single instructions do; it is left open but for
what comparisons with zero need. Calls are events: the machine is told their results, which may depend
on all calls before. Blocks are run instruction by instruction, a branch continues at the start of its
target, and a phi takes the value that belongs to the block control came from.
-/

namespace TypedCore

open Ir

/-- A call: what is called and with which words. -/
structure Event (Word : Type) where
  callee : Word
  args : List Word

/-- The meaning of single instructions, and the results of calls. -/
structure Machine where
  Word : Type
  Memory : Type
  int : Int64 → Word
  float : Float → Word
  null : Word
  undef : Word
  global : String → Word
  function : String → Word
  aggregate : List Word → Word
  /-- The address of a text that the compiler has put into storage. -/
  text : String → Word
  binary : BinOp → Word → Word → Ty → Word
  unary : UnOp → Word → Ty → Word
  offset : Word → List Word → Ty → Word
  load : Memory → Word → Ty → Word
  store : Memory → Word → Word → Ty → Memory
  /-- A new slot. -/
  alloca : Memory → Ty → Word × Memory
  /-- The result of a call after the given ones; the function called may change the storage. -/
  call : List (Event Word) → Event Word → Ty → Memory → Word × Memory
  /-- Whether a conditional branch goes to its first target. -/
  isTrue : Word → Bool
  isTrue_int : ∀ v, isTrue (int v) = (v != 0)
  eq_int : ∀ a b, binary .eq (int a) (int b) .i1 = int (if a = b then 1 else 0)
  ne_int : ∀ a b, binary .ne (int a) (int b) .i1 = int (if a = b then 0 else 1)
  zext_bit : ∀ (b : Bool) ty, unary .zext (int (if b then 1 else 0)) ty = int (if b then 1 else 0)
  /-- A call that returns an integer returns an integer, -/
  call_int : ∀ past e bits m, ∃ v, (call past e (.int bits) m).1 = int v
  /-- and one that returns a single bit a single bit. -/
  call_bit : ∀ past e m, ∃ b : Bool, (call past e .i1 m).1 = int (if b then 1 else 0)

namespace Machine

variable (M : Machine)

/-- What a function works on besides its temporaries: the storage, and the calls made so far. -/
structure World where
  memory : M.Memory
  trace : List (Event M.Word)

abbrev Regs := TempId → M.Word

variable {M}

mutual

/-- The word that a value stands for. -/
def word (regs : M.Regs) : Value → M.Word
  | .temp id => regs id
  | .const value => M.int value
  | .float value => M.float value
  | .null => M.null
  | .global name => M.global name
  | .function name => M.function name
  | .aggregate items => M.aggregate (words regs items)
  | .undef => M.undef

def words (regs : M.Regs) : List Value → List M.Word
  | [] => []
  | v :: rest => word regs v :: words regs rest

end

def assign (regs : M.Regs) (id : TempId) (w : M.Word) : M.Regs :=
  fun i => if i = id then w else regs i

@[simp] theorem assign_self (regs : M.Regs) (id : TempId) (w : M.Word) : assign regs id w id = w :=
  if_pos rfl

theorem assign_of_ne (regs : M.Regs) {i id : TempId} (w : M.Word) (h : i ≠ id) :
    assign regs id w i = regs i :=
  if_neg h

/-- The world after a call, and its result. -/
def World.call (ω : M.World) (callee : M.Word) (args : List M.Word) (ty : Ty) : M.Word × M.World :=
  let event := ⟨callee, args⟩
  let (result, memory) := M.call ω.trace event ty ω.memory
  (result, ⟨memory, ω.trace ++ [event]⟩)

variable (M)

/-- Where control stands, where it came from, and what it has. -/
structure Config where
  label : LabelId
  index : Nat
  prev : LabelId
  regs : M.Regs
  world : M.World

variable {M}

namespace Config

variable (c : M.Config)

def next : M.Config := { c with index := c.index + 1 }

def define (id : TempId) (w : M.Word) : M.Config :=
  { c.next with regs := assign c.regs id w }

def goto (target : LabelId) : M.Config :=
  { c with label := target, index := 0, prev := c.label }

/-- The effect of an instruction. A return has none: the function is over. -/
def exec : Instr → Option M.Config
  | .binary r op a b ty => some (c.define r (M.binary op (word c.regs a) (word c.regs b) ty))
  | .unary r op a ty => some (c.define r (M.unary op (word c.regs a) ty))
  | .load r p ty => some (c.define r (M.load c.world.memory (word c.regs p) ty))
  | .store v p ty =>
    some { c.next with
      world := { c.world with memory := M.store c.world.memory (word c.regs v) (word c.regs p) ty } }
  | .offset r p is ty => some (c.define r (M.offset (word c.regs p) (words c.regs is) ty))
  | .alloca r slot _ =>
    let (w, memory) := M.alloca c.world.memory slot
    some { c.define r w with world := { c.world with memory } }
  | .call result f args ty =>
    let (w, world) := c.world.call (word c.regs f) (words c.regs args) ty
    match result with
    | some r => some { c.define r w with world }
    | none => some { c.next with world }
  | .branch target => some (c.goto target)
  | .branchIf v onTrue onFalse =>
    some (c.goto (if M.isTrue (word c.regs v) then onTrue else onFalse))
  | .phi r incoming _ =>
    (incoming.find? fun p => p.2 == c.prev).map fun p => c.define r (word c.regs p.1)
  | .comment _ => some c.next
  | .ret _ => none

end Config

/-- The instruction that control stands at. -/
def fetch (bs : List Block) (c : M.Config) : Option Instr := do
  let b ← bs.find? fun b => b.id == c.label
  b.instrs[c.index]?

/-- One instruction of the blocks `bs` is executed. -/
def Step (bs : List Block) (c c' : M.Config) : Prop :=
  ∃ i, fetch bs c = some i ∧ c.exec i = some c'

/-- The function is over. -/
def Returns (bs : List Block) (c : M.Config) : Prop := ∃ v, fetch bs c = some (.ret v)

/-- Any number of instructions are executed. -/
abbrev Runs (bs : List Block) : M.Config → M.Config → Prop := Relation.ReflTransGen (Step bs)

variable {bs : List Block} {c c₁ c₂ : M.Config}

theorem Step.unique (h₁ : Step bs c c₁) (h₂ : Step bs c c₂) : c₁ = c₂ := by
  obtain ⟨i, hi, h₁⟩ := h₁
  obtain ⟨j, hj, h₂⟩ := h₂
  cases hi.symm.trans hj
  exact Option.some.inj (h₁.symm.trans h₂)

theorem Returns.not_step (h : Returns bs c) : ¬ Step bs c c₁ := by
  rintro ⟨i, hi, h₁⟩
  obtain ⟨v, hv⟩ := h
  cases hi.symm.trans hv
  cases h₁

/-- The function is over after `n` instructions. -/
inductive Halts (bs : List Block) : Nat → M.Config → M.Config → Prop
  | here {c : M.Config} (h : Returns bs c) : Halts bs 0 c c
  | step {n : Nat} {c c₁ c' : M.Config} (h : Step bs c c₁) (h' : Halts bs n c₁ c') :
      Halts bs (n + 1) c c'

namespace Halts

variable {n : Nat} {c' : M.Config}

theorem runs (h : Halts bs n c c') : Runs bs c c' ∧ Returns bs c' := by
  induction h with
  | here h => exact ⟨.refl, h⟩
  | step h _ ih => exact ⟨.head h ih.1, ih.2⟩

theorem of_runs (h : Runs bs c c') (hr : Returns bs c') : ∃ n, Halts bs n c c' := by
  induction h using Relation.ReflTransGen.head_induction_on with
  | refl => exact ⟨0, .here hr⟩
  | head hstep _ ih =>
    obtain ⟨n, hn⟩ := ih
    exact ⟨n + 1, .step hstep hn⟩

/-- There is only one way to go. -/
theorem after_step (h : Halts bs n c c') (hs : Step bs c c₁) : ∃ m, n = m + 1 ∧ Halts bs m c₁ c' := by
  cases h with
  | here h => exact absurd hs h.not_step
  | @step n _ _ _ h h' =>
    cases h.unique hs
    exact ⟨n, rfl, h'⟩

theorem after_runs (h : Halts bs n c c') (hs : Runs bs c c₁) : ∃ m ≤ n, Halts bs m c₁ c' := by
  induction hs with
  | refl => exact ⟨n, Nat.le_refl n, h⟩
  | tail _ hstep ih =>
    obtain ⟨m, hm, h₁⟩ := ih
    obtain ⟨k, rfl, h₂⟩ := h₁.after_step hstep
    exact ⟨k, Nat.le_of_succ_le hm, h₂⟩

theorem after_transGen (h : Halts bs n c c') (hs : Relation.TransGen (Step bs) c c₁) :
    ∃ m < n, Halts bs m c₁ c' := by
  obtain ⟨c₂, hstep, hruns⟩ := Relation.TransGen.head'_iff.1 hs
  obtain ⟨k, rfl, h₁⟩ := h.after_step hstep
  obtain ⟨m, hm, h₂⟩ := h₁.after_runs hruns
  exact ⟨m, Nat.lt_succ_of_le hm, h₂⟩

/-- Blocks with the same instructions at all places that control gets to. -/
theorem congr {bs' : List Block} {P : M.Config → Prop} (hP : ∀ c, P c → fetch bs c = fetch bs' c)
    (hstep : ∀ c c', P c → Step bs c c' → P c') (hc : P c) : Halts bs n c c' ↔ Halts bs' n c c' := by
  constructor
  · intro h
    induction h with
    | here h =>
      rw [Returns, hP _ hc] at h
      exact .here h
    | step h _ ih =>
      have hs := h
      rw [Step, hP _ hc] at hs
      exact .step hs (ih (hstep _ _ hc h))
  · intro h
    induction h with
    | here h =>
      rw [Returns, ← hP _ hc] at h
      exact .here h
    | step h _ ih =>
      rw [Step, ← hP _ hc] at h
      exact .step h (ih (hstep _ _ hc h))

end Halts

/-- Control stays in its block or goes to a target of the instruction. -/
theorem Config.label_of_exec {i : Instr} (h : c.exec i = some c₁) :
    c₁.label = c.label ∨ c₁.label ∈ i.successors := by
  cases i with
  | branch target =>
    cases h
    exact .inr (by simp [Instr.successors, Config.goto])
  | branchIf v onTrue onFalse =>
    cases h
    refine .inr ?_
    simp only [Instr.successors, Config.goto]
    split <;> simp
  | phi r incoming ty =>
    obtain ⟨p, -, rfl⟩ := Option.map_eq_some_iff.1 h
    exact .inl rfl
  | call result f args ty => cases result <;> (cases h; exact .inl rfl)
  | ret v => cases h
  | binary | unary | load | store | offset | alloca | comment => cases h; exact .inl rfl

end Machine

end TypedCore
