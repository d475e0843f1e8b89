import Mathlib.Data.List.Forall2
import Mathlib.Order.Basic
import TypedCore.Proofs.Emitter.Drafting
import TypedCore.Proofs.Machine.Execution

/-!
# Where control stands while code is generated

Code is generated into a function whose later blocks are not there yet, and run in the finished
function. A `Target` is the finished function, and `s.Extends T` says that the code of `s` is in it.
`s.At T c`: control stands where the next instruction of `s` will be. A `Stage` is what is known of the
temporaries at such a place; those that are taken keep their words as generation goes on.
-/

namespace TypedCore

open Ir

/-! ### Values -/

namespace Ir.Value

mutual

/-- The temporaries of a value are numbered below `n`. -/
def Below (n : Nat) : Value → Prop
  | .temp id => id < n
  | .aggregate items => AllBelow n items
  | _ => True

def AllBelow (n : Nat) : List Value → Prop
  | [] => True
  | v :: rest => Below n v ∧ AllBelow n rest

end

mutual

theorem Below.mono {n n' : Nat} (hn : n ≤ n') : ∀ {v : Value}, Below n v → Below n' v
  | .temp _, h => Nat.lt_of_lt_of_le h hn
  | .aggregate _, h => AllBelow.mono hn h
  | .const _, _ | .float _, _ | .null, _ | .global _, _ | .function _, _ | .undef, _ => trivial

theorem AllBelow.mono {n n' : Nat} (hn : n ≤ n') : ∀ {vs : List Value}, AllBelow n vs → AllBelow n' vs
  | [], _ => trivial
  | _ :: _, h => ⟨h.1.mono hn, AllBelow.mono hn h.2⟩

end

mutual

theorem exists_below : ∀ v : Value, ∃ n, Below n v
  | .temp id => ⟨id + 1, Nat.lt_succ_self id⟩
  | .aggregate items => exists_allBelow items
  | .const _ | .float _ | .null | .global _ | .function _ | .undef => ⟨0, trivial⟩

theorem exists_allBelow : ∀ vs : List Value, ∃ n, AllBelow n vs
  | [] => ⟨0, trivial⟩
  | v :: rest =>
    have ⟨n, hn⟩ := exists_below v
    have ⟨m, hm⟩ := exists_allBelow rest
    ⟨max n m, hn.mono (Nat.le_max_left n m), hm.mono (Nat.le_max_right n m)⟩

end

end Ir.Value

namespace Machine

variable {M : Machine}

mutual

theorem word_congr {n : Nat} {regs regs' : M.Regs} (h : ∀ i < n, regs' i = regs i) :
    ∀ {v : Value}, v.Below n → word regs' v = word regs v
  | .temp id, hv => h id hv
  | .aggregate items, hv => by rw [word, word, words_congr h hv]
  | .const _, _ | .float _, _ | .null, _ | .global _, _ | .function _, _ | .undef, _ => rfl

theorem words_congr {n : Nat} {regs regs' : M.Regs} (h : ∀ i < n, regs' i = regs i) :
    ∀ {vs : List Value}, Value.AllBelow n vs → words regs' vs = words regs vs
  | [], _ => rfl
  | _ :: _, hv => by rw [words, words, word_congr h hv.1, words_congr h hv.2]

end

/-! ### Stages -/

variable (M)

/-- The temporaries that are taken, with their words. -/
structure Stage where
  temps : Nat
  regs : M.Regs

variable {M}

/-- Temporaries that are taken keep their words. -/
instance : Preorder M.Stage where
  le σ σ' := σ.temps ≤ σ'.temps ∧ ∀ i < σ.temps, σ'.regs i = σ.regs i
  le_refl _ := ⟨Nat.le_refl _, fun _ _ => rfl⟩
  le_trans _ _ _ h h₁ := ⟨Nat.le_trans h.1 h₁.1, fun i hi =>
    (h₁.2 i (Nat.lt_of_lt_of_le hi h.1)).trans (h.2 i hi)⟩

namespace Stage

theorem widen {σ : M.Stage} {n n' : Nat} {regs : M.Regs} (h : σ ≤ ⟨n, regs⟩) (hn : n ≤ n') :
    σ ≤ ⟨n', regs⟩ :=
  ⟨Nat.le_trans h.1 hn, h.2⟩

/-- A new temporary is assigned. -/
theorem assign (n : Nat) (regs : M.Regs) (w : M.Word) :
    (⟨n, regs⟩ : M.Stage) ≤ ⟨n + 1, Machine.assign regs n w⟩ :=
  ⟨Nat.le_succ n, fun _ hi => assign_of_ne regs w (Nat.ne_of_lt hi)⟩

end Stage

/-- At this stage the value stands for the word. -/
structure Denotes (σ : M.Stage) (v : Value) (w : M.Word) : Prop where
  below : v.Below σ.temps
  word_eq : word σ.regs v = w

namespace Denotes

variable {σ σ' : M.Stage} {v : Value} {w : M.Word}

theorem mono (h : Denotes σ v w) (hσ : σ ≤ σ') : Denotes σ' v w :=
  ⟨h.below.mono hσ.1, (word_congr hσ.2 h.below).trans h.word_eq⟩

theorem const (σ : M.Stage) (k : Int64) : Denotes σ (.const k) (M.int k) := ⟨trivial, rfl⟩

theorem word_of_le (h : Denotes σ v w) {n : Nat} {regs : M.Regs} (hσ : σ ≤ ⟨n, regs⟩) :
    word regs v = w :=
  (h.mono hσ).word_eq

end Denotes

/-- Values and words of a list, one by one. -/
abbrev DenoteAll (σ : M.Stage) (vs : List Value) (ws : List M.Word) : Prop :=
  List.Forall₂ (Denotes σ) vs ws

theorem DenoteAll.words_of_le {σ : M.Stage} {vs : List Value} {ws : List M.Word}
    (h : DenoteAll σ vs ws) {n : Nat} {regs : M.Regs} (hσ : σ ≤ ⟨n, regs⟩) : words regs vs = ws := by
  induction h with
  | nil => rfl
  | cons hv _ ih => rw [words, hv.word_of_le hσ, ih]

/-! ### The finished function -/

/-- The global variable that holds a text, with a zero byte at its end. -/
def textGlobal (name text : String) : Global :=
  let bytes := text.toUTF8.toList.map (fun b => Value.const (Int64.ofNat b.toNat)) ++ [.const 0]
  { name, ty := .array bytes.length .i8, isConstant := true, init := some (.aggregate bytes),
    linkage := .hidden }

variable (M)

/-- The finished function, in a module where the texts of string literals lie where the machine
expects them. -/
structure Target where
  blocks : List Block
  globals : List Global
  nodup : (blocks.map (·.id)).Nodup
  texts : ∀ name text, textGlobal name text ∈ globals → M.global name = M.text text

variable {M}

theorem find?_of_getElem? {bs : List Block} (h : (bs.map (·.id)).Nodup) {n : Nat} {b : Block}
    (hb : bs[n]? = some b) : bs.find? (fun x => x.id == b.id) = some b := by
  induction bs generalizing n with
  | nil => simp at hb
  | cons a bs ih =>
    obtain ⟨ha, hbs⟩ := List.nodup_cons.1 h
    cases n with
    | zero => cases hb; simp
    | succ n =>
      have hmem : b ∈ bs := List.mem_of_getElem? hb
      have hne : a.id ≠ b.id := fun hid => ha (List.mem_map.2 ⟨b, hmem, hid.symm⟩)
      rw [List.find?_cons_of_neg (by simpa using hne)]
      exact ih hbs hb

end Machine

namespace Emitter

open Machine

variable {M : Machine} {T : M.Target} {s s' : Emitter} {c : M.Config}

/-- The code of `s` is in the finished function. -/
structure Extends (s : Emitter) (T : M.Target) : Prop where
  blocks : Prefixed s.blocks T.blocks
  globals : s.module.globals <+: T.globals

theorem Steps.globals (h : Steps s s') : s.module.globals <+: s'.module.globals := by
  induction h with
  | refl => exact List.prefix_rfl
  | tail _ hstep ih =>
    cases hstep with
    | label => exact ih
    | temp => exact ih
    | block l _ _ _ => exact ih
    | instr i _ => exact ih
    | note _ _ _ _ hg => exact ih.trans hg

theorem Steps.temps (h : Steps s s') : s.temps ≤ s'.temps := by
  induction h with
  | refl => exact Nat.le_refl _
  | tail _ hstep ih =>
    cases hstep with
    | label => exact ih
    | temp => exact Nat.le_succ_of_le ih
    | block l _ _ _ => exact ih
    | instr i _ => exact ih
    | note _ hb _ _ _ => simpa only [Emitter.temps, hb] using ih

theorem Extends.of_steps (h : s'.Extends T) (hs : s.Drafting) (hsteps : Steps s s') : s.Extends T :=
  ⟨(hs.prefixed hsteps).trans h.blocks, hsteps.globals.trans h.globals⟩

/-- Control stands where the next instruction will be: at the end of an open block, or else at the
start of the block that comes next. -/
inductive At (T : M.Target) (s : Emitter) (c : M.Config) : Prop
  | inside {pre : List Block} {b : Block} (hopen : s.Open) (hb : s.blocks = pre ++ [b])
      (hl : c.label = b.id) (hi : c.index = b.instrs.length)
  | before {b : Block} (hclosed : s.acceptsInstr = false)
      (hb : T.blocks[s.blocks.length]? = some b) (hl : c.label = b.id) (hi : c.index = 0)

/-- What is known of the temporaries. -/
def stage (s : Emitter) (c : M.Config) : M.Stage := ⟨s.temps, c.regs⟩

theorem At.congr (h : s.At T c) (hb : s'.builder = s.builder) : s'.At T c := by
  have hblocks : s'.blocks = s.blocks := by simp only [Emitter.blocks, hb]
  have haccepts : s'.acceptsInstr = s.acceptsInstr := by simp only [Emitter.acceptsInstr, hb]
  cases h with
  | inside hopen hbs hl hi => exact .inside (by simpa only [Open, hb] using hopen) (hblocks ▸ hbs) hl hi
  | before hclosed hbs hl hi => exact .before (haccepts.trans hclosed) (hblocks ▸ hbs) hl hi

theorem At.takeTemp (h : s.At T c) : s.takeTemp.At T c := by
  cases h with
  | inside hopen hbs hl hi => exact .inside hopen hbs hl hi
  | before hclosed hbs hl hi => exact .before hclosed hbs hl hi

theorem At.takeLabel (h : s.At T c) : s.takeLabel.At T c := by
  cases h with
  | inside hopen hbs hl hi => exact .inside hopen hbs hl hi
  | before hclosed hbs hl hi => exact .before hclosed hbs hl hi

namespace Drafting

/-- At the start of a block. -/
theorem at_startBlock (hs : s.Drafting) (hclosed : s.acceptsInstr = false) {l : LabelId}
    (hl : l ∉ s.defined) (hc : c.label = l) (hi : c.index = 0) : (s.startBlock l).At T c :=
  .inside (hs.open_startBlock hclosed hl) (blocks_startBlock hs.function_isSome) hc hi

/-- Control that stands before a block is at its start once the block is there. -/
theorem label_of_at (hs : s.Drafting) (hclosed : s.acceptsInstr = false) {l : LabelId}
    (hT : (s.startBlock l).Extends T) (h : s.At T c) : c.label = l ∧ c.index = 0 := by
  cases h with
  | inside hopen _ _ _ => rw [hopen.acceptsInstr] at hclosed; cases hclosed
  | before _ hb hc hi =>
    obtain ⟨d, hd, hid, -⟩ := hT.blocks s.blocks.length ⟨l, [], [], []⟩
      (by rw [blocks_startBlock hs.function_isSome]; simp)
    rw [hb] at hd
    cases hd
    exact ⟨hc.trans hid, hi⟩

/-- The instruction that is added is the one that control will find. -/
theorem fetch_push (hs : s.Drafting) (hopen : s.Open) {i : Instr} (hT : (s.push i).Extends T)
    (h : s.At T c) : fetch T.blocks c = some i := by
  cases h with
  | before hclosed _ _ _ => rw [hopen.acceptsInstr] at hclosed; cases hclosed
  | @inside pre b _ hb hl hi =>
    obtain ⟨pre', b', hb', hc', -⟩ := hs.exists_last
    obtain ⟨rfl, hbb⟩ := List.append_inj' (hb.symm.trans hb') rfl
    cases hbb
    have hp := hs.blocks_push hb hc' i
    obtain ⟨d, hd, hid, hpre⟩ := hT.blocks pre.length (b.push i) (by rw [hp]; simp)
    have hfind := find?_of_getElem? T.nodup hd
    have hinstr : d.instrs[b.instrs.length]? = some i := by
      obtain ⟨rest, hrest⟩ := hpre
      rw [← hrest]
      simp [Block.push]
    rw [hid] at hfind
    simp only [fetch, hl, hi]
    rw [show b.id = (b.push i).id from rfl, hfind]
    exact hinstr

/-- After an instruction that stays in the block control is at its end again. -/
theorem at_push (hs : s.Drafting) (hopen : s.Open) {i : Instr} (hi : i.isTerminator = false)
    (h : s.At T c) {c' : M.Config} (hl : c'.label = c.label) (hc : c'.index = c.index + 1) :
    (s.push i).At T c' := by
  cases h with
  | before hclosed _ _ _ => rw [hopen.acceptsInstr] at hclosed; cases hclosed
  | @inside pre b _ hb hl' hi' =>
    obtain ⟨pre', b', hb', hc', -⟩ := hs.exists_last
    obtain ⟨rfl, hbb⟩ := List.append_inj' (hb.symm.trans hb') rfl
    cases hbb
    refine .inside (hopen.push hi) (hs.blocks_push hb hc' i) (hl.trans hl') ?_
    rw [hc, hi']
    simp [Block.push]

end Drafting

end Emitter

end TypedCore
