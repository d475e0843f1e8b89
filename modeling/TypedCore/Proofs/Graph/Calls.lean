import Mathlib.Data.List.Induction
import TypedCore.Proofs.Emitter.OpenBlocks
import TypedCore.Proofs.Emitter.Scoping
import TypedCore.Proofs.Graph.WellFormed
import TypedCore.Proofs.Session.Reachable

/-!
# Calls that fail

A caller may go on after a call has failed, also in the middle of a function. `Emitter.afterAll` is the state
after any calls. Bodies pass errors on: a statement fails if one in its body does. A failed call can leave jumps to
labels that get no block any more, since labels are local to the call that takes them; a call that succeeds does not.
So a function of the module is well-formed if and only if no call that failed while it was built left such a jump
(`functions_wellFormed_iff_unharmed`), and its blocks are closed in any case. Bodies that go on after an error, or end
the function that they belong to, are scripts (`TypedCore.Script`), and not calls.
-/

namespace TypedCore

open Ir Lowering Emit Emitter

/-! ### Jumps stay where they are -/

namespace Emitter

variable {s s' : Emitter}

/-- Every jump so far goes to a block. -/
def Settled (s : Emitter) : Prop := ∀ l ∈ s.targets, l ∈ s.defined

instance (s : Emitter) : Decidable s.Settled := inferInstanceAs (Decidable (∀ l ∈ _, _))

theorem owes_nil_iff : s.Owes [] ↔ s.Drafting ∧ s.Settled :=
  ⟨fun h => ⟨h.toDrafting, fun l hl => by simpa using h.owed l hl⟩,
    fun h => ⟨h.1, fun l hl => .inl (h.2 l hl)⟩⟩

theorem Drafting.targets_subset (h : s.Drafting) (hs : Steps s s') : s.targets ⊆ s'.targets := by
  intro l hl
  obtain ⟨b, hb, hl⟩ := List.mem_flatMap.1 hl
  obtain ⟨n, hn⟩ := List.mem_iff_getElem?.1 hb
  obtain ⟨d, hd, -, hpre⟩ := h.prefixed hs n b hn
  have hmem := List.mem_of_getElem? hd
  refine List.mem_flatMap.2 ⟨d, hmem, ?_⟩
  rw [(h.tidy b hb).successors] at hl
  rw [((h.steps hs).tidy d hmem).successors]
  obtain ⟨i, hi, hl⟩ := List.mem_flatMap.1 hl
  exact List.mem_flatMap.2 ⟨i, hpre.subset hi, hl⟩

/-- Jumps go to labels that have been taken. -/
def Bounded (s : Emitter) : Prop := ∀ l ∈ s.targets, l < s.labels

theorem Bounded.uses (h : s.Bounded) (hu : Uses [] s s') : s'.Bounded := by
  intro l hl
  rcases hu.targets l hl with hl | hl | hl
  · exact Nat.lt_of_lt_of_le (h l hl) hu.labels_le
  · cases hl
  · exact hl.2

/-- A jump without a block does not get one from later code. -/
theorem Settled.of_later (h : s.Drafting) (hb : s.Bounded) (hs : Steps s s') (hu : Uses [] s s')
    (hs' : s'.Settled) : s.Settled := by
  intro l hl
  rcases hu.defined l (hs' l (h.targets_subset hs hl)) with hd | hd | hd
  · exact hd
  · cases hd
  · exact absurd (hb l hl) (Nat.not_lt.2 hd)

end Emitter

/-! ### Beginning and ending a function -/

namespace Emit

variable {s s' : Emitter} {r : Except Fault Unit}

/-- A function is begun completely or not at all. -/
theorem functionBegin_cases {t : TypeTable} {name : String} {ty : TypeId} {params : List (SymbolId × String)}
    (h : Ends (functionBegin t name ty params) s r s') :
    (r.isOk = false ∧ s' = s) ∨
      (r = .ok () ∧ s.current = none ∧ s'.Owes [] ∧ s'.Bounded ∧
        s'.module.functions = s.module.functions) := by
  obtain ⟨-, ⟨_, rfl, -⟩, rfl⟩ | ⟨_, _, variadic, ir, ps, -, -, -, -, hbegin⟩ := functionBegin_ends h
  · exact .inl ⟨rfl, rfl⟩
  · obtain ⟨_, -, rfl, rfl⟩ | ⟨hc, hspill⟩ := beginFunction_ends hbegin
    · exact .inl ⟨rfl, rfl⟩
    · obtain ⟨⟨_, rfl⟩, -⟩ := Inside.spill ps 0 (enter_drafting ..) (enter_open ..) hspill
      have hbounded : (s.enter name ir ps variadic).Bounded := by simp [Bounded, targets]
      exact .inr ⟨rfl, hc, spill_settles ps 0 (enter_owes ..) hspill, hbounded.uses (spill_scoped ps 0 hspill),
        (spill_grows ps 0 hspill).functions.1⟩

end Emit

/-! ### Calls -/

/-- What a caller may ask for. A declaration is a statement, also outside of functions. -/
inductive Call where
  | start (t : TypeTable) (name : String) (ty : TypeId) (params : List (SymbolId × String))
  | statement (t : TypeTable) (st : Stmt)
  | finish

def Call.code : Call → EmitM Unit
  | .start t name ty params => functionBegin t name ty params
  | .statement t st => Lowering.statement t st
  | .finish => functionEnd

namespace Emitter

variable {s s' : Emitter} {c : Call}

/-- The state after a call, whether it fails or not. -/
def after (s : Emitter) (c : Call) : Emitter := (c.code.run.run s).2

def Fails (s : Emitter) (c : Call) : Prop := (c.code.run.run s).1.isOk = false

instance (s : Emitter) (c : Call) : Decidable (s.Fails c) := inferInstanceAs (Decidable (_ = _))

/-- The state after calls that are made one after the other, whatever becomes of each. -/
def afterAll (s : Emitter) (cs : List Call) : Emitter := cs.foldl after s

@[simp] theorem afterAll_append (s : Emitter) (cs ds : List Call) :
    s.afterAll (cs ++ ds) = (s.afterAll cs).afterAll ds := List.foldl_append

@[simp] theorem afterAll_cons (s : Emitter) (c : Call) (cs : List Call) :
    s.afterAll (c :: cs) = (s.after c).afterAll cs := rfl

@[simp] theorem afterAll_nil (s : Emitter) : s.afterAll [] = s := rfl

/-- No call that fails leaves a jump to a label without a block. -/
def Unharmed (s : Emitter) : List Call → Prop
  | [] => True
  | c :: cs => (s.Fails c → (s.after c).Settled) ∧ (s.after c).Unharmed cs

theorem unharmed_concat (s : Emitter) (cs : List Call) (c : Call) :
    s.Unharmed (cs ++ [c]) ↔
      s.Unharmed cs ∧ ((s.afterAll cs).Fails c → ((s.afterAll cs).after c).Settled) := by
  induction cs generalizing s with
  | nil => simp [Unharmed, afterAll]
  | cons d cs ih =>
    rw [List.cons_append, Unharmed, Unharmed, ih, and_assoc]
    rfl

/-- What one call does. -/
inductive Turn (s : Emitter) (c : Call) (s' : Emitter) : Prop
  /-- No function is under construction, before and after. -/
  | idle (h : s.current = none) (h' : s'.current = none) (hf : s'.module.functions = s.module.functions)
  | started (h : s.current = none) (h' : s'.Owes []) (hb : s'.Bounded)
      (hf : s'.module.functions = s.module.functions)
  /-- The function grows; if the call does not fail, all its jumps have their blocks. -/
  | worked (h : s.Drafting) (hc : c ≠ .finish) (hs : Steps s s') (hu : Uses [] s s')
      (hok : ¬ s.Fails c → s.Owes [] → s'.Owes [])
  | closed (h : s.Drafting) (hc : c = .finish) (f : Function) (hfin : s.Finishes f.blocks)
      (h' : s'.current = none) (hf : s'.module.functions = s.module.functions ++ [f.linkPredecessors])
  | givenUp (h : s.Drafting) (h' : s'.current = none) (hf : s'.module.functions = s.module.functions)

theorem turn (hs : s.current = none ∨ s.Drafting) (c : Call) : s.Turn c (s.after c) := by
  obtain ⟨r, s', hx⟩ := Ends.exists_of_run c.code s
  have hafter : s.after c = s' := congrArg Prod.snd hx
  have hfails : s.Fails c ↔ r.isOk = false := by rw [Fails, show (c.code.run.run s).1 = r from congrArg Prod.fst hx]
  rw [hafter]
  have hwork (hne : c ≠ .finish) (hsteps : Steps s s') (hu : Uses [] s s')
      (hok : r.isOk = true → s.Owes [] → s'.Owes []) : s.Turn c s' := by
    rcases hs with hc | hd
    · exact .idle hc (hsteps.functions.2.trans hc) hsteps.functions.1
    · refine .worked hd hne hsteps hu fun hnf => hok ?_
      simpa [hfails] using hnf
  cases c with
  | start t name ty params =>
    obtain ⟨hr, rfl⟩ | ⟨-, hc, howes, hb, hf⟩ := functionBegin_cases hx
    · exact hwork nofun .refl (.refl _) (by simp [hr])
    · exact .started hc howes hb hf
  | statement t st =>
    refine hwork nofun (statement_grows t st hx) (statement_scoped t st [] hx) fun hr howes => ?_
    cases r with
    | ok _ => exact statement_settles t st [] howes hx
    | error e => cases hr
  | finish =>
    rcases hs with hc | hd
    · obtain ⟨head, hc', -⟩ | ⟨-, -, rfl⟩ := requireFunction_bind_iff.1 hx
      · cases hc.symm.trans hc'
      · exact .idle hc hc rfl
    · obtain ⟨f, hf⟩ := Option.isSome_iff_exists.1 hd.function_isSome
      obtain ⟨_, -, rfl⟩ | ⟨-, bs, s₁, hfin, -, rfl⟩ := endFunction_ends hd hf hx
      · exact .givenUp hd rfl rfl
      · exact .closed hd rfl { f with blocks := bs } hfin rfl rfl

/-! ### Whole runs -/

/-- The function that is under construction after the calls `pre ++ c :: mid` was begun by `c`. -/
structure Begun (s : Emitter) (pre : List Call) (c : Call) (mid : List Call) : Prop where
  idle : (s.afterAll pre).current = none
  head : (s.afterAll (pre ++ [c])).current.isSome
  unfinished : .finish ∉ mid

/-- Where the construction of a function stands after the calls `cs`. -/
inductive Progress (s : Emitter) (cs : List Call) : Prop
  | idle (h : (s.afterAll cs).current = none)
  /-- So far the jumps have their blocks if no failed call did harm. -/
  | building (pre : List Call) (c : Call) (mid : List Call) (hcs : cs = pre ++ c :: mid)
      (hbegun : s.Begun pre c mid) (hd : (s.afterAll cs).Drafting) (hb : (s.afterAll cs).Bounded)
      (hharm : (s.afterAll (pre ++ [c])).Unharmed mid ↔ (s.afterAll cs).Settled)

theorem Progress.drafting {cs : List Call} (h : s.Progress cs) :
    (s.afterAll cs).current = none ∨ (s.afterAll cs).Drafting := by
  cases h with
  | idle h => exact .inl h
  | building _ _ _ _ _ hd _ _ => exact .inr hd

theorem Progress.after {cs : List Call} (h : s.Progress cs) (c : Call) : s.Progress (cs ++ [c]) := by
  have hturn := turn h.drafting c
  have hlast : s.afterAll (cs ++ [c]) = (s.afterAll cs).after c := by simp
  rw [← hlast] at hturn
  cases hturn with
  | idle _ h' _ => exact .idle h'
  | started hidle howes hb _ =>
    exact .building cs c [] rfl ⟨hidle, howes.head, nofun⟩ howes.toDrafting hb
      (iff_of_true trivial (owes_nil_iff.1 howes).2)
  | closed _ _ _ _ h' _ => exact .idle h'
  | givenUp _ h' _ => exact .idle h'
  | worked hdraft hne hsteps hu hok =>
    cases h with
    | idle hidle => simpa [hidle] using hdraft.head
    | building pre d mid hcs hbegun hd hb hharm =>
      refine .building pre d (mid ++ [c]) (by simp [hcs]) ⟨hbegun.idle, hbegun.head, ?_⟩ (hd.steps hsteps)
        (hb.uses hu) ?_
      · simpa [hbegun.unfinished] using hne.symm
      · have hmid : (s.afterAll (pre ++ [d])).afterAll mid = s.afterAll cs := by simp [hcs]
        rw [unharmed_concat, hmid, hharm, ← hlast]
        constructor
        · rintro ⟨hs, hfail⟩
          by_cases hf : (s.afterAll cs).Fails c
          · exact hfail hf
          · exact (owes_nil_iff.1 (hok hf (owes_nil_iff.2 ⟨hd, hs⟩))).2
        · exact fun hs => ⟨hs.of_later hd hb hsteps hu, fun _ => hs⟩

theorem progress (hs : s.current = none) (cs : List Call) : s.Progress cs := by
  induction cs using List.reverseRecOn with
  | nil => exact .idle hs
  | append_singleton cs c ih => exact ih.after c

/-- In the course of the calls `cs` the function `f` was begun by `c`, and closed by the call after `mid`. -/
structure Built (s : Emitter) (cs pre : List Call) (c : Call) (mid : List Call) (f : Function) :
    Prop extends s.Begun pre c mid where
  calls : pre ++ c :: mid ++ [.finish] <+: cs
  added : (s.afterAll (pre ++ c :: mid ++ [.finish])).module.functions =
    (s.afterAll (pre ++ c :: mid)).module.functions ++ [f]

/-- The jumps of `f` go to its blocks just if the calls `mid`, made in `s`, did no harm. -/
structure Reflects (s : Emitter) (mid : List Call) (f : Function) : Prop where
  ended : ∀ b ∈ f.blocks, b.Ended
  targets_iff : (∀ b ∈ f.blocks, ∀ l ∈ b.successors, l ∈ f.blocks.map (·.id)) ↔ s.Unharmed mid
  wellFormed : s.Unharmed mid → f.WellFormed

/-- Closing a function does not mend its jumps. -/
theorem Finishes.reflects {s₀ : Emitter} {mid : List Call} {f : Function} (h : s.Finishes f.blocks)
    (hs : s.Drafting) (hharm : s₀.Unharmed mid ↔ s.Settled) : s₀.Reflects mid f.linkPredecessors := by
  obtain ⟨hne, hnd, hended⟩ := h.ended hs
  have htargets := (h.targets_iff hs).trans hharm.symm
  exact ⟨(linkPredecessors_ended hnd).2 hended, (linkPredecessors_targets hnd).trans htargets,
    fun hmid => linkPredecessors_wellFormed hne hnd hended (htargets.2 hmid)⟩

/-- Every function of the module was begun and closed by two of the calls. -/
theorem exists_built {cs : List Call} {f : Function} (hs : s.current = none) (hm : s.module.functions = [])
    (hf : f ∈ (s.afterAll cs).module.functions) :
    ∃ pre c mid, s.Built cs pre c mid f ∧ (s.afterAll (pre ++ [c])).Reflects mid f := by
  induction cs using List.reverseRecOn with
  | nil => simp [hm] at hf
  | append_singleton cs d ih =>
    have hprogress := progress hs cs
    have hlast : s.afterAll (cs ++ [d]) = (s.afterAll cs).after d := by simp
    have hturn := turn hprogress.drafting d
    rw [← hlast] at hturn
    have hkeep (h : f ∈ (s.afterAll cs).module.functions) :
        ∃ pre c mid, s.Built (cs ++ [d]) pre c mid f ∧ (s.afterAll (pre ++ [c])).Reflects mid f := by
      obtain ⟨pre, c, mid, hbuilt, hrest⟩ := ih h
      exact ⟨pre, c, mid, ⟨hbuilt.toBegun, hbuilt.calls.trans (List.prefix_append ..), hbuilt.added⟩, hrest⟩
    cases hturn with
    | idle _ _ h => exact hkeep (h ▸ hf)
    | started _ _ _ h => exact hkeep (h ▸ hf)
    | worked _ _ hsteps _ _ => exact hkeep (hsteps.functions.1 ▸ hf)
    | givenUp _ _ h => exact hkeep (h ▸ hf)
    | closed hd hc f₀ hfin _ hadd =>
      rw [hadd] at hf
      rcases List.mem_append.1 hf with hf | hf
      · exact hkeep hf
      · obtain rfl := List.mem_singleton.1 hf
        cases hprogress with
        | idle h => simpa [h] using hd.head
        | building pre c mid hcs hbegun _ _ hharm =>
          subst hc hcs
          exact ⟨pre, c, mid, ⟨hbegun, List.prefix_rfl, hadd⟩, hfin.reflects hd hharm⟩

end Emitter

/-- Calls that fail may harm a function, and calls that succeed do not, where a statement fails if one in its body
does. Whatever calls are made, the blocks of each function of the module are closed; and its jumps go to its blocks if
and only if no call that failed while it was built left a jump to a label without a block. -/
theorem functions_wellFormed_iff_unharmed (name : String) (cs : List Call) {f : Function}
    (hf : f ∈ ((Emitter.new name).afterAll cs).module.functions) :
    (∀ b ∈ f.blocks, b.Ended) ∧ ∃ pre c mid, (Emitter.new name).Built cs pre c mid f ∧
      ((∀ b ∈ f.blocks, ∀ l ∈ b.successors, l ∈ f.blocks.map (·.id)) ↔
        ((Emitter.new name).afterAll (pre ++ [c])).Unharmed mid) ∧
      (((Emitter.new name).afterAll (pre ++ [c])).Unharmed mid → f.WellFormed) := by
  obtain ⟨pre, c, mid, hbuilt, h⟩ := exists_built rfl rfl hf
  exact ⟨h.ended, pre, c, mid, hbuilt, h.targets_iff, h.wellFormed⟩

/-! ### A variable without a slot -/

namespace Stray

/-- The name `x` is known, but no slot is emitted for it. -/
def history : Session.History := .run
  [.types [.integer 32 true, .bool, .function ⟨1⟩ [] false, .void, .function ⟨3⟩ [] false],
    .declareFunction "cond" ⟨2⟩, .openScope, .declareParameter "x" ⟨0⟩, .identifier "x", .identifier "cond", .call 1 []]

def types : TypeTable := history.session.types

def x : Expr := history.expr 0

/-- `cond()` -/
def test : Expr := history.expr 2

def start : Call := .start types "f" ⟨4⟩ []

/-- `x; if (cond()) return;`, where the first statement fails, and a statement after the end. -/
def harmless : List Call :=
  [start, .statement types (.expr x), .statement types (.ifThen test [.ret none]), .finish,
    .statement types (.expr test)]

/-- `if (cond()) x;`, where the statement fails after the branch. -/
def harmful : List Call := [start, .statement types (.ifThen test [.expr x]), .finish]

end Stray

open Stray in
theorem stray_function_wellFormed :
    ((Emitter.new "m").after start).Fails (.statement types (.expr x)) ∧
    ∃ f ∈ ((Emitter.new "m").afterAll harmless).module.functions, (∀ b ∈ f.blocks, b.Ended) ∧
      ∃ pre c mid, (Emitter.new "m").Built harmless pre c mid f ∧
        ((∀ b ∈ f.blocks, ∀ l ∈ b.successors, l ∈ f.blocks.map (·.id)) ↔
          ((Emitter.new "m").afterAll (pre ++ [c])).Unharmed mid) ∧
        (((Emitter.new "m").afterAll (pre ++ [c])).Unharmed mid → f.WellFormed) := by
  have hlength : 0 < ((Emitter.new "m").afterAll harmless).module.functions.length := by decide +kernel
  obtain ⟨f, hf⟩ := List.exists_mem_of_length_pos hlength
  exact ⟨by decide +kernel, f, hf, functions_wellFormed_iff_unharmed "m" harmless hf⟩

open Stray in
/-- A branch is left without its second target if the code in between fails. -/
theorem failed_statement_leaves_branch :
    history.session.Reachable history.exprs ∧ x ∈ history.exprs ∧ test ∈ history.exprs ∧
    ∃ f ∈ ((Emitter.new "m").afterAll harmful).module.functions,
      ∃ b ∈ f.blocks, ∃ l ∈ b.successors, l ∉ f.blocks.map (·.id) :=
  ⟨Session.History.run_reachable _, Session.History.expr_mem (by decide +kernel),
    Session.History.expr_mem (by decide +kernel), by decide +kernel⟩

end TypedCore
