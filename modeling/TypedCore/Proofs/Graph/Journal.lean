import Mathlib.Data.List.ModifyLast
import TypedCore.Proofs.Graph.WellFormed

/-!
# Builders under any calls

A builder may be called in any order, with any labels and values: without a function, after control has left the block,
after refusals, and with a function left half-done. The calls and their answers tell which function is built. The
`Journal` of a run notes what was accepted since the function was started: parameters, blocks, instructions, and blocks
that were dropped again. The function under construction follows its journal (`Follows`) at every time, and so does the
one that is handed over.
-/

namespace TypedCore.Ir.Builder

/-! ### Calls and answers -/

inductive Call where
  | startFunction (name : String) (ret : Ty) (variadic : Bool)
  | addParameter (id : TempId) (ty : Ty)
  | startBlock (label : LabelId)
  | newTemp
  | newLabel
  | discard
  | finish
  | binary (op : BinOp) (lhs rhs : Value) (ty : Ty)
  | unary (op : UnOp) (operand : Value) (ty : Ty)
  | load (ptr : Value) (ty : Ty)
  | store (value ptr : Value) (ty : Ty)
  | alloca (slot : Ty)
  | offset (ptr : Value) (indices : List Value) (ty : Ty)
  | call (callee : Value) (args : List Value) (ty : Ty)
  | phi (incoming : List (Value × LabelId)) (ty : Ty)
  | ret (value : Option Value)
  | branch (target : LabelId)
  | branchIf (condition : Value) (onTrue onFalse : LabelId)
  | comment (text : String)

/-- What a call gives back if it is not refused. -/
inductive Reply where
  | done
  | number (id : Nat)
  | value (v : Value)
  | result (id : Option TempId)
  | dropped (dropped : Bool)
  | function (f : Option Function)

/-- What happens to a function under construction. -/
inductive Event where
  | param (id : TempId) (ty : Ty)
  | block (label : LabelId)
  | instr (i : Instr)
  /-- The last block is taken away. -/
  | drop

namespace Call

def perform : Call → BuilderM Reply
  | startFunction name ty variadic => (fun _ => .done) <$> modifyThe Builder (·.startFunction name ty variadic)
  | addParameter id ty => (fun _ => .done) <$> modifyThe Builder (·.addParameter id ty)
  | startBlock label => (fun _ => .done) <$> BuilderM.startBlock label
  | newTemp => .number <$> BuilderM.newTemp
  | newLabel => .number <$> BuilderM.newLabel
  | discard => .dropped <$> modifyGet Builder.discardIfUnreachable
  | finish => .function <$> modifyGet Builder.finish
  | binary op lhs rhs ty => .number <$> BuilderM.binary op lhs rhs ty
  | unary op operand ty => .number <$> BuilderM.unary op operand ty
  | load ptr ty => .number <$> BuilderM.load ptr ty
  | store value ptr ty => (fun _ => .done) <$> BuilderM.store value ptr ty
  | alloca slot => .value <$> BuilderM.alloca slot
  | offset ptr indices ty => .value <$> BuilderM.offset ptr indices ty
  | call callee args ty => .result <$> BuilderM.call callee args ty
  | phi incoming ty => .number <$> BuilderM.phi incoming ty
  | ret value => (fun _ => .done) <$> BuilderM.ret value
  | branch target => (fun _ => .done) <$> BuilderM.branch target
  | branchIf condition onTrue onFalse => (fun _ => .done) <$> BuilderM.branchIf condition onTrue onFalse
  | comment text => (fun _ => .done) <$> BuilderM.comment text

/-- What an accepted call has done to the function, by its answer. -/
def event? : Call → Reply → Option Event
  | addParameter id ty, _ => some (.param id ty)
  | startBlock label, _ => some (.block label)
  | discard, .dropped true => some .drop
  | binary op lhs rhs ty, .number result => some (.instr (.binary result op lhs rhs ty))
  | unary op operand ty, .number result => some (.instr (.unary result op operand ty))
  | load ptr ty, .number result => some (.instr (.load result ptr ty))
  | store value ptr ty, _ => some (.instr (.store value ptr ty))
  | alloca slot, .value (.temp result) => some (.instr (.alloca result slot (.ptr slot)))
  | offset ptr indices ty, .value (.temp result) => some (.instr (.offset result ptr indices ty))
  | call callee args ty, .result result => some (.instr (.call result callee args ty))
  | phi incoming ty, .number result => some (.instr (.phi result incoming ty))
  | ret value, _ => some (.instr (.ret value))
  | branch target, _ => some (.instr (.branch target))
  | branchIf condition onTrue onFalse, _ => some (.instr (.branchIf condition onTrue onFalse))
  | comment text, _ => some (.instr (.comment text))
  | _, _ => none

/-- Whether an instruction is to be added. -/
def isInstr : Call → Bool
  | startFunction .. | addParameter .. | startBlock _ | newTemp | newLabel | discard | finish => false
  | _ => true

/-- A block is added to a function that does not have its label, and an instruction to a block that control has not
left. All else can be done at any time. -/
structure Allowed (b : Builder) (c : Call) : Prop where
  block : ∀ label, c = startBlock label → ∃ f, b.function = some f ∧ label ∉ f.blocks.map (·.id)
  instr : c.isInstr = true → ∃ block, b.currentBlock? = some block ∧ block.hasTerminator = false

end Call

/-! ### Journals -/

namespace Event

def param? : Event → Option (TempId × Ty)
  | param id ty => some (id, ty)
  | _ => none

def instr? : Event → Option Instr
  | instr i => some i
  | _ => none

/-- The temporary that is defined. -/
def result? (e : Event) : Option TempId := e.instr?.bind Instr.result?

/-- The parameter or temporary that takes a number. -/
def number? (e : Event) : Option TempId := (e.param?.map (·.1)).or e.result?

theorem number?_of_result? {e : Event} {n : TempId} (h : e.result? = some n) : e.number? = some n := by
  cases e with
  | instr i => exact h
  | _ => cases h

/-- What the later event defines is not what the earlier one took. -/
def Apart (earlier later : Event) : Prop := ∀ n, later.result? = some n → earlier.number? ≠ some n

/-- The blocks after an event, each as its label and instructions. -/
def onBlocks (blocks : List (LabelId × List Instr)) : Event → List (LabelId × List Instr)
  | param .. => blocks
  | block label => blocks ++ [(label, [])]
  | instr i => blocks.modifyLast fun b => (b.1, b.2 ++ [i])
  | drop => blocks.dropLast

end Event

/-- The start of a function, and all that happened to it since then. -/
structure Journal where
  name : String
  ret : Ty
  variadic : Bool
  events : List Event := []

namespace Journal

def add (j : Journal) (e : Event) : Journal := { j with events := j.events ++ [e] }

def params (j : Journal) : List (TempId × Ty) := j.events.filterMap Event.param?

def instrs (j : Journal) : List Instr := j.events.filterMap Event.instr?

/-- The blocks that were added and not dropped, with the instructions that went to them. -/
def blocks (j : Journal) : List (LabelId × List Instr) := j.events.foldl Event.onBlocks []

/-- The journal after a call. -/
def note (j : Option Journal) : Call → Except BuildError Reply → Option Journal
  | .startFunction name ret variadic, _ => some { name, ret, variadic }
  | .finish, _ => none
  | c, .ok reply => j.map fun j => (c.event? reply).elim j j.add
  | _, .error _ => j

variable {j : Journal} {e : Event} {next next' : Nat}

theorem params_add : (j.add e).params = j.params ++ e.param?.toList := by
  cases h : e.param? <;> simp [params, add, h]

theorem instrs_add : (j.add e).instrs = j.instrs ++ e.instr?.toList := by
  cases h : e.instr? <;> simp [instrs, add, h]

theorem blocks_add : (j.add e).blocks = e.onBlocks j.blocks := by
  simp [blocks, add]

theorem note_ok {c : Call} {reply : Reply} (h : c.event? reply = some e) (j : Option Journal) :
    note j c (.ok reply) = j.map (·.add e) := by
  cases c with
  | startFunction | finish => cases h
  | _ => simp [note, h]

theorem note_error {c : Call} (hc : c.isInstr = true) (j : Option Journal) (e : BuildError) :
    note j c (.error e) = j := by
  cases c with
  | startFunction | finish => cases hc
  | _ => rfl

/-- The numbers below `next` are those that may have been taken, and what was defined had not been taken. -/
structure Numbered (j : Journal) (next : Nat) : Prop where
  apart : j.events.Pairwise Event.Apart
  taken : ∀ e ∈ j.events, ∀ n, e.number? = some n → n < next

namespace Numbered

theorem mono (h : j.Numbered next) (hle : next ≤ next') : j.Numbered next' :=
  ⟨h.apart, fun e he n hn => Nat.lt_of_lt_of_le (h.taken e he n hn) hle⟩

theorem add (h : j.Numbered next) (hle : next ≤ next') (hnumber : ∀ n, e.number? = some n → n < next')
    (hresult : ∀ n, e.result? = some n → next ≤ n) : (j.add e).Numbered next' := by
  constructor
  · refine List.pairwise_append.2 ⟨h.apart, List.pairwise_singleton _ _, fun e' he' e₁ he₁ n hn htaken => ?_⟩
    cases List.mem_singleton.1 he₁
    exact Nat.not_lt.2 (hresult n hn) (h.taken e' he' n htaken)
  · intro e' he'
    rcases List.mem_append.1 he' with he' | he'
    · exact (h.mono hle).taken e' he'
    · cases List.mem_singleton.1 he'
      exact hnumber

/-- Events that take no number change nothing. -/
theorem add_silent (h : j.Numbered next) (he : e.number? = none) : (j.add e).Numbered next := by
  have hresult : e.result? = none := (Option.or_eq_none_iff.1 he).2
  exact h.add (Nat.le_refl _) (by simp [he]) (by simp [hresult])

/-- No temporary is defined twice. -/
theorem results_nodup (h : j.Numbered next) : (j.instrs.filterMap Instr.result?).Nodup := by
  rw [instrs, List.filterMap_filterMap]
  refine h.apart.filterMap _ fun e e' hapart n hn n' hn' hne => ?_
  exact hapart n' hn' (hne ▸ Event.number?_of_result? hn)

end Numbered

end Journal

/-- A builder, and the journal of the calls that led to it. -/
structure Run where
  builder : Builder := {}
  journal : Option Journal := none

def Run.step (s : Run) (c : Call) : Run where
  builder := (c.perform.run.run s.builder).2
  journal := Journal.note s.journal c (c.perform.run.run s.builder).1

/-- Any calls, one after the other. -/
def run (calls : List Call) : Run := calls.foldl Run.step {}

variable {b b' : Builder} {f : Function} {j : Journal}

/-! ### Functions and their journals -/

/-- Head, parameters, blocks and instructions are those that were noted, and no label is used twice. -/
structure Matches (f : Function) (j : Journal) : Prop where
  head : f.name = j.name ∧ f.ret = j.ret ∧ f.variadic = j.variadic
  params : f.params = j.params
  blocks : f.blocks.map (fun b => (b.id, b.instrs)) = j.blocks
  instrs : f.blocks.flatMap (·.instrs) = j.instrs
  distinct : (f.blocks.map (·.id)).Nodup

namespace Matches

variable {pre : List Block} {last : Block}

theorem param (h : Matches f j) (id : TempId) (ty : Ty) :
    Matches { f with params := f.params ++ [(id, ty)] } (j.add (.param id ty)) where
  head := h.head
  params := by simp [Journal.params_add, h.params, Event.param?]
  blocks := by simp [Journal.blocks_add, h.blocks, Event.onBlocks]
  instrs := by simp [Journal.instrs_add, h.instrs, Event.instr?]
  distinct := h.distinct

theorem block (h : Matches f j) {l : LabelId} (hl : l ∉ f.blocks.map (·.id)) :
    Matches { f with blocks := f.blocks ++ [⟨l, [], [], []⟩] } (j.add (.block l)) where
  head := h.head
  params := by simp [Journal.params_add, h.params, Event.param?]
  blocks := by simp [Journal.blocks_add, h.blocks, Event.onBlocks]
  instrs := by simp [Journal.instrs_add, h.instrs, Event.instr?]
  distinct := by simpa [List.nodup_append, h.distinct] using hl

theorem instr (h : Matches f j) (hb : f.blocks = pre ++ [last]) (i : Instr) :
    Matches { f with blocks := pre ++ [last.push i] } (j.add (.instr i)) where
  head := h.head
  params := by simp [Journal.params_add, h.params, Event.param?]
  blocks := by simp [Journal.blocks_add, ← h.blocks, hb, Event.onBlocks, Block.push, List.modifyLast_concat]
  instrs := by simp [Journal.instrs_add, ← h.instrs, hb, Event.instr?, Block.push]
  distinct := by simpa [hb, Block.push] using h.distinct

/-- With an empty block no instruction is lost. -/
theorem drop (h : Matches f j) (hb : f.blocks = pre ++ [last]) (hempty : last.instrs = []) :
    Matches { f with blocks := pre } (j.add .drop) where
  head := h.head
  params := by simp [Journal.params_add, h.params, Event.param?]
  blocks := by simp [Journal.blocks_add, ← h.blocks, hb, Event.onBlocks]
  instrs := by simp [Journal.instrs_add, ← h.instrs, hb, Event.instr?, hempty]
  distinct := by
    have hd := h.distinct
    rw [hb, List.map_append] at hd
    exact (List.nodup_append.1 hd).1

theorem linkPredecessors (h : Matches f j) : Matches f.linkPredecessors j := by
  have hb := linkPredecessors_blocks h.distinct
  refine ⟨h.head, h.params, ?_, ?_, ?_⟩
  · rw [← h.blocks, hb, withPredecessors, List.map_map]
    rfl
  · simp [← h.instrs, hb, withPredecessors, List.flatMap_map]
  · rw [map_id_linkPredecessors h.distinct]
    exact h.distinct

end Matches

/-- The function that a journal tells of. Control leaves its blocks only at the end, temporaries are defined once, and
under numbers that no parameter had taken. -/
structure Follows (f : Function) (j : Journal) : Prop extends Matches f j where
  inner : ∀ b ∈ f.blocks, ∀ i ∈ b.instrs.dropLast, i.isTerminator = false
  successors : ∀ b ∈ f.blocks, b.successors = (b.terminator?.map Instr.successors).getD []
  results : ((f.blocks.flatMap (·.instrs)).filterMap Instr.result?).Nodup
  apart : j.events.Pairwise Event.Apart

theorem Follows.linkPredecessors (h : Follows f j) : Follows f.linkPredecessors j where
  toMatches := h.toMatches.linkPredecessors
  inner := (forall_linkPredecessors h.distinct fun _ _ => Iff.rfl).2 h.inner
  successors := (forall_linkPredecessors h.distinct fun _ _ => Iff.rfl).2 h.successors
  results := by
    rw [h.toMatches.linkPredecessors.instrs, ← h.instrs]
    exact h.results
  apart := h.apart

theorem successors_eq_terminator {block : Block} (h : block.Tidy) :
    block.successors = (block.terminator?.map Instr.successors).getD [] := by
  rcases List.eq_nil_or_concat block.instrs with hn | ⟨init, last, hn⟩
  · simp [h.successors, hn, Block.terminator?]
  · rw [List.concat_eq_append] at hn
    rw [h.successors_eq hn]
    cases ht : last.isTerminator with
    | true => simp [Block.terminator?, hn, Option.filter, ht]
    | false => simp [Block.terminator?, hn, Option.filter, ht, Instr.successors_of_inner ht]

/-! ### Builders and their journals -/

/-- A function is under construction in the builder, and instructions go to its last block or nowhere. -/
structure Building (b : Builder) (f : Function) (j : Journal) : Prop extends Matches f j where
  function : b.function = some f
  current : ∀ l, b.current = some l → ∃ pre block, f.blocks = pre ++ [block] ∧ block.id = l
  tidy : ∀ b ∈ f.blocks, b.Tidy
  numbered : j.Numbered b.temps.next

/-- The current block is the last one and there are others, nothing is in it, and no block leads to it. -/
structure Droppable (b : Builder) (f : Function) (pre : List Block) (block : Block) : Prop where
  function : b.function = some f
  current : b.current = some block.id
  blocks : f.blocks = pre ++ [block]
  behind : pre ≠ []
  empty : block.instrs = []
  unreached : ∀ c ∈ f.blocks, block.id ∉ c.successors

/-- The builder after its current block was dropped. -/
def dropTo (b : Builder) (f : Function) (pre : List Block) : Builder :=
  { b with function := some { f with blocks := pre }, current := none }

theorem discard_idle (h : b.function = none) : b.discardIfUnreachable = (false, b) := by
  simp [discardIfUnreachable, h]

section LastBlock

variable {pre : List Block} {block : Block}

theorem entry?_any_last (hb : f.blocks = pre ++ [block]) (hpre : block.id ∉ pre.map (·.id)) :
    f.entry?.any (fun c => c.id == block.id) = pre.isEmpty := by
  cases pre with
  | nil => simp [Function.entry?, hb]
  | cons first rest =>
    have hfirst : first.id ≠ block.id := fun hid => hpre (by simp [hid])
    simp [Function.entry?, hb, hfirst]

theorem filter_last (hb : f.blocks = pre ++ [block]) (hpre : block.id ∉ pre.map (·.id)) :
    f.blocks.filter (fun c => c.id != block.id) = pre := by
  have hkeep : ∀ c ∈ pre, c.id ≠ block.id := fun c hc hid => hpre (List.mem_map.2 ⟨c, hc, hid⟩)
  simpa [hb, List.filter_append] using hkeep

end LastBlock

namespace Building

theorem follows (h : Building b f j) : Follows f j where
  toMatches := h.toMatches
  inner := fun block hblock => (h.tidy block hblock).inner
  successors := fun block hblock => successors_eq_terminator (h.tidy block hblock)
  results := h.instrs ▸ h.numbered.results_nodup
  apart := h.numbered.apart

theorem startFunction (b : Builder) (name : String) (ret : Ty) (variadic : Bool) :
    Building (b.startFunction name ret variadic) { name, ret, variadic } { name, ret, variadic } :=
  ⟨⟨⟨rfl, rfl, rfl⟩, rfl, rfl, rfl, List.nodup_nil⟩, rfl, nofun, nofun, List.Pairwise.nil, nofun⟩

theorem supplies (h : Building b f j) {temps labels : Supply} (hle : b.temps.next ≤ temps.next) :
    Building { b with temps, labels } f j :=
  { h with numbered := h.numbered.mono hle }

theorem addParameter (h : Building b f j) (id : TempId) (ty : Ty) :
    Building (b.addParameter id ty) { f with params := f.params ++ [(id, ty)] } (j.add (.param id ty)) := by
  have hb : b.addParameter id ty = { b with
      function := some { f with params := f.params ++ [(id, ty)] }, temps := b.temps.reserve id } := by
    simp [Builder.addParameter, h.function]
  rw [hb]
  refine ⟨h.toMatches.param id ty, rfl, h.current, h.tidy, h.numbered.add (Nat.le_max_left ..) ?_ ?_⟩
  · rintro n ⟨⟩
    exact Nat.le_max_right ..
  · rintro n ⟨⟩

theorem startBlock (h : Building b f j) {l : LabelId} (hl : l ∉ f.blocks.map (·.id)) :
    Building { b with function := some { f with blocks := f.blocks ++ [⟨l, [], [], []⟩] }, current := some l }
      { f with blocks := f.blocks ++ [⟨l, [], [], []⟩] } (j.add (.block l)) where
  toMatches := h.toMatches.block hl
  function := rfl
  current := fun _ hl => ⟨f.blocks, _, rfl, Option.some.inj hl⟩
  tidy := by simpa [or_imp, forall_and] using ⟨h.tidy, Block.Tidy.empty l⟩
  numbered := h.numbered.add_silent rfl

/-- The current block is the one under its label. -/
theorem block?_current (h : Building b f j) {l : LabelId} (hc : b.current = some l) :
    ∃ pre block, f.blocks = pre ++ [block] ∧ block.id = l ∧ l ∉ pre.map (·.id) ∧ f.block? l = some block := by
  obtain ⟨pre, block, hb, hl⟩ := h.current l hc
  have hpre : l ∉ pre.map (·.id) := by
    have hd := h.distinct
    rw [hb, List.map_append, List.map_singleton, hl] at hd
    exact fun hmem => (List.nodup_append.1 hd).2.2 l hmem l (List.mem_singleton_self l) rfl
  refine ⟨pre, block, hb, hl, hpre, ?_⟩
  rw [Function.block?, hb]
  exact find?_last hl hpre

/-- An instruction is added whose temporary, if any, was taken just now. -/
theorem push (h : Building b f j) {temps : Supply} {i : Instr}
    (hx : Ends (BuilderM.emit i) { b with temps } (.ok ()) b') (hle : b.temps.next ≤ temps.next)
    (hi : ∀ n, i.result? = some n → b.temps.next ≤ n ∧ n < temps.next) :
    ∃ f', Building b' f' (j.add (.instr i)) := by
  obtain ⟨g, l, block, hf, hc, hblock, ht, -, rfl⟩ | ⟨e, he, -⟩ := BuilderM.emit_ends hx
  · cases Option.some.inj (h.function.symm.trans hf)
    obtain ⟨pre, last, hb, hl, hpre, hlast⟩ := h.block?_current hc
    cases Option.some.inj (hlast.symm.trans hblock)
    have hpush : modifyBlock l (·.push i) f.blocks = pre ++ [block.push i] := by
      rw [hb]
      exact modifyBlock_last hl hpre
    have htidy := h.tidy
    simp only [hb, List.forall_mem_append, List.forall_mem_singleton] at htidy
    rw [hpush]
    refine ⟨_, h.toMatches.instr hb i, rfl, fun _ hl' => ?_, ?_,
      h.numbered.add hle (fun n hn => (hi n hn).2) fun n hn => (hi n hn).1⟩
    · cases Option.some.inj (hc.symm.trans hl')
      exact ⟨pre, block.push i, rfl, hl⟩
    · simp only [List.forall_mem_append, List.forall_mem_singleton]
      exact ⟨htidy.1, htidy.2.push ht i⟩
  · cases he

theorem dropTo {pre : List Block} {block : Block} (h : Building b f j) (hd : Droppable b f pre block) :
    Building (b.dropTo f pre) { f with blocks := pre } (j.add .drop) where
  toMatches := h.toMatches.drop hd.blocks hd.empty
  function := rfl
  current := nofun
  tidy := fun c hc => h.tidy c (hd.blocks ▸ List.mem_append_left _ hc)
  numbered := h.numbered.add_silent rfl

theorem discard (h : Building b f j) :
    (∃ pre block, Droppable b f pre block ∧ b.discardIfUnreachable = (true, b.dropTo f pre)) ∨
      (∀ pre block, ¬ Droppable b f pre block) ∧ b.discardIfUnreachable = (false, b) := by
  cases hc : b.current with
  | none =>
    refine .inr ⟨fun pre block hd => ?_, by simp [discardIfUnreachable, h.function, hc]⟩
    cases hc.symm.trans hd.current
  | some l =>
    obtain ⟨pre, block, hb, rfl, hpre, hblock⟩ := h.block?_current hc
    have hentry := entry?_any_last hb hpre
    have hrest := filter_last hb hpre
    by_cases hd : Droppable b f pre block
    · refine .inl ⟨pre, block, hd, ?_⟩
      simpa [discardIfUnreachable, h.function, hc, hentry, hblock, hrest, Builder.dropTo, Block.isEmpty, hd.empty,
        hd.behind] using hd.unreached
    · refine .inr ⟨fun pre' block' hd' => ?_, ?_⟩
      · obtain ⟨rfl, hlast⟩ := List.append_inj' (hb.symm.trans hd'.blocks) rfl
        cases List.singleton_inj.1 hlast
        exact hd hd'
      -- One of the three questions is answered in favour of the block.
      · have hkept : pre = [] ∨ block.instrs ≠ [] ∨ ∃ c ∈ f.blocks, block.id ∈ c.successors := by
          by_contra hno
          simp only [not_or, not_exists, not_and, not_not] at hno
          exact hd ⟨h.function, hc, hb, hno.1, hno.2.1, hno.2.2⟩
        simp only [discardIfUnreachable, h.function, hc, hentry, hblock]
        rw [if_pos]
        simpa [Block.isEmpty, or_assoc] using hkept

end Building

/-! ### One call -/

/-- What the calls that add an instruction do. -/
inductive Call.Adds (c : Call) (b : Builder) : Except BuildError Reply → Builder → Prop
  | accepted {reply : Reply} {i : Instr} {temps : Supply} {b' : Builder} (hevent : c.event? reply = some (.instr i))
      (hle : b.temps.next ≤ temps.next) (hresult : ∀ n, i.result? = some n → b.temps.next ≤ n ∧ n < temps.next)
      (hemit : Ends (BuilderM.emit i) { b with temps } (.ok ()) b') : Adds c b (.ok reply) b'
  | refused {e : BuildError} {temps : Supply} (hle : b.temps.next ≤ temps.next)
      (hclosed : ∀ block, b.currentBlock? = some block → block.hasTerminator = true) :
      Adds c b (.error e) { b with temps }

namespace Call

variable {c : Call} {r : Except BuildError Reply}

theorem Adds.of_emit {i : Instr} {reply : Reply} (hx : Ends ((fun _ => reply) <$> BuilderM.emit i) b r b')
    (hevent : c.event? reply = some (.instr i)) (hresult : i.result? = none) : c.Adds b r b' := by
  obtain ⟨r₀, hemit, rfl⟩ := Ends.map_iff.1 hx
  obtain ⟨f, l, block, -, -, -, -, rfl, -⟩ | ⟨e, rfl, rfl, hclosed⟩ := BuilderM.emit_ends hemit
  · exact .accepted hevent (Nat.le_refl b.temps.next) (by simp [hresult]) hemit
  · exact .refused (Nat.le_refl b'.temps.next) hclosed

theorem Adds.of_emitTemp {i : TempId → Instr} {reply : TempId → Reply}
    (hx : Ends (reply <$> BuilderM.emitTemp i) b r b') (hevent : ∀ n, c.event? (reply n) = some (.instr (i n)))
    (hresult : ∀ n, (i n).result? = some n) : c.Adds b r b' := by
  obtain ⟨r₀, htemp, rfl⟩ := Ends.map_iff.1 hx
  obtain ⟨rfl, hemit⟩ | ⟨e, rfl, rfl, hclosed⟩ := BuilderM.emitTemp_ends htemp
  · refine .accepted (hevent _) (Nat.le_succ _) (fun n hn => ?_) hemit
    cases (hresult _).symm.trans hn
    exact ⟨Nat.le_refl _, Nat.lt_succ_self _⟩
  · exact .refused (Nat.le_succ _) hclosed

theorem adds (hc : c.isInstr = true) (hx : Ends c.perform b r b') : c.Adds b r b' := by
  cases c with
  | binary | unary | load | phi => exact .of_emitTemp hx (fun _ => rfl) fun _ => rfl
  | store | ret | branch | branchIf | comment => exact .of_emit hx rfl rfl
  | alloca slot =>
    rw [perform, BuilderM.alloca, Functor.map_map] at hx
    exact .of_emitTemp hx (fun _ => rfl) fun _ => rfl
  | offset ptr indices ty =>
    rw [perform, BuilderM.offset, Functor.map_map] at hx
    exact .of_emitTemp hx (fun _ => rfl) fun _ => rfl
  | call callee args ty =>
    rw [perform, BuilderM.call] at hx
    split at hx
    · rw [bind_pure_comp, Functor.map_map] at hx
      exact .of_emit hx rfl rfl
    · rw [Functor.map_map] at hx
      exact .of_emitTemp hx (fun _ => rfl) fun _ => rfl
  | _ => cases hc

theorem Allowed.of_plain (hc : c.isInstr = false) (hlabel : ∀ label, c ≠ startBlock label) : c.Allowed b :=
  ⟨fun label h => absurd h (hlabel label), fun h => absurd h (by simp [hc])⟩

/-- A call is refused exactly if it is not allowed, and then it does nothing to the function. -/
theorem perform_ends (hx : Ends c.perform b r b') :
    (c.Allowed b ∧ ∃ reply, r = .ok reply) ∨
      ¬ c.Allowed b ∧ (∃ e, r = .error e) ∧ b'.function = b.function ∧ b'.current = b.current := by
  by_cases hc : c.isInstr = true
  · cases adds hc hx with
    | accepted hevent hle hresult hemit =>
      obtain ⟨f, l, block, hf, hl, hblock, ht, -, -⟩ | ⟨e, he, -⟩ := BuilderM.emit_ends hemit
      · have hcurrent : b.currentBlock? = some block := by
          change b.function = some f at hf
          change b.current = some l at hl
          simp [currentBlock?, hf, hl, hblock]
        refine .inl ⟨⟨?_, fun _ => ⟨block, hcurrent, ht⟩⟩, _, rfl⟩
        rintro label rfl
        cases hc
      · cases he
    | refused hle hclosed =>
      refine .inr ⟨fun ha => ?_, ⟨_, rfl⟩, rfl, rfl⟩
      obtain ⟨block, hblock, ht⟩ := ha.instr hc
      exact absurd (hclosed block hblock) (by simp [ht])
  · cases c with
    | startBlock label =>
      obtain ⟨r₀, hblock, rfl⟩ := Ends.map_iff.1 hx
      obtain ⟨f, hf, hl, rfl, -⟩ | ⟨e, rfl, rfl, hdefined⟩ := BuilderM.startBlock_ends hblock
      · exact .inl ⟨⟨fun _ hc => startBlock.inj hc ▸ ⟨f, hf, hl⟩, fun hinstr => absurd hinstr hc⟩, _, rfl⟩
      · refine .inr ⟨fun ha => ?_, ⟨e, rfl⟩, rfl, rfl⟩
        obtain ⟨f, hf, hl⟩ := ha.block label rfl
        exact hl (hdefined f hf)
    | startFunction | addParameter =>
      obtain ⟨r₀, hmodify, rfl⟩ := Ends.map_iff.1 hx
      obtain ⟨rfl, -⟩ := Ends.modify_iff.1 hmodify
      exact .inl ⟨.of_plain rfl (by simp), _, rfl⟩
    | newTemp | newLabel | discard | finish =>
      obtain ⟨r₀, hmodify, rfl⟩ := Ends.map_iff.1 hx
      obtain ⟨rfl, -⟩ := Ends.modifyGet_iff.1 hmodify
      exact .inl ⟨.of_plain rfl (by simp), _, rfl⟩
    | _ => exact absurd rfl hc

theorem perform_ok_iff (hx : Ends c.perform b r b') : (∃ reply, r = .ok reply) ↔ c.Allowed b := by
  obtain ⟨ha, hok⟩ | ⟨ha, ⟨e, rfl⟩, -⟩ := perform_ends hx
  · exact iff_of_true hok ha
  · exact iff_of_false nofun ha

theorem perform_error {e : BuildError} (hx : Ends c.perform b (.error e) b') :
    b'.function = b.function ∧ b'.current = b.current := by
  obtain ⟨-, _, hr⟩ | ⟨-, -, hsame⟩ := perform_ends hx
  · cases hr
  · exact hsame

end Call

/-! ### Any calls -/

/-- Without a function nothing is noted. -/
inductive Kept : Builder → Option Journal → Prop
  | idle {b : Builder} (h : b.function = none) : Kept b none
  | building {b : Builder} {f : Function} {j : Journal} (h : Building b f j) : Kept b (some j)

namespace Kept

variable {j : Option Journal} {c : Call} {r : Except BuildError Reply}

theorem supplies {temps labels : Supply} (h : Kept b j) (hle : b.temps.next ≤ temps.next) :
    Kept { b with temps, labels } j := by
  cases h with
  | idle h => exact .idle h
  | building h => exact .building (h.supplies hle)

theorem addInstr (h : Kept b j) (hc : c.isInstr = true) (hx : c.Adds b r b') : Kept b' (Journal.note j c r) := by
  cases hx with
  | accepted hevent hle hresult hemit =>
    rw [Journal.note_ok hevent]
    cases h with
    | idle hf =>
      obtain ⟨f, _, _, hf', -⟩ | ⟨e, he, -⟩ := BuilderM.emit_ends hemit
      · cases hf.symm.trans hf'
      · cases he
    | building h =>
      obtain ⟨f, h'⟩ := h.push hemit hle hresult
      exact .building h'
  | refused hle hclosed =>
    rw [Journal.note_error hc]
    exact h.supplies hle

theorem call (h : Kept b j) (hx : Ends c.perform b r b') : Kept b' (Journal.note j c r) := by
  by_cases hc : c.isInstr = true
  · exact h.addInstr hc (Call.adds hc hx)
  cases c with
  | startFunction name ret variadic =>
    obtain ⟨_, hmodify, rfl⟩ := Ends.map_iff.1 hx
    obtain ⟨-, rfl⟩ := Ends.modify_iff.1 hmodify
    exact .building (.startFunction b name ret variadic)
  | addParameter id ty =>
    obtain ⟨_, hmodify, rfl⟩ := Ends.map_iff.1 hx
    obtain ⟨rfl, rfl⟩ := Ends.modify_iff.1 hmodify
    cases h with
    | idle h => exact .idle (by simp [Builder.addParameter, h])
    | building h => exact .building (h.addParameter id ty)
  | startBlock label =>
    obtain ⟨_, hblock, rfl⟩ := Ends.map_iff.1 hx
    obtain ⟨f, hf, hl, rfl, rfl⟩ | ⟨e, rfl, rfl, -⟩ := BuilderM.startBlock_ends hblock
    · cases h with
      | idle h => cases h.symm.trans hf
      | building h =>
        cases Option.some.inj (h.function.symm.trans hf)
        exact .building (h.startBlock hl)
    · exact h
  | newTemp =>
    obtain ⟨_, hmodify, rfl⟩ := Ends.map_iff.1 hx
    obtain ⟨rfl, rfl⟩ := Ends.modifyGet_iff.1 hmodify
    cases j <;> exact h.supplies (Nat.le_succ _)
  | newLabel =>
    obtain ⟨_, hmodify, rfl⟩ := Ends.map_iff.1 hx
    obtain ⟨rfl, rfl⟩ := Ends.modifyGet_iff.1 hmodify
    cases j <;> exact h.supplies (Nat.le_refl _)
  | discard =>
    obtain ⟨_, hmodify, rfl⟩ := Ends.map_iff.1 hx
    obtain ⟨rfl, rfl⟩ := Ends.modifyGet_iff.1 hmodify
    cases h with
    | idle h =>
      rw [discard_idle h]
      exact .idle h
    | building h =>
      obtain ⟨pre, block, hd, hdrop⟩ | ⟨-, hkept⟩ := h.discard
      · rw [hdrop]
        exact .building (h.dropTo hd)
      · rw [hkept]
        exact .building h
  | finish =>
    obtain ⟨_, hmodify, rfl⟩ := Ends.map_iff.1 hx
    obtain ⟨-, rfl⟩ := Ends.modifyGet_iff.1 hmodify
    exact .idle rfl
  | _ => exact absurd rfl hc

theorem discard_iff (h : Kept b j) :
    (∀ b', b.discardIfUnreachable = (true, b') ↔ ∃ f pre block, Droppable b f pre block ∧ b' = b.dropTo f pre) ∧
      ∀ b', b.discardIfUnreachable = (false, b') → b' = b := by
  cases h with
  | idle hf =>
    have hno : ∀ f pre block, ¬ Droppable b f pre block := fun f _ _ hd => by cases hf.symm.trans hd.function
    simp [discard_idle hf, hno, eq_comm]
  | @building f _ h =>
    obtain ⟨pre, block, hd, hdrop⟩ | ⟨hno, hkept⟩ := h.discard
    · rw [hdrop]
      refine ⟨fun b' => ⟨fun hb => ⟨f, pre, block, hd, (Prod.mk.inj hb).2.symm⟩, ?_⟩, nofun⟩
      rintro ⟨f', pre', block', hd', rfl⟩
      cases hd.function.symm.trans hd'.function
      cases (List.append_inj' (hd.blocks.symm.trans hd'.blocks) rfl).1
      rfl
    · rw [hkept]
      refine ⟨fun b' => ⟨nofun, ?_⟩, fun b' hb => (Prod.mk.inj hb).2.symm⟩
      rintro ⟨f', pre, block, hd, -⟩
      cases h.function.symm.trans hd.function
      exact absurd hd (hno pre block)

end Kept

theorem kept_run (calls : List Call) : Kept (run calls).builder (run calls).journal :=
  List.foldlRecOn (motive := fun s : Run => Kept s.builder s.journal) calls Run.step (.idle rfl)
    fun _ h _ _ => h.call rfl

/-- After any calls, the function under construction follows its journal. Calls are refused exactly if they are not
allowed, and then leave the function and the current block as they are. A block is dropped exactly if it is empty and
unreached and not the first. The function that is handed over follows the journal as well, and its blocks are given
those that lead to them, each once. -/
theorem builder_follows_journal {calls : List Call} {b : Builder} {noted : Option Journal}
    (h : run calls = ⟨b, noted⟩) :
    (b.function = none ↔ noted = none) ∧
    (∀ f j, b.function = some f → noted = some j → Follows f j) ∧
    (∀ (c : Call) r b', Ends c.perform b r b' → ((∃ reply, r = .ok reply) ↔ c.Allowed b)) ∧
    (∀ (c : Call) e b', Ends c.perform b (.error e) b' → b'.function = b.function ∧ b'.current = b.current) ∧
    (∀ b', b.discardIfUnreachable = (true, b') ↔ ∃ f pre block, Droppable b f pre block ∧ b' = b.dropTo f pre) ∧
    (∀ b', b.discardIfUnreachable = (false, b') → b' = b) ∧
    (noted = none → b.finish.1 = none) ∧
    ∀ j, noted = some j → ∃ f, b.finish.1 = some f ∧ Follows f j ∧ ∀ block ∈ f.blocks, block.predecessors.Nodup ∧
      ∀ l, l ∈ block.predecessors ↔ ∃ c ∈ f.blocks, c.id = l ∧ block.id ∈ c.successors := by
  have hkept : Kept b noted := by
    have hrun := kept_run calls
    rwa [h] at hrun
  have hfunction : (b.function = none ↔ noted = none) ∧
      ∀ j, noted = some j → ∃ f, Building b f j := by
    cases hkept with
    | idle hf => exact ⟨by simp [hf], nofun⟩
    | building hbuilding => exact ⟨by simp [hbuilding.function], fun _ hj => Option.some.inj hj ▸ ⟨_, hbuilding⟩⟩
  refine ⟨hfunction.1, fun f j hf hj => ?_, fun _ _ _ => Call.perform_ok_iff, fun _ _ _ => Call.perform_error,
    hkept.discard_iff.1, hkept.discard_iff.2, fun hnone => ?_, fun j hj => ?_⟩
  · obtain ⟨f', hbuilding⟩ := hfunction.2 j hj
    cases hbuilding.function.symm.trans hf
    exact hbuilding.follows
  · simp [Builder.finish, hfunction.1.2 hnone]
  · obtain ⟨f, hbuilding⟩ := hfunction.2 j hj
    exact ⟨f.linkPredecessors, by simp [Builder.finish, hbuilding.function], hbuilding.follows.linkPredecessors,
      linkPredecessors_predecessors hbuilding.distinct⟩

/-- A function is left half-done and another one started. It gets a parameter late, instructions after a terminator, a
label twice, an empty block that is dropped, and an instruction when no block is there. -/
def detour : List Call :=
  [.branch 3, .addParameter 4 .i32, .startFunction "draft" .void false, .startBlock 0, .alloca .i32,
    .startFunction "spin" .i32 false, .ret none, .addParameter 5 .i32, .startBlock 0, .load (.temp 5) .i1,
    .addParameter 2 .i32, .branchIf (.temp 6) 0 1, .load (.temp 5) .i32, .startBlock 0, .startBlock 1,
    .unary .neg (.temp 2) .i32, .branch 0, .startBlock 7, .discard, .comment "nowhere"]

/-- Two blocks are left: the first one is reached from both, the second one from the first. The refused load has used up
a number. -/
theorem detour_follows_journal : ∃ j f, (run detour).journal = some j ∧ (run detour).builder.finish.1 = some f ∧
    Follows f j ∧ f.name = "spin" ∧ f.params.map (·.1) = [5, 2] ∧
    f.blocks.map (fun b => (b.id, b.instrs.filterMap Instr.result?, b.predecessors, b.successors)) =
      [(0, [6], [0, 1], [0, 1]), (1, [8], [0], [0])] := by
  obtain ⟨-, -, -, -, -, -, -, hfinish⟩ := @builder_follows_journal detour _ _ rfl
  obtain ⟨f, hf, hfollows, -⟩ := hfinish _ rfl
  refine ⟨_, f, rfl, hf, hfollows, ?_⟩
  cases Option.some.inj hf
  exact ⟨rfl, rfl, rfl⟩

end TypedCore.Ir.Builder
