import Mathlib.Data.List.Perm.Basic
import TypedCore.Scope

/-!
# Scopes of a symbol table

What the operations of a symbol table do to the symbols in scope and to the numbers that it gives them. A
declaration adds one symbol, under a number that was not given before, and a scope that is closed takes its
own symbols with it. A symbol that stays in scope stays the same.
-/

namespace TypedCore

namespace SymbolTable

variable {α : Type} {t t₁ t' : SymbolTable α} {name : String} {value : α} {span : Span} {target : Target}
  {id : SymbolId}

/-- All symbols in scope. -/
def symbols (t : SymbolTable α) : List (Symbol α) := t.scopes.flatten

theorem mem_symbols_of_lookup {symbol : Symbol α} (h : t.lookup name .all = some symbol) :
    symbol ∈ t.symbols ∧ symbol.name = name := by
  obtain ⟨scope, hscope, hfind⟩ := List.exists_of_findSome?_eq_some h
  refine ⟨List.mem_flatten.2 ⟨scope, hscope, List.mem_of_find?_eq_some hfind⟩, ?_⟩
  simpa using List.find?_some hfind

theorem mem_symbols_of_innermost {symbol : Symbol α} (h : symbol ∈ t.innermost) : symbol ∈ t.symbols := by
  unfold innermost at h
  unfold symbols scopes
  cases hinner : t.inner with
  | nil => simpa [hinner] using h
  | cons scope rest => simp_all

theorem symbols_closeScope (t : SymbolTable α) : t.symbols = t.closeScope.1 ++ t.closeScope.2.symbols := by
  unfold closeScope
  split
  · rfl
  · rename_i scope inner hinner
    simp [symbols, scopes, hinner]

theorem depth_closeScope (t : SymbolTable α) : t.closeScope.2.depth = t.depth - 1 := by
  unfold closeScope depth
  cases hinner : t.inner with
  | nil => simp [hinner]
  | cons scope rest => rfl

/-! ### Declarations -/

theorem declare_ok (h : t.declare name value span target = .ok (id, t')) :
    id = t.nextId ∧ t' = t.insert name value span target := by
  unfold declare at h
  simp only at h
  split at h
  · cases h
  · cases h
    exact ⟨rfl, rfl⟩

/-- A symbol goes to the end of the innermost scope, or to the end of the root scope. -/
theorem insert_cases (t : SymbolTable α) (name : String) (value : α) (span : Span) (target : Target) :
    (∃ scope rest level, target = .innermost ∧ t.inner = scope :: rest ∧ t.insert name value span target =
      { t with inner := (scope ++ [⟨t.nextId, name, value, span, level⟩]) :: rest, nextId := t.nextId + 1 }) ∨
    (target = .root ∨ t.inner = []) ∧ t.insert name value span target =
      { t with root := t.root ++ [⟨t.nextId, name, value, span, 0⟩], nextId := t.nextId + 1 } := by
  cases target with
  | innermost =>
    cases hinner : t.inner with
    | nil =>
      refine .inr ⟨.inr rfl, ?_⟩
      simp only [insert, hinner]
    | cons scope rest =>
      refine .inl ⟨scope, rest, t.depth, rfl, rfl, ?_⟩
      simp only [insert, hinner]
  | root => exact .inr ⟨.inl rfl, rfl⟩

theorem nextId_insert (t : SymbolTable α) (name : String) (value : α) (span : Span) (target : Target) :
    (t.insert name value span target).nextId = t.nextId + 1 := by
  rcases insert_cases t name value span target with ⟨scope, rest, level, -, -, h⟩ | ⟨-, h⟩ <;> rw [h]

theorem depth_insert (t : SymbolTable α) (name : String) (value : α) (span : Span) (target : Target) :
    (t.insert name value span target).depth = t.depth := by
  rcases insert_cases t name value span target with ⟨scope, rest, level, -, hinner, h⟩ | ⟨-, h⟩
  · rw [h, depth, depth, hinner]
    rfl
  · rw [h]
    rfl

theorem symbols_insert (t : SymbolTable α) (name : String) (value : α) (span : Span) (target : Target) :
    ∃ level, (t.insert name value span target).symbols.Perm (⟨t.nextId, name, value, span, level⟩ :: t.symbols) := by
  rcases insert_cases t name value span target with ⟨scope, rest, level, -, hinner, h⟩ | ⟨-, h⟩
  · refine ⟨level, ?_⟩
    rw [h]
    simp only [symbols, scopes, hinner, List.cons_append, List.flatten_cons, List.append_assoc, List.nil_append]
    exact List.perm_middle
  · refine ⟨0, ?_⟩
    rw [h]
    simp only [symbols, scopes, List.flatten_append, List.flatten_cons, List.flatten_nil, List.append_nil,
      ← List.append_assoc]
    exact List.perm_append_singleton _ _

/-! ### Numbers -/

/-- The numbers `ids` are given on the way from one table to another. -/
inductive Issues (t : SymbolTable α) : List SymbolId → SymbolTable α → Prop
  | refl : Issues t [] t
  | openScope {ids : List SymbolId} {t' : SymbolTable α} (h : Issues t ids t') : Issues t ids t'.openScope
  | closeScope {ids : List SymbolId} {t' : SymbolTable α} (h : Issues t ids t') : Issues t ids t'.closeScope.2
  | declare {ids : List SymbolId} {t₁ t' : SymbolTable α} {name : String} {value : α} {span : Span} {target : Target}
      {id : SymbolId} (h : Issues t ids t₁) (hd : t₁.declare name value span target = .ok (id, t')) :
      Issues t (id :: ids) t'

theorem nextId_closeScope (t : SymbolTable α) : t.closeScope.2.nextId = t.nextId := by
  unfold closeScope
  split <;> rfl

/-- Numbers are given in increasing order. -/
theorem Issues.bounds {ids : List SymbolId} (h : Issues t ids t') :
    t.nextId ≤ t'.nextId ∧ (∀ id ∈ ids, id < t'.nextId) ∧ ids.Nodup := by
  induction h with
  | refl => exact ⟨Nat.le_refl _, nofun, List.nodup_nil⟩
  | openScope _ ih => exact ih
  | closeScope _ ih => rwa [nextId_closeScope]
  | @declare ids t₁ t' name value span target id _ hd ih =>
    obtain ⟨hle, hlt, hnodup⟩ := ih
    obtain ⟨rfl, rfl⟩ := declare_ok hd
    rw [nextId_insert]
    refine ⟨Nat.le_succ_of_le hle, List.forall_mem_cons.2 ⟨Nat.lt_succ_self _, fun id hid => ?_⟩,
      List.nodup_cons.2 ⟨fun hmem => ?_, hnodup⟩⟩
    · exact Nat.lt_succ_of_lt (hlt id hid)
    · exact absurd (hlt _ hmem) (Nat.lt_irrefl _)

/-! ### Lookup -/

/-- A name is found where it was, and only a name that was not found can be one that the root scope has gained. -/
theorem lookup_of_root_append {gained : Scope α} (hinner : t'.inner = t.inner) (hroot : t'.root = t.root ++ gained)
    (name : String) : t'.lookup name .all = t.lookup name .all ∨
      t.lookup name .all = none ∧ ∃ symbol ∈ gained, t'.lookup name .all = some symbol := by
  have hsplit (root : Scope α) : (t.inner ++ [root]).findSome? (fun scope => scope.find? name) =
      (t.inner.findSome? fun scope => scope.find? name).or (root.find? name) := by
    rw [List.findSome?_append, List.findSome?_singleton]
  simp only [lookup, scopes, hinner, hroot, hsplit]
  rw [Scope.find?, List.find?_append]
  cases hin : t.inner.findSome? fun scope => scope.find? name with
  | some symbol => exact .inl rfl
  | none =>
    cases hold : List.find? (fun symbol => symbol.name == name) t.root with
    | some symbol =>
      refine .inl ?_
      rw [Scope.find?, hold]
      rfl
    | none =>
      cases hnew : List.find? (fun symbol => symbol.name == name) gained with
      | none =>
        refine .inl ?_
        rw [Scope.find?, hold]
        rfl
      | some symbol =>
        refine .inr ⟨?_, symbol, List.mem_of_find?_eq_some hnew, rfl⟩
        rw [Scope.find?, hold]
        rfl

end SymbolTable

end TypedCore
