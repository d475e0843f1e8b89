import TypedCore.Proofs.Emitter.Places
import TypedCore.Proofs.Session.Elaborated

/-!
# Stores have a destination

What a session accepts on the left of an assignment, under a step or under `&` has an address. Operands are
checked before they are converted, which makes one difference: a function that is assigned to, by way of a
pointer to it, decays after the check, and its pointer is no place. All other code finds its destinations,
whatever the emitter has built so far.
-/

namespace TypedCore

open Session Lowering

namespace Expr

theorem hasAddress_of_isLvalue : ∀ {e : Expr}, e.isLvalue = true → e.hasAddress = true
  | identifier .., _ => rfl
  | proxy target _, h => hasAddress_of_isLvalue (e := target) h
  | unary .., h => h
  | binary .., h => h
  | member object _ _ _, h => hasAddress_of_isLvalue (e := object) h

/-- The operand of `&` has an address, what is stepped is a place, and so is what is assigned to, unless it is a
function that has decayed. -/
def Stores (t : TypeTable) : Expr → Prop
  | unary .addressOf child _ => child.hasAddress = true
  | unary .preIncrement child _ | unary .postIncrement child _ | unary .preDecrement child _
  | unary .postDecrement child _ => child.isLvalue = true
  | binary op left _ _ => op.isAssignment = true → left.isLvalue = true ∨ DecayedFunction t left
  | _ => True

/-- What is assigned to is a place. -/
def assignsToPlace : Expr → Bool
  | binary op left _ _ => !op.isAssignment || left.isLvalue
  | _ => true

theorem stores_of_formed {t : TypeTable} {e : Expr} (h : Formed t e) : Stores t e := by
  cases e with
  | unary op child note =>
    cases op with
    | addressOf | preIncrement | postIncrement | preDecrement | postDecrement => exact h
    | _ => trivial
  | binary op left right note => exact h
  | _ => trivial

theorem destined_of_stores {t : TypeTable} {e : Expr} (h : Stores t e) (hplace : e.assignsToPlace = true) :
    Destined e := by
  cases e with
  | unary op child note =>
    cases op with
    | addressOf => exact h
    | preIncrement | postIncrement | preDecrement | postDecrement => exact hasAddress_of_isLvalue h
    | _ => trivial
  | binary op left right note =>
    intro hop
    refine hasAddress_of_isLvalue ?_
    simpa [assignsToPlace, hop] using hplace
  | _ => trivial

end Expr

open Expr in
/-- In whatever a session hands out, assignments, steps and `&` have operands with an address, apart from
assignments to a function that has decayed. Wherever nothing is assigned to such a function, neither the value of
an expression nor a branch on it nor the address of an expression that has one fails for want of an address, in
any state of the emitter. -/
theorem stores_find_destination {s : Session} {es : List Expr} (h : s.Reachable es) {e : Expr} (he : e ∈ es) :
    (∀ x : Expr, x.isLvalue = true → x.hasAddress = true) ∧
    e.All fun n => n.Stores s.types ∧ (n.All (fun x => x.assignsToPlace = true) → ∀ m m' text,
      ¬ Ends (loadValue s.types n) m (.error (.notAddressable text)) m' ∧
      (∀ onTrue onFalse, ¬ Ends (branchOn s.types n onTrue onFalse) m (.error (.notAddressable text)) m') ∧
      (n.hasAddress = true → ¬ Ends (loadAddress s.types n) m (.error (.notAddressable text)) m')) := by
  refine ⟨fun x => hasAddress_of_isLvalue, All.imp (fun n hn => ⟨stores_of_formed hn.self, fun hplace => ?_⟩)
    (h.elaborated e he).formed⟩
  have hdestined : n.All Destined :=
    All.imp (fun x hx => destined_of_stores (stores_of_formed hx.self.1) hx.self.2) (All.and hn hplace)
  have hfinds := lower_finds s.types hdestined
  intro m m' text
  exact ⟨fun hx => hfinds.value hx text rfl, fun onTrue onFalse hx => hfinds.branch onTrue onFalse hx text rfl,
    fun haddress hx => hfinds.address haddress hx text rfl⟩

open Listing in
/-- The element `(p += 1)[1]` is computed in part by an assignment to a pointer. -/
theorem element_finds_destination : history.session.Reachable history.exprs ∧ element ∈ history.exprs ∧
    (element.All (fun x => x.assignsToPlace = true) ∧ element.hasAddress = true) ∧
    ∀ m m' text, ¬ Ends (loadAddress history.session.types element) m (.error (.notAddressable text)) m' := by
  have hreachable : history.session.Reachable history.exprs := Session.History.run_reachable _
  have hmem : element ∈ history.exprs := Session.History.expr_mem (by decide +kernel)
  have hplaces : element.All (fun x => x.assignsToPlace = true) := by decide +kernel
  have haddress : element.hasAddress = true := by decide +kernel
  have hfinds := (stores_find_destination hreachable hmem).2.self.2 hplaces
  exact ⟨hreachable, hmem, ⟨hplaces, haddress⟩, fun m m' text => (hfinds m m' text).2.2 haddress⟩

/-- The conversion that an assignment stores to. -/
def Expr.convertedDestination? : Expr → Option Expr
  | binary .assign (unary .cast child note) _ _ => some (unary .cast child note)
  | _ => none

/-- Nothing can be stored to a conversion. -/
theorem assign_to_conversion_ends {t : TypeTable} {e place : Expr} (h : e.convertedDestination? = some place)
    (m : Emitter) : Ends (loadValue t e) m (.error (.notAddressable (place.text t))) m := by
  unfold Expr.convertedDestination? at h
  split at h
  · rename_i child note right note'
    cases h
    have haddress : (lower t (.unary .cast child note)).address =
        throw (.notAddressable ((Expr.unary .cast child note).text t)) := by
      unfold lower unaryCode castCode Code.ofNode
      simp only
      split
      · rfl
      · rfl
    have hunknown : (Expr.binary .assign (.unary .cast child note) right note').constant? t = none := by
      simp only [Expr.constant?]
      rfl
    have hvalue : loadValue t (.binary .assign (.unary .cast child note) right note') =
        assignValue t (lower t (.unary .cast child note)) (lower t right) note'.ty := by
      unfold loadValue
      conv => lhs; unfold lower binaryCode Code.ofValue Code.ofNode
      simp only [hunknown]
      rfl
    rw [hvalue, assignValue, haddress]
    exact Ends.bind_iff.2 (.inr ⟨_, rfl, Ends.throw_iff.2 ⟨rfl, rfl⟩⟩)
  · cases h

namespace Redirection

/-- There are a function without parameters and result, and a pointer to such functions. -/
def history : History := .run
  [.types [.void, .function ⟨0⟩ [] false, .pointer ⟨1⟩], .declareFunction "f" ⟨1⟩, .declareParameter "p" ⟨2⟩,
    .identifier "p", .identifier "f", .unary .dereference 0, .binary .assign 2 1]

/-- `*p = f` -/
def store : Expr := history.expr 3

end Redirection

open Redirection in
/-- The assignment `*p = f` is accepted, and then there is no place to store `f` to. -/
theorem function_has_no_destination : history.session.Reachable history.exprs ∧ store ∈ history.exprs ∧
    store.assignsToPlace = false ∧
    ∀ m, Ends (loadValue history.session.types store) m (.error (.notAddressable "*p")) m := by
  refine ⟨Session.History.run_reachable _, Session.History.expr_mem (by decide +kernel), by decide +kernel, fun m => ?_⟩
  have htext : (store.convertedDestination?.map (·.text history.session.types)) = some "*p" := by decide +kernel
  obtain ⟨place, hplace, htext⟩ := Option.map_eq_some_iff.1 htext
  rw [← htext]
  exact assign_to_conversion_ends hplace m

end TypedCore
