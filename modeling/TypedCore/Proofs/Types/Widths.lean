import TypedCore.Proofs.Types.Canonical
import TypedCore.Proofs.Types.Shapes

/-!
# Conversions and the widths of layouts

Integers of 1, 8, 16 and 32 bits are laid out with their own width, and all others with 64 bits. The conversion between
two integer types is chosen by the widths of the types and not of the layouts. It is right for the layouts if and only
if the types have one width, or the smaller width is one of the four (`castOp_resizes_iff`).
-/

namespace TypedCore

namespace Ir

/-- The widths below 64 bits that integers are laid out with. -/
def narrowWidths : List Nat := [1, 8, 16, 32]

/-- The width that integers of `bits` bits are laid out with. -/
def laidOutWidth (bits : Nat) : Nat := if bits ∈ narrowWidths then bits else 64

theorem Ty.bits?_int (bits : Nat) : (Ty.int bits).bits? = some (laidOutWidth bits) := by
  unfold Ty.int
  split
  case h_5 h₁ h₈ h₁₆ h₃₂ =>
    have hwide : bits ∉ narrowWidths := by simpa [narrowWidths] using ⟨h₁, h₈, h₁₆, h₃₂⟩
    rw [laidOutWidth, if_neg hwide]
    rfl
  all_goals rfl

theorem lt_of_mem_narrowWidths {bits : Nat} (h : bits ∈ narrowWidths) : bits < 64 := by
  simp only [narrowWidths, List.mem_cons, List.not_mem_nil, or_false] at h
  omega

/-- The layout of a wider type is wider only if the smaller width is kept. -/
theorem laidOutWidth_lt_iff {a b : Nat} (h : a < b) : laidOutWidth a < laidOutWidth b ↔ a ∈ narrowWidths := by
  unfold laidOutWidth
  by_cases ha : a ∈ narrowWidths
  · have hlt := lt_of_mem_narrowWidths ha
    simp only [ha, if_true, iff_true]
    split <;> omega
  · simp only [ha, if_false, iff_false, Nat.not_lt]
    split
    · exact Nat.le_of_lt (lt_of_mem_narrowWidths ‹_›)
    · exact Nat.le_refl _

/-- The instruction, or the lack of one, takes integers of `m` bits to integers of `n` bits. -/
def Resizes (m n : Nat) : Option UnOp → Prop
  | some .zext | some .sext => m < n
  | some .trunc => n < m
  | none => m = n
  | some _ => False

/-- A conversion that is right for the types is right for their layouts where the smaller width is kept. -/
theorem Resizes.laidOut_iff {a b : Nat} {op : Option UnOp} (h : Resizes a b op) :
    Resizes (laidOutWidth a) (laidOutWidth b) op ↔ a = b ∨ min a b ∈ narrowWidths := by
  have hext (hlt : a < b) : laidOutWidth a < laidOutWidth b ↔ a = b ∨ min a b ∈ narrowWidths := by
    rw [laidOutWidth_lt_iff hlt, Nat.min_eq_left (Nat.le_of_lt hlt), or_iff_right (Nat.ne_of_lt hlt)]
  cases op with
  | none => exact iff_of_true (congrArg laidOutWidth h) (.inl h)
  | some op =>
    cases op with
    | zext | sext => exact hext h
    | trunc =>
      have hlt : b < a := h
      show laidOutWidth b < laidOutWidth a ↔ _
      rw [laidOutWidth_lt_iff hlt, Nat.min_eq_right (Nat.le_of_lt hlt), or_iff_right (Nat.ne_of_gt hlt)]
    | _ => exact False.elim h

theorem min_mem_narrowWidths {a b : Nat} (ha : a ∈ 64 :: narrowWidths) (hb : b ∈ 64 :: narrowWidths) :
    a = b ∨ min a b ∈ narrowWidths := by
  rcases List.mem_cons.1 ha with rfl | ha
  · rcases List.mem_cons.1 hb with rfl | hb
    · exact .inl rfl
    · exact .inr (by rwa [Nat.min_eq_right (Nat.le_of_lt (lt_of_mem_narrowWidths hb))])
  · rcases List.mem_cons.1 hb with rfl | hb
    · exact .inr (by rwa [Nat.min_eq_left (Nat.le_of_lt (lt_of_mem_narrowWidths ha))])
    · exact .inr (by rcases Nat.le_total a b with h | h <;> simpa [h])

end Ir

namespace TypeTable

variable {t : TypeTable} {src dst ty : TypeId}

theorem layout_integral (h : t.isIntegral ty = true) :
    ∃ bits, t.bits? ty = some bits ∧ t.layout ty = .ok (.int bits) := by
  obtain hs | ⟨bits, signed, hs⟩ := isIntegral_iff.1 h
  · exact ⟨1, by simp [bits?, hs], layout_bool hs⟩
  · exact ⟨bits, by simp [bits?, hs], layout_integer hs⟩

/-- Integers are converted by the widths of their types. -/
theorem resizes_castOp {a b : Nat} {signed signed' : Bool} (hs : t.shape src = .integer a signed)
    (hd : t.shape dst = .integer b signed') : ∃ op, t.castOp src dst = .ok op ∧ Ir.Resizes a b op := by
  simp only [castOp, hs, hd]
  refine ⟨_, rfl, ?_⟩
  by_cases hlt : b > a
  · rw [if_pos hlt]
    cases signed <;> exact hlt
  rw [if_neg hlt]
  by_cases hgt : b < a
  · rw [if_pos hgt]
    exact hgt
  · rw [if_neg hgt]
    exact Nat.le_antisymm (Nat.le_of_not_lt hgt) (Nat.le_of_not_lt hlt)

/-- Bools and integers are converted by the widths of their types, except that a bool is left as it is for an integer
of no bits. An integer does not become a bool this way. -/
theorem castOp_integral {a b : Nat} (hsrc : t.isIntegral src = true) (hdst : t.isIntegral dst = true)
    (ha : t.bits? src = some a) (hb : t.bits? dst = some b) :
    (t.isBool src = false ∧ t.isBool dst = true ∧ (t.castOp src dst).isOk = false) ∨
    (t.isBool dst = true → t.isBool src = true) ∧
      ∃ op, t.castOp src dst = .ok op ∧ (Ir.Resizes a b op ∨ a = 1 ∧ b = 0 ∧ op = none) := by
  obtain hs | ⟨bits, signed, hs⟩ := isIntegral_iff.1 hsrc <;>
    obtain hd | ⟨bits', signed', hd⟩ := isIntegral_iff.1 hdst <;>
    simp only [bits?, hs, hd, Option.some.injEq] at ha hb <;> subst ha hb
  · exact .inr ⟨fun _ => by simp [isBool, hs], none, by simp [castOp, hs, hd], .inl rfl⟩
  · refine .inr ⟨fun _ => by simp [isBool, hs], _, by simp only [castOp, hs, hd]; rfl, ?_⟩
    by_cases hwide : bits' > 1
    · rw [if_pos hwide]
      exact .inl hwide
    · rw [if_neg hwide]
      obtain rfl | rfl : bits' = 1 ∨ bits' = 0 := by omega
      · exact .inl rfl
      · exact .inr ⟨rfl, rfl, rfl⟩
  · exact .inl ⟨by simp [isBool, hs], by simp [isBool, hd], by simp [castOp, hs, hd, Except.isOk, Except.toBool]⟩
  · obtain ⟨op, hop, hresizes⟩ := resizes_castOp hs hd
    exact .inr ⟨fun h => by simp [isBool, hd] at h, op, hop, .inl hresizes⟩

end TypeTable

open TypeTable

/-- A conversion between bools and integers, which there is for all but integers to bools, goes between layouts of the
widths that it is made for if and only if the types have one width or the smaller one is a width below 64 that
integers are laid out with. So it does for all types whose widths there are layouts for. -/
theorem castOp_resizes_iff {t : TypeTable} {src dst : TypeId} (hsrc : t.isIntegral src = true)
    (hdst : t.isIntegral dst = true) :
    ((t.castOp src dst).isOk = true ↔ (t.isBool dst = true → t.isBool src = true)) ∧
    ∃ a b x y m n, t.bits? src = some a ∧ t.bits? dst = some b ∧ t.layout src = .ok x ∧ t.layout dst = .ok y ∧
      x.bits? = some m ∧ y.bits? = some n ∧ ∀ op, t.castOp src dst = .ok op →
        (Ir.Resizes m n op ↔ a = b ∨ min a b ∈ Ir.narrowWidths) ∧
        (a ∈ 64 :: Ir.narrowWidths → b ∈ 64 :: Ir.narrowWidths → Ir.Resizes m n op) := by
  obtain ⟨a, ha, hx⟩ := layout_integral hsrc
  obtain ⟨b, hb, hy⟩ := layout_integral hdst
  have hcases := castOp_integral hsrc hdst ha hb
  refine ⟨?_, a, b, _, _, _, _, ha, hb, hx, hy, Ir.Ty.bits?_int a, Ir.Ty.bits?_int b, fun op hop => ?_⟩
  · obtain ⟨hbool, hbool', hnone⟩ | ⟨hbool, op, hop, -⟩ := hcases
    · simp [hbool, hbool', hnone]
    · rw [hop]
      exact iff_of_true rfl hbool
  · have hiff : Ir.Resizes (Ir.laidOutWidth a) (Ir.laidOutWidth b) op ↔ a = b ∨ min a b ∈ Ir.narrowWidths := by
      obtain ⟨-, -, hnone⟩ | ⟨-, op', hop', hresizes⟩ := hcases
      · rw [hop] at hnone
        cases hnone
      · cases hop.symm.trans hop'
        obtain hresizes | ⟨rfl, rfl, rfl⟩ := hresizes
        · exact hresizes.laidOut_iff
        · -- no instruction takes one bit to the 64 that an integer of no bits is laid out with
          exact iff_of_false (by show ¬ Ir.laidOutWidth 1 = Ir.laidOutWidth 0; decide) (by decide)
    exact ⟨hiff, fun ha hb => hiff.2 (Ir.min_mem_narrowWidths ha hb)⟩

namespace Widths

/-- Two odd widths, the type of offsets, usual widths under a name and const, bool, and an integer of no bits. -/
def ops : List Op :=
  [.integer 24 true, .integer 48 true, .size, .integer 32 true, .named "Int" ⟨3⟩, .integer 8 false, .const ⟨5⟩, .bool,
    .integer 0 false]

def table : TypeTable := ops.foldl Op.apply (.empty 24)

theorem reaches : TypeTable.Reaches (.empty 24) table := Op.reaches_foldl (by decide +kernel)

end Widths

open Widths in
/-- Bytes and words are converted between layouts of their own widths. -/
theorem byte_extended_to_word :
    (table.isIntegral ⟨6⟩ = true ∧ table.isIntegral ⟨4⟩ = true) ∧
    table.castOp ⟨6⟩ ⟨4⟩ = .ok (some .zext) ∧ table.layout ⟨6⟩ = .ok .i8 ∧ table.layout ⟨4⟩ = .ok .i32 ∧
    ∃ m n, Ir.Ty.i8.bits? = some m ∧ Ir.Ty.i32.bits? = some n ∧ Ir.Resizes m n (some .zext) := by
  have hsrc : table.isIntegral ⟨6⟩ = true := by decide +kernel
  have hdst : table.isIntegral ⟨4⟩ = true := by decide +kernel
  have hop : table.castOp ⟨6⟩ ⟨4⟩ = .ok (some .zext) := by decide +kernel
  have hx : table.layout ⟨6⟩ = .ok .i8 := by decide +kernel
  have hy : table.layout ⟨4⟩ = .ok .i32 := by decide +kernel
  obtain ⟨-, a, b, x, y, m, n, ha, hb, hx', hy', hm, hn, hfits⟩ := castOp_resizes_iff hsrc hdst
  cases hx.symm.trans hx'
  cases hy.symm.trans hy'
  have ha8 : table.bits? ⟨6⟩ = some 8 := by decide +kernel
  cases ha8.symm.trans ha
  have hb32 : table.bits? ⟨4⟩ = some 32 := by decide +kernel
  cases hb32.symm.trans hb
  exact ⟨⟨hsrc, hdst⟩, hop, hx, hy, m, n, hm, hn, (hfits _ hop).2 (by decide) (by decide)⟩

open Widths in
/-- An extension between types of one layout, one to a narrower layout, a truncation to a wider layout, as for an index
where offsets have 24 bits, and no instruction between layouts of different widths. -/
theorem odd_widths_not_resized :
    TypeTable.Reaches (.empty 24) table ∧
    (table.castOp ⟨0⟩ ⟨1⟩ = .ok (some .sext) ∧ table.layout ⟨0⟩ = .ok .i64 ∧ table.layout ⟨1⟩ = .ok .i64) ∧
    (table.castOp ⟨2⟩ ⟨3⟩ = .ok (some .zext) ∧ table.layout ⟨2⟩ = .ok .i64 ∧ table.layout ⟨3⟩ = .ok .i32) ∧
    (table.castOp ⟨3⟩ ⟨2⟩ = .ok (some .trunc)) ∧
    (table.castOp ⟨7⟩ ⟨8⟩ = .ok none ∧ table.layout ⟨7⟩ = .ok .i1 ∧ table.layout ⟨8⟩ = .ok .i64) ∧
    ¬ Ir.Resizes 64 64 (some .sext) ∧ ¬ Ir.Resizes 64 32 (some .zext) ∧ ¬ Ir.Resizes 32 64 (some .trunc) ∧
    ¬ Ir.Resizes 1 64 none := by
  refine ⟨reaches, ?_, ?_, ?_, ?_, Nat.lt_irrefl 64, ?_, ?_, ?_⟩
  · decide +kernel
  · decide +kernel
  · decide +kernel
  · decide +kernel
  · show ¬ 64 < 32
    decide
  · show ¬ 64 < 32
    decide
  · show ¬ 1 = 64
    decide

end TypedCore
