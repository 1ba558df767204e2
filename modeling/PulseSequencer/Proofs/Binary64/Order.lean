import PulseSequencer.Binary64
import Mathlib

/-!
# The order of positive doubles

A positive finite double is compared by its exponent first and then by its mantissa (`rank`).  The two
together are all there is to it, so these doubles are ordered linearly: `lt_iff_rank_lt` and
`eq_of_rank_eq`.  Infinity is above all of them (`lt_infinity`).
-/

namespace PulseSequencer.Binary64

open Float.Model (UnpackedFloat)

variable {x y : Float}

/-- The exponent and the mantissa of a positive finite double, in the order in which they count. -/
def rank (x : Float) : Int ×ₗ Nat :=
  match x.toModel.unpack with
  | .finite _ m e _ => toLex (e, m)
  | _ => toLex (0, 0)

theorem exists_unpack_of_isPositive (h : isPositive x = true) :
    ∃ m e, ∃ hm : 0 < m, x.toModel.unpack = .finite .positive m e hm := by
  rw [isPositive, Bool.and_eq_true, decide_eq_true_iff] at h
  obtain ⟨hfinite, hpos⟩ := h
  have hfinite : x.toModel.unpack.isFinite = true := hfinite
  have hpos : UnpackedFloat.lt (0 : Float).toModel.unpack x.toModel.unpack = true :=
    of_decide_eq_true hpos
  have hzero : (0 : Float).toModel.unpack = .zero .positive := by rfl
  rw [hzero] at hpos
  cases hx : x.toModel.unpack with
  | infinity sign =>
    rw [hx] at hfinite
    cases hfinite
  | notANumber =>
    rw [hx] at hfinite
    cases hfinite
  | zero sign =>
    rw [hx] at hpos
    cases hpos
  | finite sign m e hm =>
    cases sign with
    | positive => exact ⟨m, e, hm, rfl⟩
    | negative =>
      rw [hx] at hpos
      cases hpos

theorem lt_iff_rank_lt (hx : isPositive x = true) (hy : isPositive y = true) :
    x < y ↔ rank x < rank y := by
  obtain ⟨m, e, hm, hx⟩ := exists_unpack_of_isPositive hx
  obtain ⟨m', e', hm', hy⟩ := exists_unpack_of_isPositive hy
  have hrank : rank x < rank y ↔ e < e' ∨ e = e' ∧ m < m' := by
    unfold rank
    rw [hx, hy]
    exact Prod.Lex.toLex_lt_toLex
  have hlt : x < y ↔ UnpackedFloat.lt x.toModel.unpack y.toModel.unpack = true := decide_eq_true_iff
  rw [hrank, hlt, hx, hy]
  show (some ((compare e e').then (compare m m')) == some Ordering.lt) = true ↔ _
  rw [beq_iff_eq, Option.some.injEq, Ordering.then_eq_lt, compare_lt_iff_lt, compare_lt_iff_lt,
    compare_eq_iff_eq]

/-- A double is determined by what it is unpacked to. -/
theorem eq_of_unpack_eq (h : x.toModel.unpack = y.toModel.unpack) : x = y := by
  have hbits : x.toModel.toBits.toBitVec = y.toModel.toBits.toBitVec :=
    (UnpackedFloat.unpack_inj_of_valid x.toModel.valid y.toModel.valid).mp h
  exact Float.toBits_inj.mp (UInt64.toBitVec_inj.mp hbits)

theorem eq_of_rank_eq (hx : isPositive x = true) (hy : isPositive y = true)
    (h : rank x = rank y) : x = y := by
  obtain ⟨m, e, hm, hx⟩ := exists_unpack_of_isPositive hx
  obtain ⟨m', e', hm', hy⟩ := exists_unpack_of_isPositive hy
  unfold rank at h
  rw [hx, hy] at h
  cases toLex_inj.mp h
  exact eq_of_unpack_eq (hx.trans hy.symm)

theorem lt_infinity (hx : isPositive x = true) : x < 1 / 0 := by
  obtain ⟨m, e, hm, hx⟩ := exists_unpack_of_isPositive hx
  have hinfinity : (1 / 0 : Float).toModel.unpack = .infinity .positive := by rfl
  have hlt : UnpackedFloat.lt x.toModel.unpack (1 / 0 : Float).toModel.unpack = true := by
    rw [hx, hinfinity]
    rfl
  exact decide_eq_true_iff.mpr hlt

end PulseSequencer.Binary64
