import PulseSequencer.Waveform
import Mathlib.Data.List.Basic

/-!
# The counters of a sampling in closed form

A sampling keeps one counter for each pulse.  The counter starts late, at the offset of the pulse,
and wraps at its period.

* `Pulse.isHighAt`, `Pulse.isLowAt`: the state of a pulse in a cycle, without any counter.
* `PulseCounter.tick_atCycle`: ticking keeps every counter at its closed form `PulseCounter.atCycle`.
* `Waveform.activeAt`, `Waveform.maskedAt`: the channels that pulses drive, and those that masking
  pulses hold off; `activeChannels_atCycle` and `openChannels_atCycle` say that the counters find them.
-/

namespace PulseSequencer

namespace Pulse

/-- Has the pulse started by cycle `k`, and is it in the high part of its period? -/
def isHighAt (k : Nat) (p : Pulse) : Bool :=
  p.offset ≤ k && (k - p.offset) % p.period < p.high

/-- Has the pulse started by cycle `k`, and is it in the low part of its period? -/
def isLowAt (k : Nat) (p : Pulse) : Bool :=
  p.offset ≤ k && p.high ≤ (k - p.offset) % p.period

end Pulse

namespace PulseCounter

/-- The counter of a pulse in front of cycle `k`. -/
def atCycle (k : Nat) (p : Pulse) : PulseCounter :=
  { pulse := p, mask := p.channels.mask, elapsed := (k - p.offset) % p.period }

theorem atCycle_zero (p : Pulse) : atCycle 0 p = ofPulse p := by
  simp [atCycle, ofPulse]

/-- A counter that has started moves on by one and wraps at the period; one that has not waits. -/
theorem tick_atCycle (k : Nat) (p : Pulse) : tick k (atCycle k p) = atCycle (k + 1) p := by
  by_cases h : p.offset ≤ k
  · have hsucc : k + 1 - p.offset = k - p.offset + 1 := by omega
    simp [tick, started, atCycle, h, hsucc, Nat.mod_add_mod]
  · have hk : k - p.offset = 0 := by omega
    have hsucc : k + 1 - p.offset = 0 := by omega
    simp [tick, started, atCycle, h, hk, hsucc]

theorem map_tick_atCycle (k : Nat) (pulses : List Pulse) :
    (pulses.map (atCycle k)).map (tick k) = pulses.map (atCycle (k + 1)) := by
  rw [List.map_map]
  exact List.map_congr_left fun p _ => tick_atCycle k p

theorem isLow_atCycle (k : Nat) (p : Pulse) :
    ((atCycle k p).started k && !(atCycle k p).isHigh) = p.isLowAt k := by
  show (decide (p.offset ≤ k) && !decide ((k - p.offset) % p.period < p.high)) = p.isLowAt k
  rw [Bool.eq_iff_iff]
  simp [Pulse.isLowAt]

end PulseCounter

namespace Waveform

/-- The channels of the pulses that are high in cycle `k`. -/
def activeAt (pulses : List Pulse) (k : Nat) : FlagWord :=
  drivenChannels (pulses.filter (Pulse.isHighAt k))

/-- The channels of the masking pulses that are low in cycle `k`. -/
def maskedAt (masking : List Pulse) (k : Nat) : FlagWord :=
  drivenChannels (masking.filter (Pulse.isLowAt k))

/-! ### Which bits a union of channels has -/

theorem getLsbD_foldl_or {α : Type} (f : α → FlagWord) (xs : List α) (acc : FlagWord) (i : Nat) :
    (xs.foldl (fun acc x => acc ||| f x) acc).getLsbD i =
      (acc.getLsbD i || xs.any fun x => (f x).getLsbD i) := by
  induction xs generalizing acc with
  | nil => simp
  | cons x xs ih =>
    rw [List.foldl_cons, ih, BitVec.getLsbD_or, List.any_cons, Bool.or_assoc]

theorem getLsbD_drivenChannels (pulses : List Pulse) (i : Nat) :
    (drivenChannels pulses).getLsbD i = pulses.any fun p => p.channels.mask.getLsbD i := by
  unfold drivenChannels
  rw [getLsbD_foldl_or]
  simp

theorem getLsbD_drivenChannels_filter {pulses : List Pulse} {f : Pulse → Bool} {i : Nat}
    (h : (drivenChannels (pulses.filter f)).getLsbD i = true) :
    (drivenChannels pulses).getLsbD i = true := by
  rw [getLsbD_drivenChannels, List.any_eq_true] at h ⊢
  obtain ⟨p, hp, hi⟩ := h
  exact ⟨p, List.mem_of_mem_filter hp, hi⟩

theorem foldl_without (pulses : List Pulse) (base : FlagWord) :
    pulses.foldl (fun acc p => acc.without p.channels.mask) base =
      base.without (drivenChannels pulses) := by
  induction pulses generalizing base with
  | nil => ext i hi; simp [drivenChannels, ← BitVec.getLsbD_eq_getElem]
  | cons p ps ih =>
    rw [List.foldl_cons, ih]
    ext i hi
    simp only [← BitVec.getLsbD_eq_getElem, FlagWord.getLsbD_without, getLsbD_drivenChannels,
      List.any_cons, Bool.not_or, Bool.and_assoc]

/-! ### What the counters find -/

theorem activeChannels_atCycle (pulses : List Pulse) (k : Nat) :
    PulseCounter.activeChannels (pulses.map (.atCycle k)) k = activeAt pulses k := by
  unfold PulseCounter.activeChannels activeAt drivenChannels
  rw [List.foldl_map, List.foldl_filter]
  rfl

theorem openChannels_atCycle (masking : List Pulse) (k : Nat) (base : FlagWord) :
    PulseCounter.openChannels (masking.map (.atCycle k)) k base =
      base.without (maskedAt masking k) := by
  unfold PulseCounter.openChannels maskedAt
  rw [← foldl_without, List.foldl_map, List.foldl_filter]
  simp only [PulseCounter.isLow_atCycle]
  rfl

/-- Masking starts from the channels that any pulse drives, which takes nothing from those that are
active. -/
theorem activeAt_and_without (pulses : List Pulse) (k : Nat) (low : FlagWord) :
    activeAt pulses k &&& (drivenChannels pulses).without low = (activeAt pulses k).without low := by
  ext i hi
  simp only [← BitVec.getLsbD_eq_getElem, BitVec.getLsbD_and, FlagWord.getLsbD_without]
  cases ha : (activeAt pulses k).getLsbD i with
  | false => simp
  | true => simp [getLsbD_drivenChannels_filter ha]

end Waveform

end PulseSequencer
