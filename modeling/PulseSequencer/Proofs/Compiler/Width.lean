import PulseSequencer.Proofs.Stages
import PulseSequencer.Proofs.Waveform.Samples
import Mathlib.Algebra.Ring.Nat

/-!
# Outputs stay within the board

The outputs of a sampling switch no channel on that the board does not have: signals that pass the
validation drive controllable channels only (`Valid`), inverting keeps to the channels of signals, and
the channels that follow are the board's own.  `below_sampleAt` and `below_allOff` say so for the two
kinds of words of a compiled program.
-/

namespace PulseSequencer

namespace FlagWord

variable {a b flags leaders followers : FlagWord} {width : Nat}

/-- No channel from `width` on is on. -/
def Below (width : Nat) (flags : FlagWord) : Prop :=
  ∀ n, width ≤ n → flags.getLsbD n = false

theorem fits_iff_below : flags.fits width = true ↔ Below width flags := by
  unfold fits maxChannels
  by_cases hwide : 64 ≤ width
  · -- a board that is at least as wide as the word has all channels of it
    refine iff_of_true (by simp [hwide]) fun n hn => ?_
    exact BitVec.getLsbD_of_ge flags n (hwide.trans hn)
  · simp only [hwide, decide_false, Bool.false_or, beq_iff_eq]
    constructor
    · intro h n hn
      have hbit : (flags >>> width).getLsbD (n - width) = false := by simp [h]
      rwa [BitVec.getLsbD_ushiftRight, Nat.add_sub_cancel' hn] at hbit
    · intro h
      ext n hn
      rw [← BitVec.getLsbD_eq_getElem, BitVec.getLsbD_ushiftRight, h _ (Nat.le_add_right width n)]
      simp

theorem fits_iff_lt : flags.fits width = true ↔ flags.toNat < 2 ^ width := by
  unfold fits maxChannels
  by_cases hwide : 64 ≤ width
  · have hlt : flags.toNat < 2 ^ width :=
      Nat.lt_of_lt_of_le flags.isLt (Nat.pow_le_pow_right (by decide) hwide)
    exact iff_of_true (by simp [hwide]) hlt
  · simp only [hwide, decide_false, Bool.false_or, beq_iff_eq]
    rw [← BitVec.toNat_inj, BitVec.toNat_ushiftRight, Nat.shiftRight_eq_div_pow]
    exact Nat.div_eq_zero_iff_lt (Nat.two_pow_pos width)

theorem Below.xor (ha : Below width a) (hb : Below width b) : Below width (a ^^^ b) := by
  intro n hn
  rw [BitVec.getLsbD_xor, ha n hn, hb n hn]
  rfl

theorem Below.without (ha : Below width a) (b : FlagWord) : Below width (a.without b) := by
  intro n hn
  rw [getLsbD_without, ha n hn]
  rfl

theorem Below.drive (h : Below width flags) (hfollowers : Below width followers) :
    Below width (flags.drive leaders followers) := by
  unfold FlagWord.drive
  split
  · exact h.without followers
  · intro n hn
    rw [BitVec.getLsbD_or, h n hn, hfollowers n hn]
    rfl

theorem below_widthMask (width : Nat) : Below width (widthMask width) := by
  intro n hn
  simp [getLsbD_widthMask, Nat.not_lt.mpr hn]

theorem below_mask {s : ChannelSet} (h : ∀ n ∈ s, n < width) : Below width s.mask := by
  intro n hn
  have hnot : n ∉ s.toList := fun hmem => Nat.not_lt.mpr hn (h n hmem)
  simp [ChannelSet.mask, getLsbD_ofChannels, hnot]

end FlagWord

open FlagWord (Below)

/-! ### Signals that pass the validation -/

theorem ChannelSet.mem_unionAll {n : Nat} {sets : List ChannelSet} :
    n ∈ unionAll sets ↔ ∃ s ∈ sets, n ∈ s := by
  induction sets with
  | nil => simp [unionAll]
  | cons s rest ih =>
    have h : unionAll (s :: rest) = s.union (unionAll rest) := rfl
    rw [h, mem_union, ih, List.exists_mem_cons_iff]

theorem ChannelSet.le_max {n top : Nat} {s : ChannelSet} (h : s.max? = some top) (hn : n ∈ s) :
    n ≤ top := by
  obtain ⟨front, hfront⟩ := List.getLast?_eq_some_iff.mp h
  have hincreasing := s.increasing
  rw [mem_def, hfront, List.mem_append, List.mem_singleton] at hn
  rw [hfront, List.pairwise_append] at hincreasing
  rcases hn with hn | rfl
  · exact Nat.le_of_lt (hincreasing.2.2 n hn top (List.mem_singleton_self top))
  · exact Nat.le_refl n

theorem Config.validate_eq_ok {c : Config} (h : c.validate = .ok ()) :
    0 < c.quantum ∧ checkChannelCount c.channels = .ok () ∧ c.reserved < c.channels ∧
      0 < c.roundingCycles := by
  unfold Config.validate at h
  obtain ⟨hquantum, h⟩ := guard_eq_ok_iff.mp h
  obtain ⟨⟨⟩, hcount, h⟩ := bind_eq_ok_iff.mp h
  obtain ⟨hreserved, h⟩ := guard_eq_ok_iff.mp h
  have hrounding := check_eq_ok_iff.mp h
  exact ⟨Nat.pos_of_ne_zero hquantum, hcount, Nat.not_le.mp hreserved, Nat.pos_of_ne_zero hrounding⟩

namespace Compiler

variable {c : Config} {signals masking : List Signal}

/-- What the validation establishes. -/
structure Valid (c : Config) (signals masking : List Signal) : Prop where
  quantum : 0 < c.quantum
  channelCount : checkChannelCount c.channels = .ok ()
  reserved : c.reserved < c.channels
  rounding : 0 < c.roundingCycles
  nonempty : signals ≠ []
  controllable : ∀ s ∈ signals ++ masking, ∀ n ∈ s.channels, n < c.channels - c.reserved
  gated : ∀ s ∈ masking, ∀ n ∈ s.channels, ∃ s' ∈ signals, n ∈ s'.channels

theorem mem_channelsOf {n : Nat} : n ∈ channelsOf signals ↔ ∃ s ∈ signals, n ∈ s.channels := by
  simp [channelsOf, ChannelSet.mem_unionAll]

theorem lt_of_checkControllable {channels : ChannelSet} {n : Nat} (hreserved : c.reserved < c.channels)
    (h : checkControllable c channels = .ok ()) (hn : n ∈ channels) :
    n < c.channels - c.reserved := by
  unfold checkControllable Config.highestControllable? at h
  rw [if_pos hreserved] at h
  split at h
  · next hmax =>
    have hnil : channels.toList = [] := List.getLast?_eq_none_iff.mp hmax
    rw [ChannelSet.mem_def, hnil] at hn
    cases hn
  · next top hmax =>
    have hle := ChannelSet.le_max hmax hn
    simp only at h
    split at h
    · omega
    · cases h

theorem valid_of_validate (h : validate c signals masking = .ok ()) : Valid c signals masking := by
  unfold validate at h
  obtain ⟨hne, h⟩ := guard_eq_ok_iff.mp h
  obtain ⟨⟨⟩, hconfig, h⟩ := bind_eq_ok_iff.mp h
  obtain ⟨⟨⟩, hcontrollable, h⟩ := bind_eq_ok_iff.mp h
  obtain ⟨hquantum, hcount, hlt, hrounding⟩ := Config.validate_eq_ok hconfig
  have hundriven := check_eq_ok_iff.mp h
  refine ⟨hquantum, hcount, hlt, hrounding, by simpa using hne, ?_, ?_⟩
  · intro s hs n hn
    refine lt_of_checkControllable hlt hcontrollable ?_
    rw [ChannelSet.mem_union, mem_channelsOf, mem_channelsOf]
    rcases List.mem_append.mp hs with hs | hs
    · exact .inl ⟨s, hs, hn⟩
    · exact .inr ⟨s, hs, hn⟩
  · intro s hs n hn
    have hnil : ((channelsOf masking).diff (channelsOf signals)).toList = [] := by
      simpa [ChannelSet.isEmpty] using hundriven
    by_contra hnot
    have hmem : n ∈ (channelsOf masking).diff (channelsOf signals) := by
      rw [ChannelSet.mem_diff, mem_channelsOf, mem_channelsOf]
      exact ⟨⟨s, hs, hn⟩, hnot⟩
    rw [ChannelSet.mem_def, hnil] at hmem
    cases hmem

theorem Valid.le_maxChannels (h : Valid c signals masking) : c.channels ≤ 64 := by
  have hcount := h.channelCount
  unfold checkChannelCount maxChannels at hcount
  split at hcount
  · cases hcount
  · omega

/-! ### The two kinds of words -/

theorem activeLowMask_eq (signals : List Signal) :
    activeLowMask signals =
      (signals.filter fun s => !s.activeHigh).foldl (fun acc s => acc ||| s.channels.mask) 0 := by
  unfold activeLowMask
  rw [List.foldl_filter]
  congr 1
  funext acc s
  cases s.activeHigh <;> rfl

theorem getLsbD_activeLowMask {n : Nat} :
    (activeLowMask signals).getLsbD n = true ↔
      ∃ s ∈ signals, s.activeHigh = false ∧ s.channels.mask.getLsbD n = true := by
  rw [activeLowMask_eq, Waveform.getLsbD_foldl_or]
  simp

theorem below_activeLowMask {width : Nat} (h : ∀ s ∈ signals, Below width s.channels.mask) :
    Below width (activeLowMask signals) := by
  intro n hn
  rw [Bool.eq_false_iff, Ne, getLsbD_activeLowMask]
  rintro ⟨s, hs, -, hbit⟩
  rw [h s hs n hn] at hbit
  cases hbit

theorem below_activeAt {pulses : List Pulse} {width : Nat}
    (h : ∀ p ∈ pulses, Below width p.channels.mask) (k : Nat) :
    Below width (Waveform.activeAt pulses k) := by
  intro n hn
  rw [Waveform.activeAt, Waveform.getLsbD_drivenChannels, List.any_eq_false]
  intro p hp
  rw [h p (List.mem_of_mem_filter hp) n hn]
  exact Bool.false_ne_true

theorem below_reservedMask (channels reserved : Nat) :
    Below channels (FlagWord.reservedMask channels reserved) :=
  (FlagWord.below_widthMask channels).without _

variable {channels reserved : Nat}

theorem below_allOff (h : ∀ s ∈ signals, Below channels s.channels.mask) :
    Below channels (outputStage channels reserved signals).allOff :=
  (below_activeLowMask h).drive (below_reservedMask channels reserved)

theorem below_sampleAt {pulses : List Pulse} (h : ∀ s ∈ signals, Below channels s.channels.mask)
    (hpulses : ∀ p ∈ pulses, Below channels p.channels.mask) (masked : List Pulse) (k : Nat) :
    Below channels
      (Waveform.sampleAt (outputStage channels reserved signals) pulses masked k) := by
  have hon := (below_activeAt hpulses k).without (Waveform.maskedAt masked k)
  exact (hon.xor (below_activeLowMask h)).drive (below_reservedMask channels reserved)

end Compiler

end PulseSequencer
