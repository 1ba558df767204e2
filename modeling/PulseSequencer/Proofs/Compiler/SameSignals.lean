import PulseSequencer.Proofs.Compiler.Shape
import PulseSequencer.Proofs.Synchrony.Parts
import PulseSequencer.Proofs.Synchrony.SameFrequencies
import PulseSequencer.Proofs.Waveform.Runs

/-!
# Compiling the same signals

A program is compiled from two lists of signals, and only the members of the lists count.

* `ChannelSet.ext_mem`, `validate_congr`, `outputStage_congr`: unions of channels go by the members.
* `SamePulses`, `sampleAt_congr`: pulses in another order, or repeated, show the same samples.
* `agree_rescale`, `agree_pulsesOf`, `agree_quantize`: the stages between synchronizing and sampling.
* `compileWith_sameSignals`: all stages together; which of two errors of synchronizing is met first is
  all that depends on the order (`compile_order_counts`).
-/

namespace PulseSequencer

/-! ### Unions of channels -/

theorem ChannelSet.ext_mem {s t : ChannelSet} (h : ∀ n, n ∈ s ↔ n ∈ t) : s = t := by
  have hnodup : ∀ u : ChannelSet, u.toList.Nodup := fun u => u.increasing.imp Nat.ne_of_lt
  have hperm : s.toList.Perm t.toList := (List.perm_ext_iff_of_nodup (hnodup s) (hnodup t)).mpr h
  have hlist : s.toList = t.toList :=
    hperm.eq_of_pairwise (fun _ _ _ _ hab hba => absurd hba (Nat.lt_asymm hab)) s.increasing t.increasing
  cases s
  cases t
  cases hlist
  rfl

namespace Waveform

variable {pulses pulses' masking masking' : List Pulse}

theorem drivenChannels_congr (h : SameMembers pulses pulses') :
    drivenChannels pulses = drivenChannels pulses' := by
  refine BitVec.eq_of_getLsbD_eq fun i _ => ?_
  rw [getLsbD_drivenChannels, getLsbD_drivenChannels, h.any]

theorem sampleAt_congr (o : OutputStage) (h : SameMembers pulses pulses')
    (hmasking : SameMembers masking masking') (k : Nat) :
    sampleAt o pulses masking k = sampleAt o pulses' masking' k := by
  unfold sampleAt activeAt maskedAt
  rw [drivenChannels_congr (h.filter _), drivenChannels_congr (hmasking.filter _)]

end Waveform

/-- Counted pulses: the same ones in the same steps. -/
structure SamePulses (q q' : Quantization) : Prop where
  pulses : SameMembers q.pulses q'.pulses
  masking : SameMembers q.masking q'.masking
  step : q.step = q'.step

theorem Quantization.commonFactor_congr {pulses pulses' : List Pulse} (h : SameMembers pulses pulses')
    (cycles : Nat) : commonFactor pulses cycles = commonFactor pulses' cycles := by
  unfold commonFactor
  rw [gcdAll_congr ((h.flatMap countsOf).append fun _ => Iff.rfl)]

namespace Compiler

variable {c : Config} {signals signals' masking masking' : List Signal}

theorem channelsOf_congr (h : SameMembers signals signals') : channelsOf signals = channelsOf signals' := by
  refine ChannelSet.ext_mem fun n => ?_
  rw [mem_channelsOf, mem_channelsOf]
  simp only [h _]

theorem validate_congr (h : SameMembers signals signals') (hmasking : SameMembers masking masking') :
    validate c signals masking = validate c signals' masking' := by
  unfold validate
  rw [h.isEmpty, channelsOf_congr h, channelsOf_congr hmasking]

theorem outputStage_congr (h : SameMembers signals signals') (channels reserved : Nat) :
    outputStage channels reserved signals = outputStage channels reserved signals' := by
  have hmask : activeLowMask signals = activeLowMask signals' := by
    refine BitVec.eq_of_getLsbD_eq fun n _ => ?_
    rw [Bool.eq_iff_iff, getLsbD_activeLowMask, getLsbD_activeLowMask]
    simp only [h _]
  rw [outputStage, outputStage, hmask]

/-! ### From frequencies to steps -/

section Stages

variable {E : CompileError → CompileError → Prop} (hE : ∀ e e', e.kind = e'.kind → E e e')

/-- Frequencies that are adjusted one by one are given to the signals one by one. -/
theorem rescale_map (signals : List Signal) (adjust : Float → Float) :
    rescale signals (signals.map fun s => adjust s.frequency) =
      signals.mapM fun s => CompileError.ofSignal (s.withFrequency (adjust s.frequency)) := by
  induction signals with
  | nil => rfl
  | cons s rest ih =>
    unfold rescale at ih ⊢
    rw [List.map_cons, List.zip_cons_cons, List.mapM_cons, List.mapM_cons, ih]

include hE

theorem agree_rescale (h : SameMembers signals signals') (adjust : Float → Float) :
    Agree E SameMembers (rescale signals (signals.map fun s => adjust s.frequency))
      (rescale signals' (signals'.map fun s => adjust s.frequency)) := by
  rw [rescale_map, rescale_map]
  refine agree_mapM_sameMembers h fun s _ s' _ e e' he he' => hE e e' ?_
  rw [kind_of_ofSignal he, kind_of_ofSignal he']

theorem agree_pulsesOf (h : SameMembers signals signals') (quantum : Nat) :
    Agree E SameMembers (Quantization.pulsesOf quantum signals)
      (Quantization.pulsesOf quantum signals') := by
  refine agree_mapM_sameMembers h fun s _ s' _ e e' he he' => hE e e' ?_
  rw [Quantization.kind_of_pulseOf he, Quantization.kind_of_pulseOf he']

theorem agree_ofSignals (h : SameMembers signals signals') (hmasking : SameMembers masking masking')
    (quantum cycles : Nat) :
    Agree E SamePulses (Quantization.ofSignals quantum cycles signals masking)
      (Quantization.ofSignals quantum cycles signals' masking') := by
  unfold Quantization.ofSignals
  refine Agree.bind (agree_pulsesOf hE h quantum) fun pulses pulses' hpulses => ?_
  refine Agree.bind (agree_pulsesOf hE hmasking quantum) fun gates gates' hgates => ?_
  rw [Quantization.commonFactor_congr (hpulses.append hgates)]
  refine Agree.bind (agree_self (fun e => hE e e rfl) _) ?_
  rintro step _ ⟨-, rfl⟩
  exact .ok ⟨hpulses.map _, hgates.map _, rfl⟩

theorem agree_quantize (h : SameMembers signals signals') (hmasking : SameMembers masking masking')
    {y y' : Synchrony} (hy : Synchrony.SameSynchrony ((signals ++ masking).map Signal.frequency)
      ((signals' ++ masking').map Signal.frequency) y y') :
    Agree E SamePulses (quantize c signals masking y) (quantize c signals' masking' y') := by
  obtain ⟨-, hcycles, adjust, hfrequencies, hfrequencies'⟩ := hy
  have hsplit : ∀ signals masking : List Signal,
      (((signals ++ masking).map Signal.frequency).map adjust).take signals.length =
          signals.map (fun s => adjust s.frequency) ∧
        (((signals ++ masking).map Signal.frequency).map adjust).drop signals.length =
          masking.map (fun s => adjust s.frequency) := by
    intro signals masking
    simp
  unfold quantize
  rw [hfrequencies, hfrequencies', (hsplit _ _).1, (hsplit _ _).2, (hsplit _ _).1, (hsplit _ _).2,
    ← hcycles]
  refine Agree.bind (agree_rescale hE h adjust) fun rescaled rescaled' hrescaled => ?_
  refine Agree.bind (agree_rescale hE hmasking adjust) fun gates gates' hgates => ?_
  exact agree_ofSignals hE hrescaled hgates _ _

end Stages

/-! ### All stages -/

variable {σ : Type}

theorem programWith_congr (observe : Nat → Nat → σ → σ) (start : σ) (o : OutputStage)
    {q q' : Quantization} (h : SamePulses q q') (cycles : Nat) :
    programWith observe start o q cycles = programWith observe start o q' cycles := by
  unfold programWith
  rw [h.step, Waveform.simulateWith_congr start observe o
    (Waveform.sampleAt_congr o h.pulses h.masking)]

theorem agree_compileWith (observe : Nat → Nat → σ → σ) (start : σ) (given : Option Nat)
    (hpos : ∀ s ∈ signals ++ masking, Binary64.isPositive s.frequency = true)
    (h : SameMembers signals signals') (hmasking : SameMembers masking masking') :
    Agree (Synchrony.Related c given ((signals ++ masking).map Signal.frequency)) Eq
      (compileWith observe start c given signals masking)
      (compileWith observe start c given signals' masking') := by
  have hfrequencies : SameMembers ((signals ++ masking).map Signal.frequency)
      ((signals' ++ masking').map Signal.frequency) := (h.append hmasking).map _
  have hself : ∀ e, Synchrony.Related c given ((signals ++ masking).map Signal.frequency) e e :=
    Synchrony.related_self
  unfold compileWith
  rw [validate_congr h hmasking, outputStage_congr h]
  refine Agree.bind (agree_self hself _) fun _ _ _ => ?_
  refine Agree.bind (Synchrony.agree_ofFrequencies given hfrequencies ?_) fun y y' hy => ?_
  · intro f hf
    obtain ⟨s, hs, rfl⟩ := List.mem_map.mp hf
    exact hpos s hs
  refine Agree.bind (agree_quantize (fun _ _ => .inl) h hmasking hy) fun q q' hq => ?_
  rw [hy.duration, hq.step]
  refine Agree.bind (agree_self hself _) fun _ _ _ => ?_
  rw [programWith_congr observe start _ hq]
  exact (agree_self hself _).imp fun _ _ h => h.2

/-- **The order of signals.**  Signals of positive frequencies are compiled twice, the second time in
another order or with repetitions.  Both compilations succeed, with the same program and the same
reports, or both fail.  If they fail, they do so with errors of the same kind, except where the periods
of two signals cannot be rounded, one because it would be zero and the other one because a number leaves
the word: then the first of them is reported. -/
theorem compileWith_sameSignals (observe : Nat → Nat → σ → σ) (start : σ) (c : Config)
    (given : Option Nat) (signals signals' masking masking' : List Signal)
    (hpos : ∀ s ∈ signals ++ masking, Binary64.isPositive s.frequency = true)
    (h : SameMembers signals signals') (hmasking : SameMembers masking masking') :
    (∀ r, compileWith observe start c given signals masking = .ok r ↔
      compileWith observe start c given signals' masking' = .ok r) ∧
    ∀ e e', compileWith observe start c given signals masking = .error e →
      compileWith observe start c given signals' masking' = .error e' →
      e.kind = e'.kind ∨
        given = none ∧
        Synchrony.PeriodFault c ((signals ++ masking).map Signal.frequency) e ∧
        Synchrony.PeriodFault c ((signals ++ masking).map Signal.frequency) e' ∧
        (e.kind = .synchronization ∧ e'.kind = .arithmetic ∨
          e.kind = .arithmetic ∧ e'.kind = .synchronization) := by
  have hagree := agree_compileWith (c := c) observe start given hpos h hmasking
  refine ⟨hagree.eq_ok_iff, fun e e' he he' => ?_⟩
  rcases hagree.of_eq_error he he' with hkind | ⟨hgiven, hfault, hfault'⟩
  · exact .inl hkind
  · rcases hfault.kind with hkind | hkind <;> rcases hfault'.kind with hkind' | hkind'
    · exact .inl (hkind.trans hkind'.symm)
    · exact .inr ⟨hgiven, hfault, hfault', .inl ⟨hkind, hkind'⟩⟩
    · exact .inr ⟨hgiven, hfault, hfault', .inr ⟨hkind, hkind'⟩⟩
    · exact .inl (hkind.trans hkind'.symm)

theorem compileWith_sameSignals_repeated :
    (∀ s ∈ [fast, slow] ++ [gate], Binary64.isPositive s.frequency = true) ∧
      ∃ s, compileWith (fun _ _ => id) () {} none [fast, slow] [gate] = .ok (s, ()) ∧
        compileWith (fun _ _ => id) () {} none [slow, fast, slow] [gate, gate] = .ok (s, ()) := by
  have hpos : ([fast, slow] ++ [gate]).all (fun s => Binary64.isPositive s.frequency) = true := by
    decide +kernel
  have hpos := List.all_eq_true.mp hpos
  have hrun : (compileWith (fun _ _ => id) () {} none [fast, slow] [gate]).toOption.isSome = true := by
    decide +kernel
  obtain ⟨⟨s, ⟨⟩⟩, hs⟩ := Option.isSome_iff_exists.mp hrun
  have hs := toOption_eq_some_iff.mp hs
  have hsignals : ∀ a b : Signal, SameMembers [a, b] [b, a, b] := by
    intro a b s
    simp only [List.mem_cons, List.not_mem_nil, or_false]
    tauto
  have hmasking : SameMembers [gate] [gate, gate] := by
    intro s
    simp
  obtain ⟨hiff, -⟩ := compileWith_sameSignals (fun _ _ => id) () {} none [fast, slow]
    [slow, fast, slow] [gate] [gate, gate] hpos (hsignals fast slow) hmasking
  exact ⟨hpos, s, hs, (hiff _).mp hs⟩

open Synchrony (tone)

-- the first period is longer than a word can say, and the other two are less than half of the grid
theorem compile_order_counts :
    Signal.build { frequency := 1e-12, channels := [0] } = .ok (tone 1e-12 0) ∧
      Signal.build { frequency := 30000, channels := [1] } = .ok (tone 30000 1) ∧
      Signal.build { frequency := 50000, channels := [2] } = .ok (tone 50000 2) ∧
      [tone 1e-12 0, tone 30000 1, tone 50000 2].Perm [tone 30000 1, tone 50000 2, tone 1e-12 0] ∧
      (∃ e, compile {} none [tone 1e-12 0, tone 30000 1, tone 50000 2] [] = .error e ∧
        e.kind = .arithmetic) ∧
      ∃ e, compile {} none [tone 30000 1, tone 50000 2, tone 1e-12 0] [] = .error e ∧
        e.kind = .synchronization := by
  have hperm : ∀ a b d : Signal, [a, b, d].Perm [b, d, a] := fun a b d =>
    (List.perm_append_singleton a [b, d]).symm
  refine ⟨rfl, rfl, rfl, hperm _ _ _, ?_, ?_⟩
  · exact failure?_eq_some_iff.mp (by decide +kernel)
  · exact failure?_eq_some_iff.mp (by decide +kernel)

end Compiler

end PulseSequencer
