import PulseSequencer.Proofs.Machine.Moves
import PulseSequencer.Proofs.Machine.Path
import PulseSequencer.Proofs.Machine.Structured

/-!
# Unrolling structured programs

The machine is a flat walk over addresses with two stacks.  On a structured program it takes the steps
of the recursive expansion.  What makes this work is that a loop is never entered with its own frame on
top of the stack by accident: frames that are open while a block runs were opened outside the block,
and outside every subroutine that the block can reach (`Ready.top`).

* `path_passes`: the passes of one loop, given a path through its body.
* `path_block`: a block that is `Ready` runs through, given that the subroutines it calls return.
* `returns_subroutine`: every subroutine returns, by induction along the calls.
* `unroll_structured`: the timeline of a structured program is its expansion, if stacks of the depth that
  is allowed can be had; `unroll_straight_tooDeep` is a program that needs none.
-/

namespace PulseSequencer

open Timeline (stepOf)

/-- A word that is given by what it shows begins a path. -/
theorem Path.hold {p : Program} {d a : Nat} {m next m' : Machine} {h : Hold} {opcode : Opcode}
    {operand : Int} {steps : List Step} (haddress : m.address = a)
    (hword : p[a]? = some (h.word opcode operand))
    (hmove : Moves p.size d m (h.word opcode operand) next) (rest : Path p d next steps m') :
    Path p d m (h.step a :: steps) m' := by
  subst haddress
  exact .step hword (advance_eq_goto_iff.mpr hmove) rest

/-! ### The passes of a loop -/

/-- The machine at an address, in a loop that began at `start` and has `left` passes to go. -/
def Machine.inLoop (m : Machine) (start left address : Nat) : Machine :=
  { m with address, loops := ⟨start, left⟩ :: m.loops }

section Passes

variable {p : Program} {d start after : Nat} {m : Machine} {first last : Hold} {count operand : Int}
  {body : List Step}

/-- From the first word of the body, with `left + 1` passes to go, the machine runs to the word after
the loop. -/
theorem path_passes (hfirst : p[start]? = some (first.word .loop count)) (hcount : 0 < count)
    (hlast : p[after]? = some (last.word .endLoop operand))
    (hbody : ∀ left, Path p d (m.inLoop start left (start + 1)) body (m.inLoop start left after))
    (left : Nat) :
    Path p d (m.inLoop start (left + 1) (start + 1))
      (body ++ last.step after ::
        (List.replicate left (first.step start :: (body ++ [last.step after]))).flatten)
      { m with address := after + 1 } := by
  induction left with
  | zero =>
    exact (hbody 1).trans (.hold rfl hlast (.leave rfl rfl rfl) (.refl _))
  | succ left ih =>
    rw [List.replicate_succ, List.flatten_cons, List.cons_append, List.append_assoc]
    have hloops : (m.inLoop start (left + 2) after).loops = ⟨start, left + 2⟩ :: m.loops := rfl
    have hback : Moves p.size d (m.inLoop start (left + 2) after) (last.word .endLoop operand)
        (m.inLoop start (left + 1) start) := .back rfl hloops (by simp)
    have hagain : Moves p.size d (m.inLoop start (left + 1) start) (first.word .loop count)
        (m.inLoop start (left + 1) (start + 1)) :=
      .again rfl hcount (by simp [Machine.reenters, Machine.inLoop])
    exact (hbody (left + 2)).trans (.hold rfl hlast hback (.hold rfl hfirst hagain ih))

/-- A loop that is not yet open runs through all its passes. -/
theorem path_loop (hfirst : p[start]? = some (first.word .loop count)) (hcount : 0 < count)
    (hlast : p[after]? = some (last.word .endLoop operand))
    (hbody : ∀ left, Path p d (m.inLoop start left (start + 1)) body (m.inLoop start left after))
    (haddress : m.address = start) (hfresh : m.reenters = false) (hdepth : m.loops.length < d) :
    Path p d m
      (List.replicate count.toNat (first.step start :: (body ++ [last.step after]))).flatten
      { m with address := after + 1 } := by
  obtain ⟨left, hleft⟩ : ∃ left, count.toNat = left + 1 := ⟨count.toNat - 1, by omega⟩
  have hpasses := path_passes hfirst hcount hlast hbody left
  rw [hleft, List.replicate_succ, List.flatten_cons, List.cons_append, List.append_assoc]
  have henter : Moves p.size d m (first.word .loop count) (m.inLoop start (left + 1) (start + 1)) := by
    rw [← haddress, ← hleft]
    exact .enter rfl hcount hfresh hdepth
  exact .hold haddress hfirst henter hpasses

end Passes

/-! ### Blocks and subroutines -/

namespace StructuredProgram

variable (P : StructuredProgram) (d : Nat)

def Reaches (b : Block P.n) (u : Fin P.n) : Prop :=
  ∃ t ∈ b.callees, Relation.ReflTransGen P.Calls t u

/-- The machine is in front of a block, and nothing stands in the way of running it. -/
structure Ready (a : Nat) (b : Block P.n) (m : Machine) : Prop where
  located : Located P.program a (b.words P.entry)
  address : m.address = a
  /-- The block is in no subroutine that it reaches. -/
  apart : ∀ x, a ≤ x → x < a + b.size → ∀ u, P.Reaches b u → ¬ P.Within u x
  /-- The innermost loop began outside the block. -/
  top : ∀ frame ∈ m.loops.head?, frame.start < a ∨ a + b.size ≤ frame.start
  /-- The innermost loop began outside all subroutines that the block reaches. -/
  topApart : ∀ frame ∈ m.loops.head?, ∀ u, P.Reaches b u → ¬ P.Within u frame.start
  loops : m.loops.length + b.nesting 1 0 (P.subroutineNesting 1 0) ≤ d
  calls : m.calls.length + b.nesting 0 1 (P.subroutineNesting 0 1) ≤ d

/-- From its first word, called, the subroutine runs to the word after the call. -/
def Returns (s : Fin P.n) : Prop :=
  ∀ (m : Machine) (caller : Nat) (calls : List Nat), m.address = P.entry s →
    m.calls = caller :: calls →
    (∀ frame ∈ m.loops.head?, ∀ u, Relation.ReflTransGen P.Calls s u → ¬ P.Within u frame.start) →
    m.loops.length + P.subroutineNesting 1 0 s ≤ d →
    m.calls.length + P.subroutineNesting 0 1 s ≤ d →
    Path P.program d m (P.subroutineSteps s) { m with address := caller + 1, calls }

variable {P d}

theorem Reaches.mono {b b' : Block P.n} (h : ∀ t ∈ b.callees, t ∈ b'.callees) {u : Fin P.n}
    (hu : P.Reaches b u) : P.Reaches b' u := by
  obtain ⟨t, ht, htu⟩ := hu
  exact ⟨t, h t ht, htu⟩

/-- A part of a block that is ready is ready once the machine is in front of it, with the same loops
and calls open. -/
theorem Ready.part {a a' : Nat} {b b' : Block P.n} {m : Machine} (h : P.Ready d a b m)
    (hlocated : Located P.program a' (b'.words P.entry)) (hlow : a ≤ a')
    (hhigh : a' + b'.size ≤ a + b.size) (hcallees : ∀ t ∈ b'.callees, t ∈ b.callees)
    (hnesting : ∀ x y sub, b'.nesting x y sub ≤ b.nesting x y sub) :
    P.Ready d a' b' { m with address := a' } where
  located := hlocated
  address := rfl
  apart x hx hx' u hu := h.apart x (by omega) (by omega) u (hu.mono hcallees)
  top frame hframe := by
    have := h.top frame hframe
    omega
  topApart frame hframe u hu := h.topApart frame hframe u (hu.mono hcallees)
  loops := Nat.le_trans (Nat.add_le_add_left (hnesting _ _ _) _) h.loops
  calls := Nat.le_trans (Nat.add_le_add_left (hnesting _ _ _) _) h.calls

section Loop

variable {a : Nat} {first last : Hold} {count : ℕ+} {body rest : Block P.n} {operand : Int}
  {m : Machine}

theorem Ready.loopBody (h : P.Ready d a (.loop first count body last operand rest) m) (left : Nat) :
    P.Ready d (a + 1) body (m.inLoop a left (a + 1)) where
  located := h.located.tail.left
  address := rfl
  apart x hx hx' u hu := by
    refine h.apart x (by omega) (by simp only [Block.size]; omega) u (hu.mono fun t ht => ?_)
    exact List.mem_append_left _ ht
  top frame hframe := by
    cases hframe
    exact .inl (Nat.lt_succ_self a)
  topApart frame hframe u hu := by
    -- the new frame is at the first word of the loop, which is a word of the block
    cases hframe
    refine h.apart a (Nat.le_refl a) (by simp only [Block.size]; omega) u (hu.mono fun t ht => ?_)
    exact List.mem_append_left _ ht
  loops := by
    have := h.loops
    simp only [Block.nesting, Machine.inLoop, List.length_cons] at this ⊢
    omega
  calls := by
    have := h.calls
    simp only [Block.nesting, Machine.inLoop] at this ⊢
    omega

theorem Ready.afterLoop (h : P.Ready d a (.loop first count body last operand rest) m) :
    P.Ready d (a + body.size + 2) rest { m with address := a + body.size + 2 } := by
  have hlocated := h.located.tail.right.tail
  rw [Block.length_words] at hlocated
  have haddress : a + 1 + body.size + 1 = a + body.size + 2 := by omega
  rw [haddress] at hlocated
  refine h.part hlocated (by omega) (by simp only [Block.size]; omega) (fun t ht => ?_)
    fun x y sub => Nat.le_max_right _ _
  exact List.mem_append_right _ ht

theorem Ready.lastWord (h : P.Ready d a (.loop first count body last operand rest) m) :
    P.program[a + 1 + body.size]? = some (last.word .endLoop operand) := by
  have hlast := h.located.tail.right.head
  rwa [Block.length_words] at hlast

theorem Ready.not_reenters (h : P.Ready d a (.loop first count body last operand rest) m) :
    m.reenters = false := by
  unfold Machine.reenters
  split
  · rfl
  · next frame loops hloops =>
    have htop := h.top frame (by rw [hloops]; rfl)
    simp only [Block.size] at htop
    rw [h.address, beq_eq_false_iff_ne]
    omega

end Loop

/-- A block that is ready runs through, if the subroutines it calls return. -/
theorem path_block {b : Block P.n} (hreturns : ∀ s ∈ b.callees, P.Returns d s) {a : Nat}
    {m : Machine} (h : P.Ready d a b m) :
    Path P.program d m (b.steps P.subroutineSteps a) { m with address := a + b.size } := by
  induction b generalizing a m with
  | done =>
    have haddress := h.address
    subst haddress
    exact .refl m
  | plain hold op operand rest ih =>
    have hrest := ih hreturns (h.part h.located.tail (Nat.le_succ a)
      (by simp only [Block.size]; omega) (fun _ ht => ht) fun _ _ _ => Nat.le_refl _)
    have hmove : Moves P.program.size d m (hold.word op.opcode operand)
        { m with address := a + 1 } := by
      rw [← h.address]
      refine .plain ?_
      cases op <;> simp [Hold.word, PlainOpcode.opcode]
    have hsize : a + 1 + rest.size = a + (Block.plain hold op operand rest).size := by
      simp only [Block.size]
      omega
    rw [hsize] at hrest
    exact .hold h.address h.located.head hmove hrest
  | loop first count body last operand rest ihb ihr =>
    obtain ⟨hb, hr⟩ := List.forall_mem_append.mp hreturns
    have hloop := path_loop h.located.head (Int.natCast_pos.mpr count.2) h.lastWord
      (fun left => ihb hb (h.loopBody left)) h.address h.not_reenters (by
        have := h.loops
        simp only [Block.nesting] at this
        omega)
    have hrest := ihr hr h.afterLoop
    have hafter : a + 1 + body.size + 1 = a + body.size + 2 := by omega
    have hsize : a + body.size + 2 + rest.size =
        a + (Block.loop first count body last operand rest).size := by
      simp only [Block.size]
      omega
    rw [hafter] at hloop
    rw [hsize] at hrest
    exact hloop.trans hrest
  | call hold s rest ih =>
    obtain ⟨hs, hr⟩ := List.forall_mem_cons.mp hreturns
    have hloops := h.loops
    have hcalls := h.calls
    simp only [Block.nesting] at hloops hcalls
    have hrest := ih hr (h.part h.located.tail (Nat.le_succ a) (by simp only [Block.size]; omega)
      (fun _ ht => List.mem_cons_of_mem _ ht) fun x y sub => Nat.le_max_right _ _)
    have hsub := hs { m with address := P.entry s, calls := a :: m.calls } a m.calls rfl rfl
      (fun frame hframe u hu => h.topApart frame hframe u ⟨s, List.mem_cons_self, hu⟩)
      (by simp only; omega) (by simp only [List.length_cons]; omega)
    have hentry : P.entry s < P.program.size := by
      have hlocated := P.located_subroutine s
      unfold Subroutine.words at hlocated
      have hlt := hlocated.right.lt_size
      omega
    have hmove : Moves P.program.size d m (hold.word .jsr (P.entry s))
        { m with address := P.entry s, calls := a :: m.calls } := by
      rw [← h.address]
      exact .call rfl rfl hentry (by omega)
    have hsize : a + 1 + rest.size = a + (Block.call hold s rest).size := by
      simp only [Block.size]
      omega
    rw [hsize] at hrest
    exact .hold h.address h.located.head hmove (hsub.trans hrest)

/-- Every subroutine returns.  The induction is along the calls: a subroutine is not among those that
it reaches, so its own loops are out of their way. -/
theorem returns_subroutine (s : Fin P.n) : P.Returns d s := by
  induction s using P.wellFounded_calls.induction with
  | h s ih =>
    intro m caller calls haddress hcalls htop hloops hdepth
    rw [subroutineNesting_eq] at hloops hdepth
    have hlocated := P.located_subroutine s
    unfold Subroutine.words at hlocated
    have hready : P.Ready d (P.entry s) (P.subs s).body m :=
      { located := hlocated.left
        address := haddress
        apart := by
          rintro x hx hx' u ⟨t, ht, htu⟩ hu
          have hs : P.Within s x := ⟨hx, by unfold Subroutine.size; omega⟩
          have hsu := P.within_unique hs hu
          subst hsu
          exact P.acyclic s (.head' ht htu)
        top := by
          intro frame hframe
          have hout := htop frame hframe s .refl
          simp only [Within, Subroutine.size] at hout
          omega
        topApart := by
          rintro frame hframe u ⟨t, ht, htu⟩
          exact htop frame hframe u (.head ht htu)
        loops := hloops
        calls := hdepth }
    have hbody := path_block (fun t ht => ih t ht) hready
    have hret := hlocated.right.head
    rw [Block.length_words] at hret
    rw [subroutineSteps_eq]
    exact hbody.trans (.hold rfl hret (.ret rfl hcalls) (.refl _))

theorem path_main (hloops : P.loopNesting ≤ d) (hcalls : P.callNesting ≤ d) :
    Path P.program d {} (P.main.steps P.subroutineSteps 0) { address := P.main.size } := by
  have hready : P.Ready d 0 P.main {} :=
    { located := P.located_main.left
      address := rfl
      apart := fun x _ hx u _ => P.not_within_main (by omega)
      top := fun frame hframe => by cases hframe
      topApart := fun frame hframe => by cases hframe
      loops := by rwa [List.length_nil, Nat.zero_add]
      calls := by rwa [List.length_nil, Nat.zero_add] }
  have hmain := path_block (fun s _ => P.returns_subroutine s) hready
  rwa [Nat.zero_add] at hmain

/-- With stacks that can be had, the run of a structured program is its expansion. -/
theorem unroll_eq_expansion {limits : Limits} (hstack : limits.maxDepth < stackLimit)
    (hsteps : P.expansion.length ≤ limits.maxSteps) (hloops : P.loopNesting ≤ limits.maxDepth)
    (hcalls : P.callNesting ≤ limits.maxDepth) (htotal : stepsDuration P.expansion < wordLimit) :
    Timeline.unroll P.program limits =
      .ok { steps := P.expansion
            branchIndex := P.terminator.target?.bind (Timeline.firstAt P.expansion) } := by
  have hmain := P.path_main hloops hcalls
  have hend := P.located_main.right.head
  rw [Block.length_words, Nat.zero_add] at hend
  have hhold : stepOf P.main.size P.terminator.word = P.terminator.hold.step P.main.size := by
    cases P.terminator <;> rfl
  unfold expansion at hsteps htotal ⊢
  rw [List.length_append, List.length_singleton] at hsteps
  rw [stepsDuration_append, ← hhold] at htotal
  rw [← hhold]
  cases hterm : P.terminator with
  | stop hold operand =>
    rw [hterm] at hend htotal
    exact unroll_of_halt hstack hmain hend hsteps htotal rfl
  | branch hold target =>
    rw [hterm] at hend htotal
    have htarget : target < P.program.size := by
      rw [size_program]
      exact P.inRange target (by rw [hterm]; rfl)
    exact unroll_of_restart hstack hmain hend hsteps htotal (advance_branch rfl rfl htarget)

/-- **Structured programs unroll to their expansion.**  Within the limits on steps, nesting and total
duration, the timeline of a structured program has exactly the steps of the recursive expansion, and
a final branch repeats from the first step that ran its target.  Nothing is run if no stacks can be had
for the depth that is allowed, even where the program needs none of it. -/
theorem unroll_structured (P : StructuredProgram) (limits : Limits)
    (hsteps : P.expansion.length ≤ limits.maxSteps) (hloops : P.loopNesting ≤ limits.maxDepth)
    (hcalls : P.callNesting ≤ limits.maxDepth) (htotal : stepsDuration P.expansion < wordLimit) :
    Timeline.unroll P.program limits =
      if limits.maxDepth < stackLimit then
        .ok { steps := P.expansion
              branchIndex := P.terminator.target?.bind (Timeline.firstAt P.expansion) }
      else .error (.capacity limits.maxDepth) := by
  by_cases hstack : limits.maxDepth < stackLimit
  · rw [if_pos hstack]
    exact P.unroll_eq_expansion hstack hsteps hloops hcalls htotal
  · have hsize : 0 < P.program.size := by
      rw [size_program]
      omega
    rw [if_neg hstack]
    exact unroll_of_depth hsize (Nat.not_lt.mp hstack)

/-- A loop around a call of the second subroutine, which has a loop around a call of the first. -/
def nested : StructuredProgram where
  n := 2
  main := .plain ⟨none, 1, 10⟩ .cont 0
    (.loop ⟨none, 2, 20⟩ ⟨2, by decide⟩ (.call ⟨none, 3, 30⟩ 1 .done) ⟨none, 4, 40⟩ 99 .done)
  terminator := .branch ⟨none, 5, 50⟩ 1
  subs
    | 0 => ⟨.plain ⟨none, 6, 60⟩ .wait 0 .done, ⟨none, 7, 70⟩, 0⟩
    | 1 => ⟨.loop ⟨none, 8, 80⟩ ⟨2, by decide⟩ (.call ⟨none, 9, 90⟩ 0 .done) ⟨none, 10, 100⟩ 7 .done,
      ⟨none, 11, 110⟩, 0⟩
  acyclic := acyclic_of_lt (by decide)
  inRange := by decide +kernel

/-- The steps of one call of the second subroutine of `nested`. -/
def nestedCall : List Step :=
  [⟨7, 80, 8⟩, ⟨8, 90, 9⟩, ⟨5, 60, 6⟩, ⟨6, 70, 7⟩, ⟨9, 100, 10⟩,
    ⟨7, 80, 8⟩, ⟨8, 90, 9⟩, ⟨5, 60, 6⟩, ⟨6, 70, 7⟩, ⟨9, 100, 10⟩, ⟨10, 110, 11⟩]

theorem expansion_nested :
    nested.expansion = ⟨0, 10, 1⟩ :: ([⟨1, 20, 2⟩, ⟨2, 30, 3⟩] ++ nestedCall ++ [⟨3, 40, 4⟩] ++
      [⟨1, 20, 2⟩, ⟨2, 30, 3⟩] ++ nestedCall ++ [⟨3, 40, 4⟩, ⟨4, 50, 5⟩]) := by
  have h0 : nested.subroutineSteps (0 : Fin 2) = [⟨5, 60, 6⟩, ⟨6, 70, 7⟩] :=
    nested.subroutineSteps_eq (0 : Fin 2)
  have h1 : nested.subroutineSteps (1 : Fin 2) = nestedCall := by
    refine (nested.subroutineSteps_eq (1 : Fin 2)).trans ?_
    rw [Block.steps_congr (g := fun _ => [⟨5, 60, 6⟩, ⟨6, 70, 7⟩])
      fun t ht => List.mem_singleton.mp ht ▸ h0]
    rfl
  unfold expansion
  rw [Block.steps_congr (g := fun _ => nestedCall) fun t ht => List.mem_singleton.mp ht ▸ h1]
  rfl

theorem nesting_nested (perLoop perCall : Nat) :
    nested.nesting perLoop perCall = 2 * perLoop + 2 * perCall := by
  have h0 : nested.subroutineNesting perLoop perCall (0 : Fin 2) = 0 :=
    nested.subroutineNesting_eq perLoop perCall (0 : Fin 2)
  have h1 : nested.subroutineNesting perLoop perCall (1 : Fin 2) = perLoop + perCall := by
    refine (nested.subroutineNesting_eq perLoop perCall (1 : Fin 2)).trans ?_
    rw [Block.nesting_congr (g := fun _ => 0) fun t ht => List.mem_singleton.mp ht ▸ h0]
    simp [nested, Block.nesting, Nat.add_comm]
  unfold nesting
  rw [Block.nesting_congr (g := fun _ => perLoop + perCall)
    fun t ht => List.mem_singleton.mp ht ▸ h1]
  simp [nested, Block.nesting]
  omega

-- the limits are the smallest that let the program through
theorem unroll_structured_nested :
    nested.expansion.length ≤ 30 ∧ nested.loopNesting ≤ 2 ∧ nested.callNesting ≤ 2 ∧
      stepsDuration nested.expansion < wordLimit ∧
      Timeline.unroll nested.program ⟨30, 2⟩ = .ok ⟨nested.expansion, some 1⟩ := by
  have hsteps : nested.expansion.length ≤ 30 := by rw [expansion_nested]; decide
  have hloops : nested.loopNesting ≤ 2 := by rw [loopNesting, nesting_nested]
  have hcalls : nested.callNesting ≤ 2 := by rw [callNesting, nesting_nested]
  have htotal : stepsDuration nested.expansion < wordLimit := by rw [expansion_nested]; decide
  have hbranch : nested.terminator.target?.bind (Timeline.firstAt nested.expansion) = some 1 := by
    rw [expansion_nested]
    rfl
  have hunroll := unroll_structured nested ⟨30, 2⟩ hsteps hloops hcalls htotal
  rw [if_pos (by decide), hbranch] at hunroll
  exact ⟨hsteps, hloops, hcalls, htotal, hunroll⟩

/-- A plain word, and one that stops. -/
def straight : StructuredProgram where
  n := 0
  main := .plain ⟨none, 1, 10⟩ .cont 0 .done
  terminator := .stop ⟨none, 0, 20⟩ 0
  subs := nofun
  acyclic := acyclic_of_lt nofun
  inRange := nofun

-- no loop and no call, two steps, and still the depth that is allowed decides
theorem unroll_straight_tooDeep :
    straight.expansion.length ≤ 2 ∧ straight.loopNesting ≤ maxWord ∧ straight.callNesting ≤ maxWord ∧
      stepsDuration straight.expansion < wordLimit ∧
      Timeline.unroll straight.program ⟨2, maxWord⟩ = .error (.capacity maxWord) :=
  ⟨by decide, by decide, by decide, by decide, unroll_of_depth (by decide) (by decide)⟩

end StructuredProgram

end PulseSequencer
