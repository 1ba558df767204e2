import PulseSequencer.Instruction
import Mathlib.Data.List.Perm.Subperm

/-!
# Calls and returns as brackets

In the list of the addresses that a run comes to, calls and returns belong together like brackets.

* `Returned`, `ReturnsFrom`: which return belongs to which call, read off the addresses alone.
* `ReturnsFrom.unique`: a return belongs to one call only.
* `Pending`: the calls that nothing has returned from yet, as a stack.  `Pending.append` and `Pending.ret`
  say how a further step changes it, `Pending.length_openCalls_le` that no other call is open.
-/

namespace PulseSequencer

/-- The opcode of the word at an address. -/
def opcodeAt (p : Program) (a : Nat) : Option Opcode :=
  p[a]?.map Instruction.opcode

/-! ### Calls and returns as brackets -/

/-- Everything that is called in this part of a trace returns in it, and nothing else returns. -/
inductive Returned (p : Program) : List Nat → Prop
  | nil : Returned p []
  | other {a : Nat} {visited : List Nat} (hcall : opcodeAt p a ≠ some .jsr)
      (hret : opcodeAt p a ≠ some .rts) (rest : Returned p visited) : Returned p (a :: visited)
  | call {a b : Nat} {body visited : List Nat} (hcall : opcodeAt p a = some .jsr)
      (inner : Returned p body) (hret : opcodeAt p b = some .rts) (rest : Returned p visited) :
    Returned p (a :: (body ++ b :: visited))

/-- Step `k` of a trace returns from the call of step `j`: what was called in between has returned. -/
def ReturnsFrom (p : Program) (visited : List Nat) (k j : Nat) : Prop :=
  ∃ front body back a b, visited = front ++ a :: (body ++ b :: back) ∧ opcodeAt p a = some .jsr ∧
    Returned p body ∧ opcodeAt p b = some .rts ∧ front.length = j ∧ k = j + 1 + body.length

/-- Step `j` of a trace calls a subroutine, and no step returns from it. -/
def IsOpenCall (p : Program) (visited : List Nat) (j : Nat) : Prop :=
  (∃ a, visited[j]? = some a ∧ opcodeAt p a = some .jsr) ∧ ¬ ∃ k, ReturnsFrom p visited k j

open Classical in
/-- The steps of a trace that call a subroutine and that no step returns from. -/
noncomputable def openCalls (p : Program) (visited : List Nat) : List Nat :=
  (List.range visited.length).filter fun j => IsOpenCall p visited j

section Brackets

variable {p : Program} {visited front back body xs ys : List Nat} {a b j j' k : Nat}

theorem Returned.append (hx : Returned p xs) (hy : Returned p ys) : Returned p (xs ++ ys) := by
  induction hx with
  | nil => exact hy
  | other hcall hret _ ih => exact .other hcall hret ih
  | call hcall inner hret _ _ ih =>
    rw [List.cons_append, List.append_assoc]
    exact .call hcall inner hret ih

theorem returned_singleton (hcall : opcodeAt p a ≠ some .jsr) (hret : opcodeAt p a ≠ some .rts) :
    Returned p [a] :=
  .other hcall hret .nil

/-! ### A return belongs to one call -/

/-- How many steps have the given opcode. -/
def countOf (p : Program) (op : Opcode) (visited : List Nat) : Nat :=
  visited.countP fun a => opcodeAt p a == some op

@[simp] theorem countOf_nil (op : Opcode) : countOf p op [] = 0 := rfl

theorem countOf_append (op : Opcode) (xs ys : List Nat) :
    countOf p op (xs ++ ys) = countOf p op xs + countOf p op ys :=
  List.countP_append

theorem countOf_cons (op : Opcode) (a : Nat) (xs : List Nat) :
    countOf p op (a :: xs) = countOf p op xs + if opcodeAt p a == some op then 1 else 0 :=
  List.countP_cons

theorem Returned.count_eq (h : Returned p visited) : countOf p .jsr visited = countOf p .rts visited := by
  induction h with
  | nil => rfl
  | other hcall hret _ ih => simp [countOf_cons, hcall, hret, ih]
  | call hcall _ hret _ ihb ihr =>
    simp [countOf_cons, countOf_append, hcall, hret, ihb, ihr]
    omega

/-- Up to any step of a part that has returned there are no more returns than calls. -/
theorem Returned.count_take (h : Returned p visited) (k : Nat) :
    countOf p .rts (visited.take k) ≤ countOf p .jsr (visited.take k) := by
  induction h generalizing k with
  | nil => simp
  | other hcall hret _ ih =>
    cases k with
    | zero => simp
    | succ k => simpa [countOf_cons, hcall, hret] using ih k
  | @call a b body visited hcall inner hret _ ihb ihr =>
    cases k with
    | zero => simp
    | succ k =>
      have hbody := ihb k
      rw [List.take_succ_cons, List.take_append, countOf_cons, countOf_cons, countOf_append,
        countOf_append]
      cases hk : k - body.length with
      | zero => simp [hcall]; omega
      | succ l =>
        -- the whole body is in, so its returns are made up for by its calls
        have hrest := ihr l
        have hcount := inner.count_eq
        rw [List.take_of_length_le (by omega), List.take_succ_cons, countOf_cons, countOf_cons]
        simp [hcall, hret]
        omega

/-- What returns from two calls at once would leave one of them open. -/
theorem not_returned_of_suffix (hcall : opcodeAt p a = some .jsr) (hy : Returned p ys) :
    ¬ Returned p (xs ++ a :: ys) := by
  intro h
  have hcount := h.count_eq
  have hprefix := h.count_take xs.length
  rw [List.take_left] at hprefix
  rw [countOf_append, countOf_append, countOf_cons, countOf_cons, hy.count_eq] at hcount
  simp [hcall] at hcount
  omega

theorem ReturnsFrom.not_lt (h : ReturnsFrom p visited k j) (h' : ReturnsFrom p visited k j') :
    ¬ j < j' := by
  intro hlt
  obtain ⟨front, body, back, a, b, htrace, hcall, hbody, hret, rfl, hk⟩ := h
  obtain ⟨front', body', back', a', b', htrace', hcall', hbody', hret', rfl, hk'⟩ := h'
  have hsplit : (front ++ a :: body) ++ b :: back = (front' ++ a' :: body') ++ b' :: back' := by
    simpa using htrace.symm.trans htrace'
  have hsame := List.append_inj_left hsplit (by simp; omega)
  obtain ⟨mid, rfl, hmid⟩ | ⟨mid, rfl, -⟩ := List.append_eq_append_iff.mp hsame
  · cases mid with
    | nil => simp at hlt
    | cons c mid =>
      obtain ⟨-, rfl⟩ := List.cons_eq_cons.mp hmid
      exact not_returned_of_suffix hcall' hbody' hbody
  · rw [List.length_append] at hlt
    omega

/-- A return belongs to one call only. -/
theorem ReturnsFrom.unique (h : ReturnsFrom p visited k j) (h' : ReturnsFrom p visited k j') : j = j' :=
  Nat.le_antisymm (Nat.not_lt.mp (h'.not_lt h)) (Nat.not_lt.mp (h.not_lt h'))

/-! ### The calls that are open -/

theorem ReturnsFrom.append (h : ReturnsFrom p visited k j) (rest : List Nat) :
    ReturnsFrom p (visited ++ rest) k j := by
  obtain ⟨front, body, back, a, b, rfl, h⟩ := h
  exact ⟨front, body, back ++ rest, a, b, by simp, h⟩

theorem ReturnsFrom.prepend (h : ReturnsFrom p visited k j) (start : List Nat) :
    ReturnsFrom p (start ++ visited) (start.length + k) (start.length + j) := by
  obtain ⟨front, body, back, a, b, rfl, hcall, hbody, hret, rfl, rfl⟩ := h
  refine ⟨start ++ front, body, back, a, b, by simp, hcall, hbody, hret, by simp, by omega⟩

/-- Every call of a part that has returned is returned from. -/
theorem Returned.exists_return (h : Returned p visited) (ha : visited[j]? = some a)
    (hcall : opcodeAt p a = some .jsr) : ∃ k, ReturnsFrom p visited k j := by
  induction h generalizing j with
  | nil => cases ha
  | @other c visited hnot _ _ ih =>
    cases j with
    | zero => cases ha; exact absurd hcall hnot
    | succ j =>
      obtain ⟨k, hk⟩ := ih (by simpa using ha)
      exact ⟨_, by simpa [Nat.add_comm] using hk.prepend [c]⟩
  | @call c b body visited hc inner hret _ ihb ihr =>
    cases j with
    | zero => exact ⟨_, [], body, visited, c, b, rfl, hc, inner, hret, rfl, rfl⟩
    | succ j =>
      rw [List.getElem?_cons_succ] at ha
      by_cases hj : j < body.length
      · rw [List.getElem?_append_left hj] at ha
        obtain ⟨k, hk⟩ := ihb ha
        exact ⟨_, by simpa [Nat.add_comm] using (hk.append (b :: visited)).prepend [c]⟩
      · rw [List.getElem?_append_right (Nat.not_lt.mp hj)] at ha
        obtain ⟨l, hl⟩ : ∃ l, j = body.length + l := Nat.exists_eq_add_of_le (Nat.not_lt.mp hj)
        subst hl
        rw [Nat.add_sub_cancel_left] at ha
        cases l with
        | zero =>
          cases ha
          rw [hret] at hcall
          cases hcall
        | succ l =>
          obtain ⟨k, hk⟩ := ihr (by simpa using ha)
          have hwhole := hk.prepend (c :: (body ++ [b]))
          have hindex : (c :: (body ++ [b])).length + l = body.length + (l + 1) + 1 := by
            simp
            omega
          rw [hindex, List.cons_append, List.append_assoc, List.singleton_append] at hwhole
          exact ⟨_, hwhole⟩

/-- The steps of the calls in a trace that nothing has returned from yet, the last one first. -/
inductive Pending (p : Program) : List Nat → List Nat → Prop
  | none {visited : List Nat} (h : Returned p visited) : Pending p visited []
  | call {a : Nat} {visited body calls : List Nat} (outer : Pending p visited calls)
      (hcall : opcodeAt p a = some .jsr) (inner : Returned p body) :
    Pending p (visited ++ a :: body) (visited.length :: calls)

variable {calls : List Nat}

theorem Pending.append (h : Pending p visited calls) (hx : Returned p xs) :
    Pending p (visited ++ xs) calls := by
  cases h with
  | none h => exact .none (h.append hx)
  | call outer hcall inner =>
    rw [List.append_assoc, List.cons_append]
    exact .call outer hcall (inner.append hx)

/-- A return closes the last call that is open. -/
theorem Pending.ret (h : Pending p visited (j :: calls)) (hret : opcodeAt p b = some .rts) :
    Pending p (visited ++ [b]) calls ∧
      (∃ a, visited[j]? = some a ∧ opcodeAt p a = some .jsr) ∧
      ∀ rest, ReturnsFrom p (visited ++ b :: rest) visited.length j := by
  cases h with
  | @call a front body _ outer hcall inner =>
    refine ⟨?_, ⟨a, by simp, hcall⟩, fun rest => ?_⟩
    · have hpair : Returned p (a :: (body ++ [b])) := .call hcall inner hret .nil
      simpa using outer.append hpair
    · exact ⟨front, body, rest, a, b, by simp, hcall, inner, hret, rfl, by simp; omega⟩

theorem Pending.mem_of_isOpenCall (h : Pending p visited calls) (hj : IsOpenCall p visited j) :
    j ∈ calls := by
  obtain ⟨⟨a, ha, hcall⟩, hopen⟩ := hj
  induction h with
  | none h => exact absurd (h.exists_return ha hcall) hopen
  | @call c front body calls _ _ inner ih =>
    rcases Nat.lt_trichotomy j front.length with hlt | rfl | hgt
    · rw [List.getElem?_append_left hlt] at ha
      refine List.mem_cons_of_mem _ (ih ?_ ha)
      rintro ⟨k, hk⟩
      exact hopen ⟨k, hk.append (c :: body)⟩
    · exact List.mem_cons_self
    · -- what was called after the last open call has returned
      exfalso
      obtain ⟨l, rfl⟩ : ∃ l, j = (front ++ [c]).length + l :=
        Nat.exists_eq_add_of_le (by rw [List.length_append]; exact hgt)
      have hsplit : front ++ c :: body = (front ++ [c]) ++ body := by simp
      rw [hsplit, List.getElem?_append_right (Nat.le_add_right _ _), Nat.add_sub_cancel_left] at ha
      obtain ⟨k, hk⟩ := inner.exists_return ha hcall
      rw [hsplit] at hopen
      exact hopen ⟨_, hk.prepend _⟩

theorem Pending.length_openCalls_le (h : Pending p visited calls) :
    (openCalls p visited).length ≤ calls.length := by
  have hnodup : (openCalls p visited).Nodup := List.nodup_range.filter _
  refine (hnodup.subperm fun j hj => ?_).length_le
  simp only [openCalls, List.mem_filter, decide_eq_true_eq] at hj
  exact h.mem_of_isOpenCall hj.2

end Brackets

end PulseSequencer
