import Mathlib.Data.List.Basic

/-!
# Bounded first-in first-out lists

A list of at most `bound` elements, its oldest element first. The operations on many elements are
the single ones repeated until the first that fails; `pushAll_eq` and `popInto_eq` say what that
comes to.
-/

set_option autoImplicit false

namespace BoundedFifo

universe u
variable {α : Type u} (bound : Nat)

/-- Whether there was room, and the list afterwards. -/
def push (xs : List α) (x : α) : Bool × List α :=
  if xs.length < bound then (true, xs ++ [x]) else (false, xs)

def pop : List α → Option α × List α
  | [] => (none, [])
  | x :: xs => (some x, xs)

/-- Push one after the other, up to the first that fails. -/
def pushAll (xs : List α) : List α → Bool × List α
  | [] => (true, xs)
  | y :: ys =>
      match push bound xs y with
      | (true, xs') => pushAll xs' ys
      | (false, xs') => (false, xs')

/-- Pop into the places of `out` one after the other, up to the first that fails: how many were
filled, the places afterwards, and the list. -/
def popInto (xs : List α) : List (Option α) → (Nat × List (Option α)) × List α
  | [] => ((0, []), xs)
  | slot :: out =>
      match pop xs with
      | (none, xs') => ((0, slot :: out), xs')
      | (some x, xs') =>
          let ((count, out'), xs'') := popInto xs' out
          ((count + 1, some x :: out'), xs'')

/-- `pushAll`, where an attempt can also fail of itself. -/
def pushAttempts (xs : List α) : List (α × Bool) → Bool × List α
  | [] => (true, xs)
  | (y, fails) :: ys =>
      match if fails then (false, xs) else push bound xs y with
      | (true, xs') => pushAttempts xs' ys
      | (false, xs') => (false, xs')

variable {bound} {xs : List α}

theorem push_length_le {x : α} (h : xs.length ≤ bound) : (push bound xs x).2.length ≤ bound := by
  unfold push
  split
  next hroom => rw [List.length_append, List.length_singleton]; exact hroom
  next => exact h

theorem pop_length_le (h : xs.length ≤ bound) : (pop xs).2.length ≤ bound := by
  cases xs with
  | nil => exact h
  | cons x xs => exact Nat.le_of_succ_le h

/-- As many are pushed as there is room for, and the reply says whether these were all. -/
theorem pushAll_eq (ys : List α) (h : xs.length ≤ bound) :
    pushAll bound xs ys
      = (decide (xs.length + ys.length ≤ bound), xs ++ ys.take (bound - xs.length)) := by
  induction ys generalizing xs with
  | nil => simp [pushAll, h]
  | cons y ys ih =>
    by_cases hroom : xs.length < bound
    · have hlen : (xs ++ [y]).length = xs.length + 1 := by simp
      have hsub : bound - xs.length = (bound - (xs.length + 1)) + 1 := by omega
      have hsum : (xs ++ [y]).length + ys.length = xs.length + (y :: ys).length := by
        rw [hlen, List.length_cons]; omega
      rw [pushAll, push, if_pos hroom]
      show pushAll bound (xs ++ [y]) ys = _
      rw [ih (by rw [hlen]; exact hroom), hsum, hlen, hsub, List.take_succ_cons, List.append_assoc]
      rfl
    · have hfull : bound - xs.length = 0 := by omega
      rw [pushAll, push, if_neg hroom, hfull]
      simp only [List.length_cons, List.take_zero, List.append_nil, Prod.mk.injEq, and_true]
      exact (decide_eq_false (by omega)).symm

theorem pushAll_length_le (ys : List α) (h : xs.length ≤ bound) :
    (pushAll bound xs ys).2.length ≤ bound := by
  rw [pushAll_eq ys h, List.length_append, List.length_take]
  omega

/-- How many of the attempts succeed. -/
def successes (room : Nat) (ys : List (α × Bool)) : Nat :=
  min room (ys.takeWhile fun y => !y.2).length

theorem pushAttempts_eq (ys : List (α × Bool)) (h : xs.length ≤ bound) :
    pushAttempts bound xs ys
      = (decide (successes (bound - xs.length) ys = ys.length),
          xs ++ (ys.take (successes (bound - xs.length) ys)).map Prod.fst) := by
  induction ys generalizing xs with
  | nil => simp [pushAttempts, successes]
  | cons y ys ih =>
    obtain ⟨y, fails⟩ := y
    rw [pushAttempts]
    cases fails with
    | true => simp [successes]
    | false =>
      by_cases hroom : xs.length < bound
      · have hlen : (xs ++ [y]).length = xs.length + 1 := by simp
        have hsucc : successes (bound - xs.length) ((y, false) :: ys)
            = successes (bound - (xs.length + 1)) ys + 1 := by
          simp only [successes, List.takeWhile_cons, Bool.not_false, if_true, List.length_cons]
          omega
        simp only [Bool.false_eq_true, if_false, push, if_pos hroom]
        rw [ih (by rw [hlen]; exact hroom), hlen, hsucc, List.take_succ_cons]
        simp
      · have hfull : bound - xs.length = 0 := by omega
        simp [push, hroom, successes, hfull]

/-- The oldest elements fill the first places, as many as there are of both. -/
theorem popInto_eq (xs : List α) (out : List (Option α)) :
    popInto xs out = ((min xs.length out.length, (xs.take out.length).map some ++ out.drop xs.length),
      xs.drop out.length) := by
  induction out generalizing xs with
  | nil => simp [popInto]
  | cons slot out ih =>
    cases xs with
    | nil => simp [popInto, pop]
    | cons x xs =>
      rw [popInto, pop]
      show ((_, _), _) = _
      rw [ih xs]
      simp [Nat.add_min_add_right]

theorem popInto_length_le (out : List (Option α)) (h : xs.length ≤ bound) :
    (popInto xs out).2.length ≤ bound := by
  rw [popInto_eq, List.length_drop]
  omega

end BoundedFifo
