import Mathlib.Tactic

/-!
# Framed streams

A framing finds the first complete message of a buffer, and does not change its
mind when more input arrives. `messages` splits a whole stream; `Reads xs ms rest`
is the view of a reader that has taken `ms` off `xs` so far and still holds `rest`.
-/

/-- How a stream is cut into messages: `frame xs` is the length of the first message
of `xs`, if it is complete. -/
structure Framing (α : Type*) where
  frame : List α → Option Nat
  frame_pos : ∀ {xs n}, frame xs = some n → 0 < n
  frame_le : ∀ {xs n}, frame xs = some n → n ≤ xs.length
  frame_append : ∀ {xs n} (ys : List α), frame xs = some n → frame (xs ++ ys) = some n

namespace Framing
variable {α : Type*} (F : Framing α)

def messages (xs : List α) : List (List α) :=
  match _h : F.frame xs with
  | none => []
  | some n => xs.take n :: messages (xs.drop n)
termination_by xs.length
decreasing_by
  have hpos := F.frame_pos _h
  have hle := F.frame_le _h
  rw [List.length_drop]
  omega

variable {F}

theorem messages_of_none {xs : List α} (h : F.frame xs = none) : F.messages xs = [] := by
  rw [messages]
  split
  · rfl
  · next n hn => rw [h] at hn; cases hn

theorem messages_of_some {xs : List α} {n : Nat} (h : F.frame xs = some n) :
    F.messages xs = xs.take n :: F.messages (xs.drop n) := by
  rw [messages]
  split
  · next hn => rw [h] at hn; cases hn
  · next m hm => rw [h] at hm; cases hm; rfl

theorem messages_eq_nil_iff {xs : List α} : F.messages xs = [] ↔ F.frame xs = none := by
  cases h : F.frame xs with
  | none => simp [messages_of_none h]
  | some n => simp [messages_of_some h]

theorem messages_nil : F.messages [] = [] := by
  rw [messages_eq_nil_iff]
  cases h : F.frame [] with
  | none => rfl
  | some n =>
    have hpos := F.frame_pos h
    have hle := F.frame_le h
    rw [List.length_nil] at hle
    omega

/-- A reader took the messages `ms` off the front of `xs` and `rest` is what is left. -/
inductive Reads (F : Framing α) (xs : List α) : List (List α) → List α → Prop
  | start : Reads F xs [] xs
  | next {ms rest n} : Reads F xs ms rest → F.frame rest = some n →
      Reads F xs (ms ++ [rest.take n]) (rest.drop n)

namespace Reads
variable {xs : List α} {ms : List (List α)} {rest : List α}

/-- New input lands behind what is left; the messages taken stay the same. -/
theorem append (h : F.Reads xs ms rest) (ys : List α) : F.Reads (xs ++ ys) ms (rest ++ ys) := by
  induction h with
  | start => exact .start
  | next _ hn ih =>
    have hle := F.frame_le hn
    have hstep := Reads.next ih (F.frame_append ys hn)
    rwa [List.take_append_of_le_length hle, List.drop_append_of_le_length hle] at hstep

theorem messages_eq (h : F.Reads xs ms rest) : F.messages xs = ms ++ F.messages rest := by
  induction h with
  | start => rfl
  | next _ hn ih => rw [ih, messages_of_some hn, List.append_assoc, List.singleton_append]

theorem flatten_append (h : F.Reads xs ms rest) : xs = ms.flatten ++ rest := by
  induction h with
  | start => rfl
  | next _ _ ih =>
    conv_lhs => rw [ih]
    rw [List.flatten_append, List.flatten_singleton, List.append_assoc, List.take_append_drop]

/-- What was taken is a prefix of the messages, however the stream goes on. -/
theorem take_messages (h : F.Reads xs ms rest) (ys : List α) :
    ms = (F.messages (xs ++ ys)).take ms.length := by
  rw [(h.append ys).messages_eq, List.take_left']
  rfl

theorem rest_eq (h : F.Reads xs ms rest) : rest = xs.drop ms.flatten.length := by
  conv_rhs => rw [h.flatten_append]
  rw [List.drop_left']
  rfl

theorem length_messages (h : F.Reads xs ms rest) :
    (F.messages xs).length = ms.length + (F.messages rest).length := by
  rw [h.messages_eq, List.length_append]

end Reads

/-- More input never takes a complete message away. -/
theorem messages_prefix (xs ys : List α) : F.messages xs <+: F.messages (xs ++ ys) := by
  fun_induction messages F xs with
  | case1 xs h => exact List.nil_prefix
  | case2 xs n h ih =>
    rw [messages_of_some (F.frame_append ys h), List.take_append_of_le_length (F.frame_le h),
      List.drop_append_of_le_length (F.frame_le h)]
    exact (List.prefix_cons_inj _).mpr ih

/-- Complete messages, and nothing behind them. -/
def Whole (F : Framing α) (xs : List α) : Prop := (F.messages xs).flatten = xs

theorem Whole.messages_append {xs : List α} (h : F.Whole xs) (ys : List α) :
    F.messages (xs ++ ys) = F.messages xs ++ F.messages ys := by
  unfold Whole at h
  fun_induction messages F xs with
  | case1 xs hnone =>
    rw [← h]
    rfl
  | case2 xs n hsome ih =>
    have hrest : (F.messages (xs.drop n)).flatten = xs.drop n := by
      rw [List.flatten_cons] at h
      exact List.append_cancel_left (h.trans (List.take_append_drop n xs).symm)
    rw [messages_of_some (F.frame_append ys hsome),
      List.take_append_of_le_length (F.frame_le hsome),
      List.drop_append_of_le_length (F.frame_le hsome), ih hrest]
    rfl

theorem messages_flatMap {β : Type*} {f : β → List α} (h : ∀ b, F.Whole (f b)) (bs : List β) :
    F.messages (bs.flatMap f) = bs.flatMap fun b => F.messages (f b) := by
  induction bs with
  | nil => exact messages_nil
  | cons b bs ih => rw [List.flatMap_cons, (h b).messages_append, ih, List.flatMap_cons]

end Framing
