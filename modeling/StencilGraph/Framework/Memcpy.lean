import Mathlib.Algebra.Order.Ring.Int
import Mathlib.Data.List.Basic
import Mathlib.Tactic.Common

namespace StencilGraph.Framework

variable {α : Type*} {mem mem' src : List α} {pos n j : Nat}

/-- Copies `src` to position `pos`; `none` when it does not fit. -/
def store (mem : List α) (pos : Nat) (src : List α) : Option (List α) :=
  if pos + src.length ≤ mem.length then
    some (mem.take pos ++ src ++ mem.drop (pos + src.length))
  else none

/-- The `n` elements from position `pos`; `none` when there are fewer. -/
def load (mem : List α) (pos n : Nat) : Option (List α) :=
  if pos + n ≤ mem.length then some ((mem.drop pos).take n) else none

/-- A vector cut or filled up to length `n`. -/
def resize (mem : List α) (n : Nat) (fill : α) : List α :=
  mem.take n ++ List.replicate (n - mem.length) fill

theorem store_eq_some (h : pos + src.length ≤ mem.length) :
    store mem pos src = some (mem.take pos ++ src ++ mem.drop (pos + src.length)) := if_pos h

theorem store_eq_none (h : mem.length < pos + src.length) : store mem pos src = none :=
  if_neg (by omega)

theorem load_eq_some (h : pos + n ≤ mem.length) : load mem pos n = some ((mem.drop pos).take n) :=
  if_pos h

theorem load_eq_none (h : mem.length < pos + n) : load mem pos n = none := if_neg (by omega)

theorem store_bound (h : store mem pos src = some mem') : pos + src.length ≤ mem.length := by
  by_contra hlt
  rw [store_eq_none (by omega)] at h
  exact nomatch h

theorem store_length (h : store mem pos src = some mem') : mem'.length = mem.length := by
  have hle := store_bound h
  rw [store_eq_some hle] at h
  rw [← Option.some.inj h]
  simp only [List.length_append, List.length_take, List.length_drop]
  omega

theorem store_getElem? (h : store mem pos src = some mem') :
    mem'[j]? = if j < pos then mem[j]? else if j < pos + src.length then src[j - pos]?
      else mem[j]? := by
  have hle := store_bound h
  rw [store_eq_some hle] at h
  rw [← Option.some.inj h, List.append_assoc]
  have htake : (mem.take pos).length = pos := by
    rw [List.length_take]
    omega
  split_ifs with h₁ h₂
  · rw [List.getElem?_append_left (by omega), List.getElem?_take_of_lt h₁]
  · rw [List.getElem?_append_right (by omega), htake, List.getElem?_append_left (by omega)]
  · rw [List.getElem?_append_right (by omega), htake, List.getElem?_append_right (by omega),
      List.getElem?_drop]
    congr 1
    omega

theorem load_length {part : List α} (h : load mem pos n = some part) : part.length = n := by
  unfold load at h
  split_ifs at h with hle
  rw [← Option.some.inj h, List.length_take, List.length_drop]
  omega

theorem load_getElem? {part : List α} (h : load mem pos n = some part) (hj : j < n) :
    part[j]? = mem[pos + j]? := by
  unfold load at h
  split_ifs at h with hle
  rw [← Option.some.inj h, List.getElem?_take_of_lt hj, List.getElem?_drop]

theorem load_append (a b c : List α) (hpos : pos = a.length) (hn : n = b.length) :
    load (a ++ b ++ c) pos n = some b := by
  rw [load_eq_some (by simp only [List.length_append]; omega), hpos, hn, List.append_assoc,
    List.drop_left, List.take_left]

theorem store_append (a b c : List α) (hpos : pos = a.length) (hsrc : src.length = b.length) :
    store (a ++ b ++ c) pos src = some (a ++ src ++ c) := by
  rw [store_eq_some (by simp only [List.length_append]; omega), hpos, hsrc, ← List.length_append,
    List.drop_left, List.append_assoc a b c, List.take_left]

@[simp] theorem load_zero_length (mem : List α) : load mem 0 mem.length = some mem := by
  simp [load]

@[simp] theorem resize_length (mem : List α) (n : Nat) (fill : α) :
    (resize mem n fill).length = n := by
  simp only [resize, List.length_append, List.length_take, List.length_replicate]
  omega

theorem resize_getElem? {fill : α} (hj : j < mem.length) (hn : j < n) :
    (resize mem n fill)[j]? = mem[j]? := by
  unfold resize
  rw [List.getElem?_append_left (by simp only [List.length_take]; omega),
    List.getElem?_take_of_lt hn]

end StencilGraph.Framework
