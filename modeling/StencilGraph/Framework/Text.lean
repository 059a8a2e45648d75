import Mathlib.Data.List.Basic
import Mathlib.Tactic.Common

namespace StencilGraph.Framework

theorem isDigit_of_mem_number {n : Nat} {c : Char} (hc : c ∈ (toString n).toList) :
    c.isDigit = true := by
  apply Nat.isDigit_of_mem_toDigits (b := 10) (n := n) (by omega) (by omega)
  simpa [toString, Nat.repr] using hc

theorem notMem_number {n : Nat} {c : Char} (hc : c.isDigit = false) : c ∉ (toString n).toList := by
  intro hmem
  rw [isDigit_of_mem_number hmem] at hc
  cases hc

theorem number_ne_empty (n : Nat) : (toString n).toList ≠ [] := by
  simpa [toString, Nat.repr] using Nat.toDigits_ne_nil

theorem number_inj {m n : Nat} (heq : toString m = toString n) : m = n := by
  have hdigits : Nat.toDigits 10 m = Nat.toDigits 10 n := by
    have := congrArg String.toList heq
    simpa [toString, Nat.repr] using this
  rw [← Nat.ofDigitChars_toDigits (b := 10) (n := m) (by omega) (by omega), hdigits,
    Nat.ofDigitChars_toDigits (by omega) (by omega)]

/-- A text is cut at its last separator. -/
theorem append_sep_inj {α : Type*} {sep : α} {xs ys d e : List α} (hd : sep ∉ d) (he : sep ∉ e)
    (heq : xs ++ sep :: d = ys ++ sep :: e) : xs = ys ∧ d = e := by
  induction xs generalizing ys with
  | nil =>
    cases ys with
    | nil => exact ⟨rfl, (List.cons.inj heq).2⟩
    | cons y ys =>
      have htail : d = ys ++ sep :: e := (List.cons.inj heq).2
      exact absurd (htail ▸ List.mem_append_right _ List.mem_cons_self) hd
  | cons x xs ih =>
    cases ys with
    | nil =>
      have htail : xs ++ sep :: d = e := (List.cons.inj heq).2
      exact absurd (htail ▸ List.mem_append_right _ List.mem_cons_self) he
    | cons y ys =>
      obtain ⟨hxy, htail⟩ := List.cons.inj heq
      obtain ⟨hxs, hde⟩ := ih htail
      exact ⟨congrArg₂ List.cons hxy hxs, hde⟩

/-- A name with a number behind its last underscore. -/
theorem numbered_inj {a b : String} {i j : Nat}
    (heq : a ++ "_" ++ toString i = b ++ "_" ++ toString j) : a = b ∧ i = j := by
  have hlist : a.toList ++ '_' :: (toString i).toList = b.toList ++ '_' :: (toString j).toList := by
    have := congrArg String.toList heq
    simpa only [String.toList_append, List.append_assoc, List.singleton_append,
      show "_".toList = ['_'] from rfl] using this
  obtain ⟨hab, hij⟩ := append_sep_inj (notMem_number (by decide)) (notMem_number (by decide)) hlist
  exact ⟨String.toList_inj.mp hab, number_inj (String.toList_inj.mp hij)⟩

/-- `text.replace(c, "")`. -/
def dropChar (c : Char) (text : String) : String := String.ofList (text.toList.filter (· ≠ c))

theorem dropChar_of_notMem {c : Char} {text : String} (hc : c ∉ text.toList) :
    dropChar c text = text := by
  unfold dropChar
  rw [List.filter_eq_self.mpr, String.ofList_toList]
  intro d hd
  exact decide_eq_true fun heq => hc (heq ▸ hd)

theorem dropChar_append (c : Char) (a b : String) :
    dropChar c (a ++ b) = dropChar c a ++ dropChar c b := by
  simp [dropChar, String.toList_append, List.filter_append, String.ofList_append]

end StencilGraph.Framework
