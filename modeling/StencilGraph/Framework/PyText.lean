import Mathlib.Data.List.Basic
import Mathlib.Data.List.Infix
import Mathlib.Tactic.Common

namespace StencilGraph.Framework

/-- A text as its characters, with the operations of Python's `str`. -/
abbrev Text := List Char

namespace Text

/-- The characters `split()` and `strip()` take for white space. -/
def isSpace (c : Char) : Bool :=
  (9 ≤ c.toNat && c.toNat ≤ 13) || (28 ≤ c.toNat && c.toNat ≤ 32) ||
    (0x2000 ≤ c.toNat && c.toNat ≤ 0x200a) ||
    [0x85, 0xa0, 0x1680, 0x2028, 0x2029, 0x202f, 0x205f, 0x3000].contains c.toNat

def strip (t : Text) : Text := ((t.dropWhile isSpace).reverse.dropWhile isSpace).reverse

/-- `t.split()`: the pieces between runs of white space. -/
def words (t : Text) : List Text := (t.splitOnP isSpace).filter (· ≠ [])

/-- `t.split(sep)` where `skip` characters of a separator are still to be passed over. -/
def splitFrom (sep : Text) : Nat → Text → List Text
  | _, [] => [[]]
  | skip + 1, _ :: t => splitFrom sep skip t
  | 0, c :: t =>
    if sep <+: c :: t then [] :: splitFrom sep (sep.length - 1) t
    else (splitFrom sep 0 t).modifyHead (c :: ·)

/-- `t.split(sep)` for a separator that is not empty. -/
def split (sep t : Text) : List Text := splitFrom sep 0 t

/-- `t.replace(old, new)` where `skip` characters of `old` are still to be passed over. -/
def replaceFrom (old new : Text) : Nat → Text → Text
  | _, [] => []
  | skip + 1, _ :: t => replaceFrom old new skip t
  | 0, c :: t =>
    if old <+: c :: t then new ++ replaceFrom old new (old.length - 1) t
    else c :: replaceFrom old new 0 t

/-- `t.replace(old, new)` for an `old` that is not empty. -/
def replace (old new t : Text) : Text := replaceFrom old new 0 t

/-- `t.find(c)`. -/
def find (c : Char) (t : Text) : Int := if c ∈ t then t.idxOf c else -1

/-- `t[lo:hi]`: a negative bound counts from the end. -/
def slice (t : Text) (lo hi : Int) : Text :=
  let index (i : Int) : Nat := if i < 0 then (i + t.length).toNat else i.toNat
  (t.take (index hi)).drop (index lo)

/-- `part in t`. -/
def contains (part t : Text) : Bool := decide (part <:+: t)

/-- `int` of the digits left, with `acc` read: digits may be separated by single underscores. -/
def digitsFrom (acc : Nat) : Text → Option Nat
  | [] => some acc
  | '_' :: c :: t => if c.isDigit then digitsFrom (10 * acc + (c.toNat - 48)) t else none
  | c :: t => if c.isDigit then digitsFrom (10 * acc + (c.toNat - 48)) t else none

def natural : Text → Option Nat
  | [] => none
  | c :: t => if c.isDigit then digitsFrom (c.toNat - 48) t else none

/-- `int(t)` on decimal digits. -/
def int (t : Text) : Option Int :=
  match strip t with
  | '-' :: d => (natural d).map fun n => -(n : Int)
  | '+' :: d => (natural d).map fun n => (n : Int)
  | d => (natural d).map fun n => (n : Int)

/-- `str(n)`. -/
def number (n : Nat) : Text := Nat.toDigits 10 n

/-- `str(i)`. -/
def str : Int → Text
  | .ofNat n => number n
  | .negSucc n => '-' :: number (n + 1)

variable {c : Char} {old new s t : Text}

theorem words_of_noSpace (hs : ∀ c ∈ s, isSpace c = false) (hne : s ≠ []) : words s = [s] := by
  rw [words, List.splitOnP_eq_singleton fun c hc => hs c hc]
  simp [hne]

theorem words_append (s t : Text) : words (s ++ ' ' :: t) = words s ++ words t := by
  rw [words, List.splitOnP_append_cons s t (by decide), List.filter_append]
  rfl

/-- The first word is what stands before the first space. -/
theorem words_cons (hs : ∀ c ∈ s, isSpace c = false) (hne : s ≠ []) (t : Text) :
    words (s ++ ' ' :: t) = s :: words t := by
  rw [words_append, words_of_noSpace hs hne, List.singleton_append]

/-- The first of several words joined by a space. -/
theorem head_words_join (hs : ∀ c ∈ s, isSpace c = false) (hne : s ≠ []) (rest : List Text) :
    (words ([' '].intercalate (s :: rest))).head? = some s := by
  cases rest with
  | nil =>
    rw [List.intercalate_singleton, words_of_noSpace hs hne]
    rfl
  | cons r rest =>
    have hjoin : [' '].intercalate (s :: r :: rest) = s ++ ' ' :: [' '].intercalate (r :: rest) := by
      simp [List.intercalate]
    rw [hjoin, words_cons hs hne]
    rfl

theorem isDigit_of_mem_number {n : Nat} (hc : c ∈ number n) : c.isDigit = true :=
  Nat.isDigit_of_mem_toDigits (by omega) (by omega) hc

theorem isSpace_of_isDigit (hc : c.isDigit = true) : isSpace c = false := by
  have hrange : 48 ≤ c.toNat ∧ c.toNat ≤ 57 := Char.isDigit_iff_toNat.mp hc
  simp [isSpace]
  omega

theorem number_ne_nil (n : Nat) : number n ≠ [] := Nat.toDigits_ne_nil

theorem number_injective {m n : Nat} (heq : number m = number n) : m = n := by
  rw [number, number] at heq
  rw [← Nat.ofDigitChars_toDigits (b := 10) (n := m) (by omega) (by omega), heq,
    Nat.ofDigitChars_toDigits (by omega) (by omega)]

theorem isDigit_or_of_mem_str {i : Int} (hc : c ∈ str i) : c = '-' ∨ c.isDigit = true := by
  cases i with
  | ofNat n => exact Or.inr (isDigit_of_mem_number hc)
  | negSucc n =>
    cases List.mem_cons.mp hc with
    | inl heq => exact Or.inl heq
    | inr hmem => exact Or.inr (isDigit_of_mem_number hmem)

theorem notMem_str {i : Int} (hminus : c ≠ '-') (hdigit : c.isDigit = false) : c ∉ str i := by
  intro hmem
  cases isDigit_or_of_mem_str hmem with
  | inl heq => exact hminus heq
  | inr h =>
    rw [h] at hdigit
    cases hdigit

theorem str_ne_nil (i : Int) : str i ≠ [] := by
  cases i with
  | ofNat n => exact number_ne_nil n
  | negSucc n => exact List.cons_ne_nil _ _

theorem number_head_ne {n m : Nat} (heq : number n = '-' :: number m) : False := by
  have hmem : '-' ∈ number n := by
    rw [heq]
    exact List.mem_cons_self
  have hdigit := isDigit_of_mem_number hmem
  revert hdigit
  decide

theorem str_injective {i j : Int} (heq : str i = str j) : i = j := by
  cases i with
  | ofNat n =>
    cases j with
    | ofNat m => rw [number_injective heq]
    | negSucc m => exact (number_head_ne heq).elim
  | negSucc n =>
    cases j with
    | ofNat m => exact (number_head_ne heq.symm).elim
    | negSucc m =>
      have hsucc := number_injective (List.cons.inj heq).2
      rw [Nat.succ.inj hsucc]

section Replace

variable {k : Nat} {new' : Text}

theorem length_le_of_begins (hpre : old <+: c :: t) : old.length - 1 ≤ t.length := by
  have hle := hpre.length_le
  rw [List.length_cons] at hle
  omega

theorem notMem_take_of_begins {d : Char} (hpre : old <+: c :: t) (hd : d ∉ old) :
    d ∉ t.take (old.length - 1) := by
  intro hmem
  cases old with
  | nil => simp at hmem
  | cons o old =>
    obtain ⟨r, hr⟩ := (List.cons_prefix_cons.mp hpre).2
    apply hd
    rw [← hr, List.length_cons, Nat.add_sub_cancel, List.take_left] at hmem
    exact List.mem_cons_of_mem _ hmem

/-- Where no occurrence crosses from `s` to `t`, the two are replaced apart. -/
theorem replaceFrom_append (hcross : ∀ r, r <:+ s → r ≠ [] → old <+: r ++ t → old <+: r)
    (hk : k ≤ s.length) :
    replaceFrom old new k (s ++ t) = replaceFrom old new k s ++ replace old new t := by
  induction s generalizing k with
  | nil =>
    rw [Nat.le_zero.mp hk]
    rfl
  | cons c s ih =>
    have hcross' : ∀ r, r <:+ s → r ≠ [] → old <+: r ++ t → old <+: r :=
      fun r hr => hcross r (hr.trans (List.suffix_cons c s))
    cases k with
    | succ k => exact ih hcross' (Nat.le_of_succ_le_succ hk)
    | zero =>
      rw [List.cons_append, replaceFrom, replaceFrom]
      by_cases hpre : old <+: c :: s
      · have hlong : old <+: c :: (s ++ t) := hpre.trans (List.prefix_append (c :: s) t)
        rw [if_pos hpre, if_pos hlong, ih hcross' (length_le_of_begins hpre), List.append_assoc]
      · have hlong : ¬ old <+: c :: (s ++ t) :=
          fun h => hpre (hcross (c :: s) (List.suffix_refl _) (List.cons_ne_nil _ _) h)
        rw [if_neg hpre, if_neg hlong, ih hcross' (Nat.zero_le _), List.cons_append]

/-- An `old` without a space is replaced word by word. -/
theorem replace_word (hold : ' ' ∉ old) (hne : old ≠ []) :
    replace old new (s ++ ' ' :: t) = replace old new s ++ ' ' :: replace old new t := by
  have hsplit : replace old new (s ++ ' ' :: t) = replace old new s ++ replace old new (' ' :: t) := by
    apply replaceFrom_append _ (Nat.zero_le _)
    intro r _ _ hpre
    obtain ⟨rest, heq⟩ := hpre
    cases List.append_eq_append_iff.mp heq with
    | inl h =>
      obtain ⟨m, hr, -⟩ := h
      exact ⟨m, hr.symm⟩
    | inr h =>
      obtain ⟨m, hm, hrest⟩ := h
      cases m with
      | nil =>
        rw [List.append_nil] at hm
        exact hm ▸ List.prefix_refl _
      | cons d m =>
        obtain ⟨hd, -⟩ := List.cons.inj hrest
        apply absurd _ hold
        rw [hm, ← hd]
        exact List.mem_append_right _ List.mem_cons_self
  have hspace : ¬ old <+: ' ' :: t := by
    intro hpre
    cases old with
    | nil => exact hne rfl
    | cons o old =>
      rw [(List.cons_prefix_cons.mp hpre).1] at hold
      exact hold List.mem_cons_self
  rw [hsplit]
  congr 1
  exact if_neg hspace

theorem replace_of_not_infix (ht : ¬ old <:+: t) : replace old new t = t := by
  induction t with
  | nil => rfl
  | cons c t ih =>
    rw [List.infix_cons_iff, not_or] at ht
    have hrest := ih ht.2
    rw [replace] at hrest
    rw [replace, replaceFrom, if_neg ht.1, hrest]

/-- A text without a character of `old` stays. -/
theorem replace_of_notMem {d : Char} (hold : d ∈ old) (ht : d ∉ t) : replace old new t = t :=
  replace_of_not_infix fun hin => ht (hin.subset hold)

/-- The word before a space stays when `old` has a comma before its first space and the word has no
comma. -/
theorem replace_after_word {a b : Text} (hspace : ' ' ∉ a) (hcomma : ',' ∉ s) :
    replace (a ++ ',' :: b) new (s ++ ' ' :: t) = s ++ replace (a ++ ',' :: b) new (' ' :: t) := by
  have hsplit : replace (a ++ ',' :: b) new (s ++ ' ' :: t) =
      replace (a ++ ',' :: b) new s ++ replace (a ++ ',' :: b) new (' ' :: t) := by
    apply replaceFrom_append _ (Nat.zero_le _)
    intro r hr _ hpre
    obtain ⟨rest, heq⟩ := hpre
    rw [List.append_assoc] at heq
    cases List.append_eq_append_iff.mp heq with
    | inl h =>
      obtain ⟨m, hm, hrest⟩ := h
      cases m with
      | nil => exact absurd (List.cons.inj hrest).1 (by decide)
      | cons d m =>
        apply absurd _ hcomma
        apply hr.subset
        rw [hm, ← (List.cons.inj hrest).1]
        exact List.mem_append_right _ List.mem_cons_self
    | inr h =>
      obtain ⟨m, hm, hrest⟩ := h
      cases m with
      | nil => exact absurd (List.cons.inj hrest).1 (by decide)
      | cons d m =>
        apply absurd _ hspace
        rw [hm, ← (List.cons.inj hrest).1]
        exact List.mem_append_right _ List.mem_cons_self
  rw [hsplit, replace_of_notMem (d := ',') (List.mem_append_right _ List.mem_cons_self) hcomma]

theorem mem_replaceFrom {d : Char} (hd : d ∈ replaceFrom old new k t) : d ∈ new ∨ d ∈ t := by
  induction t generalizing k with
  | nil =>
    cases k <;> exact absurd hd List.not_mem_nil
  | cons c t ih =>
    cases k with
    | succ k => exact (ih hd).imp_right (List.mem_cons_of_mem c)
    | zero =>
      rw [replaceFrom] at hd
      split at hd
      · cases List.mem_append.mp hd with
        | inl hnew => exact Or.inl hnew
        | inr hrest => exact (ih hrest).imp_right (List.mem_cons_of_mem c)
      · cases List.mem_cons.mp hd with
        | inl heq =>
          rw [heq]
          exact Or.inr List.mem_cons_self
        | inr hrest => exact (ih hrest).imp_right (List.mem_cons_of_mem c)

/-- Characters that are in neither text are as many as before. -/
theorem count_replaceFrom {d : Char} (hne : old ≠ []) (hold : d ∉ old) (hnew : d ∉ new)
    (hk : d ∉ t.take k) : (replaceFrom old new k t).count d = t.count d := by
  induction t generalizing k with
  | nil => cases k <;> rfl
  | cons c t ih =>
    cases k with
    | succ k =>
      rw [List.take_succ_cons, List.mem_cons, not_or] at hk
      rw [replaceFrom, ih hk.2, List.count_cons_of_ne fun heq => hk.1 heq.symm]
    | zero =>
      rw [replaceFrom]
      split
      · rename_i hpre
        have hc : d ≠ c := by
          intro heq
          cases old with
          | nil => exact hne rfl
          | cons o old =>
            rw [heq, (List.cons_prefix_cons.mp hpre).1.symm] at hold
            exact hold List.mem_cons_self
        rw [List.count_append, List.count_eq_zero_of_not_mem hnew, Nat.zero_add,
          ih (notMem_take_of_begins hpre hold), List.count_cons_of_ne hc.symm]
      · rw [List.count_cons, ih (by simp), List.count_cons]

theorem length_replaceFrom_le (hle : new.length ≤ new'.length) (k : Nat) (t : Text) :
    (replaceFrom old new k t).length ≤ (replaceFrom old new' k t).length := by
  induction t generalizing k with
  | nil => cases k <;> exact Nat.le_refl _
  | cons c t ih =>
    cases k with
    | succ k => exact ih k
    | zero =>
      rw [replaceFrom, replaceFrom]
      split
      · rw [List.length_append, List.length_append]
        exact Nat.add_le_add hle (ih _)
      · exact Nat.succ_le_succ (ih 0)

/-- Where `old` occurs, the result shows what it was replaced by. -/
theorem replace_injective (hocc : old <:+: t) (hne : old ≠ [])
    (heq : replace old new t = replace old new' t) : new = new' := by
  induction t with
  | nil => exact absurd (List.infix_nil.mp hocc) hne
  | cons c t ih =>
    rw [replace, replace, replaceFrom, replaceFrom] at heq
    by_cases hpre : old <+: c :: t
    · rw [if_pos hpre, if_pos hpre] at heq
      have hlength := congrArg List.length heq
      rw [List.length_append, List.length_append] at hlength
      have hsame : new.length = new'.length := by
        cases Nat.le_total new.length new'.length with
        | inl hle =>
          have hrest : (replaceFrom old new _ t).length ≤ _ :=
            length_replaceFrom_le hle (old.length - 1) t
          omega
        | inr hle =>
          have hrest : (replaceFrom old new' _ t).length ≤ _ :=
            length_replaceFrom_le hle (old.length - 1) t
          omega
      exact (List.append_inj heq hsame).1
    · rw [if_neg hpre, if_neg hpre] at heq
      exact ih ((List.infix_cons_iff.mp hocc).resolve_left hpre) (List.cons.inj heq).2

end Replace

end Text

end StencilGraph.Framework
