import Mathlib
import StencilGraph.Framework.Text
import StencilGraph.Codegen.AddOffset

namespace StencilGraph.Codegen
open Framework

variable {name line rest suffix : Text} {deepVars : List Text} {offset offset' origin : List Int}
  {relatedLine : List (Nat × Text)} {k idx rank halo : Nat}

/-- The integers from `-10` to `10`. -/
def upToTen : List Int := (List.range 21).map fun k : Nat => (k : Int) - 10

theorem mem_upToTen {i : Int} (hi : i.natAbs ≤ 10) : i ∈ upToTen := by
  apply List.mem_map.mpr
  refine ⟨(i + 10).toNat, List.mem_range.mpr (show (i + 10).toNat < 21 by omega), ?_⟩
  show ((i + 10).toNat : Int) - 10 = i
  omega

/-- Up to ten, a number begins with another one only if it is ten times as large. -/
theorem str_begins {i j : Int} (hi : i.natAbs ≤ 10) (hj : j.natAbs ≤ 10)
    (hpre : Text.str i <+: Text.str j) : i = j ∨ (j.natAbs = 10 ∧ Text.str j = Text.str i ++ ['0']) := by
  have hall : ∀ i ∈ upToTen, ∀ j ∈ upToTen, Text.str i <+: Text.str j →
      i = j ∨ (j.natAbs = 10 ∧ Text.str j = Text.str i ++ ['0']) := by decide +kernel
  exact hall i (mem_upToTen hi) j (mem_upToTen hj) hpre

/-- Up to ten, a number that begins with zero is zero. -/
theorem str_zero_begins {i : Int} (hi : i.natAbs ≤ 10) (hpre : ['0'] <+: Text.str i) :
    Text.str i = ['0'] := by
  have hall : ∀ i ∈ upToTen, ['0'] <+: Text.str i → Text.str i = ['0'] := by decide +kernel
  exact hall i (mem_upToTen hi) hpre

/-- Components of one digit do not run into each other. -/
theorem flatMap_str_injective (hlen : offset.length = offset'.length)
    (hdigit : ∀ i ∈ offset, i.natAbs ≤ 9) (hdigit' : ∀ i ∈ offset', i.natAbs ≤ 9)
    (heq : offset.flatMap Text.str = offset'.flatMap Text.str) : offset = offset' := by
  induction offset generalizing offset' with
  | nil => exact (List.eq_nil_of_length_eq_zero hlen.symm).symm
  | cons i offset ih =>
    cases offset' with
    | nil => cases hlen
    | cons j offset' =>
      have hi := hdigit i List.mem_cons_self
      have hj := hdigit' j List.mem_cons_self
      rw [List.flatMap_cons, List.flatMap_cons] at heq
      have hij : i = j := by
        cases List.append_eq_append_iff.mp heq with
        | inl h =>
          obtain ⟨m, hm, -⟩ := h
          cases str_begins (by omega) (by omega) ⟨m, hm.symm⟩ with
          | inl hsame => exact hsame
          | inr hten => omega
        | inr h =>
          obtain ⟨m, hm, -⟩ := h
          cases str_begins (by omega) (by omega) ⟨m, hm.symm⟩ with
          | inl hsame => exact hsame.symm
          | inr hten => omega
      rw [hij] at heq ⊢
      rw [ih (Nat.succ.inj hlen) (fun i hi => hdigit i (List.mem_cons_of_mem _ hi))
        (fun i hi => hdigit' i (List.mem_cons_of_mem _ hi)) (List.append_cancel_left heq)]

/-- Nor do two components up to ten. -/
theorem pair_str_injective {i j i' j' : Int} (hi : i.natAbs ≤ 10) (hj : j.natAbs ≤ 10)
    (hi' : i'.natAbs ≤ 10) (hj' : j'.natAbs ≤ 10)
    (heq : Text.str i ++ Text.str j = Text.str i' ++ Text.str j') : i = i' ∧ j = j' := by
  -- the shorter first component would leave a zero to the second one
  have hshort {i j i' j' : Int} (hi : i.natAbs ≤ 10) (hj : j.natAbs ≤ 10) (hi' : i'.natAbs ≤ 10)
      {m : Text} (hm : Text.str i' = Text.str i ++ m) (hrest : Text.str j = m ++ Text.str j') :
      i = i' := by
    cases str_begins hi hi' ⟨m, hm.symm⟩ with
    | inl hsame => exact hsame
    | inr hten =>
      have hzero : m = ['0'] := List.append_cancel_left (hm.symm.trans hten.2)
      rw [hzero] at hrest
      have hj0 := str_zero_begins hj ⟨_, hrest.symm⟩
      rw [hj0] at hrest
      exact absurd (List.cons.inj hrest).2.symm (Text.str_ne_nil j')
  have hii' : i = i' := by
    cases List.append_eq_append_iff.mp heq with
    | inl h =>
      obtain ⟨m, hm, hrest⟩ := h
      exact hshort hi hj hi' hm hrest
    | inr h =>
      obtain ⟨m, hm, hrest⟩ := h
      exact (hshort hi' hj' hi hm hrest).symm
  rw [hii'] at heq
  exact ⟨hii', Text.str_injective (List.append_cancel_left heq)⟩

/-- The name that the line defines once the offset of the access is moved. -/
def movedName (line name : Text) (offset : List Int) : Text :=
  if isAccess line then
    match originOffset line with
    | some origin =>
      Text.replace (joinOffset origin) (joinOffset (List.zipWith (· + ·) origin offset)) name
    | none => name
  else name

theorem joinOffset_single (i : Int) : joinOffset [i] = Text.str i := List.intercalate_singleton

theorem joinOffset_cons (i j : Int) (offset : List Int) :
    joinOffset (i :: j :: offset) = Text.str i ++ ',' :: (' ' :: joinOffset (j :: offset)) := by
  simp [joinOffset, List.intercalate]

theorem joinOffset_ne_nil (h : offset ≠ []) : joinOffset offset ≠ [] := by
  match offset with
  | [] => exact absurd rfl h
  | [i] =>
    rw [joinOffset_single]
    exact Text.str_ne_nil i
  | i :: j :: offset =>
    rw [joinOffset_cons]
    exact List.append_ne_nil_of_right_ne_nil _ (List.cons_ne_nil _ _)

/-- In a line that defines a name, the first word is moved on its own. -/
theorem replace_defined (hname : SsaName name) (horigin : origin ≠ []) (new : Text) :
    ∃ rest', Text.replace (joinOffset origin) new (name ++ ' ' :: rest) =
      Text.replace (joinOffset origin) new name ++ ' ' :: rest' := by
  match origin with
  | [] => exact absurd rfl horigin
  | [i] =>
    rw [joinOffset_single]
    refine ⟨_, Text.replace_word (Text.notMem_str (by decide) (by decide)) (Text.str_ne_nil i)⟩
  | i :: j :: origin =>
    rw [joinOffset_cons, Text.replace_after_word (Text.notMem_str (by decide) (by decide)) hname.noComma,
      Text.replace_of_notMem (List.mem_append_right _ List.mem_cons_self) hname.noComma]
    have hspace : ¬ Text.str i ++ ',' :: (' ' :: joinOffset (j :: origin)) <+: ' ' :: rest := by
      intro hpre
      cases hs : Text.str i with
      | nil => exact Text.str_ne_nil i hs
      | cons c t =>
        rw [hs, List.cons_append] at hpre
        have hc : ' ' ∈ Text.str i := by
          rw [hs, ← (List.cons_prefix_cons.mp hpre).1]
          exact List.mem_cons_self
        exact Text.notMem_str (by decide) (by decide) hc
    exact ⟨_, congrArg (name ++ ·) (if_neg hspace)⟩

theorem movedName_defined (hline : Producer line name rank) (hrank : 0 < rank) {line' : Text}
    (hmove : moveAccess line offset = some line') :
    ∃ rest', line' = movedName line name offset ++ ' ' :: rest' := by
  obtain ⟨rest, hrest⟩ := hline.defines
  have hspace : line = name ++ ' ' :: ("= ".toList ++ rest) := by
    rw [hrest, List.append_assoc]
    rfl
  unfold moveAccess at hmove
  unfold movedName
  split at hmove
  · rename_i haccess
    rw [if_pos haccess]
    obtain ⟨origin, horigin, hline'⟩ := Option.bind_eq_some_iff.mp hmove
    have hlength := hline.rank haccess origin horigin
    rw [horigin, ← Option.some.inj hline']
    have hne : origin ≠ [] := by
      intro hnil
      rw [hnil] at hlength
      exact absurd hlength hrank.ne
    obtain ⟨rest', heq⟩ := replace_defined hline.name hne
      (joinOffset (List.zipWith (· + ·) origin offset))
    exact ⟨rest', (congrArg (Text.replace _ _) hspace).trans heq⟩
  · rename_i haccess
    rw [if_neg haccess, ← Option.some.inj hmove]
    exact ⟨_, hspace⟩

/-- Only a single number can be a part of the name. -/
theorem movedName_eq (hline : Producer line name rank) (hrank : 0 < rank)
    (hmoves : ¬ MovesName line name) : movedName line name offset = name := by
  unfold movedName
  split
  · rename_i haccess
    split
    · rename_i origin horigin
      have hlength := hline.rank haccess origin horigin
      apply Text.replace_of_not_infix
      intro hin
      apply hmoves
      refine ⟨haccess, origin, horigin, ?_, hin⟩
      match origin with
      | [] => exact absurd hlength hrank.ne
      | [i] => rfl
      | i :: j :: origin =>
        rw [joinOffset_cons] at hin
        exact absurd (hin.subset (List.mem_append_right _ List.mem_cons_self)) hline.name.noComma
    · rfl
  · rfl

/-- A name that is moved has its number replaced. -/
theorem movedName_moves (hmoves : MovesName line name) : ∃ i, Text.str i <:+: name ∧
    ∀ j, movedName line name [j] = Text.replace (Text.str i) (Text.str (i + j)) name := by
  obtain ⟨haccess, origin, horigin, hlength, hin⟩ := hmoves
  obtain ⟨i, rfl⟩ := List.length_eq_one_iff.mp hlength
  rw [joinOffset_single] at hin
  refine ⟨i, hin, fun j => ?_⟩
  unfold movedName
  rw [if_pos haccess, horigin]
  show Text.replace (joinOffset [i]) (joinOffset [i + j]) name = _
  rw [joinOffset_single, joinOffset_single]

/-- What holds of the name and of the moved name. -/
theorem movedName_cases (hline : Producer line name rank) (hrank : 0 < rank)
    (hoffset : offset.length = rank) : movedName line name offset = name ∨
      ∃ i j, offset = [j] ∧ Text.str i <:+: name ∧
        movedName line name offset = Text.replace (Text.str i) (Text.str (i + j)) name := by
  by_cases hmoves : MovesName line name
  · have hparts := hmoves
    obtain ⟨haccess, origin, horigin, hlength, -⟩ := hparts
    have hone : offset.length = 1 := by
      rw [hoffset, ← hline.rank haccess origin horigin, hlength]
    obtain ⟨j, rfl⟩ := List.length_eq_one_iff.mp hone
    obtain ⟨i, hin, heq⟩ := movedName_moves hmoves
    exact Or.inr ⟨i, j, rfl, hin, heq j⟩
  · exact Or.inl (movedName_eq hline hrank hmoves)

theorem movedName_chars (hline : Producer line name rank) (hrank : 0 < rank)
    (hoffset : offset.length = rank) {c : Char} (hc : c ∈ movedName line name offset) :
    c ∈ name ∨ c = '-' ∨ c.isDigit = true := by
  cases movedName_cases hline hrank hoffset with
  | inl heq => exact Or.inl (heq ▸ hc)
  | inr hmoved =>
    obtain ⟨i, j, -, -, heq⟩ := hmoved
    rw [heq] at hc
    cases Text.mem_replaceFrom hc with
    | inl hnew => exact Or.inr (Text.isDigit_or_of_mem_str hnew)
    | inr hin => exact Or.inl hin

theorem movedName_noComma (hline : Producer line name rank) (hrank : 0 < rank)
    (hoffset : offset.length = rank) : ',' ∉ movedName line name offset := by
  intro hc
  cases movedName_chars hline hrank hoffset hc with
  | inl hin => exact hline.name.noComma hin
  | inr h => revert h; decide

theorem movedName_noSpace (hline : Producer line name rank) (hrank : 0 < rank)
    (hoffset : offset.length = rank) : ∀ c ∈ movedName line name offset, Text.isSpace c = false := by
  intro c hc
  cases movedName_chars hline hrank hoffset hc with
  | inl hin => exact hline.name.noSpace c hin
  | inr h =>
    cases h with
    | inl hminus =>
      rw [hminus]
      decide
    | inr hdigit => exact Text.isSpace_of_isDigit hdigit

/-- The suffixes are told from the name by their underscore. -/
theorem movedName_count (hline : Producer line name rank) (hrank : 0 < rank)
    (hoffset : offset.length = rank) :
    (movedName line name offset).count '_' = name.count '_' := by
  cases movedName_cases hline hrank hoffset with
  | inl heq => rw [heq]
  | inr hmoved =>
    obtain ⟨i, j, -, -, heq⟩ := hmoved
    rw [heq]
    exact Text.count_replaceFrom (Text.str_ne_nil i) (Text.notMem_str (by decide) (by decide))
      (Text.notMem_str (by decide) (by decide)) List.not_mem_nil

theorem movedName_ne_nil (hline : Producer line name rank) (hrank : 0 < rank)
    (hoffset : offset.length = rank) : movedName line name offset ≠ [] := by
  obtain ⟨d, t, hname, -⟩ := hline.name.numbered
  cases movedName_cases hline hrank hoffset with
  | inl heq =>
    rw [heq, hname]
    exact List.cons_ne_nil _ _
  | inr hmoved =>
    obtain ⟨i, j, -, -, heq⟩ := hmoved
    have hpercent : ¬ Text.str i <+: '%' :: d :: t := by
      intro hpre
      have hmem : '%' ∈ Text.str i := by
        cases hs : Text.str i with
        | nil => exact absurd hs (Text.str_ne_nil i)
        | cons c s =>
          rw [hs] at hpre
          rw [(List.cons_prefix_cons.mp hpre).1]
          exact List.mem_cons_self
      exact Text.notMem_str (by decide) (by decide) hmem
    rw [heq, hname, Text.replace, Text.replaceFrom, if_neg hpercent]
    exact List.cons_ne_nil _ _

theorem formatToken_cases {token formatted : Text} (hcomma : ',' ∉ token)
    (h : formatToken suffix deepVars token = some formatted) :
    formatted = token ∨ formatted = token ++ suffix := by
  have hlast : token.getLast? ≠ some ',' := fun heq => hcomma (List.mem_of_getLast? heq)
  unfold formatToken at h
  split at h
  · split at h
    · cases h
    · split at h
      · exact Or.inr (Option.some.inj h).symm
      · exact Or.inl (Option.some.inj h).symm
  · exact Or.inl (Option.some.inj h).symm

theorem formatToken_name (hname : SsaName name) : formatToken suffix deepVars name =
    some (if name ∈ deepVars then name else name ++ suffix) := by
  obtain ⟨d, t, heq, hdigit⟩ := hname.numbered
  have hlast : name.getLast? ≠ some ',' := fun h => hname.noComma (List.mem_of_getLast? h)
  have hhead : name.head? = some '%' := by rw [heq]; rfl
  have hsecond : name[1]? = some d := by rw [heq]; rfl
  unfold formatToken
  rw [if_pos hhead, hsecond]
  by_cases hdeep : name ∈ deepVars
  · rw [if_pos hdeep]
    exact if_neg fun h => h.2 hdeep
  · rw [if_neg hdeep]
    show (if d.isDigit = true ∧ name ∉ deepVars then _ else _) = _
    rw [if_pos ⟨hdigit, hdeep⟩, if_pos hlast]

theorem mapM_getElem? {α β : Type} {f : α → Option β} {l : List α} {r : List β} {k : Nat} {a : α}
    (h : l.mapM f = some r) (hk : l[k]? = some a) : ∃ b, f a = some b ∧ r[k]? = some b := by
  induction l generalizing k r with
  | nil => cases hk
  | cons x l ih =>
    rw [List.mapM_cons] at h
    obtain ⟨b, hb, h⟩ := Option.bind_eq_some_iff.mp h
    obtain ⟨bs, hbs, h⟩ := Option.bind_eq_some_iff.mp h
    rw [← Option.some.inj h]
    cases k with
    | zero =>
      rw [← Option.some.inj hk]
      exact ⟨b, hb, rfl⟩
    | succ k =>
      show ∃ b', f a = some b' ∧ bs[k]? = some b'
      exact ih hbs hk

theorem noSpace_strOffset (offset : List Int) : ∀ c ∈ strOffset offset, Text.isSpace c = false := by
  intro c hc
  cases List.mem_cons.mp hc with
  | inl heq =>
    rw [heq]
    decide
  | inr hmem =>
    obtain ⟨i, -, hi⟩ := List.mem_flatMap.mp hmem
    cases Text.isDigit_or_of_mem_str hi with
    | inl hminus =>
      rw [hminus]
      decide
    | inr hdigit => exact Text.isSpace_of_isDigit hdigit

/-- The clone defines the moved name, as `format_token` leaves it. -/
theorem cloneName_spec (hline : Producer line name rank) (hrank : 0 < rank)
    (hoffset : offset.length = rank) (hk : relatedLine[k]? = some (idx, line))
    (hok : (addOffset relatedLine offset deepVars).isSome) :
    ∃ formatted, cloneName relatedLine deepVars k offset = some formatted ∧
      formatToken (strOffset offset) deepVars (movedName line name offset) = some formatted := by
  obtain ⟨offseted, hofs⟩ := Option.isSome_iff_exists.mp hok
  obtain ⟨clone, hclone, hget⟩ := mapM_getElem? hofs hk
  obtain ⟨cloneLine, hcloneLine, heq⟩ := Option.bind_eq_some_iff.mp hclone
  obtain ⟨line', hmove, htokens⟩ := Option.bind_eq_some_iff.mp hcloneLine
  obtain ⟨tokens, hmap, hjoin⟩ := Option.bind_eq_some_iff.mp htokens
  obtain ⟨rest', hrest'⟩ := movedName_defined hline hrank hmove
  have hnoSpace := movedName_noSpace hline hrank hoffset
  have hne := movedName_ne_nil hline hrank hoffset
  rw [hrest', Text.words_cons hnoSpace hne, List.mapM_cons] at hmap
  obtain ⟨formatted, hformat, hmap⟩ := Option.bind_eq_some_iff.mp hmap
  obtain ⟨tokens', -, hmap⟩ := Option.bind_eq_some_iff.mp hmap
  refine ⟨formatted, ?_, hformat⟩
  have hword : (∀ c ∈ formatted, Text.isSpace c = false) ∧ formatted ≠ [] := by
    cases formatToken_cases (movedName_noComma hline hrank hoffset) hformat with
    | inl h => exact h ▸ ⟨hnoSpace, hne⟩
    | inr h =>
      rw [h]
      constructor
      · intro c hc
        cases List.mem_append.mp hc with
        | inl hin => exact hnoSpace c hin
        | inr hin => exact noSpace_strOffset offset c hin
      · exact List.append_ne_nil_of_left_ne_nil hne _
  have hhead := Text.head_words_join hword.1 hword.2 tokens'
  unfold cloneName
  rw [hofs, Option.bind_eq_bind, Option.bind_some, hget, ← Option.some.inj heq,
    ← Option.some.inj hjoin, ← Option.some.inj hmap]
  exact hhead

/-- A name that is not moved gets the suffix unless it is deep. -/
theorem cloneName_unmoved (hline : Producer line name rank) (hrank : 0 < rank)
    (hmoves : ¬ MovesName line name) (hoffset : offset.length = rank)
    (hk : relatedLine[k]? = some (idx, line))
    (hok : (addOffset relatedLine offset deepVars).isSome) :
    cloneName relatedLine deepVars k offset =
      some (if name ∈ deepVars then name else name ++ strOffset offset) := by
  obtain ⟨formatted, hclone, hformat⟩ := cloneName_spec hline hrank hoffset hk hok
  rw [movedName_eq hline hrank hmoves, formatToken_name hline.name] at hformat
  rw [hclone, hformat]

theorem underscore_notMem (offset : List Int) : '_' ∉ offset.flatMap Text.str := by
  intro hmem
  obtain ⟨i, -, hi⟩ := List.mem_flatMap.mp hmem
  exact Text.notMem_str (by decide) (by decide) hi

theorem strOffset_injective {a b : Text} (heq : a ++ strOffset offset = b ++ strOffset offset') :
    a = b ∧ offset.flatMap Text.str = offset'.flatMap Text.str :=
  append_sep_inj (underscore_notMem offset) (underscore_notMem offset') heq

theorem count_strOffset (a : Text) (offset : List Int) :
    (a ++ strOffset offset).count '_' = a.count '_' + 1 := by
  rw [List.count_append, strOffset, List.count_cons_self,
    List.count_eq_zero_of_not_mem (underscore_notMem offset)]

/-- Moved names differ among themselves, and their suffixes too. -/
theorem apart_of_moves (hline : Producer line name rank) (hrank : 0 < rank)
    (hmoves : MovesName line name) (hoffset : offset.length = rank) (hoffset' : offset'.length = rank)
    (hk : relatedLine[k]? = some (idx, line))
    (hok : (addOffset relatedLine offset deepVars).isSome)
    (hok' : (addOffset relatedLine offset' deepVars).isSome)
    (heq : cloneName relatedLine deepVars k offset = cloneName relatedLine deepVars k offset') :
    offset = offset' := by
  obtain ⟨formatted, hclone, hformat⟩ := cloneName_spec hline hrank hoffset hk hok
  obtain ⟨formatted', hclone', hformat'⟩ := cloneName_spec hline hrank hoffset' hk hok'
  rw [hclone, hclone', Option.some.injEq] at heq
  have hcount := movedName_count hline hrank hoffset
  have hcount' := movedName_count hline hrank hoffset'
  have hone : rank = 1 := by
    obtain ⟨haccess, origin, horigin, hlength, -⟩ := hmoves
    rw [← hline.rank haccess origin horigin, hlength]
  obtain ⟨j, rfl⟩ := List.length_eq_one_iff.mp (hoffset.trans hone)
  obtain ⟨j', rfl⟩ := List.length_eq_one_iff.mp (hoffset'.trans hone)
  cases formatToken_cases (movedName_noComma hline hrank hoffset) hformat with
  | inl hplain =>
    cases formatToken_cases (movedName_noComma hline hrank hoffset') hformat' with
    | inl hplain' =>
      obtain ⟨i, hin, hmoved⟩ := movedName_moves hmoves
      rw [hplain, hplain', hmoved, hmoved] at heq
      have hsame := Text.str_injective (Text.replace_injective hin (Text.str_ne_nil i) heq)
      rw [add_left_cancel hsame]
    | inr hsuffix' =>
      have hnames := congrArg (List.count '_') heq
      rw [hplain, hsuffix', count_strOffset, hcount, hcount'] at hnames
      omega
  | inr hsuffix =>
    cases formatToken_cases (movedName_noComma hline hrank hoffset') hformat' with
    | inl hplain' =>
      have hnames := congrArg (List.count '_') heq
      rw [hplain', hsuffix, count_strOffset, hcount, hcount'] at hnames
      omega
    | inr hsuffix' =>
      rw [hsuffix, hsuffix'] at heq
      have hsame := (strOffset_injective heq).2
      rw [List.flatMap_singleton, List.flatMap_singleton] at hsame
      rw [Text.str_injective hsame]

/-- The components of offsets of these ranks and halo widths do not run into each other. -/
theorem flatMap_str_apart (hapart : rank = 1 ∨ halo ≤ 9 ∨ (rank = 2 ∧ halo ≤ 10))
    (ho : InOffsets rank halo offset) (ho' : InOffsets rank halo offset')
    (heq : offset.flatMap Text.str = offset'.flatMap Text.str) : offset = offset' := by
  cases hapart with
  | inl hone =>
    obtain ⟨j, rfl⟩ := List.length_eq_one_iff.mp (ho.1.trans hone)
    obtain ⟨j', rfl⟩ := List.length_eq_one_iff.mp (ho'.1.trans hone)
    rw [List.flatMap_singleton, List.flatMap_singleton] at heq
    rw [Text.str_injective heq]
  | inr hmore =>
    cases hmore with
    | inl hnine =>
      exact flatMap_str_injective (ho.1.trans ho'.1.symm) (fun i hi => (ho.2 i hi).trans hnine)
        (fun i hi => (ho'.2 i hi).trans hnine) heq
    | inr htwo =>
      obtain ⟨htwo, hten⟩ := htwo
      obtain ⟨i, j, rfl⟩ := List.length_eq_two.mp (ho.1.trans htwo)
      obtain ⟨i', j', rfl⟩ := List.length_eq_two.mp (ho'.1.trans htwo)
      have hall : ∀ x ∈ [i, j], x.natAbs ≤ 10 := fun x hx => (ho.2 x hx).trans hten
      have hall' : ∀ x ∈ [i', j'], x.natAbs ≤ 10 := fun x hx => (ho'.2 x hx).trans hten
      rw [List.flatMap_cons, List.flatMap_singleton, List.flatMap_cons, List.flatMap_singleton] at heq
      obtain ⟨hi, hj⟩ := pair_str_injective (hall i (by simp)) (hall j (by simp)) (hall' i' (by simp))
        (hall' j' (by simp)) heq
      rw [hi, hj]

theorem separate_of_apart (hk : relatedLine[k]? = some (idx, line)) (hline : Producer line name rank)
    (hok : ∀ offset, offset.length = rank → (addOffset relatedLine offset deepVars).isSome)
    (hapart : NamesApart line name deepVars rank halo) :
    ClonesSeparate relatedLine deepVars k rank halo := by
  intro offset offset' ho ho' hne heq
  apply hne
  by_cases hzero : rank = 0
  · rw [List.eq_nil_of_length_eq_zero (ho.1.trans hzero),
      List.eq_nil_of_length_eq_zero (ho'.1.trans hzero)]
  have hrank : 0 < rank := Nat.pos_of_ne_zero hzero
  by_cases hmoves : MovesName line name
  · exact apart_of_moves hline hrank hmoves ho.1 ho'.1 hk (hok _ ho.1) (hok _ ho'.1) heq
  by_cases hhalo : halo = 0
  · have hzeros {o : List Int} (ho : InOffsets rank halo o) : o = List.replicate rank 0 := by
      rw [← ho.1]
      apply List.eq_replicate_of_mem
      intro i hi
      have hle := ho.2 i hi
      omega
    rw [hzeros ho, hzeros ho']
  obtain ⟨hdeep, hdigits⟩ := ((hapart.resolve_left hzero).resolve_left hhalo).resolve_right hmoves
  rw [cloneName_unmoved hline hrank hmoves ho.1 hk (hok _ ho.1),
    cloneName_unmoved hline hrank hmoves ho'.1 hk (hok _ ho'.1), if_neg hdeep, if_neg hdeep,
    Option.some.injEq] at heq
  exact flatMap_str_apart hdigits ho ho' (strOffset_injective heq).2

/-- Zeros behind the first components. -/
def padded (rank : Nat) (offset : List Int) : List Int :=
  offset ++ List.replicate (rank - offset.length) 0

theorem padded_inOffsets (hlen : offset.length ≤ rank) (hle : ∀ i ∈ offset, i.natAbs ≤ halo) :
    InOffsets rank halo (padded rank offset) := by
  constructor
  · rw [padded, List.length_append, List.length_replicate]
    omega
  · intro i hi
    cases List.mem_append.mp hi with
    | inl hin => exact hle i hin
    | inr hzero =>
      rw [(List.mem_replicate.mp hzero).2]
      exact Nat.zero_le _

theorem padded_ne (hlen : offset.length = offset'.length) (hne : offset ≠ offset') :
    padded rank offset ≠ padded rank offset' := by
  intro heq
  exact hne (List.append_inj_left heq hlen)

/-- Two offsets whose texts are the same where the components run into each other. -/
theorem exists_clash (hrank : 2 ≤ rank) (hhalo : 10 ≤ halo) (hpair : ¬ (rank = 2 ∧ halo ≤ 10)) :
    ∃ offset offset', InOffsets rank halo offset ∧ InOffsets rank halo offset' ∧
      offset ≠ offset' ∧ strOffset offset = strOffset offset' := by
  by_cases heleven : 11 ≤ halo
  · refine ⟨padded rank [1, 11], padded rank [11, 1], padded_inOffsets hrank ?_,
      padded_inOffsets hrank ?_, padded_ne rfl (by decide), ?_⟩
    · simp
      omega
    · simp
      omega
    · unfold strOffset padded
      rw [List.flatMap_append, List.flatMap_append]
      congr 2
  · have hthree : 3 ≤ rank := by omega
    refine ⟨padded rank [10, 1, 0], padded rank [1, 0, 10], padded_inOffsets hthree ?_,
      padded_inOffsets hthree ?_, padded_ne rfl (by decide), ?_⟩
    · simp
      omega
    · simp
      omega
    · unfold strOffset padded
      rw [List.flatMap_append, List.flatMap_append]
      congr 2

theorem apart_of_separate (hk : relatedLine[k]? = some (idx, line)) (hline : Producer line name rank)
    (hok : ∀ offset, offset.length = rank → (addOffset relatedLine offset deepVars).isSome)
    (hseparate : ClonesSeparate relatedLine deepVars k rank halo) :
    NamesApart line name deepVars rank halo := by
  by_contra hnot
  unfold NamesApart at hnot
  rw [not_or, not_or, not_or] at hnot
  obtain ⟨hzero, hhalo, hsuffix, hmoves⟩ := hnot
  have hrank : 0 < rank := Nat.pos_of_ne_zero hzero
  by_cases hdeep : name ∈ deepVars
  · have hfirst : InOffsets rank halo (padded rank [0]) := padded_inOffsets hrank (by simp)
    have hsecond : InOffsets rank halo (padded rank [1]) := padded_inOffsets hrank (by simp; omega)
    apply hseparate _ _ hfirst hsecond (padded_ne rfl (by decide))
    rw [cloneName_unmoved hline hrank hmoves hfirst.1 hk (hok _ hfirst.1),
      cloneName_unmoved hline hrank hmoves hsecond.1 hk (hok _ hsecond.1), if_pos hdeep, if_pos hdeep]
  · have hdigits : ¬ (rank = 1 ∨ halo ≤ 9 ∨ (rank = 2 ∧ halo ≤ 10)) := fun h => hsuffix ⟨hdeep, h⟩
    rw [not_or, not_or] at hdigits
    obtain ⟨hone, hnine, hpair⟩ := hdigits
    obtain ⟨offset, offset', ho, ho', hne, htext⟩ := exists_clash (by omega) (by omega) hpair
    apply hseparate _ _ ho ho' hne
    rw [cloneName_unmoved hline hrank hmoves ho.1 hk (hok _ ho.1),
      cloneName_unmoved hline hrank hmoves ho'.1 hk (hok _ ho'.1), htext]

/-- A line of a producer, `%7_0 = arith.negf %5_0 : f64`. -/
def negLine : Text := "%7_0".toList ++ " = ".toList ++ "arith.negf %5_0 : f64".toList

theorem negLine_producer : Producer negLine "%7_0".toList 3 := by
  refine ⟨⟨_, rfl⟩, ⟨⟨'7', ['_', '0'], rfl, by decide⟩, ?_, ?_⟩, fun haccess => ?_⟩
  · simp [Text.isSpace]
  · decide
  · revert haccess
    decide +kernel

theorem negLine_cloned (offset : List Int) : (addOffset [(4, negLine)] offset []).isSome := by
  have haccess : ¬ isAccess negLine := by decide +kernel
  have hwords : Text.words negLine =
      ["%7_0".toList, "=".toList, "arith.negf".toList, "%5_0".toList, ":".toList, "f64".toList] := by
    decide +kernel
  simp only [addOffset, addOffsetLine, moveAccess, if_neg haccess, List.mapM_cons, List.mapM_nil,
    Option.bind_eq_bind, Option.bind_some, hwords]
  rfl

end StencilGraph.Codegen
