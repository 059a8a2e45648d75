import StencilGraph.Framework.Ancestor
import StencilGraph.Fuse.ForwardGraph

namespace StencilGraph.Fuse
open Framework

/-- The parent pointers of a dominator tree. -/
def DomTree.up (tree : DomTree) : Parents := fun i => (tree i).bind DomNode.parent

namespace DominatorTree

/-- The entries from index `lo` on are filled in and form a forest with depths. -/
structure Levelled (n lo : Nat) (tree : DomTree) : Prop where
  filled : ∀ i, lo ≤ i → i < n → ∃ nd, tree i = some nd
  forest : Forest n tree.up
  depth : ∀ i p, tree.up i = some p → ∃ nd pn, tree i = some nd ∧ tree p = some pn ∧
    nd.depth = pn.depth + 1

variable {n lo : Nat} {tree : DomTree}

theorem up_of_node {i : Nat} {nd : DomNode} (h : tree i = some nd) : tree.up i = nd.parent := by
  simp [DomTree.up, h]

theorem depth_ancestor (ht : Levelled n lo tree) {a i : Nat} {an nd : DomNode}
    (h : Ancestor tree.up a i) (ha : tree a = some an) (hi : tree i = some nd) :
    an.depth ≤ nd.depth ∧ (an.depth = nd.depth → a = i) := by
  induction h generalizing an with
  | refl =>
    obtain rfl : an = nd := by simpa [ha] using hi
    exact ⟨le_rfl, fun _ => rfl⟩
  | tail _ hp ih =>
    obtain ⟨xn, yn, hx, hy, hd⟩ := ht.depth _ _ hp
    obtain rfl : an = yn := by simpa [ha] using hy
    have := (ih hx).1
    exact ⟨by omega, by omega⟩

/-- `o` is absent or a node from `lo` on. -/
def InTree (n lo : Nat) (o : Option Nat) : Prop := ∀ l, o = some l → lo ≤ l ∧ l < n

/-- An upper bound on the number of steps up from `o`. -/
def height (n : Nat) : Option Nat → Nat
  | none => 0
  | some l => n - l

theorem inTree_up (ht : Levelled n lo tree) {l : Nat} (hl : lo ≤ l) :
    InTree n lo (tree.up l) := by
  intro p hp
  have := ht.forest l p hp
  omega

theorem height_up (ht : Levelled n lo tree) {l : Nat} (hl : l < n) :
    height n (tree.up l) < height n (some l) := by
  cases hp : tree.up l with
  | none => simp only [height]; omega
  | some p => have := ht.forest l p hp; simp only [height]; omega

def AncestorO (tree : DomTree) (a : Nat) (o : Option Nat) : Prop :=
  ∃ l, o = some l ∧ Ancestor tree.up a l

theorem ancestorO_of_up {a l : Nat} (h : AncestorO tree a (tree.up l)) :
    AncestorO tree a (some l) := by
  obtain ⟨p, hp, ha⟩ := h
  exact ⟨l, rfl, ha.trans (Ancestor.parent hp)⟩

theorem ancestorO_up {a l : Nat} (h : AncestorO tree a (some l)) (hne : a ≠ l) :
    AncestorO tree a (tree.up l) := by
  obtain ⟨x, hx, ha⟩ := h
  obtain rfl : l = x := by simpa using hx
  cases hp : tree.up l with
  | none => exact absurd (ancestor_root hp ha) hne
  | some p => exact ⟨p, rfl, ancestor_step hp ha hne⟩

/-- What `LeastCommonAncestor` returns for two nodes of the tree. -/
def IsLca (tree : DomTree) (lhs rhs res : Option Nat) : Prop :=
  (∀ a, res = some a → AncestorO tree a lhs ∧ AncestorO tree a rhs) ∧
    ∀ b, AncestorO tree b lhs → AncestorO tree b rhs → AncestorO tree b res

theorem leastCommonAncestor_spec (ht : Levelled n lo tree) (fuel : Nat) (lhs rhs : Option Nat)
    (pat : OpPattern) (hl : InTree n lo lhs) (hr : InTree n lo rhs)
    (hfuel : height n lhs + height n rhs < fuel) :
    ∃ res pat', leastCommonAncestor tree fuel lhs rhs pat = some (res, pat') ∧
      InTree n lo res ∧ IsLca tree lhs rhs res := by
  induction fuel generalizing lhs rhs pat with
  | zero => omega
  | succ fuel ih =>
    unfold leastCommonAncestor
    by_cases heq : lhs = rhs
    · subst heq
      refine ⟨lhs, pat, by simp, hl, ?_, fun b hb _ => hb⟩
      intro a ha
      exact ⟨⟨a, ha, Ancestor.refl a⟩, ⟨a, ha, Ancestor.refl a⟩⟩
    · rw [if_neg heq]
      match lhs, rhs with
      | none, _ =>
        refine ⟨none, pat, rfl, by simp [InTree], by simp, ?_⟩
        rintro b ⟨l, hl', -⟩
        simp at hl'
      | some l, none =>
        refine ⟨none, pat, rfl, by simp [InTree], by simp, ?_⟩
        rintro b - ⟨l, hl', -⟩
        simp at hl'
      | some l, some r =>
        have hll := hl l rfl
        have hrr := hr r rfl
        obtain ⟨ln, hln⟩ := ht.filled l hll.1 hll.2
        obtain ⟨rn, hrn⟩ := ht.filled r hrr.1 hrr.2
        have hne : l ≠ r := fun h => heq (by rw [h])
        have hul := up_of_node hln
        have hur := up_of_node hrn
        have hhl := height_up ht hll.2
        have hhr := height_up ht hrr.2
        have hil := inTree_up ht hll.1
        have hir := inTree_up ht hrr.1
        -- a common ancestor is never deeper than the shallower side
        have hdeep {b x y : Nat} {xn yn : DomNode} (hx : tree x = some xn) (hy : tree y = some yn)
            (hbx : AncestorO tree b (some x)) (hby : AncestorO tree b (some y)) (hxy : x ≠ y)
            (hd : xn.depth ≤ yn.depth) : b ≠ y := by
          rintro rfl
          obtain ⟨x', hx', hax⟩ := hbx
          obtain rfl : x = x' := by simpa using hx'
          have := depth_ancestor ht hax hy hx
          exact hxy (this.2 (by omega)).symm
        simp only [hln, hrn, Option.bind_eq_bind, Option.bind_some]
        rw [hul] at hhl hil
        rw [hur] at hhr hir
        split
        · rename_i hd
          obtain ⟨res, pat', hres, hin, hlca⟩ := ih (some l) rn.parent
            (combinePattern pat rn.pattern) hl hir (by omega)
          rw [← hur] at hlca
          refine ⟨res, pat', hres, hin, ?_, ?_⟩
          · intro a ha
            exact ⟨(hlca.1 a ha).1, ancestorO_of_up (hlca.1 a ha).2⟩
          · intro b hbl hbr
            exact hlca.2 b hbl (ancestorO_up hbr (hdeep hln hrn hbl hbr hne hd.le))
        · split
          · rename_i hd
            obtain ⟨res, pat', hres, hin, hlca⟩ := ih ln.parent (some r)
              (combinePattern pat ln.pattern) hil hr (by omega)
            rw [← hul] at hlca
            refine ⟨res, pat', hres, hin, ?_, ?_⟩
            · intro a ha
              exact ⟨ancestorO_of_up (hlca.1 a ha).1, (hlca.1 a ha).2⟩
            · intro b hbl hbr
              exact hlca.2 b (ancestorO_up hbl (hdeep hrn hln hbr hbl hne.symm hd.le)) hbr
          · obtain ⟨res, pat', hres, hin, hlca⟩ := ih ln.parent rn.parent
              (combinePattern (combinePattern pat ln.pattern) rn.pattern) hil hir (by omega)
            rw [← hul, ← hur] at hlca
            refine ⟨res, pat', hres, hin, ?_, ?_⟩
            · intro a ha
              exact ⟨ancestorO_of_up (hlca.1 a ha).1, ancestorO_of_up (hlca.1 a ha).2⟩
            · intro b hbl hbr
              exact hlca.2 b (ancestorO_up hbl (hdeep hrn hln hbr hbl hne.symm (by omega)))
                (ancestorO_up hbr (hdeep hln hrn hbl hbr hne (by omega)))

/-- The common ancestor of the targets of a list of edges. -/
def IsLcaList (tree : DomTree) (es : List Edge) (res : Option Nat) : Prop :=
  (∀ a, res = some a → ∀ e ∈ es, Ancestor tree.up a e.node) ∧
    ∀ b, (∀ e ∈ es, Ancestor tree.up b e.node) → AncestorO tree b res

theorem lcaFold_spec (ht : Levelled n lo tree) (fuel : Nat) (hfuel : 2 * n < fuel)
    (done links : List Edge) (acc : Option Nat × OpPattern) (hin : InTree n lo acc.1)
    (hdone : IsLcaList tree done acc.1) (hlinks : ∀ e ∈ links, lo ≤ e.node ∧ e.node < n) :
    ∃ res, links.foldlM (lcaStep tree fuel) acc = some res ∧ InTree n lo res.1 ∧
      IsLcaList tree (done ++ links) res.1 := by
  induction links generalizing done acc with
  | nil => exact ⟨acc, rfl, hin, by simpa using hdone⟩
  | cons link links ih =>
    have hl := hlinks link (by simp)
    obtain ⟨nd, hnd⟩ := ht.filled link.node hl.1 hl.2
    have hheight : height n acc.1 + height n (some link.node) < fuel := by
      cases hacc : acc.1 <;> simp only [height] <;> omega
    obtain ⟨res, pat, hres, hin', hlca⟩ := leastCommonAncestor_spec ht fuel acc.1 (some link.node)
      acc.2 hin (by rintro l hl'; obtain rfl : link.node = l := by simpa using hl'
                    exact hl) hheight
    have hstep : lcaStep tree fuel acc link = some (res, combinePattern pat link.pattern) := by
      simp [lcaStep, hnd, hres]
    have hdone' : IsLcaList tree (done ++ [link]) res := by
      constructor
      · intro a ha e he
        obtain ⟨⟨x, hx, hax⟩, ⟨y, hy, hay⟩⟩ := hlca.1 a ha
        rcases List.mem_append.mp he with he | he
        · exact hax.trans (hdone.1 x hx e he)
        · rw [List.mem_singleton] at he
          obtain rfl : link.node = y := by simpa using hy
          rw [he]
          exact hay
      · intro b hb
        refine hlca.2 b (hdone.2 b fun e he => hb e (by simp [he])) ?_
        exact ⟨link.node, rfl, hb link (by simp)⟩
    obtain ⟨r, hr, hrin, hrl⟩ := ih (done ++ [link]) (res, combinePattern pat link.pattern) hin'
      hdone' (fun e he => hlinks e (by simp [he]))
    exact ⟨r, by simp [List.foldlM_cons, hstep, hr], hrin, by simpa using hrl⟩

theorem leastCommonAncestorList_spec (ht : Levelled n lo tree) (fuel : Nat) (hfuel : 2 * n < fuel)
    (es : List Edge) (pat : OpPattern) (hne : es ≠ []) (hes : ∀ e ∈ es, lo ≤ e.node ∧ e.node < n) :
    ∃ res, leastCommonAncestorList tree fuel es pat = some res ∧ InTree n lo res.1 ∧
      IsLcaList tree es res.1 := by
  cases es with
  | nil => exact absurd rfl hne
  | cons e es =>
    have hl := hes e (by simp)
    obtain ⟨nd, hnd⟩ := ht.filled e.node hl.1 hl.2
    have hone : IsLcaList tree [e] (some e.node) := by
      constructor
      · intro a ha e' he'
        rw [List.mem_singleton] at he'
        obtain rfl : e.node = a := by simpa using ha
        rw [he']
        exact Ancestor.refl _
      · intro b hb
        exact ⟨e.node, rfl, hb e (by simp)⟩
    have hin : InTree n lo (some e.node) := by
      rintro l hl'
      obtain rfl : e.node = l := by simpa using hl'
      exact hl
    obtain ⟨res, hres, hin', hlist⟩ := lcaFold_spec ht fuel hfuel [e] es
      (some e.node, combinePattern pat e.pattern) hin hone (fun e' he' => hes e' (by simp [he']))
    exact ⟨res, by simp [leastCommonAncestorList, hnd, hres], hin', hlist⟩

/-- The parent chosen for `i`: it is above every consumer of `i`, and every common ancestor of the
consumers is above it. -/
structure Chosen (g : ForwardGraph) (tree : DomTree) (i : Nat) (parent : Option Nat) : Prop where
  dom : ∀ p, parent = some p → g.externRef i = false ∧ g.outputs i ≠ [] ∧
    ∀ j, g.Consumes i j → Ancestor tree.up p j
  least : g.externRef i = false → g.outputs i ≠ [] → ∀ b,
    (∀ j, g.Consumes i j → Ancestor tree.up b j) → AncestorO tree b parent

theorem getNode_spec (g : IndexedForwardGraph) (ht : Levelled g.size lo tree) (i : Nat)
    (hi : lo ≤ i + 1) :
    ∃ nd, getNode tree g.toForwardGraph i = some nd ∧ InTree g.size lo nd.parent ∧
      Chosen g.toForwardGraph tree i nd.parent ∧
      ∀ p, nd.parent = some p → ∃ pn, tree p = some pn ∧ nd.depth = pn.depth + 1 := by
  unfold getNode
  cases hx : g.externRef i with
  | true =>
    exact ⟨_, by simp; rfl, by simp [InTree], ⟨by simp, by simp [hx]⟩, by simp⟩
  | false =>
    simp only [Bool.false_eq_true, if_false]
    by_cases hne : g.outputs i = []
    · rw [hne]
      exact ⟨_, rfl, by simp [InTree], ⟨by simp, fun _ h => absurd hne h⟩, by simp⟩
    · have hes : ∀ e ∈ g.outputs i, lo ≤ e.node ∧ e.node < g.size := by
        intro e he
        have := g.forward i e he
        omega
      obtain ⟨res, hres, hin, hlist⟩ := leastCommonAncestorList_spec ht (2 * g.size + 1) (by omega)
        (g.outputs i) .elemWise hne hes
      have hdom : ∀ p, res.1 = some p → ∀ j, g.Consumes i j → Ancestor tree.up p j := by
        rintro p hp j ⟨e, he, rfl⟩
        exact hlist.1 p hp e he
      have hleast : ∀ b, (∀ j, g.Consumes i j → Ancestor tree.up b j) → AncestorO tree b res.1 := by
        intro b hb
        exact hlist.2 b (fun e he => hb e.node ⟨e, he, rfl⟩)
      simp only [hres, Option.bind_eq_bind, Option.bind_some]
      cases hr : res.1 with
      | none =>
        refine ⟨_, rfl, by simp [InTree], ⟨by simp, ?_⟩, by simp⟩
        intro _ _ b hb
        have := hleast b hb
        rwa [hr] at this
      | some p =>
        have hp := hin p hr
        obtain ⟨pn, hpn⟩ := ht.filled p hp.1 hp.2
        refine ⟨⟨some p, pn.depth + 1, res.2⟩, by simp [hpn], ?_, ⟨?_, ?_⟩, ?_⟩
        · rintro l hl
          obtain rfl : p = l := by simpa using hl
          exact hp
        · rintro q hq
          obtain rfl : p = q := by simpa using hq
          exact ⟨hx, hne, hdom p hr⟩
        · intro _ _ b hb
          have := hleast b hb
          rwa [hr] at this
        · rintro q hq
          obtain rfl : p = q := by simpa using hq
          exact ⟨pn, hpn, rfl⟩

/-- The tree built so far is levelled and every filled entry has its parent chosen. -/
structure Built (g : ForwardGraph) (lo : Nat) (tree : DomTree) : Prop where
  levelled : Levelled g.size lo tree
  empty : ∀ i, i < lo → tree i = none
  chosen : ∀ i, lo ≤ i → i < g.size → Chosen g tree i (tree.up i)

theorem chosen_congr {g : IndexedForwardGraph} {tree' : DomTree} {i : Nat} {parent : Option Nat}
    (hf : Forest g.size tree.up) (h : ∀ x, i < x → tree'.up x = tree.up x)
    (hpar : ∀ p, parent = some p → i < p) (hc : Chosen g.toForwardGraph tree i parent) :
    Chosen g.toForwardGraph tree' i parent := by
  have hanc (a j : Nat) (hj : i < j) : Ancestor tree'.up a j ↔ Ancestor tree.up a j :=
    ancestor_congr hf hj (fun x hx => h x hx)
  have hcons (j : Nat) (hj : g.Consumes i j) : i < j := (g.consumes_lt hj).1
  constructor
  · intro p hp
    obtain ⟨h1, h2, h3⟩ := hc.dom p hp
    exact ⟨h1, h2, fun j hj => (hanc p j (hcons j hj)).mpr (h3 j hj)⟩
  · intro hx hne b hb
    obtain ⟨p, hp, hbp⟩ := hc.least hx hne b (fun j hj => (hanc b j (hcons j hj)).mp (hb j hj))
    exact ⟨p, hp, (hanc b p (hpar p hp)).mpr hbp⟩

theorem up_update {i x : Nat} {nd : DomNode} :
    DomTree.up (Function.update tree i (some nd)) x =
      if x = i then nd.parent else tree.up x := by
  unfold DomTree.up
  by_cases h : x = i
  · subst h
    simp
  · rw [Function.update_of_ne h, if_neg h]

theorem built_step (g : IndexedForwardGraph) (i : Nat) (hi : i < g.size)
    (hb : Built g.toForwardGraph (i + 1) tree) :
    ∃ nd, getNode tree g.toForwardGraph i = some nd ∧
      Built g.toForwardGraph i (Function.update tree i (some nd)) := by
  obtain ⟨nd, hget, hin, hch, hdep⟩ := getNode_spec g hb.levelled i (le_refl _)
  have hup (x : Nat) : DomTree.up (Function.update tree i (some nd)) x =
      if x = i then nd.parent else tree.up x := up_update
  have hf : Forest g.size (DomTree.up (Function.update tree i (some nd))) := by
    intro x p hx
    rw [hup] at hx
    split at hx
    · subst x
      have := hin p hx
      omega
    · exact hb.levelled.forest x p hx
  refine ⟨nd, hget, ⟨?_, hf, ?_⟩, ?_, ?_⟩
  · intro x hx hxn
    by_cases hxi : x = i
    · subst hxi
      exact ⟨nd, Function.update_self ..⟩
    · rw [Function.update_of_ne hxi]
      exact hb.levelled.filled x (by omega) hxn
  · intro x p hx
    rw [hup] at hx
    split at hx
    · subst x
      obtain ⟨pn, hpn, hd⟩ := hdep p hx
      have hpi : p ≠ i := by have := hin p hx; omega
      exact ⟨nd, pn, Function.update_self .., by rw [Function.update_of_ne hpi]; exact hpn, hd⟩
    · rename_i hxi
      obtain ⟨xn, pn, hxn, hpn, hd⟩ := hb.levelled.depth x p hx
      have hpi : p ≠ i := by
        rintro rfl
        rw [hb.empty p (by omega)] at hpn
        simp at hpn
      exact ⟨xn, pn, by rw [Function.update_of_ne hxi]; exact hxn,
        by rw [Function.update_of_ne hpi]; exact hpn, hd⟩
  · intro x hx
    rw [Function.update_of_ne (by omega)]
    exact hb.empty x (by omega)
  · intro x hx hxn
    rw [hup]
    split
    · subst x
      refine chosen_congr hb.levelled.forest ?_ (fun p hp => by have := hin p hp; omega) hch
      intro y hy
      rw [hup, if_neg (by omega)]
    · rename_i hxi
      refine chosen_congr hb.levelled.forest ?_ (fun p hp => (hb.levelled.forest x p hp).1)
        (hb.chosen x (by omega) hxn)
      intro y hy
      rw [hup, if_neg (by omega)]

/-- `PostDom` never fails on an indexed forward graph. -/
theorem postDom_built (g : IndexedForwardGraph) :
    ∃ tree, postDom g.toForwardGraph = some tree ∧ Built g.toForwardGraph 0 tree := by
  have key : ∀ k, k ≤ g.size → ∃ tree, postDomFrom g.toForwardGraph k = some tree ∧
      Built g.toForwardGraph (g.size - k) tree := by
    intro k
    induction k with
    | zero =>
      intro _
      refine ⟨_, rfl, ⟨?_, ?_, ?_⟩, fun _ _ => rfl, ?_⟩
      · intro i hi hin; omega
      · intro i p hp; simp [DomTree.up] at hp
      · intro i p hp; simp [DomTree.up] at hp
      · intro i hi hin; omega
    | succ k ih =>
      intro hk
      obtain ⟨tree, htree, hb⟩ := ih (by omega)
      rw [show g.size - k = g.size - (k + 1) + 1 by omega] at hb
      obtain ⟨nd, hget, hb'⟩ := built_step g (g.size - (k + 1)) (by omega) hb
      exact ⟨_, by simp [postDomFrom, htree, hget], hb'⟩
  obtain ⟨tree, htree, hb⟩ := key g.size le_rfl
  rw [Nat.sub_self] at hb
  exact ⟨tree, htree, hb⟩

/-- Every node met on the way from `i` to a proper ancestor is consumed only inside the graph: it is
not externally referenced and has an output. -/
theorem avoids_internal (g : IndexedForwardGraph) (hb : Built g.toForwardGraph 0 tree) {a i s : Nat}
    (hi : i < g.size) (hai : Ancestor tree.up a i) (h : g.Avoids a i s) :
    s < g.size ∧ g.externRef s = false ∧ g.outputs s ≠ [] ∧ Ancestor tree.up a s ∧ s ≠ a := by
  induction h with
  | here i hne =>
    cases hp : tree.up i with
    | none => exact absurd (ancestor_root hp hai) (Ne.symm hne)
    | some p =>
      have hd := (hb.chosen i (Nat.zero_le _) hi).dom p hp
      exact ⟨hi, hd.1, hd.2.1, hai, hne⟩
  | next i j s hne hc _ ih =>
    cases hp : tree.up i with
    | none => exact absurd (ancestor_root hp hai) (Ne.symm hne)
    | some p =>
      have hd := (hb.chosen i (Nat.zero_le _) hi).dom p hp
      exact ih (g.consumes_lt hc).2 ((ancestor_step hp hai (Ne.symm hne)).trans (hd.2.2 j hc))

end DominatorTree

end StencilGraph.Fuse
