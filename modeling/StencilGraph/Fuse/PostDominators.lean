import Mathlib.Order.Bounds.Basic
import StencilGraph.Framework.PostDominance
import StencilGraph.Fuse.DominatorTree

namespace StencilGraph.Fuse
open Framework

theorem OpPattern.code_injective {a b : OpPattern} (h : a.code = b.code) : a = b := by
  cases a <;> cases b <;> first | rfl | exact absurd h (by decide)

instance : LinearOrder OpPattern where
  le_refl a := Nat.le_refl a.code
  le_trans _ _ _ := Nat.le_trans
  lt_iff_le_not_ge a b := lt_iff_le_not_ge (a := a.code) (b := b.code)
  le_antisymm _ _ hab hba := OpPattern.code_injective (Nat.le_antisymm hab hba)
  le_total a b := Nat.le_total a.code b.code
  toDecidableLE := inferInstance

namespace ForwardGraph

variable (g : ForwardGraph)

/-- A node whose value leaves the graph or that nobody consumes. -/
def Exit (i : Nat) : Prop := g.externRef i = true ∨ g.outputs i = []

/-- `p` lies on every path from `i` to an exit. -/
def PostDominates (p i : Nat) : Prop := Framework.PostDominates g.outputs Edge.node g.Exit p i

/-- The edge patterns on the paths from `i` to `p`. -/
def pathPatterns (i p : Nat) : Set OpPattern :=
  {q | ∃ es, Walk g.outputs Edge.node i es p ∧ ∃ e ∈ es, e.pattern = q}

end ForwardGraph

namespace DominatorTree

variable {n lo : Nat} {tree tree' : DomTree} {a c l : Nat}

theorem combinePattern_eq_max (lhs rhs : OpPattern) : combinePattern lhs rhs = max lhs rhs := by
  unfold combinePattern
  split
  · rename_i h
    exact (max_eq_left (le_of_lt h)).symm
  · rename_i h
    exact (max_eq_right (not_lt.mp h)).symm

/-- The patterns of the nodes from `o` up to, but not including, `a`. -/
def climbed (tree : DomTree) (o : Option Nat) (a : Nat) : Set OpPattern :=
  {q | ∃ l z zn, o = some l ∧ Inside tree.up a l z ∧ tree z = some zn ∧ zn.pattern = q}

/-- What the search for the common ancestor of `es` takes into account when it ends in `a`. -/
def seen (tree : DomTree) (es : List Edge) (a : Nat) : Set OpPattern :=
  {q | q = .elemWise ∨ ∃ e ∈ es, e.pattern = q ∨ q ∈ climbed tree (some e.node) a}

theorem isGreatest_insert_max {s : Set OpPattern} {p q m : OpPattern} :
    IsGreatest (insert (max p q) s) m → IsGreatest (insert p (insert q s)) m := by
  intro ⟨hmem, hub⟩
  have hmax := hub (Set.mem_insert _ _)
  constructor
  · cases Set.mem_insert_iff.mp hmem with
    | inl heq =>
      cases max_choice p q with
      | inl hp => rw [heq, hp]; exact Set.mem_insert _ _
      | inr hq => rw [heq, hq]; exact Set.mem_insert_of_mem _ (Set.mem_insert _ _)
    | inr hs => exact Set.mem_insert_of_mem _ (Set.mem_insert_of_mem _ hs)
  · intro r hr
    rcases hr with rfl | rfl | hr
    · exact (le_max_left r q).trans hmax
    · exact (le_max_right p r).trans hmax
    · exact hub (Set.mem_insert_of_mem _ hr)

section Climb

variable (ht : Levelled n lo tree)

include ht

theorem climbed_self (a : Nat) : climbed tree (some a) a = ∅ := by
  apply Set.eq_empty_of_forall_notMem
  intro q hq
  obtain ⟨l, z, zn, hl, ⟨hz, haz, hne⟩, -⟩ := hq
  obtain rfl := Option.some.inj hl
  have hle := hz.le ht.forest
  have hle' := haz.le ht.forest
  omega

/-- One step up. -/
theorem climbed_step {nd : DomNode} (hl : tree l = some nd) (ha : AncestorO tree a nd.parent) :
    climbed tree (some l) a = insert nd.pattern (climbed tree nd.parent a) := by
  obtain ⟨p, hp, hap⟩ := ha
  have hup : tree.up l = some p := (up_of_node hl).trans hp
  have hne : l ≠ a := by
    have hlt := (ht.forest l p hup).1
    have hle := hap.le ht.forest
    omega
  ext q
  constructor
  · intro hq
    obtain ⟨l', z, zn, hl', ⟨hz, haz, hza⟩, hzn, rfl⟩ := hq
    obtain rfl := Option.some.inj hl'
    by_cases hzl : z = l
    · subst hzl
      obtain rfl := Option.some.inj (hl.symm.trans hzn)
      exact Set.mem_insert _ _
    · exact Set.mem_insert_of_mem _ ⟨p, z, zn, hp, ⟨ancestor_step hup hz hzl, haz, hza⟩, hzn, rfl⟩
  · intro hq
    rcases hq with rfl | hq
    · exact ⟨l, l, nd, rfl, ⟨Ancestor.refl l, hap.trans (Ancestor.parent hup), hne⟩, hl, rfl⟩
    · obtain ⟨p', z, zn, hp', ⟨hz, haz, hza⟩, hzn, rfl⟩ := hq
      obtain rfl := Option.some.inj (hp.symm.trans hp')
      exact ⟨l, z, zn, rfl, ⟨hz.trans (Ancestor.parent hup), haz, hza⟩, hzn, rfl⟩

/-- A way up is cut at a node in between. -/
theorem climbed_split (hc : Ancestor tree.up c l) (ha : Ancestor tree.up a c) :
    climbed tree (some l) a = climbed tree (some l) c ∪ climbed tree (some c) a := by
  ext q
  constructor
  · intro hq
    obtain ⟨l', z, zn, hl', ⟨hz, haz, hza⟩, hzn, rfl⟩ := hq
    obtain rfl := Option.some.inj hl'
    rcases ancestor_total hc hz with hcz | hzc
    · by_cases hzc : z = c
      · subst hzc
        exact Or.inr ⟨z, z, zn, rfl, ⟨Ancestor.refl z, haz, hza⟩, hzn, rfl⟩
      · exact Or.inl ⟨l, z, zn, rfl, ⟨hz, hcz, hzc⟩, hzn, rfl⟩
    · exact Or.inr ⟨c, z, zn, rfl, ⟨hzc, haz, hza⟩, hzn, rfl⟩
  · intro hq
    cases hq with
    | inl hq =>
      obtain ⟨l', z, zn, hl', ⟨hz, hcz, hzc⟩, hzn, rfl⟩ := hq
      obtain rfl := Option.some.inj hl'
      refine ⟨l, z, zn, rfl, ⟨hz, ha.trans hcz, ?_⟩, hzn, rfl⟩
      intro hza
      have hle := hcz.le ht.forest
      have hle' := ha.le ht.forest
      omega
    | inr hq =>
      obtain ⟨c', z, zn, hc', ⟨hz, haz, hza⟩, hzn, rfl⟩ := hq
      obtain rfl := Option.some.inj hc'
      exact ⟨l, z, zn, rfl, ⟨hz.trans hc, haz, hza⟩, hzn, rfl⟩

/-- The pattern that `LeastCommonAncestor` returns with a common ancestor `a`. -/
theorem leastCommonAncestor_pattern (fuel : Nat) (lhs rhs : Option Nat) (pat pat' : OpPattern)
    (hl : InTree n lo lhs) (hr : InTree n lo rhs)
    (hfuel : height n lhs + height n rhs < fuel)
    (hrun : leastCommonAncestor tree fuel lhs rhs pat = some (some a, pat')) :
    IsGreatest (insert pat (climbed tree lhs a ∪ climbed tree rhs a)) pat' := by
  induction fuel generalizing lhs rhs pat with
  | zero => omega
  | succ fuel ih =>
    unfold leastCommonAncestor at hrun
    by_cases heq : lhs = rhs
    · rw [if_pos heq, Option.some.injEq, Prod.mk.injEq] at hrun
      obtain ⟨rfl, rfl⟩ := hrun
      rw [← heq, climbed_self ht, Set.union_self, insert_empty_eq]
      exact isGreatest_singleton
    rw [if_neg heq] at hrun
    cases lhs with
    | none => cases hrun
    | some l =>
      cases rhs with
      | none => cases hrun
      | some r =>
        have hll := hl l rfl
        have hrr := hr r rfl
        obtain ⟨ln, hln⟩ := ht.filled l hll.1 hll.2
        obtain ⟨rn, hrn⟩ := ht.filled r hrr.1 hrr.2
        have hhl := height_up ht hll.2
        have hhr := height_up ht hrr.2
        have hil := inTree_up ht hll.1
        have hir := inTree_up ht hrr.1
        rw [up_of_node hln] at hhl hil
        rw [up_of_node hrn] at hhr hir
        simp only [hln, hrn, Option.bind_eq_bind, Option.bind_some, combinePattern_eq_max] at hrun
        split at hrun
        · -- the right side goes up
          have hbound : height n (some l) + height n rn.parent < fuel := by omega
          obtain ⟨res, p, hres, -, hlca⟩ := leastCommonAncestor_spec ht fuel (some l) rn.parent
            (max pat rn.pattern) hl hir hbound
          obtain ⟨rfl, rfl⟩ := Prod.mk.inj (Option.some.inj (hres.symm.trans hrun))
          have hmax := isGreatest_insert_max (ih (some l) rn.parent _ hl hir hbound hrun)
          rw [climbed_step ht hrn (hlca.1 a rfl).2, Set.union_insert]
          exact hmax
        · split at hrun
          · have hbound : height n ln.parent + height n (some r) < fuel := by omega
            obtain ⟨res, p, hres, -, hlca⟩ := leastCommonAncestor_spec ht fuel ln.parent (some r)
              (max pat ln.pattern) hil hr hbound
            obtain ⟨rfl, rfl⟩ := Prod.mk.inj (Option.some.inj (hres.symm.trans hrun))
            have hmax := isGreatest_insert_max (ih ln.parent (some r) _ hil hr hbound hrun)
            rw [climbed_step ht hln (hlca.1 a rfl).1, Set.insert_union]
            exact hmax
          · have hbound : height n ln.parent + height n rn.parent < fuel := by omega
            obtain ⟨res, p, hres, -, hlca⟩ := leastCommonAncestor_spec ht fuel ln.parent rn.parent
              (max (max pat ln.pattern) rn.pattern) hil hir hbound
            obtain ⟨rfl, rfl⟩ := Prod.mk.inj (Option.some.inj (hres.symm.trans hrun))
            have hmax := isGreatest_insert_max (ih ln.parent rn.parent _ hil hir hbound hrun)
            rw [climbed_step ht hln (hlca.1 a rfl).1, climbed_step ht hrn (hlca.1 a rfl).2,
              Set.insert_union, Set.union_insert]
            exact isGreatest_insert_max hmax

/-- One more edge, after the common ancestor has moved from `c` up to `a`. -/
theorem seen_snoc {es : List Edge} {link : Edge} {p q : OpPattern} (hne : es ≠ [])
    (hc : ∀ e ∈ es, Ancestor tree.up c e.node) (ha : Ancestor tree.up a c)
    (hp : IsGreatest (seen tree es c) p)
    (hq : IsGreatest (insert p (climbed tree (some c) a ∪ climbed tree (some link.node) a)) q) :
    IsGreatest (seen tree (es ++ [link]) a) (max q link.pattern) := by
  have hpq : p ≤ q := hq.2 (Set.mem_insert _ _)
  have hsplit {e : Edge} (he : e ∈ es) := climbed_split ht (hc e he) ha
  constructor
  · cases max_choice q link.pattern with
    | inr hlink =>
      rw [hlink]
      exact Or.inr ⟨link, by simp, Or.inl rfl⟩
    | inl hleft =>
      rw [hleft]
      rcases hq.1 with rfl | hclimb | hclimb
      · cases hp.1 with
        | inl helem => exact Or.inl helem
        | inr hedge =>
          obtain ⟨e, he, hcase⟩ := hedge
          refine Or.inr ⟨e, List.mem_append_left _ he, hcase.imp id fun hmem => ?_⟩
          rw [hsplit he]
          exact Or.inl hmem
      · obtain ⟨e, he⟩ := List.exists_mem_of_ne_nil es hne
        refine Or.inr ⟨e, List.mem_append_left _ he, Or.inr ?_⟩
        rw [hsplit he]
        exact Or.inr hclimb
      · exact Or.inr ⟨link, by simp, Or.inr hclimb⟩
  · intro r hr
    have hold (hmem : r ∈ seen tree es c) : r ≤ max q link.pattern :=
      ((hp.2 hmem).trans hpq).trans (le_max_left _ _)
    cases hr with
    | inl helem => exact hold (Or.inl helem)
    | inr hedge =>
      obtain ⟨e, he, hcase⟩ := hedge
      cases List.mem_append.mp he with
      | inl he =>
        rw [hsplit he] at hcase
        rcases hcase with heq | hmem | hmem
        · exact hold (Or.inr ⟨e, he, Or.inl heq⟩)
        · exact hold (Or.inr ⟨e, he, Or.inr hmem⟩)
        · exact (hq.2 (Set.mem_insert_of_mem _ (Or.inl hmem))).trans (le_max_left _ _)
      | inr he =>
        obtain rfl := List.mem_singleton.mp he
        cases hcase with
        | inl heq =>
          rw [← heq]
          exact le_max_right _ _
        | inr hmem => exact (hq.2 (Set.mem_insert_of_mem _ (Or.inr hmem))).trans (le_max_left _ _)

theorem lcaFold_pattern (fuel : Nat) (hfuel : 2 * n < fuel) (done links : List Edge)
    (acc res : Option Nat × OpPattern) (hne : done ≠ []) (hin : InTree n lo acc.1)
    (hdone : IsLcaList tree done acc.1) (hlinks : ∀ e ∈ links, lo ≤ e.node ∧ e.node < n)
    (hacc : ∀ c, acc.1 = some c → IsGreatest (seen tree done c) acc.2)
    (hrun : links.foldlM (lcaStep tree fuel) acc = some res) :
    ∀ a, res.1 = some a → IsGreatest (seen tree (done ++ links) a) res.2 := by
  induction links generalizing done acc with
  | nil =>
    obtain rfl := Option.some.inj hrun
    simpa using hacc
  | cons link links ih =>
    have hl := hlinks link List.mem_cons_self
    have hlin : InTree n lo (some link.node) := by
      intro l hl'
      obtain rfl := Option.some.inj hl'
      exact hl
    obtain ⟨nd, hnd⟩ := ht.filled link.node hl.1 hl.2
    have hheight : height n acc.1 + height n (some link.node) < fuel := by
      cases acc.1 <;> simp only [height] <;> omega
    obtain ⟨r, pat, hr, hrin, hlca⟩ := leastCommonAncestor_spec ht fuel acc.1 (some link.node) acc.2
      hin hlin hheight
    obtain ⟨one, hone, -, honeList⟩ := lcaFold_spec ht fuel hfuel done [link] acc hin hdone
      (fun e he => List.mem_singleton.mp he ▸ hl)
    have hstep : lcaStep tree fuel acc link = some (r, combinePattern pat link.pattern) := by
      simp [lcaStep, hnd, hr]
    have hone' : one = (r, combinePattern pat link.pattern) := by
      rw [List.foldlM_cons, hstep] at hone
      exact (Option.some.inj hone).symm
    rw [hone'] at honeList
    rw [List.foldlM_cons, hstep] at hrun
    have hrest := ih (done ++ [link]) (r, combinePattern pat link.pattern) (by simp) hrin honeList
      (fun e he => hlinks e (List.mem_cons_of_mem _ he)) (by
        intro a ha
        obtain rfl : r = some a := ha
        obtain ⟨c, hc, hac⟩ := (hlca.1 a rfl).1
        have hclimb := leastCommonAncestor_pattern ht fuel acc.1 (some link.node) acc.2 pat hin hlin
          hheight hr
        rw [hc] at hclimb
        rw [combinePattern_eq_max]
        exact seen_snoc ht hne (hdone.1 c hc) hac (hacc c hc) hclimb) hrun
    simpa using hrest

end Climb

/-- The pattern of a new node. -/
theorem getNode_pattern (g : IndexedForwardGraph) (ht : Levelled g.size lo tree) {i : Nat}
    (hi : lo ≤ i + 1) {nd : DomNode} (hget : getNode tree g.toForwardGraph i = some nd) :
    (nd.parent = none → nd.depth = 1) ∧
      ∀ a, nd.parent = some a → IsGreatest (seen tree (g.outputs i) a) nd.pattern := by
  unfold getNode at hget
  split at hget
  · obtain rfl := Option.some.inj hget
    exact ⟨fun _ => rfl, fun a ha => by cases ha⟩
  · cases hout : g.outputs i with
    | nil =>
      rw [hout] at hget
      obtain rfl := Option.some.inj hget
      exact ⟨fun _ => rfl, fun a ha => by cases ha⟩
    | cons e es =>
      have hes : ∀ e' ∈ e :: es, lo ≤ e'.node ∧ e'.node < g.size := by
        intro e' he'
        have := g.forward i e' (hout ▸ he')
        omega
      have he := hes e List.mem_cons_self
      obtain ⟨en, hen⟩ := ht.filled e.node he.1 he.2
      have hone : IsLcaList tree [e] (some e.node) := by
        constructor
        · intro a ha e' he'
          obtain rfl := Option.some.inj ha
          rw [List.mem_singleton.mp he']
          exact Ancestor.refl _
        · exact fun b hb => ⟨e.node, rfl, hb e (List.mem_singleton.mpr rfl)⟩
      have hin : InTree g.size lo (some e.node) := by
        intro l hl
        obtain rfl := Option.some.inj hl
        exact he
      have hfirst : ∀ c, some e.node = some c →
          IsGreatest (seen tree [e] c) (combinePattern .elemWise e.pattern) := by
        intro c hc
        obtain rfl := Option.some.inj hc
        rw [combinePattern_eq_max]
        constructor
        · cases max_choice OpPattern.elemWise e.pattern with
          | inl h => exact Or.inl h
          | inr h => exact Or.inr ⟨e, List.mem_singleton.mpr rfl, Or.inl h.symm⟩
        · intro r hr
          cases hr with
          | inl helem => exact helem ▸ le_max_left _ _
          | inr hedge =>
            obtain ⟨e', he', hcase⟩ := hedge
            obtain rfl := List.mem_singleton.mp he'
            rw [climbed_self ht] at hcase
            cases hcase with
            | inl heq => exact heq ▸ le_max_right _ _
            | inr hno => exact hno.elim
      obtain ⟨res, hres, -, -⟩ := lcaFold_spec ht (2 * g.size + 1) (by omega) [e] es
        (some e.node, combinePattern .elemWise e.pattern) hin hone
        (fun e' he' => hes e' (List.mem_cons_of_mem _ he'))
      have hpat := lcaFold_pattern ht (2 * g.size + 1) (by omega) [e] es
        (some e.node, combinePattern .elemWise e.pattern) res (by simp) hin hone
        (fun e' he' => hes e' (List.mem_cons_of_mem _ he')) hfirst hres
      simp only [hout, leastCommonAncestorList, hen, Option.bind_eq_bind, Option.bind_some,
        hres] at hget
      cases hr : res.1 with
      | none =>
        rw [hr] at hget
        obtain rfl := Option.some.inj hget
        exact ⟨fun _ => rfl, fun a ha => by cases ha⟩
      | some p =>
        rw [hr] at hget
        cases hpn : tree p with
        | none => simp [hpn] at hget
        | some pn =>
          simp only [hpn, Option.bind_some, Option.some.injEq] at hget
          subst hget
          refine ⟨fun hno => absurd hno (Option.some_ne_none p), fun a ha => ?_⟩
          obtain rfl := Option.some.inj ha
          exact hpat p hr

/-- The patterns on a way up only depend on the entries from `lo` on. -/
theorem climbed_congr (hf : Forest n tree.up) (h : ∀ x, lo ≤ x → tree' x = tree x) (hl : lo ≤ l) :
    climbed tree' (some l) a = climbed tree (some l) a := by
  have hup (x : Nat) (hx : lo ≤ x) : tree'.up x = tree.up x := by
    unfold DomTree.up
    rw [h x hx]
  have hanc {b y : Nat} (hy : lo ≤ y) : Ancestor tree'.up b y ↔ Ancestor tree.up b y :=
    ancestor_congr hf hy hup
  ext q
  constructor
  · intro hq
    obtain ⟨l', z, zn, hl', ⟨hz, haz, hza⟩, hzn, rfl⟩ := hq
    obtain rfl := Option.some.inj hl'
    have hz' := (hanc hl).mp hz
    have hlz : lo ≤ z := hl.trans (hz'.le hf)
    rw [h z hlz] at hzn
    exact ⟨l, z, zn, rfl, ⟨hz', (hanc hlz).mp haz, hza⟩, hzn, rfl⟩
  · intro hq
    obtain ⟨l', z, zn, hl', ⟨hz, haz, hza⟩, hzn, rfl⟩ := hq
    obtain rfl := Option.some.inj hl'
    have hlz : lo ≤ z := hl.trans (hz.le hf)
    rw [← h z hlz] at hzn
    exact ⟨l, z, zn, rfl, ⟨(hanc hl).mpr hz, (hanc hlz).mpr haz, hza⟩, hzn, rfl⟩

theorem seen_congr {es : List Edge} (hf : Forest n tree.up) (h : ∀ x, lo ≤ x → tree' x = tree x)
    (hes : ∀ e ∈ es, lo ≤ e.node) : seen tree' es a = seen tree es a := by
  ext q
  apply or_congr_right
  apply exists_congr
  intro e
  apply and_congr_right
  intro he
  rw [climbed_congr hf h (hes e he)]

/-- The filled entries have the depths and patterns of the source. -/
def Measured (g : ForwardGraph) (lo : Nat) (tree : DomTree) : Prop :=
  ∀ i, lo ≤ i → i < g.size → ∀ nd, tree i = some nd → (nd.parent = none → nd.depth = 1) ∧
    ∀ a, nd.parent = some a → IsGreatest (seen tree (g.outputs i) a) nd.pattern

theorem measured_step (g : IndexedForwardGraph) {i : Nat} {nd : DomNode}
    (hb : Built g.toForwardGraph (i + 1) tree) (hm : Measured g.toForwardGraph (i + 1) tree)
    (hget : getNode tree g.toForwardGraph i = some nd) :
    Measured g.toForwardGraph i (Function.update tree i (some nd)) := by
  intro x hx hxn xn hxx
  have hsame (y : Nat) (hy : i + 1 ≤ y) : Function.update tree i (some nd) y = tree y := by
    rw [Function.update_of_ne (by omega)]
  have hseen (a : Nat) : seen (Function.update tree i (some nd)) (g.outputs x) a =
      seen tree (g.outputs x) a := by
    apply seen_congr hb.levelled.forest hsame
    intro e he
    have := g.forward x e he
    omega
  have hold : (xn.parent = none → xn.depth = 1) ∧
      ∀ a, xn.parent = some a → IsGreatest (seen tree (g.outputs x) a) xn.pattern := by
    by_cases hxi : x = i
    · subst hxi
      rw [Function.update_self] at hxx
      obtain rfl := Option.some.inj hxx
      exact getNode_pattern g hb.levelled le_rfl hget
    · rw [Function.update_of_ne hxi] at hxx
      exact hm x (by omega) hxn xn hxx
  refine ⟨hold.1, fun a ha => ?_⟩
  rw [hseen]
  exact hold.2 a ha

theorem postDom_measured (g : IndexedForwardGraph) :
    ∃ tree, postDom g.toForwardGraph = some tree ∧ Built g.toForwardGraph 0 tree ∧
      Measured g.toForwardGraph 0 tree := by
  have key : ∀ k, k ≤ g.size → ∀ tree, postDomFrom g.toForwardGraph k = some tree →
      Built g.toForwardGraph (g.size - k) tree ∧ Measured g.toForwardGraph (g.size - k) tree := by
    intro k
    induction k with
    | zero =>
      intro _ tree htree
      obtain rfl := Option.some.inj htree
      refine ⟨⟨⟨?_, ?_, ?_⟩, fun _ _ => rfl, ?_⟩, ?_⟩
      · intro i hi hin; omega
      · intro i p hp; simp [DomTree.up] at hp
      · intro i p hp; simp [DomTree.up] at hp
      · intro i hi hin; omega
      · intro i hi hin; omega
    | succ k ih =>
      intro hk tree htree
      unfold postDomFrom at htree
      cases hrec : postDomFrom g.toForwardGraph k with
      | none => simp [hrec] at htree
      | some tree₀ =>
        obtain ⟨hb, hm⟩ := ih (by omega) tree₀ hrec
        rw [show g.size - k = g.size - (k + 1) + 1 by omega] at hb hm
        obtain ⟨nd, hget, hb'⟩ := built_step g (g.size - (k + 1)) (by omega) hb
        simp only [hrec, hget, Option.bind_eq_bind, Option.bind_some, Option.some.injEq] at htree
        subst htree
        exact ⟨hb', measured_step g hb hm hget⟩
  obtain ⟨tree, htree, -⟩ := postDom_built g
  have hfull := key g.size le_rfl tree htree
  rw [Nat.sub_self] at hfull
  exact ⟨tree, htree, hfull⟩

section Final

variable (g : IndexedForwardGraph) (hb : Built g.toForwardGraph 0 tree)
  (hm : Measured g.toForwardGraph 0 tree)

include hb

theorem Built.lcaForest : LcaForest g.outputs Edge.node g.Exit g.size tree.up := by
  have hchosen {x p : Nat} (hp : tree.up x = some p) : Chosen g.toForwardGraph tree x (tree.up x) :=
    hb.chosen x (Nat.zero_le _) ((hb.levelled.forest x p hp).1.trans (hb.levelled.forest x p hp).2)
  refine ⟨hb.levelled.forest, g.forward, fun x hx => Or.inr hx, fun x p hp => ?_,
    fun x hx hexit b hb' => ?_⟩
  · obtain ⟨hext, hne, hall⟩ := (hchosen hp).dom p hp
    refine ⟨fun hexit => ?_, fun e he => hall e.node ⟨e, he, rfl⟩⟩
    cases hexit with
    | inl h => rw [hext] at h; cases h
    | inr h => exact hne h
  · obtain ⟨hext, hne⟩ := not_or.mp hexit
    obtain ⟨p, hp, hbp⟩ := (hb.chosen x (Nat.zero_le _) hx).least (by simpa using hext) hne b (by
      intro j hj
      obtain ⟨e, he, rfl⟩ := hj
      exact hb' e he)
    exact ⟨p, hp, hbp⟩

include hm

/-- The pattern stored at a node. -/
def patternAt (tree : DomTree) (i : Nat) : OpPattern := ((tree i).map DomNode.pattern).getD .elemWise

theorem Built.lcaWeights :
    LcaWeights g.outputs Edge.node tree.up Edge.pattern (patternAt tree) := by
  have hat {x : Nat} {nd : DomNode} (hx : tree x = some nd) : patternAt tree x = nd.pattern := by
    simp [patternAt, hx]
  have hgreatest {x p : Nat} (hp : tree.up x = some p) :
      IsGreatest (seen tree (g.outputs x) p) (patternAt tree x) := by
    obtain ⟨hlt, hpn⟩ := hb.levelled.forest x p hp
    obtain ⟨nd, hnd⟩ := hb.levelled.filled x (Nat.zero_le _) (hlt.trans hpn)
    rw [hat hnd]
    exact (hm x (Nat.zero_le _) (hlt.trans hpn) nd hnd).2 p ((up_of_node hnd).symm.trans hp)
  have hclimb {l p z : Nat} (hl : l < g.size) (hz : Inside tree.up p l z) :
      patternAt tree z ∈ climbed tree (some l) p := by
    obtain ⟨zn, hzn⟩ := hb.levelled.filled z (Nat.zero_le _) (hz.1.lt_size hb.levelled.forest hl)
    exact ⟨l, z, zn, rfl, hz, hzn, (hat hzn).symm⟩
  refine ⟨fun x p hp e he => ?_, fun x p hp e he z hz => ?_, fun x p hp => ?_⟩
  · exact (hgreatest hp).2 (Or.inr ⟨e, he, Or.inl rfl⟩)
  · exact (hgreatest hp).2 (Or.inr ⟨e, he, Or.inr (hclimb (g.forward x e he).2 hz)⟩)
  · cases (hgreatest hp).1 with
    | inl helem =>
      have hne := (hb.lcaForest g).dom x p hp |>.1
      cases hout : g.outputs x with
      | nil => exact absurd (Or.inr hout) hne
      | cons e es =>
        have he : e ∈ g.outputs x := by
          rw [hout]
          exact List.mem_cons_self
        have hle := (hgreatest hp).2 (Or.inr ⟨e, he, Or.inl rfl⟩)
        rw [helem] at hle
        refine ⟨e, List.mem_cons_self, Or.inl (le_antisymm (hle.trans_eq helem.symm) ?_)⟩
        rw [helem]
        exact Nat.zero_le _
    | inr hedge =>
      obtain ⟨e, he, hcase⟩ := hedge
      refine ⟨e, he, hcase.imp id fun hmem => ?_⟩
      obtain ⟨l, z, zn, hl, hz, hzn, heq⟩ := hmem
      obtain rfl := Option.some.inj hl
      exact ⟨z, hz, (hat hzn).trans heq⟩

end Final

/-- `PostDom` computes the immediate post-dominators, with their depths and the greatest pattern on
the paths to them. -/
theorem postDom_immediate (g : IndexedForwardGraph) :
    ∃ tree, postDom g.toForwardGraph = some tree ∧
      (∀ i, i < g.size → g.externRef i = false → ∃ nd, tree i = some nd ∧
        (∀ p, nd.parent = some p → p ≠ i ∧ g.PostDominates p i ∧
          (∀ q, q ≠ i → g.PostDominates q i → g.PostDominates q p) ∧
          IsGreatest (g.pathPatterns i p) nd.pattern) ∧
        (nd.parent = none ↔ ∀ q, q ≠ i → ¬ g.PostDominates q i)) ∧
      ∀ i, i < g.size → ∃ nd, tree i = some nd ∧ (nd.parent = none → nd.depth = 1) ∧
        ∀ p, nd.parent = some p → ∃ pn, tree p = some pn ∧ nd.depth = pn.depth + 1 := by
  obtain ⟨tree, htree, hb, hm⟩ := postDom_measured g
  have ht := hb.lcaForest g
  have hl := hb.lcaWeights g hm
  refine ⟨tree, htree, fun i hi _ => ?_, fun i hi => ?_⟩
  · obtain ⟨nd, hnd⟩ := hb.levelled.filled i (Nat.zero_le _) hi
    have hup := up_of_node hnd
    refine ⟨nd, hnd, fun p hp => ?_, ?_⟩
    · have hpar : tree.up i = some p := hup.trans hp
      obtain ⟨hne, hpd, himm⟩ := ht.parent_immediate hi hpar
      have hat : patternAt tree i = nd.pattern := by simp [patternAt, hnd]
      refine ⟨hne, hpd, himm, ?_, fun q hq => ?_⟩
      · obtain ⟨es, hw, e, he, heq⟩ := ht.label_attained hl i hpar
        exact ⟨es, hw, e, he, heq.trans hat⟩
      · obtain ⟨es, hw, e, he, rfl⟩ := hq
        rw [← hat]
        exact (ht.label_le hl i).1 p hpar es hw e he
    · rw [← hup]
      exact ht.parent_none hi
  · obtain ⟨nd, hnd⟩ := hb.levelled.filled i (Nat.zero_le _) hi
    refine ⟨nd, hnd, (hm i (Nat.zero_le _) hi nd hnd).1, fun p hp => ?_⟩
    obtain ⟨nd', pn, hnd', hpn, hd⟩ := hb.levelled.depth i p ((up_of_node hnd).trans hp)
    obtain rfl := Option.some.inj (hnd.symm.trans hnd')
    exact ⟨pn, hpn, hd⟩

end DominatorTree

end StencilGraph.Fuse
