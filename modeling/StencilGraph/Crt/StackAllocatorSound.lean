import Mathlib
import StencilGraph.Crt.StackAllocator

namespace StencilGraph.Crt
open Framework

namespace StackHeap

open StackMemoryManager

variable {align : Alignment} {h : StackHeap} {mem mem' : RawMemory} {base next : Nat}
  {live : List Block}

theorem offsetBytes_lt (align : Alignment) (nbytes : Nat) :
    offsetBytes align nbytes < 2 ^ 30 + 1 := by
  have hpos : 0 < align.bytes := Nat.two_pow_pos _
  have hle : align.bytes ≤ 2 ^ 30 := Nat.pow_le_pow_right (by decide) align.log2_le
  have hlt := Int.emod_lt_of_pos ((align.bytes : Int) - nbytes) (by omega : 0 < (align.bytes : Int))
  unfold offsetBytes
  omega

def tagAddress (align : Alignment) (b : Block) : Nat := b.ptr + b.nbytes + offsetBytes align b.nbytes

def totalSize (align : Alignment) (b : Block) : Nat :=
  b.nbytes + offsetBytes align b.nbytes + stackAllocatorTagSizeBytes

/-- The live blocks with their tags follow each other from `base` to `next`, and the tags hold the
sizes. -/
def Stacked (align : Alignment) (mem : RawMemory) (base : Nat) : List Block → Nat → Prop
  | [], next => next = base
  | b :: live, next => b.before = b.ptr ∧ b.nbytes < 2 ^ 31 ∧ next = b.ptr + totalSize align b ∧
    mem.read (tagAddress align b) 4 = totalSize align b ^^^ stackAllocatorTag ∧
    Stacked align mem base live b.ptr

theorem Stacked.base_le (h : Stacked align mem base live next) : base ≤ next := by
  induction live generalizing next with
  | nil => exact h.ge
  | cons b live ih =>
    obtain ⟨-, -, hnext, -, hrest⟩ := h
    have hle := ih hrest
    omega

theorem Stacked.bounds (h : Stacked align mem base live next) {b : Block} (hb : b ∈ live) :
    base ≤ b.ptr ∧ b.ptr + totalSize align b ≤ next := by
  induction live generalizing next with
  | nil => exact absurd hb List.not_mem_nil
  | cons c live ih =>
    obtain ⟨-, -, hnext, -, hrest⟩ := h
    cases List.mem_cons.mp hb with
    | inl heq =>
      rw [heq]
      exact ⟨hrest.base_le, hnext.ge⟩
    | inr hmem =>
      have hle := ih hrest hmem
      omega

theorem tagAddress_eq (align : Alignment) (b : Block) : tagAddress align b + 4 = b.ptr + totalSize align b := by
  unfold tagAddress totalSize stackAllocatorTagSizeBytes
  omega

/-- Memory that keeps the tags keeps the blocks stacked. -/
theorem Stacked.congr (h : Stacked align mem base live next)
    (htags : ∀ b ∈ live, mem'.read (tagAddress align b) 4 = mem.read (tagAddress align b) 4) :
    Stacked align mem' base live next := by
  induction live generalizing next with
  | nil => exact h
  | cons b live ih =>
    obtain ⟨hbefore, hsize, hnext, htag, hrest⟩ := h
    refine ⟨hbefore, hsize, hnext, ?_, ih hrest fun c hc => htags c (List.mem_cons_of_mem _ hc)⟩
    rw [htags b List.mem_cons_self]
    exact htag

/-- A byte inside a live block is no byte of a tag. -/
theorem Stacked.apart_tag (h : Stacked align mem base live next) {address : Nat}
    (hinside : ∃ b ∈ live, b.ptr ≤ address ∧ address < b.ptr + b.nbytes) {c : Block} (hc : c ∈ live) :
    tagAddress align c + 4 ≤ address ∨ address + 1 ≤ tagAddress align c := by
  induction live generalizing next with
  | nil => exact absurd hc List.not_mem_nil
  | cons d live ih =>
    obtain ⟨-, -, -, -, hrest⟩ := h
    obtain ⟨b, hb, hbegin, hend⟩ := hinside
    have hown := tagAddress_eq align c
    have hd : d.ptr + d.nbytes ≤ tagAddress align d := Nat.le_add_right _ _
    cases List.mem_cons.mp hb with
    | inl hbd =>
      rw [hbd] at hbegin hend
      cases List.mem_cons.mp hc with
      | inl hcd =>
        rw [hcd]
        omega
      | inr hmem =>
        have hle := (hrest.bounds hmem).2
        omega
    | inr hbmem =>
      have hle := (hrest.bounds hbmem).2
      have hsize : b.nbytes ≤ totalSize align b := by
        unfold totalSize
        omega
      cases List.mem_cons.mp hc with
      | inl hcd =>
        rw [hcd]
        omega
      | inr hmem => exact ih hrest ⟨b, hbmem, hbegin, hend⟩ hmem

/-- The regions of stacked blocks lie below `next`, one after the other. -/
theorem Stacked.regions (h : Stacked align mem base live next) :
    (live.flatMap (regions align)).Pairwise Region.Apart ∧
      ∀ r ∈ live.flatMap (StackHeap.regions align), base ≤ r.start ∧ r.start + r.size ≤ next := by
  induction live generalizing next with
  | nil => exact ⟨List.Pairwise.nil, fun r hr => absurd hr List.not_mem_nil⟩
  | cons b live ih =>
    obtain ⟨-, -, hnext, -, hrest⟩ := h
    obtain ⟨hapart, hinside⟩ := ih hrest
    have hbase := hrest.base_le
    have htotal : totalSize align b =
      b.nbytes + offsetBytes align b.nbytes + stackAllocatorTagSizeBytes := rfl
    have hown (r : Region) (hr : r ∈ StackHeap.regions align b) :
        b.ptr ≤ r.start ∧ r.start + r.size ≤ next := by
      cases List.mem_cons.mp hr with
      | inl hblock =>
        rw [hblock]
        show b.ptr ≤ b.ptr ∧ b.ptr + b.nbytes ≤ next
        omega
      | inr htag =>
        rw [List.mem_singleton.mp htag]
        show b.ptr ≤ b.ptr + b.nbytes + offsetBytes align b.nbytes ∧
          b.ptr + b.nbytes + offsetBytes align b.nbytes + stackAllocatorTagSizeBytes ≤ next
        omega
    rw [List.flatMap_cons]
    constructor
    · apply List.pairwise_append.mpr
      refine ⟨?_, hapart, ?_⟩
      · apply List.pairwise_pair.mpr
        exact Or.inl (Nat.le_add_right _ _)
      · intro r hr s hs
        have hbegin := (hown r hr).1
        have hend := (hinside s hs).2
        exact Or.inr (hend.trans hbegin)
    · intro r hr
      cases List.mem_append.mp hr with
      | inl hmem =>
        have hle := hown r hmem
        omega
      | inr hmem =>
        have hle := hinside r hmem
        omega

/-- The invariant of the allocator. -/
structure Inv (align : Alignment) (gAotMemory workspaceSize : Nat) (h : StackHeap) : Prop where
  stacked : Stacked align h.mem h.ws.workspace h.live h.ws.nextAlloc
  fits : h.ws.nextAlloc ≤ h.ws.workspace + h.ws.workspaceSize
  inside : gAotMemory ≤ h.ws.workspace ∧
    h.ws.workspace + h.ws.workspaceSize ≤ gAotMemory + workspaceSize

variable {gAotMemory workspaceSize : Nat}

theorem Inv.sound (hi : Inv align gAotMemory workspaceSize h) :
    Sound align gAotMemory workspaceSize h := by
  obtain ⟨hapart, hinside⟩ := hi.stacked.regions
  refine ⟨hapart, fun r hr => ?_⟩
  have hle := hinside r hr
  have hfits := hi.fits
  have hws := hi.inside
  omega

/-- The end of an allocation that succeeds. -/
def allocated (align : Alignment) (h : StackHeap) (nbytes : Nat) : StackHeap :=
  ⟨{ h.ws with nextAlloc := h.ws.nextAlloc + nbytes + offsetBytes align nbytes +
      stackAllocatorTagSizeBytes },
    h.mem.write (h.ws.nextAlloc + nbytes + offsetBytes align nbytes) (littleEndian 4
      ((nbytes + offsetBytes align nbytes + stackAllocatorTagSizeBytes) % 2 ^ 32 ^^^
        stackAllocatorTag)),
    ⟨h.ws.nextAlloc, nbytes, h.ws.nextAlloc⟩ :: h.live⟩

/-- The three ends of an allocation. -/
theorem allocateBody_cases (align : Alignment) (h : StackHeap) (nbytes currentAlloc : Nat) :
    (h.ws.workspace + h.ws.workspaceSize < h.ws.nextAlloc + nbytes + offsetBytes align nbytes ∧
      allocateBody align h.ws h.mem nbytes currentAlloc true =
        (.platformNoMemory, h.ws, h.mem, currentAlloc)) ∨
    (h.ws.nextAlloc + nbytes + offsetBytes align nbytes ≤ h.ws.workspace + h.ws.workspaceSize ∧
      h.ws.workspace + h.ws.workspaceSize < h.ws.nextAlloc + nbytes + offsetBytes align nbytes +
        stackAllocatorTagSizeBytes ∧
      allocateBody align h.ws h.mem nbytes currentAlloc true =
        (.platformNoMemory, h.ws, h.mem, h.ws.nextAlloc)) ∨
    (h.ws.nextAlloc + nbytes + offsetBytes align nbytes + stackAllocatorTagSizeBytes ≤
        h.ws.workspace + h.ws.workspaceSize ∧
      allocateBody align h.ws h.mem nbytes currentAlloc true =
        (.noError, (h.allocated align nbytes).ws, (h.allocated align nbytes).mem,
          h.ws.nextAlloc)) := by
  unfold allocateBody
  by_cases hblock :
      h.ws.nextAlloc + nbytes + offsetBytes align nbytes > h.ws.workspace + h.ws.workspaceSize
  · exact Or.inl ⟨hblock, if_pos hblock⟩
  · apply Or.inr
    by_cases htag : h.ws.nextAlloc + nbytes + offsetBytes align nbytes +
        stackAllocatorTagSizeBytes > h.ws.workspace + h.ws.workspaceSize
    · refine Or.inl ⟨Nat.le_of_not_lt hblock, htag, ?_⟩
      rw [if_neg hblock]
      exact if_pos htag
    · refine Or.inr ⟨Nat.le_of_not_lt htag, ?_⟩
      rw [if_neg hblock]
      exact if_neg htag

theorem allocate_keeps_iff (nbytes currentAlloc : Nat) :
    h.Keeps align (.allocate nbytes currentAlloc) ↔ h.Meets align (.allocate nbytes currentAlloc) := by
  simp only [Keeps, Meets]
  cases allocateBody_cases align h nbytes currentAlloc with
  | inl hblock =>
    obtain ⟨hlt, heq⟩ := hblock
    rw [heq]
    constructor
    · intro _
      apply Or.inl
      intro hle
      omega
    · intro _ _
      exact ⟨rfl, rfl⟩
  | inr hfits =>
    cases hfits with
    | inl htag =>
      obtain ⟨hle, hlt, heq⟩ := htag
      rw [heq]
      constructor
      · intro hkeeps
        exact Or.inr (hkeeps StackError.noConfusion).2.symm
      · intro hmeets _
        refine ⟨rfl, (hmeets.resolve_left ?_).symm⟩
        intro hnot
        exact hnot ⟨hle, hlt⟩
    | inr hok =>
      obtain ⟨hle, heq⟩ := hok
      rw [heq]
      constructor
      · intro _
        apply Or.inl
        intro hnot
        omega
      · intro _ herror
        exact absurd rfl herror

/-- The tag of a new block holds its size. -/
theorem read_tag (address total : Nat) (htotal : total < 2 ^ 32) :
    (mem.write address (littleEndian 4 (total % 2 ^ 32 ^^^ stackAllocatorTag))).read address 4 =
      total ^^^ stackAllocatorTag := by
  have hread : (mem.write address (littleEndian 4 (total % 2 ^ 32 ^^^ stackAllocatorTag))).read
      address (littleEndian 4 (total % 2 ^ 32 ^^^ stackAllocatorTag)).length = _ :=
    RawMemory.read_write_same
  have htag : total ^^^ stackAllocatorTag < 2 ^ 32 := Nat.xor_lt_two_pow htotal (by decide)
  rw [littleEndian_length, ofLittleEndian_littleEndian, Nat.mod_eq_of_lt htotal] at hread
  rw [Nat.mod_eq_of_lt htotal, hread]
  exact Nat.mod_eq_of_lt htag

theorem Inv.allocate (hi : Inv align gAotMemory workspaceSize h) {nbytes : Nat} (currentAlloc : Nat)
    (hcalled : nbytes < 2 ^ 31) :
    Inv align gAotMemory workspaceSize (h.step align (.allocate nbytes currentAlloc)) := by
  simp only [step]
  cases allocateBody_cases align h nbytes currentAlloc with
  | inl hblock =>
    rw [hblock.2]
    exact hi
  | inr hfits =>
    cases hfits with
    | inl htag =>
      rw [htag.2.2]
      exact hi
    | inr hok =>
      obtain ⟨hle, heq⟩ := hok
      rw [heq]
      have hoffset := offsetBytes_lt align nbytes
      have htotal : nbytes + offsetBytes align nbytes + stackAllocatorTagSizeBytes < 2 ^ 32 := by
        unfold stackAllocatorTagSizeBytes
        omega
      refine ⟨⟨rfl, hcalled, ?_, read_tag _ _ htotal, ?_⟩, hle, hi.inside⟩
      · show h.ws.nextAlloc + nbytes + offsetBytes align nbytes + stackAllocatorTagSizeBytes =
          h.ws.nextAlloc + (nbytes + offsetBytes align nbytes + stackAllocatorTagSizeBytes)
        omega
      · apply hi.stacked.congr
        intro b hb
        apply RawMemory.read_write_apart
        have hend := (hi.stacked.bounds hb).2
        have htagEnd := tagAddress_eq align b
        omega

/-- The two ends of `Free`. -/
theorem freeBody_cases (ws : Workspace) (mem : RawMemory) (ptr : Nat) :
    (mem.read (ws.nextAlloc - stackAllocatorTagSizeBytes) 4 ^^^ stackAllocatorTag =
        (((ws.nextAlloc : Int) - ptr) % 2 ^ 32).toNat ∧
      freeBody ws mem ptr true = (.noError, { ws with nextAlloc := ptr })) ∨
    (mem.read (ws.nextAlloc - stackAllocatorTagSizeBytes) 4 ^^^ stackAllocatorTag ≠
        (((ws.nextAlloc : Int) - ptr) % 2 ^ 32).toNat ∧
      freeBody ws mem ptr true = (.platformStackAllocBadFree, ws)) := by
  unfold freeBody
  by_cases hsame : mem.read (ws.nextAlloc - stackAllocatorTagSizeBytes) 4 ^^^ stackAllocatorTag =
      (((ws.nextAlloc : Int) - ptr) % 2 ^ 32).toNat
  · refine Or.inl ⟨hsame, if_neg ?_⟩
    rw [Bool.true_and, decide_eq_true_eq]
    exact not_not_intro hsame
  · refine Or.inr ⟨hsame, if_pos ?_⟩
    rw [Bool.true_and, decide_eq_true_eq]
    exact hsame

variable {newest : Block} {older : List Block} {ptr : Nat}

/-- `Free` compares the distance from the pointer to `next_alloc` with the size of the newest block,
both below `2 ^ 32`. -/
theorem free_newest_cases (hi : Inv align gAotMemory workspaceSize h)
    (hlive : h.live = newest :: older) (hptr : ptr ≤ newest.ptr) :
    (2 ^ 32 ∣ newest.ptr - ptr ∧
      freeBody h.ws h.mem ptr true = (.noError, { h.ws with nextAlloc := ptr })) ∨
    (¬ 2 ^ 32 ∣ newest.ptr - ptr ∧
      freeBody h.ws h.mem ptr true = (.platformStackAllocBadFree, h.ws)) := by
  have hstacked := hi.stacked
  rw [hlive] at hstacked
  obtain ⟨-, hsize, hnext, htag, -⟩ := hstacked
  have htagAddress : h.ws.nextAlloc - stackAllocatorTagSizeBytes = tagAddress align newest := by
    have heq := tagAddress_eq align newest
    unfold stackAllocatorTagSizeBytes
    omega
  have hoffset := offsetBytes_lt align newest.nbytes
  have htotal : totalSize align newest < 2 ^ 32 := by
    unfold totalSize stackAllocatorTagSizeBytes
    omega
  have hexpected : h.mem.read (h.ws.nextAlloc - stackAllocatorTagSizeBytes) 4 ^^^ stackAllocatorTag =
      totalSize align newest := by
    rw [htagAddress, htag, Nat.xor_assoc, Nat.xor_self, Nat.xor_zero]
  cases freeBody_cases h.ws h.mem ptr with
  | inl hok =>
    rw [hexpected] at hok
    exact Or.inl ⟨by omega, hok.2⟩
  | inr hbad =>
    rw [hexpected] at hbad
    exact Or.inr ⟨by omega, hbad.2⟩

theorem ptr_le_newest (hi : Inv align gAotMemory workspaceSize h) (hlive : h.live = newest :: older)
    (hcalled : ∃ b ∈ h.live, b.ptr = ptr) : ptr ≤ newest.ptr := by
  have hstacked := hi.stacked
  rw [hlive] at hstacked
  obtain ⟨-, -, -, -, hrest⟩ := hstacked
  obtain ⟨b, hb, hptr⟩ := hcalled
  rw [hlive] at hb
  cases List.mem_cons.mp hb with
  | inl heq => rw [← hptr, heq]
  | inr hmem =>
    have hle := (hrest.bounds hmem).2
    omega

theorem live_ne_nil (hcalled : ∃ b ∈ h.live, b.ptr = ptr) : ∃ newest older, h.live = newest :: older := by
  obtain ⟨b, hb, -⟩ := hcalled
  exact List.exists_cons_of_ne_nil (List.ne_nil_of_mem hb)

theorem free_keeps_iff (hi : Inv align gAotMemory workspaceSize h)
    (hcalled : h.Called (.free ptr)) : h.Keeps align (.free ptr) ↔ h.Meets align (.free ptr) := by
  obtain ⟨newest, older, hlive⟩ := live_ne_nil hcalled
  have hstacked := hi.stacked
  rw [hlive] at hstacked
  have hbefore : newest.before = newest.ptr := hstacked.1
  simp only [Keeps, Meets, hlive, List.head?_cons, Option.map_some, Option.some.injEq,
    Option.mem_some_iff, forall_eq']
  cases free_newest_cases hi hlive (ptr_le_newest hi hlive hcalled) with
  | inl hok =>
    obtain ⟨hdvd, heq⟩ := hok
    rw [heq]
    constructor
    · intro hkeeps
      exact Or.inl (hkeeps.1.mp rfl).symm
    · intro hmeets
      have hptr : ptr = newest.ptr := hmeets.resolve_right (not_not_intro hdvd)
      refine ⟨⟨fun _ => hptr.symm, fun _ => rfl⟩, fun _ => ?_, fun herror => absurd rfl herror⟩
      rw [hbefore]
      exact hptr
  | inr hbad =>
    obtain ⟨hdvd, heq⟩ := hbad
    rw [heq]
    constructor
    · intro _
      exact Or.inr hdvd
    · intro _
      refine ⟨⟨StackError.noConfusion, ?_⟩, StackError.noConfusion, fun _ => rfl⟩
      intro hptr
      apply absurd _ hdvd
      rw [hptr, Nat.sub_self]
      exact Nat.dvd_zero _

theorem Inv.free (hi : Inv align gAotMemory workspaceSize h) (hcalled : h.Called (.free ptr))
    (hmeets : h.Meets align (.free ptr)) :
    Inv align gAotMemory workspaceSize (h.step align (.free ptr)) := by
  obtain ⟨newest, older, hlive⟩ := live_ne_nil hcalled
  simp only [step]
  cases free_newest_cases hi hlive (ptr_le_newest hi hlive hcalled) with
  | inl hok =>
    obtain ⟨hdvd, heq⟩ := hok
    have hptr : ptr = newest.ptr := by
      simp only [Meets, hlive, List.head?_cons, Option.mem_some_iff, forall_eq'] at hmeets
      exact hmeets.resolve_right (not_not_intro hdvd)
    have hstacked := hi.stacked
    rw [hlive] at hstacked
    obtain ⟨-, -, hnext, -, hrest⟩ := hstacked
    have hfits := hi.fits
    have hpop : (h.live.eraseP fun b => b.ptr = ptr) = older := by
      rw [hlive, List.eraseP_cons_of_pos (by simp [hptr])]
    rw [heq]
    refine ⟨?_, ?_, hi.inside⟩
    · show Stacked align h.mem h.ws.workspace (h.live.eraseP fun b => b.ptr = ptr) ptr
      rw [hpop, hptr]
      exact hrest
    · show ptr ≤ h.ws.workspace + h.ws.workspaceSize
      omega
  | inr hbad =>
    rw [hbad.2]
    exact hi

theorem Inv.write (hi : Inv align gAotMemory workspaceSize h) {address : Nat} {byte : UInt8}
    (hcalled : h.Called (.write address byte)) :
    Inv align gAotMemory workspaceSize (h.step align (.write address byte)) := by
  refine ⟨?_, hi.fits, hi.inside⟩
  apply hi.stacked.congr
  intro b hb
  apply RawMemory.read_write_apart
  exact hi.stacked.apart_tag hcalled hb

theorem Inv.keeps_iff (hi : Inv align gAotMemory workspaceSize h) {op : Op} (hcalled : h.Called op) :
    h.Keeps align op ↔ h.Meets align op := by
  cases op with
  | allocate nbytes currentAlloc => exact allocate_keeps_iff nbytes currentAlloc
  | free ptr => exact free_keeps_iff hi hcalled
  | write address byte => exact Iff.rfl

theorem Inv.step (hi : Inv align gAotMemory workspaceSize h) {op : Op} (hcalled : h.Called op)
    (hmeets : h.Meets align op) : Inv align gAotMemory workspaceSize (h.step align op) := by
  cases op with
  | allocate nbytes currentAlloc => exact hi.allocate currentAlloc hcalled
  | free ptr => exact hi.free hcalled hmeets
  | write address byte => exact hi.write hcalled

theorem Inv.safeAlong_iff (hi : Inv align gAotMemory workspaceSize h) (ops : List Op) :
    h.SafeAlong align gAotMemory workspaceSize ops ↔ h.MeetsAlong align ops := by
  induction ops generalizing h with
  | nil => exact ⟨fun _ => trivial, fun _ => hi.sound⟩
  | cons op ops ih =>
    constructor
    · intro hsafe hcalled
      obtain ⟨hkeeps, hrest⟩ := hsafe.2 hcalled
      have hmeets := (hi.keeps_iff hcalled).mp hkeeps
      exact ⟨hmeets, (ih (hi.step hcalled hmeets)).mp hrest⟩
    · intro hmeets
      refine ⟨hi.sound, fun hcalled => ?_⟩
      obtain ⟨hop, hrest⟩ := hmeets hcalled
      exact ⟨(hi.keeps_iff hcalled).mpr hop, (ih (hi.step hcalled hop)).mpr hrest⟩

/-- The bytes that `Init` leaves out to align the memory. -/
def alignmentGap (align : Alignment) (gAotMemory : Nat) : Nat :=
  (gAotMemory + (align.bytes - 1)) / align.bytes * align.bytes - gAotMemory

theorem Inv.create (hgap : alignmentGap align gAotMemory < workspaceSize) (mem : RawMemory) :
    Inv align gAotMemory workspaceSize (create align gAotMemory workspaceSize mem) := by
  have hpos : 0 < align.bytes := Nat.two_pow_pos _
  have hmod := Nat.mod_add_div' (gAotMemory + (align.bytes - 1)) align.bytes
  have hlt := Nat.mod_lt (gAotMemory + (align.bytes - 1)) hpos
  refine ⟨rfl, Nat.le_add_right _ _, ?_⟩
  unfold alignmentGap at hgap
  show gAotMemory ≤ (gAotMemory + (align.bytes - 1)) / align.bytes * align.bytes ∧
    (gAotMemory + (align.bytes - 1)) / align.bytes * align.bytes + (workspaceSize -
      ((gAotMemory + (align.bytes - 1)) / align.bytes * align.bytes - gAotMemory)) ≤
    gAotMemory + workspaceSize
  omega

/-- The allocator is a checked stack in a run when no request fits without its tag only, and no
pointer that is freed is a multiple of `2 ^ 32` below the newest block. -/
theorem checked_stack_iff (align : Alignment) (gAotMemory workspaceSize : Nat)
    (hgap : alignmentGap align gAotMemory < workspaceSize) (mem : RawMemory) (ops : List Op) :
    (create align gAotMemory workspaceSize mem).SafeAlong align gAotMemory workspaceSize ops ↔
      (create align gAotMemory workspaceSize mem).MeetsAlong align ops :=
  (Inv.create hgap mem).safeAlong_iff ops

theorem checked_stack_one :
    (create defaultAlignment 3 40 fun _ => 0).SafeAlong defaultAlignment 3 40
        [.allocate 5 0, .write 18 7, .free 16] ↔
      (create defaultAlignment 3 40 fun _ => 0).MeetsAlong defaultAlignment
        [.allocate 5 0, .write 18 7, .free 16] :=
  checked_stack_iff defaultAlignment 3 40 (by decide) (fun _ => 0)
    [.allocate 5 0, .write 18 7, .free 16]

/-- In 17 aligned bytes the block of one byte fits and its tag does not: the request fails with the
pointer written. -/
theorem over_allocate_writes :
    alignmentGap defaultAlignment 16 < 17 ∧
      ¬ (create defaultAlignment 16 17 fun _ => 0).SafeAlong defaultAlignment 16 17
        [.allocate 1 0] := by
  refine ⟨by decide, fun hsafe => ?_⟩
  have hkeeps : (create defaultAlignment 16 17 fun _ => 0).Keeps defaultAlignment (.allocate 1 0) :=
    (hsafe.2 (by decide : 1 < 2 ^ 31)).1
  have hmeets := (allocate_keeps_iff 1 0).mp hkeeps
  cases hmeets with
  | inl hfits => exact hfits (by decide)
  | inr hsame => exact absurd hsame (by decide)

end StackHeap

end StencilGraph.Crt
