import Mathlib
import StencilGraph.Support.RingBufferCallbacks

namespace StencilGraph.Support
open Framework

namespace RingBuffer

variable {b b' : RingBuffer} {q data : List UInt8} {n size : Nat}

theorem Represents.contents_eq (h : b.Represents q) : b.contents = q := by
  apply List.ext_getElem?
  intro i
  unfold contents
  rw [List.getElem?_map, h.available]
  by_cases hi : i < q.length
  · rw [List.getElem?_range hi, Option.map_some, h.get i hi, List.getElem?_eq_getElem hi,
      Option.getD_some]
  · rw [List.getElem?_eq_none (by rw [List.length_range]; omega),
      List.getElem?_eq_none (by omega), Option.map_none]

/-- The bytes that the ring does not hold any more are those at the end. -/
theorem Represents.dropEnd (h : b.Represents q) (hn : n ≤ q.length) :
    Represents { b with bytesAvailable := b.bytesAvailable - n } (q.take (q.length - n)) := by
  have hlength : (q.take (q.length - n)).length = q.length - n := by
    rw [List.length_take]
    omega
  refine ⟨h.head, ?_, ?_, fun i hi => ?_⟩
  · rw [hlength, ← h.available]
  · rw [hlength]
    exact (Nat.sub_le _ _).trans h.fits
  · rw [hlength] at hi
    rw [List.getElem?_take_of_lt hi]
    exact h.get i (by omega)

theorem Represents.load_front (h : b.Represents q) (hn : n ≤ q.length)
    (hwrap : n ≤ b.ring.length - b.headPtr) : load b.ring b.headPtr n = some (q.take n) := by
  have hhead := h.head
  obtain ⟨part, hpart⟩ : ∃ part, load b.ring b.headPtr n = some part := ⟨_, load_eq_some (by omega)⟩
  rw [hpart]
  congr 1
  apply List.ext_getElem?
  intro i
  by_cases hi : i < n
  · rw [load_getElem? hpart hi, List.getElem?_take_of_lt hi, ← h.get i (by omega), slot,
      if_pos (by omega)]
  · rw [List.getElem?_eq_none (by rw [load_length hpart]; omega),
      List.getElem?_eq_none (by rw [List.length_take]; omega)]

theorem Represents.load_back (h : b.Represents q)
    (hn : b.ring.length - b.headPtr + n ≤ q.length) :
    load b.ring 0 n = some ((q.drop (b.ring.length - b.headPtr)).take n) := by
  have hhead := h.head
  have hfits := h.fits
  obtain ⟨part, hpart⟩ : ∃ part, load b.ring 0 n = some part := ⟨_, load_eq_some (by omega)⟩
  rw [hpart]
  congr 1
  apply List.ext_getElem?
  intro i
  by_cases hi : i < n
  · rw [load_getElem? hpart hi, List.getElem?_take_of_lt hi, List.getElem?_drop,
      ← h.get _ (by omega), slot, if_neg (by omega)]
    congr 1
    omega
  · rw [List.getElem?_eq_none (by rw [load_length hpart]; omega),
      List.getElem?_eq_none (by rw [List.length_take]; omega)]

/-- The callback takes the front of the queue, and the ring keeps the front of the queue. -/
theorem readWithCallback_spec (h : b.Represents q) {fsend : Nat → List UInt8 → Nat}
    {maxNbytes : Nat} (hsize : min maxNbytes b.bytesAvailable ≠ 0)
    (hfsend : ∀ k part, fsend k part ≤ part.length) :
    ∃ n b', b.readWithCallback fsend maxNbytes = some (q.take n, b') ∧ n ≤ q.length ∧
      b'.Represents (q.take (q.length - n)) := by
  have hhead := h.head
  have havailable := h.available
  unfold readWithCallback
  rw [if_neg hsize]
  generalize hncopy : min (min maxNbytes b.bytesAvailable) (b.ring.length - b.headPtr) = ncopy
  have hfront : load b.ring b.headPtr ncopy = some (q.take ncopy) := h.load_front (by omega) (by omega)
  have hsend := hfsend 0 (q.take ncopy)
  rw [List.length_take] at hsend
  simp only [hncopy, hfront, Option.bind_eq_bind, Option.bind_some]
  split_ifs with hmore
  · obtain ⟨hall, hlt⟩ := hmore
    have hroom : ncopy = b.ring.length - b.headPtr := by omega
    have hback : load b.ring 0 (min maxNbytes b.bytesAvailable - ncopy) =
        some ((q.drop ncopy).take (min maxNbytes b.bytesAvailable - ncopy)) := by
      rw [hroom]
      exact h.load_back (by omega)
    have hsend2 := hfsend 1 ((q.drop ncopy).take (min maxNbytes b.bytesAvailable - ncopy))
    rw [List.length_take, List.length_drop] at hsend2
    simp only [hback, Option.bind_some, ← hall]
    refine ⟨ncopy + fsend 1 ((q.drop ncopy).take (min maxNbytes b.bytesAvailable - ncopy)), _, ?_,
      by omega, h.dropEnd (by omega)⟩
    rw [List.take_add, List.take_take, List.take_take, Nat.min_self, Nat.min_eq_left (by omega),
      Nat.sub_sub]
  · refine ⟨fsend 0 (q.take ncopy), _, ?_, by omega, h.dropEnd (by omega)⟩
    rw [List.take_take, Nat.min_eq_left (by omega)]

theorem append_eq_wrapped (htail : b.ring.length ≤ b.headPtr + b.bytesAvailable) :
    b.append data = (store b.ring (b.headPtr + b.bytesAvailable - b.ring.length) data).map fun ring =>
      { b with ring := ring, bytesAvailable := b.bytesAvailable + data.length } := by
  unfold append
  simp only [ge_iff_le, htail, if_true, load_zero_length, Option.bind_eq_bind, Option.bind_some]
  cases store b.ring (b.headPtr + b.bytesAvailable - b.ring.length) data <;> rfl

theorem append_eq_straight (htail : b.headPtr + b.bytesAvailable < b.ring.length)
    (hfits : data.length ≤ b.ring.length - (b.headPtr + b.bytesAvailable)) :
    b.append data = (store b.ring (b.headPtr + b.bytesAvailable) data).map fun ring =>
      { b with ring := ring, bytesAvailable := b.bytesAvailable + data.length } := by
  unfold append
  have hncopy : min (b.ring.length - (b.headPtr + b.bytesAvailable)) data.length = data.length := by
    omega
  simp only [ge_iff_le, Nat.not_le.mpr htail, if_false, hncopy, load_zero_length,
    Option.bind_eq_bind, Option.bind_some, Nat.lt_irrefl]
  cases store b.ring (b.headPtr + b.bytesAvailable) data <;> rfl

theorem Steady.reserve (h : b.Steady n) : b.reserve n = some b := by
  unfold RingBuffer.reserve
  rw [if_neg h.1, if_neg h.2]

theorem Steady.le (h : b.Steady n) : n ≤ b.ring.length := Nat.le_of_not_lt h.1

theorem write_steady (h : b.Represents q) (hsteady : b.Steady (b.bytesAvailable + data.length)) :
    ∃ b', b.write data = some b' ∧ b'.Represents (q ++ data) := by
  have hle := hsteady.le
  rw [h.available] at hle
  obtain ⟨b', happend, h', -⟩ := append_spec h data hle
  refine ⟨b', ?_, h'⟩
  simp only [write, hsteady.reserve, Option.bind_eq_bind, Option.bind_some, happend]

/-- What the callback delivers is behind the queue. -/
theorem writeWithCallback_spec (h : b.Represents q) {frecv : Nat → Nat → List UInt8}
    {maxNbytes : Nat} (hsteady : b.Steady (b.bytesAvailable + maxNbytes))
    (hfrecv : ∀ k n, (frecv k n).length ≤ n) :
    ∃ data b', b.writeWithCallback frecv maxNbytes = some (data, b') ∧ b'.Represents (q ++ data) := by
  have hle := hsteady.le
  have hhead := h.head
  have havailable := h.available
  unfold writeWithCallback
  simp only [hsteady.reserve, Option.bind_eq_bind, Option.bind_some]
  by_cases htail : b.headPtr + b.bytesAvailable ≥ b.ring.length
  · rw [if_pos htail]
    have hrecv := hfrecv 0 maxNbytes
    obtain ⟨b', happend, h', -⟩ := append_spec h (frecv 0 maxNbytes) (by omega)
    rw [append_eq_wrapped htail] at happend
    obtain ⟨ring, hstore, hb'⟩ := Option.map_eq_some_iff.mp happend
    rw [← hb'] at h'
    rw [hstore]
    exact ⟨_, _, rfl, h'⟩
  · rw [if_neg htail]
    generalize hncopy : min (b.ring.length - (b.headPtr + b.bytesAvailable)) maxNbytes = ncopy
    have hrecv := hfrecv 0 ncopy
    obtain ⟨b', happend, h', hlength', hhead'⟩ := append_spec h (frecv 0 ncopy) (by omega)
    rw [append_eq_straight (by omega) (by omega)] at happend
    obtain ⟨ring, hstore, hb'⟩ := Option.map_eq_some_iff.mp happend
    rw [hstore, Option.bind_some]
    by_cases hmore : (frecv 0 ncopy).length = ncopy ∧ ncopy < maxNbytes
    · rw [if_pos hmore]
      -- the second call starts where the ring does
      have hrecv2 := hfrecv 1 (maxNbytes - ncopy)
      have havailable' := h'.available
      rw [List.length_append] at havailable'
      obtain ⟨b'', happend', h'', -⟩ := append_spec h' (frecv 1 (maxNbytes - ncopy))
        (by rw [List.length_append]; omega)
      rw [append_eq_wrapped (by omega)] at happend'
      have hzero : b'.headPtr + b'.bytesAvailable - b'.ring.length = 0 := by omega
      rw [hzero, ← hb'] at happend'
      obtain ⟨ring', hstore', hb''⟩ := Option.map_eq_some_iff.mp happend'
      rw [← hb'', List.append_assoc] at h''
      refine ⟨_, _, ?_, h''⟩
      rw [hstore', Option.bind_some]
    · rw [if_neg hmore]
      rw [← hb'] at h'
      exact ⟨_, _, rfl, h'⟩

end RingBuffer

namespace Traffic

variable {t t' : Traffic} {q data : List UInt8} {size : Nat}

theorem write_step (h : t.buffer.Represents q) (hcalled : t.Called (.write data)) :
    ∃ buffer, t.step (.write data) = some ⟨buffer, t.taken, t.given ++ data⟩ ∧
      buffer.Represents (q ++ data) := by
  obtain ⟨buffer, hwrite, h'⟩ := RingBuffer.write_steady h hcalled
  refine ⟨buffer, ?_, h'⟩
  simp only [step, hwrite, Option.bind_eq_bind, Option.bind_some]

theorem read_step (h : t.buffer.Represents q) (hsize : size ≤ t.buffer.bytesAvailable) :
    ∃ buffer, t.step (.read size) = some ⟨buffer, t.taken ++ q.take size, t.given⟩ ∧
      buffer.Represents (q.drop size) := by
  rw [h.available] at hsize
  obtain ⟨buffer, hread, h', -⟩ := RingBuffer.read_spec h (List.replicate size 0) hsize
    (List.length_replicate ..).ge
  have hdata : q.take size ++ (List.replicate size (0 : UInt8)).drop size = q.take size := by
    rw [List.drop_eq_nil_of_le (List.length_replicate ..).le, List.append_nil]
  refine ⟨buffer, ?_, h'⟩
  simp only [step, hread, hdata, Option.bind_eq_bind, Option.bind_some]

theorem writeWithCallback_step (h : t.buffer.Represents q) {frecv : Nat → Nat → List UInt8}
    {maxNbytes : Nat} (hcalled : t.Called (.writeWithCallback frecv maxNbytes)) :
    ∃ data buffer, t.step (.writeWithCallback frecv maxNbytes) =
      some ⟨buffer, t.taken, t.given ++ data⟩ ∧ buffer.Represents (q ++ data) := by
  obtain ⟨data, buffer, hwrite, h'⟩ := RingBuffer.writeWithCallback_spec h hcalled.1 hcalled.2
  refine ⟨data, buffer, ?_, h'⟩
  simp only [step, hwrite, Option.bind_eq_bind, Option.bind_some]

theorem readWithCallback_step (h : t.buffer.Represents q) {fsend : Nat → List UInt8 → Nat}
    {maxNbytes : Nat} (hcalled : t.Called (.readWithCallback fsend maxNbytes)) :
    ∃ n buffer, t.step (.readWithCallback fsend maxNbytes) =
        some ⟨buffer, t.taken ++ q.take n, t.given⟩ ∧
      buffer.Represents (q.take (q.length - n)) ∧
      (t.Meets (.readWithCallback fsend maxNbytes) ↔ q.drop n = q.take (q.length - n)) := by
  obtain ⟨n, buffer, hread, hn, h'⟩ := RingBuffer.readWithCallback_spec h hcalled.1 hcalled.2
  have hlength : (q.take n).length = n := by
    rw [List.length_take]
    omega
  refine ⟨n, buffer, ?_, h', ?_⟩
  · simp only [step, hread, Option.bind_eq_bind, Option.bind_some]
  · simp only [Meets, hread, h.contents_eq]
    constructor
    · intro hmeets
      have hsame := hmeets _ _ rfl
      rw [hlength] at hsame
      exact hsame
    · intro hsame data buffer' heq
      cases heq
      rw [hlength]
      exact hsame

/-- A `Read` of everything hands out the contents. -/
theorem faithful_iff (h : t.buffer.Represents q) : t.Faithful ↔ t.taken ++ q <+: t.given := by
  obtain ⟨buffer, hread, -⟩ := read_step h (Nat.le_refl _)
  rw [h.available, List.take_length] at hread
  unfold Faithful
  rw [h.available, hread]
  constructor
  · intro hfaithful
    obtain ⟨-, t', heq, hprefix⟩ := hfaithful
    rw [← Option.some.inj heq] at hprefix
    exact hprefix
  · intro hprefix
    exact ⟨(List.prefix_append _ _).trans hprefix, _, rfl, hprefix⟩

/-- The bytes that were given and not taken are in the ring. -/
structure Inv (t : Traffic) (q : List UInt8) : Prop where
  represents : t.buffer.Represents q
  given : t.given = t.taken ++ q

theorem Inv.faithful (hi : Inv t q) : t.Faithful := by
  rw [faithful_iff hi.represents, hi.given]

/-- A call goes through; it keeps the invariant if the condition is met, and loses bytes if not. -/
theorem Inv.step (hi : Inv t q) {op : Op} (hcalled : t.Called op) :
    ∃ t', t.step op = some t' ∧ (t.Meets op → ∃ q', Inv t' q') ∧ (t'.Faithful → t.Meets op) := by
  cases op with
  | write data =>
    obtain ⟨buffer, hstep, h'⟩ := write_step hi.represents hcalled
    refine ⟨_, hstep, fun _ => ⟨_, h', ?_⟩, fun _ => trivial⟩
    show t.given ++ data = _
    rw [hi.given, List.append_assoc]
  | read size =>
    obtain ⟨buffer, hstep, h'⟩ := read_step hi.represents hcalled
    refine ⟨_, hstep, fun _ => ⟨_, h', ?_⟩, fun _ => trivial⟩
    show t.given = t.taken ++ q.take size ++ q.drop size
    rw [hi.given, List.append_assoc, List.take_append_drop]
  | writeWithCallback frecv maxNbytes =>
    obtain ⟨data, buffer, hstep, h'⟩ := writeWithCallback_step hi.represents hcalled
    refine ⟨_, hstep, fun _ => ⟨_, h', ?_⟩, fun _ => trivial⟩
    show t.given ++ data = _
    rw [hi.given, List.append_assoc]
  | readWithCallback fsend maxNbytes =>
    obtain ⟨n, buffer, hstep, h', hmeets⟩ := readWithCallback_step hi.represents hcalled
    refine ⟨_, hstep, fun hop => ⟨_, h', ?_⟩, fun hfaithful => hmeets.mpr ?_⟩
    · show t.given = t.taken ++ q.take n ++ q.take (q.length - n)
      rw [hi.given, List.append_assoc, ← hmeets.mp hop, List.take_append_drop]
    · -- what is in the ring now would have to be the rest of the queue
      have hprefix := (faithful_iff h').mp hfaithful
      rw [hi.given, List.append_assoc, List.prefix_append_right_inj] at hprefix
      have hrest : q.take n ++ q.take (q.length - n) <+: q.take n ++ q.drop n := by
        rw [List.take_append_drop]
        exact hprefix
      rw [List.prefix_append_right_inj] at hrest
      apply (hrest.eq_of_length _).symm
      rw [List.length_take, List.length_drop]
      omega

theorem FaithfulAlong.faithful {ops : List Op} (h : t.FaithfulAlong ops) : t.Faithful := by
  cases ops with
  | nil => exact h
  | cons op ops => exact h.1

theorem Inv.faithfulAlong_iff (hi : Inv t q) (ops : List Op) :
    t.FaithfulAlong ops ↔ t.MeetsAlong ops := by
  induction ops generalizing t q with
  | nil => exact ⟨fun _ => trivial, fun _ => hi.faithful⟩
  | cons op ops ih =>
    constructor
    · intro hsafe hcalled
      obtain ⟨t', hstep, hkeeps, hloses⟩ := hi.step hcalled
      obtain ⟨t'', hstep', hrest⟩ := hsafe.2 hcalled
      rw [← Option.some.inj (hstep.symm.trans hstep')] at hrest
      have hmeets := hloses hrest.faithful
      obtain ⟨q', hi'⟩ := hkeeps hmeets
      refine ⟨hmeets, fun t'' hstep'' => ?_⟩
      rw [← Option.some.inj (hstep.symm.trans hstep'')]
      exact (ih hi').mp hrest
    · intro hmeets
      refine ⟨hi.faithful, fun hcalled => ?_⟩
      obtain ⟨t', hstep, hkeeps, -⟩ := hi.step hcalled
      obtain ⟨hop, hrest⟩ := hmeets hcalled
      obtain ⟨q', hi'⟩ := hkeeps hop
      exact ⟨t', hstep, (ih hi').mpr (hrest t' hstep)⟩

end Traffic

end StencilGraph.Support
