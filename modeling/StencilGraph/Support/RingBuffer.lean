import StencilGraph.Framework.Double
import StencilGraph.Framework.Memcpy

namespace StencilGraph.Support
open Framework

/-- The capacity is the length of `ring`. Every `memcpy` is a `load` and a `store`, so an operation
is `none` when one of them would leave its buffer. -/
structure RingBuffer where
  headPtr : Nat
  bytesAvailable : Nat
  ring : List UInt8

namespace RingBuffer

def kInitCapacity : Nat := 4 <<< 10

def create : RingBuffer := ⟨0, 0, List.replicate kInitCapacity 0⟩

/-- `static_cast<size_t>(n * 1.2)`: the double 1.2 is 5404319552844595 / 2^52. -/
def grown (n : Nat) : Nat := roundDouble (roundDouble n * 5404319552844595) / 2 ^ 52

/-- `data` is the caller's buffer; its first `size` bytes are overwritten. -/
def read (b : RingBuffer) (data : List UInt8) (size : Nat) : Option (List UInt8 × RingBuffer) :=
  if b.bytesAvailable < size then none
  else do
    let ncopy := min size (b.ring.length - b.headPtr)
    let part ← load b.ring b.headPtr ncopy
    let data ← store data 0 part
    let data ← if ncopy < size then do
        let part ← load b.ring 0 (size - ncopy)
        store data ncopy part
      else some data
    some (data, { b with
      headPtr := (b.headPtr + size) % b.ring.length
      bytesAvailable := b.bytesAvailable - size })

/-- The existing bytes are moved to the head of the ring. -/
def moveToHead (b : RingBuffer) : Option RingBuffer :=
  if b.bytesAvailable ≠ 0 then do
    let oldBytes := b.bytesAvailable
    let (tmp, b) ← b.read (List.replicate oldBytes 0) oldBytes
    let ring ← store b.ring 0 tmp
    some { b with ring := ring, bytesAvailable := oldBytes }
  else some b

def reserve (b : RingBuffer) (n : Nat) : Option RingBuffer :=
  if b.ring.length < n then
    let oldSize := b.ring.length
    let ring := resize b.ring (grown n) 0
    if b.headPtr + b.bytesAvailable > oldSize then do
      let part ← load ring 0 (b.headPtr + b.bytesAvailable - oldSize)
      let ring ← store ring oldSize part
      some { b with ring := ring }
    else some { b with ring := ring }
  else if b.ring.length > n * 8 % 2 ^ 64 ∧ b.ring.length > kInitCapacity then do
    let b ← b.moveToHead
    let newSize := max (max kInitCapacity n) b.bytesAvailable
    some { b with ring := resize b.ring newSize 0, headPtr := 0 }
  else some b

/-- `Write` once the capacity is reserved. -/
def append (b : RingBuffer) (data : List UInt8) : Option RingBuffer := do
  let size := data.length
  let tail := b.headPtr + b.bytesAvailable
  let ring ← if tail ≥ b.ring.length then do
      let part ← load data 0 size
      store b.ring (tail - b.ring.length) part
    else do
      let ncopy := min (b.ring.length - tail) size
      let part ← load data 0 ncopy
      let ring ← store b.ring tail part
      if ncopy < size then do
        let part ← load data ncopy (size - ncopy)
        store ring 0 part
      else some ring
  some { b with ring := ring, bytesAvailable := b.bytesAvailable + size }

def write (b : RingBuffer) (data : List UInt8) : Option RingBuffer := do
  let b ← b.reserve (b.bytesAvailable + data.length)
  b.append data

/-- The position of the byte `i` places behind the head. -/
def slot (head capacity i : Nat) : Nat :=
  if head + i < capacity then head + i else head + i - capacity

/-- The ring holds the queue `q`. -/
structure Represents (b : RingBuffer) (q : List UInt8) : Prop where
  head : b.headPtr < b.ring.length
  available : b.bytesAvailable = q.length
  fits : q.length ≤ b.ring.length
  get : ∀ i < q.length, b.ring[slot b.headPtr b.ring.length i]? = q[i]?

variable {b b' : RingBuffer} {q data : List UInt8} {n size : Nat}

theorem le_grown (n : Nat) : n ≤ grown n := by
  have hlinear (rounded product : Nat) (h₁ : n * (2 ^ 53 - 1) ≤ rounded * 2 ^ 53)
      (h₂ : rounded * 5404319552844595 * (2 ^ 53 - 1) ≤ product * 2 ^ 53) : n * 2 ^ 52 ≤ product := by
    rw [Nat.mul_assoc] at h₂
    norm_num at h₁ h₂ ⊢
    linarith
  rw [grown, Nat.le_div_iff_mul_le (Nat.two_pow_pos 52)]
  exact hlinear _ _ (roundDouble_bounds _).1 (roundDouble_bounds _).1

theorem create_represents : Represents create [] := by
  refine ⟨?_, rfl, Nat.zero_le _, fun i hi => absurd hi (Nat.not_lt_zero i)⟩
  simp only [create, List.length_replicate, kInitCapacity]
  decide

theorem getElem?_take_append_drop (q data : List UInt8) (hsize : size ≤ q.length) (j : Nat) :
    (q.take size ++ data.drop size)[j]? = if j < size then q[j]? else data[j]? := by
  have hlen : (q.take size).length = size := by
    rw [List.length_take]
    omega
  split_ifs with hj
  · rw [List.getElem?_append_left (by omega), List.getElem?_take_of_lt hj]
  · rw [List.getElem?_append_right (by omega), hlen, List.getElem?_drop]
    congr 1
    omega

/-- The head moves over the bytes that were read. -/
theorem Represents.drop (h : b.Represents q) (hsize : size ≤ q.length) :
    Represents { b with
      headPtr := (b.headPtr + size) % b.ring.length
      bytesAvailable := b.bytesAvailable - size } (q.drop size) := by
  have hhead := h.head
  have hfits := h.fits
  have hmod : (b.headPtr + size) % b.ring.length = if b.headPtr + size < b.ring.length
      then b.headPtr + size else b.headPtr + size - b.ring.length := by
    split_ifs with hlt
    · exact Nat.mod_eq_of_lt hlt
    · rw [Nat.mod_eq_sub_mod (by omega), Nat.mod_eq_of_lt (by omega)]
  refine ⟨Nat.mod_lt _ (by omega), ?_, ?_, ?_⟩
  · rw [List.length_drop, ← h.available]
  · rw [List.length_drop]
    exact (Nat.sub_le _ _).trans hfits
  · intro i hi
    rw [List.length_drop] at hi
    rw [List.getElem?_drop, ← h.get (size + i) (by omega)]
    congr 1
    show slot ((b.headPtr + size) % b.ring.length) b.ring.length i = _
    rw [hmod]
    unfold slot
    split_ifs <;> omega

/-- `Read` hands out the front of the queue. -/
theorem read_spec (h : b.Represents q) (data : List UInt8) (hsize : size ≤ q.length)
    (hdata : size ≤ data.length) :
    ∃ b', b.read data size = some (q.take size ++ data.drop size, b') ∧
      b'.Represents (q.drop size) ∧ b'.ring = b.ring ∧
      b'.headPtr = (b.headPtr + size) % b.ring.length := by
  have hhead := h.head
  have hfits := h.fits
  have hget (i : Nat) (hi : i < size) := h.get i (by omega)
  refine ⟨_, ?_, h.drop hsize, rfl, rfl⟩
  unfold read
  rw [if_neg (by rw [h.available]; omega)]
  by_cases hwrap : b.headPtr + size ≤ b.ring.length
  · have hncopy : min size (b.ring.length - b.headPtr) = size := by omega
    obtain ⟨part, hpart⟩ : ∃ part, load b.ring b.headPtr size = some part :=
      ⟨_, load_eq_some hwrap⟩
    have hlen := load_length hpart
    obtain ⟨data', hdata'⟩ : ∃ data', store data 0 part = some data' :=
      ⟨_, store_eq_some (by omega)⟩
    have heq : data' = q.take size ++ data.drop size := by
      apply List.ext_getElem?
      intro j
      rw [store_getElem? hdata', getElem?_take_append_drop q data hsize, if_neg (Nat.not_lt_zero j),
        hlen, Nat.zero_add, Nat.sub_zero]
      split_ifs with hj
      · rw [load_getElem? hpart hj, ← hget j hj, slot, if_pos (by omega)]
      · rfl
    simp only [hncopy, hpart, Option.bind_eq_bind, Option.bind_some, hdata', Nat.lt_irrefl, if_false,
      heq]
  · have hncopy : min size (b.ring.length - b.headPtr) = b.ring.length - b.headPtr := by omega
    obtain ⟨front, hfront⟩ : ∃ part, load b.ring b.headPtr (b.ring.length - b.headPtr) = some part :=
      ⟨_, load_eq_some (by omega)⟩
    obtain ⟨back, hback⟩ : ∃ part, load b.ring 0 (size - (b.ring.length - b.headPtr)) = some part :=
      ⟨_, load_eq_some (by omega)⟩
    have hlenF := load_length hfront
    have hlenB := load_length hback
    obtain ⟨data₁, hdata₁⟩ : ∃ data', store data 0 front = some data' :=
      ⟨_, store_eq_some (by omega)⟩
    have hlen₁ := store_length hdata₁
    obtain ⟨data₂, hdata₂⟩ : ∃ data', store data₁ (b.ring.length - b.headPtr) back = some data' :=
      ⟨_, store_eq_some (by omega)⟩
    have heq : data₂ = q.take size ++ data.drop size := by
      apply List.ext_getElem?
      intro j
      rw [store_getElem? hdata₂, store_getElem? hdata₁, getElem?_take_append_drop q data hsize,
        if_neg (Nat.not_lt_zero j), hlenB, hlenF, Nat.zero_add, Nat.sub_zero]
      split_ifs with h₁ h₂ h₃ h₄
      · rw [load_getElem? hfront h₁, ← hget j h₂, slot, if_pos (by omega)]
      · omega
      · rw [load_getElem? hback (by omega), ← hget j h₄, slot, if_neg (by omega)]
        congr 1
        omega
      · omega
      · omega
      · rfl
    simp only [hncopy, hfront, hback, Option.bind_eq_bind, Option.bind_some, hdata₁, hdata₂, heq]
    rw [if_pos (by omega)]

/-- The room behind the tail takes `data`. -/
theorem append_spec (h : b.Represents q) (data : List UInt8)
    (hroom : q.length + data.length ≤ b.ring.length) :
    ∃ b', b.append data = some b' ∧ b'.Represents (q ++ data) ∧
      b'.ring.length = b.ring.length ∧ b'.headPtr = b.headPtr := by
  have hhead := h.head
  have hfits := h.fits
  -- it is enough that the new ring holds the queue and the data
  suffices hring : ∃ ring, (b.append data = some { b with
        ring := ring, bytesAvailable := b.bytesAvailable + data.length }) ∧
      ring.length = b.ring.length ∧
      ∀ i < q.length + data.length, ring[slot b.headPtr b.ring.length i]? =
        if i < q.length then b.ring[slot b.headPtr b.ring.length i]? else data[i - q.length]? by
    obtain ⟨ring, happend, hlen, hget⟩ := hring
    refine ⟨_, happend, ⟨?_, ?_, ?_, ?_⟩, hlen, rfl⟩
    · rw [hlen]
      exact hhead
    · rw [List.length_append, h.available]
    · rw [List.length_append, hlen]
      exact hroom
    · intro i hi
      rw [List.length_append] at hi
      rw [hlen, hget i hi, List.getElem?_append]
      split_ifs with hq
      · exact h.get i hq
      · rfl
  unfold append
  rw [h.available]
  by_cases htail : b.ring.length ≤ b.headPtr + q.length
  · obtain ⟨ring, hring⟩ : ∃ ring,
        store b.ring (b.headPtr + q.length - b.ring.length) data = some ring :=
      ⟨_, store_eq_some (by omega)⟩
    refine ⟨ring, ?_, store_length hring, ?_⟩
    · simp only [ge_iff_le, htail, if_true, load_zero_length, Option.bind_eq_bind, Option.bind_some,
        hring]
    · intro i hi
      rw [store_getElem? hring]
      unfold slot
      split_ifs <;> first | omega | rfl | (congr 1; omega)
  · by_cases hwrap : b.headPtr + q.length + data.length ≤ b.ring.length
    · have hncopy : min (b.ring.length - (b.headPtr + q.length)) data.length = data.length := by
        omega
      obtain ⟨ring, hring⟩ : ∃ ring, store b.ring (b.headPtr + q.length) data = some ring :=
        ⟨_, store_eq_some hwrap⟩
      refine ⟨ring, ?_, store_length hring, ?_⟩
      · simp only [ge_iff_le, htail, if_false, hncopy, load_zero_length, Option.bind_eq_bind,
          Option.bind_some, hring, Nat.lt_irrefl]
      · intro i hi
        rw [store_getElem? hring]
        unfold slot
        split_ifs <;> first | omega | rfl | (congr 1; omega)
    · have hncopy : min (b.ring.length - (b.headPtr + q.length)) data.length =
          b.ring.length - (b.headPtr + q.length) := by omega
      obtain ⟨front, hfront⟩ : ∃ part,
          load data 0 (b.ring.length - (b.headPtr + q.length)) = some part :=
        ⟨_, load_eq_some (by omega)⟩
      obtain ⟨back, hback⟩ : ∃ part, load data (b.ring.length - (b.headPtr + q.length))
          (data.length - (b.ring.length - (b.headPtr + q.length))) = some part :=
        ⟨_, load_eq_some (by omega)⟩
      have hlenF := load_length hfront
      have hlenB := load_length hback
      obtain ⟨ring₁, hring₁⟩ : ∃ ring, store b.ring (b.headPtr + q.length) front = some ring :=
        ⟨_, store_eq_some (by omega)⟩
      have hlen₁ := store_length hring₁
      obtain ⟨ring₂, hring₂⟩ : ∃ ring, store ring₁ 0 back = some ring :=
        ⟨_, store_eq_some (by omega)⟩
      refine ⟨ring₂, ?_, (store_length hring₂).trans hlen₁, ?_⟩
      · simp only [ge_iff_le, htail, if_false, hncopy, hfront, hback, Option.bind_eq_bind,
          Option.bind_some, hring₁, hring₂]
        rw [if_pos (by omega)]
      · intro i hi
        rw [store_getElem? hring₂, store_getElem? hring₁, hlenB, hlenF,
          if_neg (Nat.not_lt_zero _), Nat.zero_add, Nat.sub_zero]
        unfold slot
        split_ifs
        all_goals first
          | omega
          | rfl
          | (rw [load_getElem? hback (by omega)]; congr 1; omega)
          | (rw [load_getElem? hfront (by omega)]; congr 1; omega)

theorem moveToHead_spec (h : b.Represents q) :
    ∃ b', b.moveToHead = some b' ∧ b'.bytesAvailable = q.length ∧
      b'.ring.length = b.ring.length ∧ ∀ i < q.length, b'.ring[i]? = q[i]? := by
  unfold moveToHead
  rw [h.available]
  by_cases hempty : q.length = 0
  · rw [if_neg (not_not.mpr hempty)]
    refine ⟨b, rfl, h.available, rfl, fun i hi => ?_⟩
    omega
  · obtain ⟨b', hread, -, hring, -⟩ := read_spec h (List.replicate q.length 0)
      (Nat.le_refl _) (by simp)
    have htmp : q.take q.length ++ (List.replicate q.length 0).drop q.length = q := by simp
    rw [htmp] at hread
    obtain ⟨ring, hstore⟩ : ∃ ring, store b'.ring 0 q = some ring :=
      ⟨_, store_eq_some (by rw [hring]; have := h.fits; omega)⟩
    refine ⟨{ b' with ring := ring, bytesAvailable := q.length }, ?_, rfl, ?_, fun i hi => ?_⟩
    · rw [if_pos hempty]
      simp only [hread, Option.bind_eq_bind, Option.bind_some, hstore]
    · exact (store_length hstore).trans (congrArg _ hring)
    · show ring[i]? = _
      rw [store_getElem? hstore, if_neg (Nat.not_lt_zero i), if_pos (by omega), Nat.sub_zero]

/-- The ring need not grow, or its content lies without a break in the grown ring. -/
def GrowsInPlace (b : RingBuffer) (n : Nat) : Prop :=
  b.ring.length < n → b.headPtr + b.bytesAvailable ≤ max b.ring.length (grown n)

/-- The content of the old ring, unwrapped, in a ring of at least its extent. -/
theorem Represents.unwrapped {ring : List UInt8} (h : b.Represents q)
    (hhead : b.headPtr < ring.length) (hlen : b.headPtr + q.length ≤ ring.length)
    (hget : ∀ i < q.length, ring[b.headPtr + i]? = b.ring[slot b.headPtr b.ring.length i]?) :
    Represents { b with ring := ring } q := by
  refine ⟨hhead, h.available, by show q.length ≤ ring.length; omega, ?_⟩
  intro i hi
  show ring[slot b.headPtr ring.length i]? = _
  rw [slot, if_pos (by omega), hget i hi]
  exact h.get i hi

theorem reserve_grow (h : b.Represents q) (hn : b.ring.length < n) (hgrow : b.GrowsInPlace n) :
    ∃ b', b.reserve n = some b' ∧ b'.Represents q ∧ n ≤ b'.ring.length := by
  have hhead := h.head
  have hfits := h.fits
  have hle := le_grown n
  have hmax := hgrow hn
  rw [h.available] at hmax
  unfold reserve
  rw [if_pos hn, h.available]
  by_cases hwrap : b.headPtr + q.length > b.ring.length
  · obtain ⟨part, hpart⟩ : ∃ part, load (resize b.ring (grown n) 0) 0
        (b.headPtr + q.length - b.ring.length) = some part :=
      ⟨_, load_eq_some (by rw [resize_length]; omega)⟩
    have hlenP := load_length hpart
    obtain ⟨ring, hring⟩ : ∃ ring,
        store (resize b.ring (grown n) 0) b.ring.length part = some ring :=
      ⟨_, store_eq_some (by rw [resize_length]; omega)⟩
    have hlen := store_length hring
    rw [resize_length] at hlen
    refine ⟨{ b with ring := ring }, ?_, ?_, ?_⟩
    · simp only [hwrap, if_true, hpart, Option.bind_eq_bind, Option.bind_some, hring, h.available]
    · refine h.unwrapped (by omega) (by omega) fun i hi => ?_
      rw [store_getElem? hring, hlenP, slot]
      split_ifs with h₁ h₂
      · rw [resize_getElem? h₁ (by omega)]
      · rw [load_getElem? hpart (by omega), Nat.zero_add, resize_getElem? (by omega) (by omega)]
      · omega
    · show n ≤ ring.length
      omega
  · refine ⟨{ b with ring := resize b.ring (grown n) 0 }, ?_, ?_, ?_⟩
    · simp only [hwrap, if_false, h.available]
    · refine h.unwrapped (by rw [resize_length]; omega) (by rw [resize_length]; omega)
        fun i hi => ?_
      rw [resize_getElem? (by omega) (by omega), slot, if_pos (by omega)]
    · show n ≤ (resize b.ring (grown n) 0).length
      rw [resize_length]
      exact hle

theorem reserve_shrink (h : b.Represents q) (hn : ¬ b.ring.length < n) :
    ∃ b', b.reserve n = some b' ∧ b'.Represents q ∧ n ≤ b'.ring.length := by
  unfold reserve
  rw [if_neg hn]
  split_ifs with hshrink
  · obtain ⟨b', hmove, havail, hlen, hget⟩ := moveToHead_spec h
    have hfits := h.fits
    have hinit : 0 < kInitCapacity := by decide
    refine ⟨_, by simp only [hmove, Option.bind_eq_bind, Option.bind_some]; rfl, ?_, ?_⟩
    · refine ⟨?_, havail, ?_, ?_⟩
      · show 0 < (resize b'.ring (max (max kInitCapacity n) b'.bytesAvailable) 0).length
        rw [resize_length]
        omega
      · rw [resize_length, havail]
        omega
      · intro i hi
        show (resize b'.ring (max (max kInitCapacity n) b'.bytesAvailable) 0)[slot 0 _ i]? = _
        rw [resize_length, slot, if_pos (by omega), Nat.zero_add,
          resize_getElem? (by omega) (by omega)]
        exact hget i hi
    · rw [resize_length]
      omega
  · exact ⟨b, rfl, h, by omega⟩

/-- `Reserve` keeps the queue and reaches the capacity exactly when it can grow in place. -/
theorem reserve_spec (h : b.Represents q) (hgrow : b.GrowsInPlace n) :
    ∃ b', b.reserve n = some b' ∧ b'.Represents q ∧ n ≤ b'.ring.length := by
  by_cases hn : b.ring.length < n
  · exact reserve_grow h hn hgrow
  · exact reserve_shrink h hn

theorem reserve_eq_none (hgrow : ¬ b.GrowsInPlace n) : b.reserve n = none := by
  unfold GrowsInPlace at hgrow
  push Not at hgrow
  obtain ⟨hn, hlt⟩ := hgrow
  rw [max_lt_iff] at hlt
  unfold reserve
  rw [if_pos hn, if_pos hlt.1]
  cases hpart : load (resize b.ring (grown n) 0) 0
      (b.headPtr + b.bytesAvailable - b.ring.length) with
  | none => rfl
  | some part =>
    have hlenP := load_length hpart
    rw [Option.bind_eq_bind, Option.bind_some, store_eq_none (by rw [resize_length]; omega)]
    rfl

theorem write_spec (h : b.Represents q) (hgrow : b.GrowsInPlace (b.bytesAvailable + data.length)) :
    ∃ b', b.write data = some b' ∧ b'.Represents (q ++ data) := by
  obtain ⟨b₁, hreserve, h₁, hcap⟩ := reserve_spec h hgrow
  rw [h.available] at hcap
  obtain ⟨b₂, happend, h₂, -⟩ := append_spec h₁ data hcap
  refine ⟨b₂, ?_, h₂⟩
  simp only [write, hreserve, Option.bind_eq_bind, Option.bind_some, happend]

theorem write_eq_none (hgrow : ¬ b.GrowsInPlace (b.bytesAvailable + data.length)) :
    b.write data = none := by
  simp only [write, reserve_eq_none hgrow, Option.bind_eq_bind, Option.bind_none]

/-- The calls on a ring buffer; a `Read` brings the caller's buffer. -/
inductive Op where
  | write (data : List UInt8)
  | read (data : List UInt8) (size : Nat)
  | reserve (n : Nat)

/-- One call: the new state and the bytes that were read. -/
def step (b : RingBuffer) : Op → Option (RingBuffer × List UInt8)
  | .write data => do
    let b ← b.write data
    some (b, [])
  | .read data size => do
    let (data, b) ← b.read data size
    some (b, data.take size)
  | .reserve n => do
    let b ← b.reserve n
    some (b, [])

/-- A sequence of calls, with all bytes that were read. -/
def run (b : RingBuffer) : List Op → Option (RingBuffer × List UInt8)
  | [] => some (b, [])
  | op :: ops => do
    let (b, out) ← b.step op
    let (b, rest) ← b.run ops
    some (b, out ++ rest)

def written : List Op → List UInt8
  | [] => []
  | .write data :: ops => data ++ written ops
  | .read _ _ :: ops => written ops
  | .reserve _ :: ops => written ops

/-- Every `Read` asks for bytes that are available, with a buffer that takes them. -/
def Admissible (available : Nat) : List Op → Prop
  | [] => True
  | .write data :: ops => Admissible (available + data.length) ops
  | .read data size :: ops =>
    size ≤ available ∧ size ≤ data.length ∧ Admissible (available - size) ops
  | .reserve _ :: ops => Admissible available ops

def Meets (b : RingBuffer) : Op → Prop
  | .write data => b.GrowsInPlace (b.bytesAvailable + data.length)
  | .read _ _ => True
  | .reserve n => b.GrowsInPlace n

/-- In every state of the run the next call grows the ring in place, if it grows it. -/
def RunMeets (b : RingBuffer) : List Op → Prop
  | [] => True
  | op :: ops => b.Meets op ∧ ∀ b' out, b.step op = some (b', out) → b'.RunMeets ops

/-- The bytes read are the front of the queue of all bytes written so far, and the rest is there. -/
def Fifo (result : Option (RingBuffer × List UInt8)) (input : List UInt8) : Prop :=
  ∃ b out, result = some (b, out) ∧ out <+: input ∧
    b.bytesAvailable + out.length = input.length

/-- A run that meets the condition hands out the queue in order. -/
theorem run_represents {ops : List Op} (h : b.Represents q) (hops : Admissible q.length ops)
    (hmeets : b.RunMeets ops) :
    ∃ b' out q', b.run ops = some (b', out) ∧ b'.Represents q' ∧ q ++ written ops = out ++ q' := by
  induction ops generalizing b q with
  | nil => exact ⟨b, [], q, rfl, h, by simp [written]⟩
  | cons op ops ih =>
    obtain ⟨hop, hrest⟩ := hmeets
    cases op with
    | write data =>
      obtain ⟨b₁, hwrite, h₁⟩ := write_spec h hop
      have hstep : b.step (.write data) = some (b₁, []) := by
        simp only [step, hwrite, Option.bind_eq_bind, Option.bind_some]
      obtain ⟨b', out, q', hrun, h', heq⟩ := ih h₁ (by rw [List.length_append]; exact hops)
        (hrest _ _ hstep)
      refine ⟨b', out, q', ?_, h', ?_⟩
      · simp only [run, hstep, hrun, Option.bind_eq_bind, Option.bind_some, List.nil_append]
      · rw [← heq, written, List.append_assoc]
    | read data size =>
      obtain ⟨hsize, hdata, hops⟩ := hops
      obtain ⟨b₁, hread, h₁, -⟩ := read_spec h data hsize hdata
      have htake : (q.take size ++ data.drop size).take size = q.take size := by
        rw [List.take_append_of_le_length (by rw [List.length_take]; omega), List.take_take,
          Nat.min_self]
      have hstep : b.step (.read data size) = some (b₁, q.take size) := by
        simp only [step, hread, Option.bind_eq_bind, Option.bind_some, htake]
      obtain ⟨b', out, q', hrun, h', heq⟩ := ih h₁ (by rw [List.length_drop]; exact hops)
        (hrest _ _ hstep)
      refine ⟨b', q.take size ++ out, q', ?_, h', ?_⟩
      · simp only [run, hstep, hrun, Option.bind_eq_bind, Option.bind_some]
      · rw [List.append_assoc, ← heq, written, ← List.append_assoc, List.take_append_drop]
    | reserve n =>
      obtain ⟨b₁, hreserve, h₁, -⟩ := reserve_spec h hop
      have hstep : b.step (.reserve n) = some (b₁, []) := by
        simp only [step, hreserve, Option.bind_eq_bind, Option.bind_some]
      obtain ⟨b', out, q', hrun, h', heq⟩ := ih h₁ hops (hrest _ _ hstep)
      refine ⟨b', out, q', ?_, h', heq⟩
      simp only [run, hstep, hrun, Option.bind_eq_bind, Option.bind_some, List.nil_append]

/-- A call that does not meet the condition leaves the ring. -/
theorem step_eq_none {op : Op} (h : ¬ b.Meets op) : b.step op = none := by
  cases op with
  | write data => simp only [step, write_eq_none h, Option.bind_eq_bind, Option.bind_none]
  | read data size => exact absurd trivial h
  | reserve n => simp only [step, reserve_eq_none h, Option.bind_eq_bind, Option.bind_none]

theorem runMeets_of_run {ops : List Op} {result : RingBuffer × List UInt8}
    (h : b.run ops = some result) : b.RunMeets ops := by
  induction ops generalizing b result with
  | nil => trivial
  | cons op ops ih =>
    constructor
    · by_contra hmeets
      simp [run, step_eq_none hmeets] at h
    · intro b' out hstep
      cases hrun : b'.run ops with
      | none => simp [run, hstep, hrun] at h
      | some result' => exact ih hrun

/-- Once 4000 bytes are written and read, another 4000 wrap; 200 more grow the ring to 5040 bytes,
where the wrapped part would end at 8000. -/
def overrun : List Op :=
  [.write (List.replicate 4000 1), .read (List.replicate 4000 0) 4000,
    .write (List.replicate 4000 2), .write (List.replicate 200 3)]

/-- A write into a ring of the initial capacity that has room for it. -/
theorem write_in_place (h : b.Represents q) (data : List UInt8)
    (hcap : b.ring.length = kInitCapacity) (hroom : q.length + data.length ≤ kInitCapacity) :
    ∃ b', b.write data = some b' ∧ b'.Represents (q ++ data) ∧
      b'.ring.length = kInitCapacity ∧ b'.headPtr = b.headPtr := by
  obtain ⟨b', happend, h', hlen, hhead⟩ := append_spec h data (by omega)
  refine ⟨b', ?_, h', hlen.trans hcap, hhead⟩
  have hreserve : b.reserve (b.bytesAvailable + data.length) = some b := by
    unfold reserve
    rw [h.available, if_neg (by omega), if_neg (by omega)]
  simp only [write, hreserve, Option.bind_eq_bind, Option.bind_some, happend]

theorem run_overrun (x y z buffer : List UInt8) (hx : x.length = 4000) (hy : y.length = 4000)
    (hz : z.length = 200) (hbuffer : buffer.length = 4000) :
    create.run [.write x, .read buffer 4000, .write y, .write z] = none := by
  have hcap : kInitCapacity = 4096 := by decide
  obtain ⟨b₁, hwrite₁, h₁, hlen₁, hhead₁⟩ := write_in_place create_represents x
    (List.length_replicate ..) (by rw [List.length_nil]; omega)
  obtain ⟨b₂, hread₂, h₂, hring₂, hhead₂⟩ := read_spec h₁ buffer
    (by rw [List.nil_append, hx]) (by rw [hbuffer])
  rw [List.nil_append, ← hx, List.drop_length] at h₂
  obtain ⟨b₃, hwrite₃, h₃, hlen₃, hhead₃⟩ := write_in_place h₂ y
    (by rw [hring₂, hlen₁]) (by rw [List.length_nil]; omega)
  have hhead : b₃.headPtr = 4000 := by
    rw [hhead₃, hhead₂, hhead₁, hlen₁]
    decide
  have hnone : b₃.write z = none := by
    apply write_eq_none
    intro hgrow
    have hgrown : grown 4200 = 5040 := by decide
    rw [GrowsInPlace, h₃.available, List.nil_append, hy, hlen₃, hhead, hz, hcap, hgrown] at hgrow
    omega
  simp only [run, step, hwrite₁, hread₂, hwrite₃, hnone, Option.bind_eq_bind, Option.bind_some,
    Option.bind_none]

end RingBuffer

end StencilGraph.Support
