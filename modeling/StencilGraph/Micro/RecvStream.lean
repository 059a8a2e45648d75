import StencilGraph.Micro.Recv

namespace StencilGraph.Micro

/-- The chunks left once `n` bytes of the first one are taken. -/
def takeChunk (n : Nat) : List (List UInt8) → List (List UInt8)
  | [] => []
  | m :: ms => if n = m.length then ms else m.drop n :: ms

/-- No read that has enough bytes reaches behind the first message that has bytes left. -/
def Within : List (List UInt8) → List Nat → Prop
  | _, [] => True
  | chunks, n :: sizes => n ≤ chunks.flatten.length →
    n ≤ (chunks.headD []).length ∧ Within (takeChunk n chunks) sizes

theorem takeChunk_flatten {n : Nat} {chunks : List (List UInt8)} (hn : n ≤ (chunks.headD []).length) :
    (takeChunk n chunks).flatten = chunks.flatten.drop n := by
  cases chunks with
  | nil => simp [takeChunk]
  | cons m ms =>
    have hm : n ≤ m.length := hn
    rw [takeChunk, List.flatten_cons, List.drop_append_of_le_length hm]
    split_ifs with heq
    · rw [heq, List.drop_length, List.nil_append]
    · rw [List.flatten_cons]

theorem Memory.copy_fresh (size : Nat) (bytes : List UInt8) (h : bytes.length = size) :
    Memory.copy (List.replicate size none) bytes = bytes.map some := by
  rw [Memory.copy, List.drop_of_length_le (by simp [h]), List.append_nil]

/-- A byte behind the copied ones stays as it was. -/
theorem Memory.copy_behind {data : Memory} {bytes : List UInt8} {i : Nat} (h : bytes.length ≤ i) :
    (data.copy bytes)[i]? = data[i]? := by
  rw [Memory.copy, List.getElem?_append_right (by simpa using h), List.getElem?_drop,
    List.length_map]
  congr 1
  omega

namespace MicroTransportChannel

variable {s : MicroTransportChannel} {n size : Nat}

/-- The messages to come have a payload, and the message at hand is not read to its end. -/
structure Nonempty (s : MicroTransportChannel) : Prop where
  held : ∀ buf, s.messageBuffer = some buf → buf.readCursor < buf.data.length
  arriving : ∀ m ∈ s.arriving, m.body ≠ []

theorem chunk_ne_nil {m : List UInt8} (hs : s.Nonempty) (hm : m ∈ s.chunks) : m ≠ [] := by
  cases List.mem_append.mp hm with
  | inl hheld =>
    cases hbuffer : s.messageBuffer with
    | none => simp [hbuffer] at hheld
    | some buf =>
      have hcursor := hs.held buf hbuffer
      have heq : m = buf.data.drop buf.readCursor := by simpa [hbuffer] using hheld
      rw [heq]
      intro hnil
      have := List.drop_eq_nil_iff.mp hnil
      omega
  | inr harriving =>
    obtain ⟨m', hm', heq⟩ := List.mem_map.mp harriving
    rw [← heq]
    exact hs.arriving m' hm'

theorem bytes_drop (m : Message) : m.bytes.drop kHeaderBytes = m.body := rfl

theorem receiveUntil_chunks {t : MicroTransportChannel} (hs : s.Nonempty)
    (h : s.receiveUntil = some t) :
    t.Nonempty ∧ t.chunks = s.chunks ∧ ∃ buf, t.messageBuffer = some buf := by
  unfold receiveUntil at h
  cases hheld : s.messageBuffer with
  | some buf => simp [hheld] at h
  | none =>
    cases harriving : s.arriving with
    | nil => simp [hheld, harriving] at h
    | cons m ms =>
      rw [hheld, harriving] at h
      have ht := Option.some.inj h
      have hm : m.body ≠ [] := hs.arriving m (by simp [harriving])
      rw [← ht]
      refine ⟨⟨?_, ?_⟩, ?_, _, rfl⟩
      · intro buf hbuf
        rw [← Option.some.inj hbuf]
        have hpos : 0 < m.body.length := List.length_pos_of_ne_nil hm
        show kHeaderBytes < (m.header.bytes ++ m.body).length
        rw [List.length_append]
        show 3 < 3 + m.body.length
        omega
      · intro m' hm'
        exact hs.arriving m' (by rw [harriving]; exact List.mem_cons_of_mem _ hm')
      · show [m.bytes.drop kHeaderBytes] ++ ms.map Message.body = _
        rw [bytes_drop, chunks, hheld, harriving]
        rfl

/-- A read within the message at hand. -/
theorem readMessage_spec {buf : FrameBuffer} (hs : s.Nonempty) (hheld : s.messageBuffer = some buf)
    (hn : n ≤ (buf.data.drop buf.readCursor).length) :
    (s.readMessage buf n).1 = s.unread.take n ∧ (s.readMessage buf n).2.Nonempty ∧
      (s.readMessage buf n).2.chunks = takeChunk n s.chunks := by
  have hcursor := hs.held buf hheld
  rw [List.length_drop] at hn
  have hchunks : s.chunks = buf.data.drop buf.readCursor :: s.arriving.map Message.body := by
    rw [chunks, hheld]
    rfl
  have hmin : min n (buf.data.length - buf.readCursor) = n := by omega
  constructor
  · show (buf.data.drop buf.readCursor).take (min n (buf.data.length - buf.readCursor)) = _
    rw [hmin, unread, hchunks, List.flatten_cons, List.take_append_of_le_length (by simpa using hn)]
  · have hread : (s.readMessage buf n).2 = { s with messageBuffer :=
        (if buf.data.length - (buf.readCursor + n) = 0 then none
        else some { buf with readCursor := buf.readCursor + n }) } := by
      unfold readMessage FrameBuffer.read FrameBuffer.readAvailable
      simp only [hmin]
    rw [hread, hchunks, takeChunk]
    by_cases hend : buf.data.length - (buf.readCursor + n) = 0
    · rw [if_pos hend, if_pos (by rw [List.length_drop]; omega)]
      refine ⟨⟨?_, hs.arriving⟩, rfl⟩
      intro buf' hbuf'
      cases hbuf'
    · rw [if_neg hend, if_neg (by rw [List.length_drop]; omega), List.drop_drop]
      refine ⟨⟨?_, hs.arriving⟩, rfl⟩
      intro buf' hbuf'
      rw [← Option.some.inj hbuf']
      show buf.readCursor + n < buf.data.length
      omega

theorem recvLoop_held (fuel : Nat) {buf : FrameBuffer} (hs : s.Nonempty)
    (hheld : s.messageBuffer = some buf) (hn : n ≤ (s.chunks.headD []).length) (hpos : 0 < n) :
    ∃ s', recvLoop n (fuel + 1) 0 (List.replicate n none) s =
        some (n, (s.unread.take n).map some, s') ∧ s'.Nonempty ∧ s'.chunks = takeChunk n s.chunks := by
  have hfirst : s.chunks.headD [] = buf.data.drop buf.readCursor := by
    rw [chunks, hheld]
    rfl
  rw [hfirst] at hn
  obtain ⟨hbytes, hs', hchunks⟩ := readMessage_spec hs hheld hn
  have hlength : (s.readMessage buf n).1.length = n := by
    rw [hbytes, List.length_take, unread, chunks, hheld]
    simp only [Option.map_some, Option.toList_some, List.singleton_append, List.flatten_cons,
      List.length_append]
    omega
  refine ⟨(s.readMessage buf n).2, ?_, hs', hchunks⟩
  rw [recvLoop, if_pos hpos, hheld]
  simp only [hlength, Nat.zero_add, if_true]
  rw [Memory.copy_fresh n _ hlength, hbytes]

/-- A read within the first message that has bytes left. -/
theorem recv_within (hs : s.Nonempty) (hn : n ≤ (s.chunks.headD []).length) :
    ∃ s', s.recv n = some (n, (s.unread.take n).map some, s') ∧ s'.Nonempty ∧
      s'.chunks = takeChunk n s.chunks := by
  by_cases hzero : n = 0
  · subst hzero
    refine ⟨s, ?_, hs, ?_⟩
    · rw [recv, recvLoop, if_neg (Nat.lt_irrefl 0)]
      rfl
    · cases hchunks : s.chunks with
      | nil => rfl
      | cons m ms =>
        have hm : m.length ≠ 0 := by
          intro hlength
          exact chunk_ne_nil hs (by simp [hchunks]) (List.eq_nil_of_length_eq_zero hlength)
        rw [takeChunk, if_neg (Ne.symm hm), List.drop_zero]
  · have hpos : 0 < n := by omega
    cases hheld : s.messageBuffer with
    | some buf => exact recvLoop_held _ hs hheld hn hpos
    | none =>
      cases harriving : s.arriving with
      | nil =>
        rw [chunks, hheld, harriving] at hn
        have hle : n ≤ 0 := hn
        omega
      | cons m ms =>
        have hreceive : s.receiveUntil =
            some ({ s with arriving := ms }.handleMessageReceived m) := by
          rw [receiveUntil, hheld, harriving]
        obtain ⟨ht, hchunks, buf, hbuf⟩ := receiveUntil_chunks hs hreceive
        rw [← hchunks] at hn
        obtain ⟨s', hrun, hs', hafter⟩ := recvLoop_held ms.length ht hbuf hn hpos
        refine ⟨s', ?_, hs', ?_⟩
        · rw [recv, harriving, List.length_cons, recvLoop, if_pos hpos, hheld]
          simp only [hreceive]
          rw [hrun, unread, unread, hchunks]
        · rw [hafter, hchunks]

/-- Inside a loop for `n` bytes: too many bytes are counted, or the last byte is unwritten and the
next read ends before it or does not start at the first byte. -/
def Behind (n numBytesRecv : Nat) (data : Memory) (s : MicroTransportChannel) : Prop :=
  n < numBytesRecv ∨ data[n - 1]? = some none ∧
    (0 < numBytesRecv ∨ s.Nonempty ∧ (s.chunks.headD []).length < n)

theorem Behind.receiveUntil {numBytesRecv : Nat} {data : Memory} {t : MicroTransportChannel}
    (h : Behind n numBytesRecv data s) (hreceive : s.receiveUntil = some t) :
    Behind n numBytesRecv data t := by
  cases h with
  | inl hpast => exact Or.inl hpast
  | inr hlast =>
    refine Or.inr ⟨hlast.1, ?_⟩
    cases hlast.2 with
    | inl hpos => exact Or.inl hpos
    | inr hfirst =>
      obtain ⟨ht, hchunks, -⟩ := receiveUntil_chunks hfirst.1 hreceive
      rw [← hchunks] at hfirst
      exact Or.inr ⟨ht, hfirst.2⟩

/-- Reading again at the start of the memory leaves its last byte unwritten, or counts too much. -/
theorem Behind.readMessage {numBytesRecv : Nat} {data : Memory} {buf : FrameBuffer}
    (h : Behind n numBytesRecv data s) (hheld : s.messageBuffer = some buf) (hn : numBytesRecv < n) :
    Behind n (numBytesRecv + (s.readMessage buf n).1.length)
      (data.copy (s.readMessage buf n).1) (s.readMessage buf n).2 := by
  have hlength : (s.readMessage buf n).1.length =
      min n (buf.data.length - buf.readCursor) := by
    show ((buf.data.drop buf.readCursor).take _).length = _
    rw [List.length_take, List.length_drop]
    omega
  cases h with
  | inl hpast => omega
  | inr hlast =>
    by_cases hall : n ≤ buf.data.length - buf.readCursor
    · have hpos : 0 < numBytesRecv := by
        cases hlast.2 with
        | inl hpos => exact hpos
        | inr hfirst =>
          have hshort := hfirst.2
          rw [chunks, hheld] at hshort
          have hlt : (buf.data.drop buf.readCursor).length < n := hshort
          rw [List.length_drop] at hlt
          omega
      apply Or.inl
      omega
    · apply Or.inr
      constructor
      · rw [Memory.copy_behind (by omega)]
        exact hlast.1
      · apply Or.inl
        cases hlast.2 with
        | inl hpos => omega
        | inr hfirst =>
          have hcursor := hfirst.1.held buf hheld
          omega

theorem recvLoop_behind {fuel numBytesRecv k : Nat} {data written : Memory}
    {s' : MicroTransportChannel} (h : Behind n numBytesRecv data s)
    (hrun : recvLoop n fuel numBytesRecv data s = some (k, written, s')) :
    n < k ∨ written[n - 1]? = some none := by
  induction fuel generalizing numBytesRecv data s with
  | zero => cases hrun
  | succ fuel ih =>
    rw [recvLoop] at hrun
    split at hrun
    next hlt =>
      cases hheld : s.messageBuffer with
      | none =>
        rw [hheld] at hrun
        cases hreceive : s.receiveUntil with
        | none => simp [hreceive] at hrun
        | some t =>
          simp only [hreceive] at hrun
          exact ih (h.receiveUntil hreceive) hrun
      | some buf =>
        rw [hheld] at hrun
        have hread := h.readMessage hheld hlt
        simp only at hrun
        split at hrun
        next heq =>
          have hend := Prod.mk.inj (Option.some.inj hrun)
          have hmem := Prod.mk.inj hend.2
          rw [← hend.1, ← hmem.1]
          cases hread with
          | inl hpast => exact Or.inl hpast
          | inr hlast => exact Or.inr hlast.1
        next =>
          cases hreceive : (s.readMessage buf n).2.receiveUntil with
          | none => simp [hreceive] at hrun
          | some t =>
            simp only [hreceive] at hrun
            exact ih (hread.receiveUntil hreceive) hrun
    next =>
      have hend := Prod.mk.inj (Option.some.inj hrun)
      have hmem := Prod.mk.inj hend.2
      rw [← hend.1, ← hmem.1]
      cases h with
      | inl hpast => exact Or.inl hpast
      | inr hlast => exact Or.inr hlast.1

/-- A read that spans two messages does not return its size with the memory filled. -/
theorem recv_across {bytes : List UInt8} {s' : MicroTransportChannel} (hs : s.Nonempty)
    (hn : (s.chunks.headD []).length < n) (hbytes : bytes.length = n) :
    s.recv n ≠ some (n, bytes.map some, s') := by
  intro hrun
  have hstart : Behind n 0 (List.replicate n none) s := by
    refine Or.inr ⟨?_, Or.inr ⟨hs, hn⟩⟩
    rw [List.getElem?_replicate, if_pos (by omega)]
  cases recvLoop_behind hstart hrun with
  | inl hpast => omega
  | inr hlast =>
    rw [List.getElem?_map, List.getElem?_eq_getElem (by omega)] at hlast
    cases hlast

theorem streams_iff_within (hs : s.Nonempty) (sizes : List Nat) :
    s.Streams sizes ↔ Within s.chunks sizes := by
  induction sizes generalizing s with
  | nil => exact Iff.rfl
  | cons n sizes ih =>
    constructor
    · intro h henough
      obtain ⟨s', hrun, -, hrest⟩ := h henough
      by_cases hn : n ≤ (s.chunks.headD []).length
      · obtain ⟨t, hrun', ht, hchunks⟩ := recv_within hs hn
        have heq : t = s' := by
          rw [hrun] at hrun'
          exact ((Prod.mk.inj (Prod.mk.inj (Option.some.inj hrun')).2).2).symm
        rw [← hchunks, heq]
        exact ⟨hn, (ih (heq ▸ ht)).mp hrest⟩
      · have hlength : (s.unread.take n).length = n := by
          rw [List.length_take]
          exact Nat.min_eq_left henough
        exact absurd hrun (recv_across hs (by omega) hlength)
    · intro h henough
      obtain ⟨hn, hrest⟩ := h henough
      obtain ⟨t, hrun, ht, hchunks⟩ := recv_within hs hn
      refine ⟨t, hrun, ?_, ?_⟩
      · rw [unread, hchunks, takeChunk_flatten hn, unread]
      · rw [ih ht, hchunks]
        exact hrest

/-- A normal message with one byte. -/
def normal (b : UInt8) : Message := ⟨⟨3, MessageType.kNormal⟩, [b]⟩

end MicroTransportChannel

end StencilGraph.Micro
