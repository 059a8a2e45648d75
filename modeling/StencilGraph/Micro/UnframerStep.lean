import StencilGraph.Micro.FramerWire

namespace StencilGraph.Micro

open Framework Escape

namespace Unframer

/-- How far the loop of `ConsumeInput` gets, whatever the input is. -/
structure Consumes (bufferSizeBytes : Nat) (buffer input : List UInt8) (stop : Stop) : Prop where
  suffix : ∃ raw, input = raw ++ stop.input
  extends_buffer : ∃ stored, stop.buffer = buffer ++ stored
  fits : stop.buffer.length ≤ bufferSizeBytes
  full_or_empty : stop.toReturn = .noError →
    stop.buffer.length = bufferSizeBytes ∨ stop.input = []
  progress : stop.toReturn = .noError → input ≠ [] → stop.input.length < input.length

theorem consumeInputLoop_consumes (n : Nat) (flag : Bool) (buffer input : List UInt8)
    (hroom : buffer.length < n) : Consumes n buffer input (consumeInputLoop n flag buffer input) := by
  induction input generalizing flag buffer with
  | nil => exact ⟨⟨[], rfl⟩, ⟨[], (List.append_nil buffer).symm⟩, hroom.le, fun _ => .inr rfl,
      fun _ h => absurd rfl h⟩
  | cons c input ih =>
    -- a step that goes on: the rest of the loop has the rest of the input
    have hgo (flag : Bool) (stored : List UInt8) (hroom : (buffer ++ stored).length < n) :
        Consumes n buffer (c :: input) (consumeInputLoop n flag (buffer ++ stored) input) := by
      have h := ih flag (buffer ++ stored) hroom
      obtain ⟨raw, hraw⟩ := h.suffix
      obtain ⟨more, hmore⟩ := h.extends_buffer
      refine ⟨⟨c :: raw, by rw [List.cons_append, ← hraw]⟩, ⟨stored ++ more, ?_⟩, h.fits,
        h.full_or_empty, fun _ _ => ?_⟩
      · rw [hmore, List.append_assoc]
      · have hlength := congrArg List.length hraw
        rw [List.length_append] at hlength
        rw [List.length_cons]
        omega
    rw [consumeInputLoop]
    cases byteAction flag c with
    | shortPacket => exact ⟨⟨[], rfl⟩, ⟨[], (List.append_nil buffer).symm⟩, hroom.le, nofun, nofun⟩
    | invalidEscape =>
      exact ⟨⟨[c], rfl⟩, ⟨[], (List.append_nil buffer).symm⟩, hroom.le, nofun, nofun⟩
    | skip flag =>
      have h := hgo flag [] (by rw [List.append_nil]; exact hroom)
      rw [List.append_nil] at h
      exact h
    | store =>
      simp only
      split_ifs with hfull
      · exact ⟨⟨[c], rfl⟩, ⟨[c], rfl⟩, hfull.le, fun _ => .inl hfull,
          fun _ _ => Nat.lt_succ_self _⟩
      · apply hgo
        rw [List.length_append, List.length_singleton] at hfull ⊢
        omega

end Unframer

namespace Unframing

variable {transport : Transport} {s s' s'' : Unframing} {made made' : List (Nat × StreamCall)}

/-- The calls made between two points of a `Write`, each at a place in between. -/
structure Advances (s s' : Unframing) (made : List (Nat × StreamCall)) : Prop where
  calls : s'.calls = s.calls ++ made
  history : s'.history = s.history
  rewound : s'.rewound = s.rewound
  suffix : ∃ raw, s.input = raw ++ s'.input
  place : ∀ call ∈ made, s'.input.length ≤ call.1 ∧ call.1 ≤ s.input.length
  nonempty : ∀ call ∈ made, call.2 ≠ .write []

theorem Advances.le (h : Advances s s' made) : s'.input.length ≤ s.input.length := by
  obtain ⟨raw, hraw⟩ := h.suffix
  rw [hraw, List.length_append]
  omega

theorem Advances.trans (h : Advances s s' made) (h' : Advances s' s'' made') :
    Advances s s'' (made ++ made') where
  calls := by rw [h'.calls, h.calls, List.append_assoc]
  history := h'.history.trans h.history
  rewound := h'.rewound.trans h.rewound
  suffix := by
    obtain ⟨raw, hraw⟩ := h.suffix
    obtain ⟨raw', hraw'⟩ := h'.suffix
    exact ⟨raw ++ raw', by rw [hraw, hraw', List.append_assoc]⟩
  place := by
    intro call hcall
    have hle := h.le
    have hle' := h'.le
    cases List.mem_append.mp hcall with
    | inl hcall => exact ⟨hle'.trans (h.place call hcall).1, (h.place call hcall).2⟩
    | inr hcall => exact ⟨(h'.place call hcall).1, (h'.place call hcall).2.trans hle⟩
  nonempty := by
    intro call hcall
    exact (List.mem_append.mp hcall).elim (h.nonempty call) (h'.nonempty call)

/-- Nothing is called on the stream. -/
theorem Advances.silent (hcalls : s'.calls = s.calls) (hhistory : s'.history = s.history)
    (hrewound : s'.rewound = s.rewound) (hsuffix : ∃ raw, s.input = raw ++ s'.input) :
    Advances s s' [] :=
  ⟨by rw [hcalls, List.append_nil], hhistory, hrewound, hsuffix, nofun, nofun⟩

theorem findPacketStartLoop_suffix (flag : Bool) (input : List UInt8) :
    ∃ raw, input = raw ++ (Unframer.findPacketStartLoop flag input).2.2 := by
  induction input generalizing flag with
  | nil => exact ⟨[], rfl⟩
  | cons c input ih =>
    rw [Unframer.findPacketStartLoop]
    split_ifs
    · obtain ⟨raw, hraw⟩ := ih true
      exact ⟨c :: raw, by rw [List.cons_append, ← hraw]⟩
    · exact ⟨[c], rfl⟩
    · obtain ⟨raw, hraw⟩ := ih false
      exact ⟨c :: raw, by rw [List.cons_append, ← hraw]⟩

theorem findPacketStartLoop_progress (flag : Bool) (input : List UInt8) (h : input ≠ []) :
    (Unframer.findPacketStartLoop flag input).2.2.length < input.length := by
  cases input with
  | nil => exact absurd rfl h
  | cons c input =>
    have hrest (flag : Bool) : (Unframer.findPacketStartLoop flag input).2.2.length ≤ input.length := by
      obtain ⟨raw, hraw⟩ := findPacketStartLoop_suffix flag input
      have hlength := congrArg List.length hraw
      rw [List.length_append] at hlength
      omega
    rw [Unframer.findPacketStartLoop, List.length_cons]
    split_ifs
    · exact Nat.lt_succ_of_le (hrest true)
    · exact Nat.lt_succ_self _
    · exact Nat.lt_succ_of_le (hrest false)

/-- Where the loop of `ConsumeInput` stops on the input at hand. -/
def stopAt (s : Unframing) (n : Nat) : Unframer.Stop :=
  Unframer.consumeInputLoop n s.unframer.sawEscapeStart s.unframer.buffer s.input

/-- The crc after `ConsumeInput`. -/
def crcAfter (transport : Transport) (s : Unframing) (n : Nat) (updateCrc : Bool) : UInt16 :=
  let crc := if (s.stopAt n).toReturn = .framingShortPacket then
      crc16Compute transport.updateCrcCcitt [kEscapeStart] none
    else s.unframer.crc
  if updateCrc then
    crc16Compute transport.updateCrcCcitt
      (s.input.take (s.input.length - (s.stopAt n).input.length)) (some crc)
  else crc

def afterConsume (transport : Transport) (s : Unframing) (n : Nat) (updateCrc : Bool) : Unframing :=
  { s with
    unframer := { s.unframer with
      sawEscapeStart := (s.stopAt n).sawEscapeStart
      buffer := (s.stopAt n).buffer
      crc := s.crcAfter transport n updateCrc }
    input := (s.stopAt n).input }

theorem addToBuffer_eq (n : Nat) (updateCrc : Bool) (hroom : s.unframer.buffer.length < n) :
    s.addToBuffer transport n updateCrc =
      some ((s.stopAt n).toReturn, s.afterConsume transport n updateCrc) := by
  unfold addToBuffer consumeInput Unframer.isBufferFull
  rw [if_neg (by rw [decide_eq_true_iff]; omega), if_pos hroom]
  rfl

theorem afterConsume_advances (n : Nat) (updateCrc : Bool) (hroom : s.unframer.buffer.length < n) :
    Advances s (s.afterConsume transport n updateCrc) [] :=
  .silent rfl rfl rfl (Unframer.consumeInputLoop_consumes n _ _ _ hroom).suffix

theorem crcAfter_eq {raw : List UInt8} (n : Nat) (hreturn : (s.stopAt n).toReturn = .noError)
    (hraw : s.input = raw ++ (s.stopAt n).input) :
    s.crcAfter transport n true =
      crc16Compute transport.updateCrcCcitt raw (some s.unframer.crc) := by
  have htake : s.input.take (s.input.length - (s.stopAt n).input.length) = raw := by
    have hlength := congrArg List.length hraw
    rw [List.length_append] at hlength
    rw [hlength, Nat.add_sub_cancel, hraw, List.take_left]
  unfold crcAfter
  simp only [hreturn, htake, reduceCtorEq, if_false, if_true]

theorem crcAfter_keep (n : Nat) (hreturn : (s.stopAt n).toReturn = .noError) :
    s.crcAfter transport n false = s.unframer.crc := by
  unfold crcAfter
  simp only [hreturn, reduceCtorEq, if_false, Bool.false_eq_true]

/-- What `FindPacketLength` does once the buffer is full. -/
def lengthRead (s : Unframing) : Unframing :=
  { s with unframer := { s.unframer with
    numPayloadBytesRemaining :=
      ofLittleEndian (s.unframer.buffer.take PacketFieldSizeBytes.kPayloadLength)
    buffer := []
    state := .findPacketCrc } }

theorem findPacketLength_eq (hroom : s.unframer.buffer.length < 4) :
    s.findPacketLength transport = some ((s.stopAt 4).toReturn,
      if (s.stopAt 4).toReturn = .noError ∧ (s.stopAt 4).buffer.length = 4 then
        (s.afterConsume transport 4 true).lengthRead
      else s.afterConsume transport 4 true) := by
  have hfits : (s.stopAt 4).buffer.length ≤ 4 :=
    (Unframer.consumeInputLoop_consumes 4 _ _ _ hroom).fits
  have hfull : (s.afterConsume transport 4 true).unframer.isBufferFull 4 =
      decide ((s.stopAt 4).buffer.length = 4) := by
    apply decide_eq_decide.mpr
    change 4 ≤ (s.stopAt 4).buffer.length ↔ _
    omega
  unfold findPacketLength
  simp only [PacketFieldSizeBytes.kPayloadLength, addToBuffer_eq 4 true hroom, hfull]
  by_cases hreturn : (s.stopAt 4).toReturn = .noError
  · by_cases h : (s.stopAt 4).buffer.length = 4
    · simp only [hreturn, h, ne_eq, not_true_eq_false, decide_true, if_false, and_self, if_true]
      rfl
    · simp only [hreturn, h, ne_eq, not_true_eq_false, decide_false, Bool.false_eq_true,
        not_false_eq_true, if_false, if_true, and_false]
  · simp only [hreturn, ne_eq, not_false_eq_true, if_true, false_and, if_false]

/-- What `FindCrcEnd` does once the buffer is full. -/
def crcRead (s : Unframing) : Unframing :=
  { s with
    unframer := { s.unframer with buffer := [], state := .findPacketStart }
    calls := s.calls ++ [(s.input.length, .packetDone (s.unframer.crc.toNat ==
      ofLittleEndian (s.unframer.buffer.take PacketFieldSizeBytes.kCrc)))] }

theorem findCrcEnd_eq (hroom : s.unframer.buffer.length < 2) :
    s.findCrcEnd transport = some ((s.stopAt 2).toReturn,
      if (s.stopAt 2).toReturn = .noError ∧ (s.stopAt 2).buffer.length = 2 then
        (s.afterConsume transport 2 false).crcRead
      else s.afterConsume transport 2 false) := by
  have hfits : (s.stopAt 2).buffer.length ≤ 2 :=
    (Unframer.consumeInputLoop_consumes 2 _ _ _ hroom).fits
  have hfull : (s.afterConsume transport 2 false).unframer.isBufferFull 2 =
      decide ((s.stopAt 2).buffer.length = 2) := by
    apply decide_eq_decide.mpr
    change 2 ≤ (s.stopAt 2).buffer.length ↔ _
    omega
  unfold findCrcEnd
  simp only [PacketFieldSizeBytes.kCrc, addToBuffer_eq 2 false hroom, hfull]
  by_cases hreturn : (s.stopAt 2).toReturn = .noError
  · by_cases h : (s.stopAt 2).buffer.length = 2
    · simp only [hreturn, h, ne_eq, not_true_eq_false, decide_true, if_false, and_self, if_true]
      rfl
    · simp only [hreturn, h, ne_eq, not_true_eq_false, decide_false, Bool.false_eq_true,
        not_false_eq_true, if_false, if_true, and_false]
  · simp only [hreturn, ne_eq, not_false_eq_true, if_true, false_and, if_false]

theorem lengthRead_advances (h : Advances s s' made) : Advances s s'.lengthRead made :=
  ⟨h.calls, h.history, h.rewound, h.suffix, h.place, h.nonempty⟩

theorem crcRead_advances (s : Unframing) :
    Advances s s.crcRead [(s.input.length, .packetDone (s.unframer.crc.toNat ==
      ofLittleEndian (s.unframer.buffer.take PacketFieldSizeBytes.kCrc)))] where
  calls := rfl
  history := rfl
  rewound := rfl
  suffix := ⟨[], rfl⟩
  place := by
    intro call hcall
    rw [List.mem_singleton.mp hcall]
    exact ⟨Nat.le_refl _, Nat.le_refl _⟩
  nonempty := by
    intro call hcall
    rw [List.mem_singleton.mp hcall]
    exact nofun

/-- A round of `FindPacketCrc` in which the stream accepts the buffer. -/
def payloadRound (transport : Transport) (s : Unframing) (n : Nat) : Unframing :=
  let t := s.afterConsume transport n true
  { t with
    unframer := { t.unframer with
      numPayloadBytesRemaining := t.unframer.numPayloadBytesRemaining - t.unframer.buffer.length
      buffer := [] }
    calls := t.calls ++ [(t.input.length, .write t.unframer.buffer)] }

theorem findPacketCrcLoop_eq (hstream : transport.stream.AcceptsEverything) (fuel n : Nat)
    (hbuffer : s.unframer.buffer = []) (hremaining : 0 < s.unframer.numPayloadBytesRemaining)
    (hn : n = min s.unframer.numPayloadBytesRemaining 128) :
    findPacketCrcLoop transport (fuel + 1) s =
      if (s.stopAt n).toReturn ≠ .noError then
        some ((s.stopAt n).toReturn, s.afterConsume transport n true)
      else if (s.stopAt n).buffer = [] then some (.noError, s.afterConsume transport n true)
      else findPacketCrcLoop transport fuel (s.payloadRound transport n) := by
  have hroom : s.unframer.buffer.length < n := by
    rw [hbuffer, List.length_nil]
    omega
  have hlength : s.unframer.buffer.length = (s.afterConsume transport n true).unframer.buffer.length ↔
      (s.stopAt n).buffer = [] := by
    rw [hbuffer, List.length_nil, eq_comm]
    exact List.length_eq_zero_iff
  rw [findPacketCrcLoop, if_neg hremaining.ne']
  simp only [Unframer.bufferSizeBytes, ← hn, addToBuffer_eq n true hroom, hlength,
    WriteStream.writeAll_accepted hstream, ne_eq, not_true_eq_false, if_false]
  by_cases hempty : (s.stopAt n).buffer = []
  · simp only [hempty, if_true]
  · have hwhole : wholeWrite (s.afterConsume transport n true).unframer.buffer =
        [.write (s.afterConsume transport n true).unframer.buffer] := if_neg hempty
    simp only [hempty, if_false, hwhole]
    rfl

theorem payloadRound_advances (n : Nat) (hroom : s.unframer.buffer.length < n)
    (hstored : (s.stopAt n).buffer ≠ []) :
    Advances s (s.payloadRound transport n)
      [((s.stopAt n).input.length, .write (s.stopAt n).buffer)] where
  calls := rfl
  history := rfl
  rewound := rfl
  suffix := (Unframer.consumeInputLoop_consumes n _ _ _ hroom).suffix
  place := by
    intro call hcall
    rw [List.mem_singleton.mp hcall]
    have hle : Advances s (s.afterConsume transport n true) [] := afterConsume_advances n true hroom
    exact ⟨Nat.le_refl _, hle.le⟩
  nonempty := by
    intro call hcall
    rw [List.mem_singleton.mp hcall]
    intro heq
    exact hstored (StreamCall.write.inj heq)

end Unframing

end StencilGraph.Micro
