import StencilGraph.Micro.Framing

namespace StencilGraph.Micro

open Framework Escape

/-- The bytes a stream has accepted when it accepts everything. -/
def StreamCall.bytes : StreamCall → List UInt8
  | .write data => data
  | .packetDone _ => []

def escapeByte (c : UInt8) : List UInt8 :=
  if c = kEscapeStart then [kEscapeStart, kEscapeStart] else [c]

def escapeBytes (data : List UInt8) : List UInt8 := data.flatMap escapeByte

@[simp] theorem escapeBytes_nil : escapeBytes [] = [] := rfl

theorem escapeBytes_cons (c : UInt8) (data : List UInt8) :
    escapeBytes (c :: data) = escapeByte c ++ escapeBytes data := rfl

theorem escapeBytes_append (a b : List UInt8) :
    escapeBytes (a ++ b) = escapeBytes a ++ escapeBytes b := List.flatMap_append

theorem escapeBytes_ne_nil (data : List UInt8) (h : data ≠ []) : escapeBytes data ≠ [] := by
  cases data with
  | nil => exact absurd rfl h
  | cons c data =>
    rw [escapeBytes_cons, escapeByte]
    split_ifs
    · exact List.cons_ne_nil _ _
    · exact List.cons_ne_nil _ _

theorem crc16Compute_append (update : UInt16 → UInt8 → UInt16) (a b : List UInt8)
    (previous : Option UInt16) :
    crc16Compute update (a ++ b) previous =
      crc16Compute update b (some (crc16Compute update a previous)) := List.foldl_append

/-- A stream that accepts everything gets the data in one call. -/
def wholeWrite (data : List UInt8) : List StreamCall :=
  if data = [] then [] else [.write data]

theorem wholeWrite_bytes (data : List UInt8) : (wholeWrite data).flatMap StreamCall.bytes = data := by
  unfold wholeWrite
  split_ifs with h
  · exact h.symm
  · exact List.append_nil data

namespace WriteStream

variable {stream : WriteStream}

theorem writeAll_accepted (hstream : stream.AcceptsEverything) (calls : List StreamCall)
    (data : List UInt8) : stream.writeAll calls data = (.noError, data.length, wholeWrite data) := by
  unfold writeAll wholeWrite
  cases data with
  | nil => rfl
  | cons c data =>
    have hpos : ((c :: data).length : Int) ≠ 0 := by
      rw [List.length_cons]
      omega
    have hdrop : (c :: data).drop ((c :: data).length : Int).toNat = [] := by
      rw [Int.toNat_natCast]
      exact List.drop_length
    have hend (fuel n : Nat) (calls : List StreamCall) :
        stream.writeAllLoop fuel calls [] n = (.noError, n, []) := by
      cases fuel with
      | zero => rfl
      | succ fuel => rw [writeAllLoop, if_pos rfl]
    rw [List.length_cons, writeAllLoop, if_neg (List.cons_ne_nil c data)]
    simp only [hstream calls (c :: data), if_neg hpos,
      if_neg (Int.natCast_nonneg (c :: data).length).not_gt, lt_irrefl, if_false, hdrop, hend]
    rw [if_neg (List.cons_ne_nil c data), Int.toNat_natCast, Nat.zero_add, List.length_cons]

end WriteStream

namespace Framer

variable {transport : Transport}

/-- What the stack buffer makes of data. -/
def encode (escape : Bool) (data : List UInt8) : List UInt8 :=
  if escape then escapeBytes data else data

theorem fillBuffer_spec (escape : Bool) (buffer data : List UInt8) :
    ∃ taken, data = taken ++ (fillBuffer escape buffer data).2 ∧
      (fillBuffer escape buffer data).1 = buffer ++ encode escape taken := by
  have hnone (buffer data : List UInt8) : ∃ taken, data = taken ++ data ∧
      buffer = buffer ++ encode escape taken := by
    refine ⟨[], rfl, ?_⟩
    cases escape <;> exact (List.append_nil buffer).symm
  induction data generalizing buffer with
  | nil => exact hnone buffer []
  | cons c data ih =>
    rw [fillBuffer]
    split_ifs with hfull hplain hlast
    · exact hnone buffer (c :: data)
    · obtain ⟨taken, hdata, hbuffer⟩ := ih (buffer ++ [c])
      refine ⟨c :: taken, by rw [List.cons_append, ← hdata], ?_⟩
      rw [hbuffer, List.append_assoc]
      cases escape with
      | false => rfl
      | true =>
        have hc : c ≠ kEscapeStart := hplain.resolve_left Bool.noConfusion
        simp only [encode, if_true, escapeBytes_cons, escapeByte, if_neg hc]
    · exact hnone buffer (c :: data)
    · obtain ⟨taken, hdata, hbuffer⟩ := ih (buffer ++ [kEscapeStart, kEscapeStart])
      obtain ⟨hescape, hc⟩ : escape = true ∧ c = kEscapeStart := by
        rw [not_or, not_not] at hplain
        exact ⟨Bool.eq_true_of_not_eq_false hplain.1, hplain.2⟩
      refine ⟨c :: taken, by rw [List.cons_append, ← hdata], ?_⟩
      rw [hbuffer, List.append_assoc]
      simp only [encode, hescape, if_true, escapeBytes_cons, escapeByte, if_pos hc]

/-- An empty stack buffer takes at least one byte. -/
theorem fillBuffer_takes (escape : Bool) (data : List UInt8) (h : data ≠ []) :
    (fillBuffer escape [] data).2.length < data.length := by
  cases data with
  | nil => exact absurd rfl h
  | cons c data =>
    have hrest (buffer : List UInt8) : (fillBuffer escape buffer data).2.length ≤ data.length := by
      obtain ⟨taken, hdata, _⟩ := fillBuffer_spec escape buffer data
      have hlength := congrArg List.length hdata
      rw [List.length_append] at hlength
      omega
    rw [fillBuffer, List.length_cons]
    split_ifs with hfull hplain hlast
    · exact absurd hfull (by decide)
    · exact Nat.lt_succ_of_le (hrest _)
    · exact absurd hlast (by decide)
    · exact Nat.lt_succ_of_le (hrest _)

def withCrc (transport : Transport) (f : Framer) (updateCrc : Bool) (wire : List UInt8) : Framer :=
  if updateCrc then { f with crc := crc16Compute transport.updateCrcCcitt wire (some f.crc) } else f

theorem withCrc_append (f : Framer) (updateCrc : Bool) (a b : List UInt8) :
    (f.withCrc transport updateCrc a).withCrc transport updateCrc b =
      f.withCrc transport updateCrc (a ++ b) := by
  cases updateCrc with
  | false => rfl
  | true => simp only [withCrc, if_true, crc16Compute_append]

theorem withCrc_nil (f : Framer) (updateCrc : Bool) : f.withCrc transport updateCrc [] = f := by
  cases updateCrc <;> rfl

theorem encode_append (escape : Bool) (a b : List UInt8) :
    encode escape (a ++ b) = encode escape a ++ encode escape b := by
  cases escape with
  | false => rfl
  | true => exact escapeBytes_append a b

theorem writeAndCrcLoop_spec (hstream : transport.stream.AcceptsEverything)
    (escape updateCrc : Bool) (fuel : Nat) (f : Framer) (calls : List StreamCall)
    (data : List UInt8) (hfuel : data.length ≤ fuel) :
    ∃ made, writeAndCrcLoop transport escape updateCrc fuel f calls data =
        (.noError, f.withCrc transport updateCrc (encode escape data), calls ++ made) ∧
      made.flatMap StreamCall.bytes = encode escape data := by
  have hdone (f : Framer) (calls : List StreamCall) :
      ∃ made, (TvmCrtError.noError, f, calls) =
        (.noError, f.withCrc transport updateCrc (encode escape []), calls ++ made) ∧
      made.flatMap StreamCall.bytes = encode escape [] := by
    have hnil : encode escape [] = [] := by cases escape <;> rfl
    exact ⟨[], by rw [hnil, withCrc_nil, List.append_nil], hnil.symm⟩
  induction fuel generalizing f calls data with
  | zero =>
    rw [List.length_eq_zero_iff.mp (Nat.le_zero.mp hfuel)]
    exact hdone f calls
  | succ fuel ih =>
    rw [writeAndCrcLoop]
    by_cases hempty : data = []
    · rw [if_pos hempty, hempty]
      exact hdone f calls
    · obtain ⟨taken, hdata, hbuffer⟩ := fillBuffer_spec escape [] data
      have htakes := fillBuffer_takes escape data hempty
      rw [List.nil_append] at hbuffer
      obtain ⟨made, heq, hmade⟩ := ih (f.withCrc transport updateCrc (encode escape taken))
        (calls ++ wholeWrite (encode escape taken)) (fillBuffer escape [] data).2 (by omega)
      refine ⟨wholeWrite (encode escape taken) ++ made, ?_, ?_⟩
      · rw [withCrc_append, ← encode_append, ← hdata, List.append_assoc] at heq
        rw [← heq, if_neg hempty]
        simp only [WriteStream.writeAll_accepted hstream, hbuffer, ne_eq, not_true_eq_false, if_false]
        rfl
      · rw [List.flatMap_append, wholeWrite_bytes, hmade, ← encode_append, ← hdata]

theorem writeAndCrc_spec (hstream : transport.stream.AcceptsEverything) (f : Framer)
    (calls : List StreamCall) (data : List UInt8) (escape updateCrc : Bool) :
    ∃ made, f.writeAndCrc transport calls data escape updateCrc =
        (.noError, f.withCrc transport updateCrc (encode escape data), calls ++ made) ∧
      made.flatMap StreamCall.bytes = encode escape data :=
  writeAndCrcLoop_spec hstream escape updateCrc data.length f calls data (Nat.le_refl _)

@[simp] theorem withCrc_state (f : Framer) (updateCrc : Bool) (wire : List UInt8) :
    (f.withCrc transport updateCrc wire).state = f.state := by
  cases updateCrc <;> rfl

@[simp] theorem withCrc_numPayloadBytesRemaining (f : Framer) (updateCrc : Bool)
    (wire : List UInt8) : (f.withCrc transport updateCrc wire).numPayloadBytesRemaining =
      f.numPayloadBytesRemaining := by
  cases updateCrc <;> rfl

theorem withCrc_true_crc (f : Framer) (wire : List UInt8) :
    (f.withCrc transport true wire).crc =
      crc16Compute transport.updateCrcCcitt wire (some f.crc) := rfl

/-- `WritePayloadChunk` on each chunk in turn, with the values returned. -/
def writePayloadChunks (transport : Transport) (f : Framer) (calls : List StreamCall) :
    List (List UInt8) → List TvmCrtError × Framer × List StreamCall
  | [] => ([], f, calls)
  | chunk :: chunks =>
    let (toReturn, f, calls) := f.writePayloadChunk transport calls chunk
    let (codes, f, calls) := f.writePayloadChunks transport calls chunks
    (toReturn :: codes, f, calls)

/-- A packet whose payload is given in chunks. -/
def sendPacket (transport : Transport) (f : Framer) (calls : List StreamCall)
    (chunks : List (List UInt8)) : List TvmCrtError × Framer × List StreamCall :=
  let (started, f, calls) := f.startPacket transport calls chunks.flatten.length
  let (codes, f, calls) := f.writePayloadChunks transport calls chunks
  let (finished, f, calls) := f.finishPacket transport calls
  (started :: codes ++ [finished], f, calls)

def sendPackets (transport : Transport) (f : Framer) (calls : List StreamCall) :
    List (List (List UInt8)) → List TvmCrtError × Framer × List StreamCall
  | [] => ([], f, calls)
  | packet :: packets =>
    let (codes, f, calls) := f.sendPacket transport calls packet
    let (more, f, calls) := f.sendPackets transport calls packets
    (codes ++ more, f, calls)

/-- The length and the payload of a packet as they are on the wire. -/
def packetContent (payload : List UInt8) : List UInt8 :=
  escapeBytes (littleEndian 4 payload.length) ++ escapeBytes payload

def packetCrc (transport : Transport) (payload : List UInt8) : UInt16 :=
  crc16Compute transport.updateCrcCcitt
    ([kEscapeStart, kPacketStart] ++ packetContent payload) none

/-- What follows the start sequence of a packet. -/
def packetRest (transport : Transport) (payload : List UInt8) : List UInt8 :=
  packetContent payload ++ escapeBytes (littleEndian 2 (packetCrc transport payload).toNat)

def packetWire (transport : Transport) (payload : List UInt8) : List UInt8 :=
  [kEscapeStart, kPacketStart] ++ packetRest transport payload

/-- The byte that a framer sends before the first packet. -/
def leadIn (f : Framer) : List UInt8 := if f.state = .reset then [kEscapeNop] else []

theorem startPacket_spec (hstream : transport.stream.AcceptsEverything) (f : Framer)
    (calls : List StreamCall) (size : Nat) :
    ∃ made, f.startPacket transport calls size = (.noError,
        { state := .transmitPacketPayload
          numPayloadBytesRemaining := size
          crc := crc16Compute transport.updateCrcCcitt
            ([kEscapeStart, kPacketStart] ++ escapeBytes (littleEndian 4 size)) none },
        calls ++ made) ∧
      made.flatMap StreamCall.bytes = f.leadIn ++ [kEscapeStart, kPacketStart] ++
        escapeBytes (littleEndian 4 size) := by
  have hlead : ∃ made, (if f.state = .reset then
        f.writeAndCrc transport calls [kEscapeNop] false false
      else (.noError, f, calls)) = (.noError, f, calls ++ made) ∧
      made.flatMap StreamCall.bytes = f.leadIn := by
    unfold leadIn
    split_ifs
    · exact writeAndCrc_spec hstream f calls [kEscapeNop] false false
    · exact ⟨[], by rw [List.append_nil], rfl⟩
  obtain ⟨lead, hlead, hleadBytes⟩ := hlead
  obtain ⟨start, hstart, hstartBytes⟩ := writeAndCrc_spec hstream { f with crc := 0xffff }
    (calls ++ lead) [kEscapeStart, kPacketStart] false true
  obtain ⟨size', hsize, hsizeBytes⟩ := writeAndCrc_spec hstream
    ({ f with crc := 0xffff }.withCrc transport true [kEscapeStart, kPacketStart])
    (calls ++ lead ++ start) (littleEndian 4 size) true true
  refine ⟨lead ++ start ++ size', ?_, ?_⟩
  · unfold startPacket
    simp only [hlead, ne_eq, not_true_eq_false, if_false]
    simp only [hstart, encode, Bool.false_eq_true, if_false, not_true_eq_false]
    simp only [hsize, if_true, encode, withCrc_append]
    rw [List.append_assoc calls, List.append_assoc calls]
    rfl
  · rw [List.flatMap_append, List.flatMap_append, hleadBytes, hstartBytes, hsizeBytes]
    rfl

theorem writePayloadChunks_spec (hstream : transport.stream.AcceptsEverything) (f : Framer)
    (calls : List StreamCall) (chunks : List (List UInt8)) (hstate : f.state = .transmitPacketPayload)
    (hremaining : f.numPayloadBytesRemaining = chunks.flatten.length) :
    ∃ codes made, f.writePayloadChunks transport calls chunks = (codes,
        { state := .transmitPacketPayload
          numPayloadBytesRemaining := 0
          crc := crc16Compute transport.updateCrcCcitt (escapeBytes chunks.flatten) (some f.crc) },
        calls ++ made) ∧
      (∀ code ∈ codes, code = .noError) ∧
      made.flatMap StreamCall.bytes = escapeBytes chunks.flatten := by
  induction chunks generalizing f calls with
  | nil =>
    refine ⟨[], [], ?_, fun _ h => absurd h List.not_mem_nil, rfl⟩
    rw [writePayloadChunks, List.append_nil]
    cases f
    simp only at hstate hremaining
    rw [hstate, hremaining]
    rfl
  | cons chunk chunks ih =>
    rw [List.flatten_cons, List.length_append] at hremaining
    obtain ⟨made, heq, hbytes⟩ := writeAndCrc_spec hstream f calls chunk true true
    have hchunk : f.writePayloadChunk transport calls chunk = (.noError,
        ⟨.transmitPacketPayload, chunks.flatten.length,
          crc16Compute transport.updateCrcCcitt (escapeBytes chunk) (some f.crc)⟩,
        calls ++ made) := by
      unfold writePayloadChunk
      rw [if_neg (not_not.mpr hstate), if_neg (by omega), heq]
      simp only [ne_eq, not_true_eq_false, if_false, encode, if_true,
        withCrc_numPayloadBytesRemaining, hremaining, Nat.add_sub_cancel_left, withCrc_state, hstate,
        withCrc_true_crc]
    obtain ⟨codes, more, hmore, hcodes, hmoreBytes⟩ := ih
      ⟨.transmitPacketPayload, chunks.flatten.length,
        crc16Compute transport.updateCrcCcitt (escapeBytes chunk) (some f.crc)⟩ (calls ++ made) rfl rfl
    refine ⟨.noError :: codes, made ++ more, ?_, ?_, ?_⟩
    · rw [writePayloadChunks, hchunk]
      simp only [hmore]
      rw [← crc16Compute_append, ← escapeBytes_append, List.flatten_cons, List.append_assoc]
    · intro code hcode
      cases hcode with
      | head => rfl
      | tail _ h => exact hcodes code h
    · rw [List.flatMap_append, hbytes, hmoreBytes, List.flatten_cons, escapeBytes_append]
      rfl

theorem sendPacket_spec (hstream : transport.stream.AcceptsEverything) (f : Framer)
    (calls : List StreamCall) (chunks : List (List UInt8)) :
    ∃ codes made crc, f.sendPacket transport calls chunks =
        (codes, { state := .idle, numPayloadBytesRemaining := 0, crc := crc }, calls ++ made) ∧
      (∀ code ∈ codes, code = .noError) ∧
      made.flatMap StreamCall.bytes = f.leadIn ++ packetWire transport chunks.flatten := by
  obtain ⟨start, hstart, hstartBytes⟩ := startPacket_spec hstream f calls chunks.flatten.length
  obtain ⟨codes, body, hbody, hcodes, hbodyBytes⟩ := writePayloadChunks_spec hstream
    { state := .transmitPacketPayload
      numPayloadBytesRemaining := chunks.flatten.length
      crc := crc16Compute transport.updateCrcCcitt
        ([kEscapeStart, kPacketStart] ++ escapeBytes (littleEndian 4 chunks.flatten.length)) none }
    (calls ++ start) chunks rfl rfl
  rw [← crc16Compute_append, List.append_assoc] at hbody
  obtain ⟨last, hlast, hlastBytes⟩ := writeAndCrc_spec hstream
    { state := .transmitPacketPayload, numPayloadBytesRemaining := 0,
      crc := packetCrc transport chunks.flatten }
    (calls ++ start ++ body) (littleEndian 2 (packetCrc transport chunks.flatten).toNat) true false
  refine ⟨.noError :: codes ++ [.noError], start ++ body ++ last,
    packetCrc transport chunks.flatten, ?_, ?_, ?_⟩
  · unfold sendPacket
    simp only [hstart, hbody]
    unfold finishPacket
    simp only [ne_eq, not_true_eq_false, if_false]
    unfold packetCrc packetContent at hlast
    simp only [hlast, not_true_eq_false, if_false]
    rw [List.append_assoc calls, List.append_assoc calls]
    rfl
  · intro code hcode
    rw [List.mem_append, List.mem_cons, List.mem_singleton] at hcode
    exact hcode.elim (fun h => h.elim id (hcodes code)) id
  · rw [List.flatMap_append, List.flatMap_append, hstartBytes, hbodyBytes, hlastBytes]
    simp only [packetWire, packetRest, packetContent, encode, if_true, List.append_assoc]

/-- A fresh framer puts one nop byte on the wire and then the packets one after the other. -/
theorem sendPackets_spec (hstream : transport.stream.AcceptsEverything) (f : Framer)
    (calls : List StreamCall) (packets : List (List (List UInt8))) :
    ∃ codes made f', f.sendPackets transport calls packets = (codes, f', calls ++ made) ∧
      (∀ code ∈ codes, code = .noError) ∧
      made.flatMap StreamCall.bytes = (if packets = [] then [] else f.leadIn) ++
        packets.flatMap (fun chunks => packetWire transport chunks.flatten) := by
  induction packets generalizing f calls with
  | nil =>
    exact ⟨[], [], f, by rw [sendPackets, List.append_nil],
      fun _ h => absurd h List.not_mem_nil, rfl⟩
  | cons packet packets ih =>
    obtain ⟨codes, made, crc, heq, hcodes, hbytes⟩ := sendPacket_spec hstream f calls packet
    obtain ⟨more, made', f', hmore, hmoreCodes, hmoreBytes⟩ := ih
      { state := .idle, numPayloadBytesRemaining := 0, crc := crc } (calls ++ made)
    refine ⟨codes ++ more, made ++ made', f', ?_, ?_, ?_⟩
    · rw [sendPackets, heq]
      simp only [hmore, List.append_assoc]
    · intro code hcode
      exact (List.mem_append.mp hcode).elim (hcodes code) (hmoreCodes code)
    · have hidle : (if packets = [] then [] else
          ({ state := .idle, numPayloadBytesRemaining := 0, crc := crc } : Framer).leadIn) = [] := by
        exact ite_self []
      rw [List.flatMap_append, hbytes, hmoreBytes, hidle, if_neg (List.cons_ne_nil _ _),
        List.flatMap_cons, List.nil_append, List.append_assoc]

end Framer

end StencilGraph.Micro
