import StencilGraph.Micro.UnframerStep

namespace StencilGraph.Micro

open Framework Escape Unframer

/-- What a stream gets to see: the payload bytes and the ends of packets. -/
inductive Item where
  | byte (c : UInt8)
  | packetDone (isValid : Bool)

def StreamCall.items : StreamCall → List Item
  | .write data => data.map .byte
  | .packetDone isValid => [.packetDone isValid]

def itemsOf (calls : List (Nat × StreamCall)) : List Item :=
  calls.flatMap (fun call => call.2.items)

theorem itemsOf_append (a b : List (Nat × StreamCall)) :
    itemsOf (a ++ b) = itemsOf a ++ itemsOf b := List.flatMap_append

def packetItems (payload : List UInt8) : List Item := payload.map .byte ++ [.packetDone true]

/-- `wire` is what is left of the escaped data; with the flag set, the first half of an escape pair
has been read. -/
inductive Escaped : Bool → List UInt8 → List UInt8 → Prop
  | whole (data : List UInt8) : Escaped false data (escapeBytes data)
  | half (data : List UInt8) :
      Escaped true (kEscapeStart :: data) (kEscapeStart :: escapeBytes data)

theorem Escaped.step {flag : Bool} {d c : UInt8} {data wire : List UInt8}
    (h : Escaped flag (d :: data) (c :: wire)) :
    (byteAction flag c = .skip true ∧ Escaped true (d :: data) wire) ∨
      (byteAction flag c = .store ∧ c = d ∧ Escaped false data wire) := by
  generalize hdata : d :: data = data' at h
  generalize hwire : c :: wire = wire' at h
  cases h with
  | whole =>
    subst hdata
    rw [escapeBytes_cons, escapeByte] at hwire
    by_cases hd : d = kEscapeStart
    · rw [if_pos hd] at hwire
      obtain ⟨hc, hw⟩ := List.cons.inj hwire
      rw [hc, hw, hd]
      exact .inl ⟨rfl, .half data⟩
    · rw [if_neg hd] at hwire
      obtain ⟨hc, hw⟩ := List.cons.inj hwire
      rw [hc, hw]
      refine .inr ⟨?_, rfl, .whole data⟩
      unfold byteAction
      rw [if_neg Bool.false_ne_true, if_neg hd]
  | half rest =>
    obtain ⟨hd, hdata⟩ := List.cons.inj hdata
    obtain ⟨hc, hw⟩ := List.cons.inj hwire
    rw [hc, hd, hw, hdata]
    exact .inr ⟨rfl, rfl, .whole rest⟩

theorem Escaped.flag_eq_false {flag : Bool} {wire : List UInt8} (h : Escaped flag [] wire) :
    flag = false ∧ wire = [] := by
  generalize hdata : ([] : List UInt8) = data at h
  cases h with
  | whole =>
    subst hdata
    exact ⟨rfl, rfl⟩
  | half => exact nomatch hdata

theorem Escaped.wire_ne_nil {flag : Bool} {data wire : List UInt8} (h : Escaped flag data wire)
    (hdata : data ≠ []) : wire ≠ [] := by
  cases h with
  | whole => exact escapeBytes_ne_nil data hdata
  | half => exact List.cons_ne_nil _ _

/-- `ConsumeInput` on escaped data that fills the buffer: it stops without an error, and what it
stored and what is left of the data and of the wire fit together again. -/
theorem consumeInputLoop_escaped (n : Nat) (flag : Bool) (buffer input data wire : List UInt8)
    (tail after : List UInt8) (hescaped : Escaped flag data wire)
    (hinput : input ++ tail = wire ++ after) (hroom : buffer.length < n)
    (hfill : n ≤ buffer.length + data.length) :
    ∃ stored data' raw wire', (consumeInputLoop n flag buffer input).toReturn = .noError ∧
      data = stored ++ data' ∧ (consumeInputLoop n flag buffer input).buffer = buffer ++ stored ∧
      wire = raw ++ wire' ∧ input = raw ++ (consumeInputLoop n flag buffer input).input ∧
      Escaped (consumeInputLoop n flag buffer input).sawEscapeStart data' wire' ∧
      ((consumeInputLoop n flag buffer input).buffer.length = n →
        (consumeInputLoop n flag buffer input).sawEscapeStart = false) := by
  induction input generalizing flag buffer data wire with
  | nil =>
    refine ⟨[], data, [], wire, rfl, rfl, (List.append_nil buffer).symm, rfl, rfl, hescaped, ?_⟩
    intro hfull
    exact absurd hfull hroom.ne
  | cons c input ih =>
    cases data with
    | nil =>
      rw [List.length_nil] at hfill
      omega
    | cons d data =>
      cases wire with
      | nil => exact absurd rfl (hescaped.wire_ne_nil (List.cons_ne_nil d data))
      | cons c' wire =>
        obtain ⟨hc, hrest⟩ := List.cons.inj hinput
        subst hc
        cases hescaped.step with
        | inl h =>
          obtain ⟨stored, data', raw, wire', hreturn, hdata, hbuffer, hwire, hraw, hesc, hfull⟩ :=
            ih true buffer (d :: data) wire h.2 hrest hroom hfill
          rw [consumeInputLoop, h.1]
          exact ⟨stored, data', c :: raw, wire', hreturn, hdata, hbuffer,
            by rw [hwire, List.cons_append], by rw [List.cons_append, ← hraw], hesc, hfull⟩
        | inr h =>
          obtain ⟨haction, hcd, hesc⟩ := h
          subst hcd
          rw [consumeInputLoop, haction]
          simp only
          split_ifs with hlast
          · exact ⟨[c], data, [c], wire, rfl, rfl, rfl, rfl, rfl, hesc, fun _ => rfl⟩
          · rw [List.length_append, List.length_singleton] at hlast
            rw [List.length_cons] at hfill
            obtain ⟨stored, data', raw, wire', hreturn, hdata, hbuffer, hwire, hraw, hesc, hfull⟩ :=
              ih false (buffer ++ [c]) data wire hesc hrest
                (by rw [List.length_append, List.length_singleton]; omega)
                (by rw [List.length_append, List.length_singleton]; omega)
            exact ⟨c :: stored, data', c :: raw, wire', hreturn,
              by rw [hdata, List.cons_append], by rw [hbuffer, List.append_assoc]; rfl,
              by rw [hwire, List.cons_append], by rw [List.cons_append, ← hraw], hesc, hfull⟩

/-- The start sequence from some byte on, with the flag that `FindPacketStart` has there. -/
inductive Lead : Bool → List UInt8 → Prop
  | nop (flag : Bool) : Lead flag [kEscapeNop, kEscapeStart, kPacketStart]
  | escape : Lead false [kEscapeStart, kPacketStart]
  | start : Lead true [kPacketStart]

theorem Lead.ne_nil {flag : Bool} {lead : List UInt8} (h : Lead flag lead) : lead ≠ [] := by
  cases h <;> exact List.cons_ne_nil _ _

/-- `FindPacketStart` on a start sequence: it takes the whole of it, or the input ends before. -/
theorem findPacketStartLoop_lead (flag : Bool) (lead input tail rest : List UInt8)
    (hlead : Lead flag lead) (hinput : input ++ tail = lead ++ rest) :
    (∃ input', findPacketStartLoop flag input = (false, true, input') ∧ input' ++ tail = rest) ∨
      (∃ flag' lead', findPacketStartLoop flag input = (flag', false, []) ∧ Lead flag' lead' ∧
        tail = lead' ++ rest) := by
  induction input generalizing flag lead with
  | nil => exact .inr ⟨flag, lead, rfl, hlead, hinput⟩
  | cons c input ih =>
    cases hlead with
    | nop =>
      obtain ⟨hc, hrest⟩ := List.cons.inj hinput
      rw [hc]
      exact ih false _ .escape hrest
    | escape =>
      obtain ⟨hc, hrest⟩ := List.cons.inj hinput
      rw [hc]
      exact ih true _ .start hrest
    | start =>
      obtain ⟨hc, hrest⟩ := List.cons.inj hinput
      rw [hc]
      exact .inl ⟨input, rfl, hrest⟩

namespace Framer

/-- Payloads that the length field can hold. -/
def Sendable (payloads : List (List UInt8)) : Prop := ∀ payload ∈ payloads, payload.length < 2 ^ 32

def wire (transport : Transport) (payloads : List (List UInt8)) : List UInt8 :=
  payloads.flatMap (packetWire transport)

end Framer

open Framer

/-- The unframer is somewhere in a sequence of packets: `wire` is still to come, and `items` are
still to be handed to the stream. -/
inductive Expects (transport : Transport) (u : Unframer) : List UInt8 → List Item → Prop
  | idle (hstate : u.state = .findPacketStart) (hbuffer : u.buffer = [])
      (hflag : u.sawEscapeStart = false) : Expects transport u [] []
  | start (lead payload : List UInt8) (payloads : List (List UInt8))
      (hstate : u.state = .findPacketStart) (hbuffer : u.buffer = [])
      (hlead : Lead u.sawEscapeStart lead) (hpayload : payload.length < 2 ^ 32)
      (hpayloads : Sendable payloads) :
      Expects transport u (lead ++ (packetRest transport payload ++ wire transport payloads))
        (packetItems payload ++ payloads.flatMap packetItems)
  | length (field fieldWire payload : List UInt8) (payloads : List (List UInt8))
      (hstate : u.state = .findPacketLength)
      (hbuffer : u.buffer ++ field = littleEndian 4 payload.length) (hfield : field ≠ [])
      (hescaped : Escaped u.sawEscapeStart field fieldWire)
      (hcrc : crc16Compute transport.updateCrcCcitt (fieldWire ++ escapeBytes payload) (some u.crc) =
        packetCrc transport payload)
      (hpayload : payload.length < 2 ^ 32) (hpayloads : Sendable payloads) :
      Expects transport u (fieldWire ++ (escapeBytes payload ++
          (escapeBytes (littleEndian 2 (packetCrc transport payload).toNat) ++
            wire transport payloads)))
        (packetItems payload ++ payloads.flatMap packetItems)
  | payload (rest restWire : List UInt8) (crc : UInt16) (payloads : List (List UInt8))
      (hstate : u.state = .findPacketCrc) (hbuffer : u.buffer = [])
      (hremaining : u.numPayloadBytesRemaining = rest.length)
      (hescaped : Escaped u.sawEscapeStart rest restWire)
      (hcrc : crc16Compute transport.updateCrcCcitt restWire (some u.crc) = crc)
      (hpayloads : Sendable payloads) :
      Expects transport u (restWire ++ (escapeBytes (littleEndian 2 crc.toNat) ++
          wire transport payloads))
        (packetItems rest ++ payloads.flatMap packetItems)
  | crc (field fieldWire : List UInt8) (payloads : List (List UInt8))
      (hstate : u.state = .findCrcEnd)
      (hbuffer : u.buffer ++ field = littleEndian 2 u.crc.toNat) (hfield : field ≠ [])
      (hescaped : Escaped u.sawEscapeStart field fieldWire) (hpayloads : Sendable payloads) :
      Expects transport u (fieldWire ++ wire transport payloads)
        (packetItems [] ++ payloads.flatMap packetItems)

variable {transport : Transport}

/-- Between two packets. -/
theorem Expects.between {u : Unframer} {payloads : List (List UInt8)}
    (hstate : u.state = .findPacketStart) (hbuffer : u.buffer = [])
    (hflag : u.sawEscapeStart = false) (hpayloads : Sendable payloads) :
    Expects transport u (wire transport payloads) (payloads.flatMap packetItems) := by
  cases payloads with
  | nil => exact .idle hstate hbuffer hflag
  | cons payload payloads =>
    exact .start [kEscapeStart, kPacketStart] payload payloads hstate hbuffer (hflag ▸ .escape)
      (hpayloads payload List.mem_cons_self) (fun p hp => hpayloads p (List.mem_cons_of_mem _ hp))

/-- After the start sequence of a packet. -/
theorem Expects.begun {u : Unframer} {payload : List UInt8} {payloads : List (List UInt8)}
    (hstate : u.state = .findPacketLength) (hbuffer : u.buffer = [])
    (hflag : u.sawEscapeStart = false)
    (hcrc : u.crc = crc16Compute transport.updateCrcCcitt [kEscapeStart, kPacketStart] none)
    (hpayload : payload.length < 2 ^ 32) (hpayloads : Sendable payloads) :
    Expects transport u (packetRest transport payload ++ wire transport payloads)
      (packetItems payload ++ payloads.flatMap packetItems) := by
  rw [packetRest, packetContent, List.append_assoc, List.append_assoc]
  apply Expects.length (littleEndian 4 payload.length)
  · exact hstate
  · rw [hbuffer, List.nil_append]
  · exact List.cons_ne_nil _ _
  · rw [hflag]
    exact .whole _
  · rw [hcrc, ← crc16Compute_append]
    rfl
  · exact hpayload
  · exact hpayloads

theorem Expects.items_nil {u : Unframer} {items : List Item} (h : Expects transport u [] items) :
    items = [] := by
  generalize hwire : ([] : List UInt8) = wire at h
  have hcrc (crc : UInt16) : escapeBytes (littleEndian 2 crc.toNat) ≠ [] :=
    escapeBytes_ne_nil _ (List.cons_ne_nil _ _)
  cases h with
  | idle => rfl
  | start lead payload payloads _ _ hlead =>
    exact absurd (List.append_eq_nil_iff.mp hwire.symm).1 hlead.ne_nil
  | length field fieldWire payload payloads _ _ hfield hescaped =>
    exact absurd (List.append_eq_nil_iff.mp hwire.symm).1 (hescaped.wire_ne_nil hfield)
  | payload rest restWire crc =>
    have h := (List.append_eq_nil_iff.mp hwire.symm).2
    exact absurd (List.append_eq_nil_iff.mp h).1 (hcrc crc)
  | crc field fieldWire payloads _ _ hfield hescaped =>
    exact absurd (List.append_eq_nil_iff.mp hwire.symm).1 (hescaped.wire_ne_nil hfield)

namespace Unframing

variable {s s' s'' : Unframing} {tail : List UInt8} {items items' : List Item}

/-- Decreases with every round of `Unframer::Write`. -/
def rank (s : Unframing) : Nat :=
  2 * s.input.length + if s.unframer.state = .findPacketCrc then 1 else 0

theorem rank_lt (u : Unframer) (chunk : List UInt8) (history : List StreamCall) :
    rank ⟨u, chunk, 0, history, []⟩ < 2 * chunk.length + 2 := by
  unfold rank
  split_ifs
  · exact Nat.lt_succ_self _
  · exact Nat.lt_add_of_pos_right Nat.two_pos

/-- The stream has been handed the first of the items, and the unframer expects the others. -/
def Delivers (transport : Transport) (s : Unframing) (tail : List UInt8) (items : List Item)
    (s' : Unframing) : Prop :=
  ∃ made items', Advances s s' made ∧ items = itemsOf made ++ items' ∧
    Expects transport s'.unframer (s'.input ++ tail) items'

theorem Delivers.of_advances {made : List (Nat × StreamCall)} (h : Advances s s' made)
    (hrest : Delivers transport s' tail items' s'') :
    Delivers transport s tail (itemsOf made ++ items') s'' := by
  obtain ⟨made', items'', hadvances, hitems, hexpects⟩ := hrest
  exact ⟨made ++ made', items'', h.trans hadvances,
    by rw [hitems, itemsOf_append, List.append_assoc], hexpects⟩

theorem findPacketStart_delivers (hexpects : Expects transport s.unframer (s.input ++ tail) items)
    (hstate : s.unframer.state = .findPacketStart) (hinput : s.input ≠ []) :
    ∃ s', s.findPacketStart transport = some (.noError, s') ∧
      Delivers transport s tail items s' ∧ s'.rank < s.rank := by
  have hpos : 0 < s.input.length := List.length_pos_iff.mpr hinput
  generalize hwire : s.input ++ tail = total at hexpects
  cases hexpects with
  | idle => exact absurd (List.append_eq_nil_iff.mp hwire).1 hinput
  | length _ _ _ _ h | payload _ _ _ _ h | crc _ _ _ h => exact nomatch hstate.symm.trans h
  | start lead payload payloads _ hbuffer hlead hpayload hpayloads =>
    have hsuffix := findPacketStartLoop_suffix s.unframer.sawEscapeStart s.input
    unfold findPacketStart
    cases findPacketStartLoop_lead _ lead s.input tail _ hlead hwire with
    | inl hfound =>
      obtain ⟨input', hloop, hrest⟩ := hfound
      rw [hloop] at hsuffix ⊢
      refine ⟨_, rfl, ⟨[], _, .silent rfl rfl rfl hsuffix, rfl, ?_⟩, ?_⟩
      · simp only [if_true, hrest]
        exact .begun rfl hbuffer rfl rfl hpayload hpayloads
      · have hleadpos : 0 < lead.length := List.length_pos_iff.mpr hlead.ne_nil
        have h₁ := congrArg List.length hwire
        have h₂ := congrArg List.length hrest
        rw [List.length_append, List.length_append] at h₁
        rw [List.length_append] at h₂
        simp only [rank, if_true, hstate, reduceCtorEq, if_false]
        omega
    | inr hmore =>
      obtain ⟨flag', lead', hloop, hlead', htail⟩ := hmore
      rw [hloop] at hsuffix ⊢
      refine ⟨_, rfl, ⟨[], _, .silent rfl rfl rfl hsuffix, rfl, ?_⟩, ?_⟩
      · simp only [Bool.false_eq_true, if_false, List.nil_append, htail]
        exact .start lead' payload payloads hstate hbuffer hlead' hpayload hpayloads
      · simp only [rank, Bool.false_eq_true, if_false, List.length_nil, hstate, reduceCtorEq]
        omega

/-- `ConsumeInput` on escaped data, at an unframer. -/
theorem stopAt_escaped {data wire after : List UInt8} (n : Nat)
    (hescaped : Escaped s.unframer.sawEscapeStart data wire)
    (hinput : s.input ++ tail = wire ++ after) (hroom : s.unframer.buffer.length < n)
    (hfill : n ≤ s.unframer.buffer.length + data.length) :
    ∃ stored data' raw wire', (s.stopAt n).toReturn = .noError ∧
      data = stored ++ data' ∧ (s.stopAt n).buffer = s.unframer.buffer ++ stored ∧
      wire = raw ++ wire' ∧ s.input = raw ++ (s.stopAt n).input ∧
      Escaped (s.stopAt n).sawEscapeStart data' wire' ∧
      (s.stopAt n).input ++ tail = wire' ++ after ∧
      ((s.stopAt n).buffer.length = n ∧ (s.stopAt n).sawEscapeStart = false ∨
        (s.stopAt n).buffer.length < n ∧ (s.stopAt n).input = []) := by
  obtain ⟨stored, data', raw, wire', hreturn, hdata, hbuffer, hwire, hraw, hesc, hflag⟩ :=
    consumeInputLoop_escaped n _ _ s.input data wire tail after hescaped hinput hroom hfill
  have hconsumes := consumeInputLoop_consumes n s.unframer.sawEscapeStart _ s.input hroom
  refine ⟨stored, data', raw, wire', hreturn, hdata, hbuffer, hwire, hraw, hesc, ?_, ?_⟩
  · rw [hraw, hwire, List.append_assoc, List.append_assoc] at hinput
    exact List.append_cancel_left hinput
  · by_cases hfull : (s.stopAt n).buffer.length = n
    · exact .inl ⟨hfull, hflag hfull⟩
    · refine .inr ⟨lt_of_le_of_ne hconsumes.fits hfull, ?_⟩
      exact (hconsumes.full_or_empty hreturn).resolve_left hfull

theorem findPacketLength_delivers (hexpects : Expects transport s.unframer (s.input ++ tail) items)
    (hstate : s.unframer.state = .findPacketLength) (hinput : s.input ≠ []) :
    ∃ s', s.findPacketLength transport = some (.noError, s') ∧
      Delivers transport s tail items s' ∧ s'.rank < s.rank := by
  have hpos : 0 < s.input.length := List.length_pos_iff.mpr hinput
  generalize hwire : s.input ++ tail = total at hexpects
  cases hexpects with
  | idle h | start _ _ _ h | payload _ _ _ _ h | crc _ _ _ h => exact nomatch hstate.symm.trans h
  | length field fieldWire payload payloads _ hbuffer hfield hescaped hcrc hpayload hpayloads =>
    have hlength := congrArg List.length hbuffer
    have hfieldpos : 0 < field.length := List.length_pos_iff.mpr hfield
    rw [List.length_append, littleEndian_length] at hlength
    have hroom : s.unframer.buffer.length < 4 := by omega
    obtain ⟨stored, field', raw, wire', hreturn, hdata, hstop, hsplit, hraw, hesc, hrest, hend⟩ :=
      stopAt_escaped 4 hescaped hwire hroom (by omega)
    have hadvances : Advances s (s.afterConsume transport 4 true) [] :=
      afterConsume_advances 4 true hroom
    have hcrc' : crc16Compute transport.updateCrcCcitt (wire' ++ escapeBytes payload)
        (some (s.crcAfter transport 4 true)) = packetCrc transport payload := by
      rw [crcAfter_eq 4 hreturn hraw, ← crc16Compute_append, ← hcrc, hsplit, List.append_assoc]
    have hkeep : (s.stopAt 4).buffer ++ field' = littleEndian 4 payload.length := by
      rw [hstop, List.append_assoc, ← hdata, hbuffer]
    have hshorter : (s.stopAt 4).input.length < s.input.length :=
      (consumeInputLoop_consumes 4 _ _ s.input hroom).progress hreturn hinput
    rw [findPacketLength_eq hroom, hreturn]
    refine ⟨_, rfl, ?_⟩
    have hkeepLength := congrArg List.length hkeep
    rw [List.length_append, littleEndian_length] at hkeepLength
    cases hend with
    | inl hfull =>
      have hnil : field' = [] := List.length_eq_zero_iff.mp (by omega)
      subst hnil
      obtain ⟨_, hwire'⟩ := hesc.flag_eq_false
      subst hwire'
      rw [List.append_nil] at hkeep
      rw [if_pos ⟨rfl, hfull.1⟩]
      refine ⟨⟨[], _, lengthRead_advances hadvances, rfl, ?_⟩, ?_⟩
      · change Expects transport _ ((s.stopAt 4).input ++ tail) _
        rw [hrest, List.nil_append]
        apply Expects.payload payload
        · rfl
        · rfl
        · change ofLittleEndian ((s.stopAt 4).buffer.take 4) = payload.length
          rw [hkeep, List.take_of_length_le (littleEndian_length 4 _).le,
            ofLittleEndian_littleEndian]
          exact Nat.mod_eq_of_lt hpayload
        · change Escaped (s.stopAt 4).sawEscapeStart _ _
          rw [hfull.2]
          exact .whole payload
        · exact hcrc'
        · exact hpayloads
      · change 2 * (s.stopAt 4).input.length + 1 < _
        simp only [rank, hstate, reduceCtorEq, if_false]
        omega
    | inr hshort =>
      rw [if_neg (fun h => hshort.1.ne h.2)]
      refine ⟨⟨[], _, hadvances, rfl, ?_⟩, ?_⟩
      · change Expects transport _ ((s.stopAt 4).input ++ tail) _
        have hfield' : field' ≠ [] := by
          intro hnil
          rw [hnil, List.length_nil] at hkeepLength
          omega
        rw [hrest]
        refine .length field' wire' payload payloads ?_ hkeep hfield' hesc hcrc' hpayload hpayloads
        exact hstate
      · change 2 * (s.stopAt 4).input.length + (if s.unframer.state = .findPacketCrc then 1 else 0)
          < _
        simp only [rank, hstate, reduceCtorEq, if_false]
        omega

/-- The rounds of `FindPacketCrc`, on whatever is left of the payload. -/
theorem findPacketCrcLoop_delivers (hstream : transport.stream.AcceptsEverything) (fuel : Nat)
    (rest restWire : List UInt8) (crc : UInt16) (payloads : List (List UInt8))
    (hfuel : s.input.length < fuel) (hstate : s.unframer.state = .findPacketCrc)
    (hbuffer : s.unframer.buffer = [])
    (hremaining : s.unframer.numPayloadBytesRemaining = rest.length)
    (hescaped : Escaped s.unframer.sawEscapeStart rest restWire)
    (hcrc : crc16Compute transport.updateCrcCcitt restWire (some s.unframer.crc) = crc)
    (hpayloads : Sendable payloads)
    (hwire : s.input ++ tail = restWire ++ (escapeBytes (littleEndian 2 crc.toNat) ++
      wire transport payloads)) :
    ∃ s', findPacketCrcLoop transport fuel s = some (.noError, s') ∧
      Delivers transport s tail (packetItems rest ++ payloads.flatMap packetItems) s' ∧
      (s'.unframer.state = .findPacketCrc → s'.input = []) := by
  induction fuel generalizing s rest restWire with
  | zero => omega
  | succ fuel ih =>
    by_cases hrest : rest = []
    · subst hrest
      obtain ⟨hflag, hnil⟩ := hescaped.flag_eq_false
      subst hnil
      have hzero : s.unframer.numPayloadBytesRemaining = 0 := hremaining
      rw [findPacketCrcLoop, if_pos hzero]
      refine ⟨_, rfl, ⟨[], _, .silent rfl rfl rfl ⟨[], rfl⟩, rfl, ?_⟩, UnframerState.noConfusion⟩
      change Expects transport _ (s.input ++ tail) _
      rw [hwire, List.nil_append]
      refine .crc (littleEndian 2 crc.toNat) _ payloads rfl ?_ (List.cons_ne_nil _ _) ?_ hpayloads
      · change s.unframer.buffer ++ _ = littleEndian 2 s.unframer.crc.toNat
        rw [hbuffer, List.nil_append, ← hcrc]
        rfl
      · change Escaped s.unframer.sawEscapeStart _ _
        rw [hflag]
        exact .whole _
    · have hrestpos : 0 < rest.length := List.length_pos_iff.mpr hrest
      have hn : min rest.length 128 = min s.unframer.numPayloadBytesRemaining 128 := by
        rw [hremaining]
      have hroom : s.unframer.buffer.length < min rest.length 128 := by
        rw [hbuffer, List.length_nil]
        omega
      have hfill : min rest.length 128 ≤ s.unframer.buffer.length + rest.length := by omega
      obtain ⟨stored, rest', raw, wire', hreturn, hdata, hstop, hsplit, hraw, hesc, hleft, hend⟩ :=
        stopAt_escaped (min rest.length 128) hescaped hwire hroom hfill
      rw [hbuffer, List.nil_append] at hstop
      have hcrc' : crc16Compute transport.updateCrcCcitt wire'
          (some (s.crcAfter transport (min rest.length 128) true)) = crc := by
        rw [crcAfter_eq _ hreturn hraw, ← crc16Compute_append, ← hsplit, hcrc]
      rw [findPacketCrcLoop_eq hstream fuel _ hbuffer (by omega) hn,
        if_neg (not_not.mpr hreturn), hstop]
      by_cases hstored : stored = []
      · have hnil : (s.stopAt (min rest.length 128)).buffer = [] := hstop.trans hstored
        rw [hnil, List.length_nil] at hend
        have hempty := (hend.resolve_left (fun h => by omega)).2
        rw [if_pos hstored]
        rw [hstored, List.nil_append] at hdata
        subst hdata
        refine ⟨_, rfl, ⟨[], _, afterConsume_advances _ true hroom, rfl, ?_⟩, fun _ => hempty⟩
        change Expects transport _ ((s.stopAt (min rest.length 128)).input ++ tail) _
        rw [hleft]
        exact .payload rest wire' crc payloads hstate hnil hremaining hesc hcrc' hpayloads
      · have hinput : s.input ≠ [] := by
          intro hnil
          apply hstored
          rw [← hstop, stopAt, hnil, consumeInputLoop, hbuffer]
        have hshorter : (s.stopAt (min rest.length 128)).input.length < s.input.length :=
          (consumeInputLoop_consumes _ _ _ s.input hroom).progress hreturn hinput
        have hlength := congrArg List.length hdata
        rw [List.length_append] at hlength
        have hadvances : Advances s (s.payloadRound transport (min rest.length 128)) _ :=
          payloadRound_advances _ hroom (by rw [hstop]; exact hstored)
        obtain ⟨s', heq, hdelivers, hlast⟩ := ih (s := s.payloadRound transport (min rest.length 128))
          rest' wire' (by change (s.stopAt (min rest.length 128)).input.length < fuel; omega)
          hstate rfl
          (by
            change s.unframer.numPayloadBytesRemaining - (s.stopAt (min rest.length 128)).buffer.length = _
            rw [hstop]
            omega)
          hesc hcrc' hleft
        rw [if_neg hstored]
        refine ⟨s', heq, ?_, hlast⟩
        have hall := Delivers.of_advances hadvances hdelivers
        have hitems : packetItems rest = stored.map .byte ++ packetItems rest' := by
          rw [packetItems, hdata, List.map_append, List.append_assoc]
          rfl
        rw [hstop] at hall
        rw [hitems, List.append_assoc]
        simpa only [itemsOf, StreamCall.items, List.flatMap_cons, List.flatMap_nil, List.append_nil]
          using hall

theorem findPacketCrc_delivers (hstream : transport.stream.AcceptsEverything)
    (hexpects : Expects transport s.unframer (s.input ++ tail) items)
    (hstate : s.unframer.state = .findPacketCrc) (hinput : s.input ≠ []) :
    ∃ s', s.findPacketCrc transport = some (.noError, s') ∧
      Delivers transport s tail items s' ∧ s'.rank < s.rank := by
  have hpos : 0 < s.input.length := List.length_pos_iff.mpr hinput
  generalize hwire : s.input ++ tail = total at hexpects
  cases hexpects with
  | idle h | start _ _ _ h | length _ _ _ _ h | crc _ _ _ h => exact nomatch hstate.symm.trans h
  | payload rest restWire crc payloads _ hbuffer hremaining hescaped hcrc hpayloads =>
    obtain ⟨s', heq, hdelivers, hlast⟩ := findPacketCrcLoop_delivers hstream (s.input.length + 1)
      rest restWire crc payloads (Nat.lt_succ_self _) hstate hbuffer hremaining hescaped hcrc
      hpayloads hwire
    refine ⟨s', heq, hdelivers, ?_⟩
    obtain ⟨made, _, hadvances, _⟩ := hdelivers
    have hle := hadvances.le
    unfold rank
    rw [if_pos hstate]
    by_cases hsame : s'.unframer.state = .findPacketCrc
    · rw [hlast hsame, List.length_nil, if_pos hsame]
      omega
    · rw [if_neg hsame]
      omega

theorem findCrcEnd_delivers (hexpects : Expects transport s.unframer (s.input ++ tail) items)
    (hstate : s.unframer.state = .findCrcEnd) (hinput : s.input ≠ []) :
    ∃ s', s.findCrcEnd transport = some (.noError, s') ∧
      Delivers transport s tail items s' ∧ s'.rank < s.rank := by
  have hpos : 0 < s.input.length := List.length_pos_iff.mpr hinput
  generalize hwire : s.input ++ tail = total at hexpects
  cases hexpects with
  | idle h | start _ _ _ h | length _ _ _ _ h | payload _ _ _ _ h =>
    exact nomatch hstate.symm.trans h
  | crc field fieldWire payloads _ hbuffer hfield hescaped hpayloads =>
    have hlength := congrArg List.length hbuffer
    have hfieldpos : 0 < field.length := List.length_pos_iff.mpr hfield
    rw [List.length_append, littleEndian_length] at hlength
    have hroom : s.unframer.buffer.length < 2 := by omega
    obtain ⟨stored, field', raw, wire', hreturn, hdata, hstop, hsplit, hraw, hesc, hrest, hend⟩ :=
      stopAt_escaped 2 hescaped hwire hroom (by omega)
    have hadvances : Advances s (s.afterConsume transport 2 false) [] :=
      afterConsume_advances 2 false hroom
    have hcrc : (s.afterConsume transport 2 false).unframer.crc = s.unframer.crc :=
      crcAfter_keep 2 hreturn
    have hkeep : (s.stopAt 2).buffer ++ field' = littleEndian 2 s.unframer.crc.toNat := by
      rw [hstop, List.append_assoc, ← hdata, hbuffer]
    have hshorter : (s.stopAt 2).input.length < s.input.length :=
      (consumeInputLoop_consumes 2 _ _ s.input hroom).progress hreturn hinput
    rw [findCrcEnd_eq hroom, hreturn]
    refine ⟨_, rfl, ?_⟩
    have hkeepLength := congrArg List.length hkeep
    rw [List.length_append, littleEndian_length] at hkeepLength
    cases hend with
    | inl hfull =>
      have hnil : field' = [] := List.length_eq_zero_iff.mp (by omega)
      subst hnil
      obtain ⟨_, hwire'⟩ := hesc.flag_eq_false
      subst hwire'
      rw [List.append_nil] at hkeep
      have hvalid : ((s.afterConsume transport 2 false).unframer.crc.toNat == ofLittleEndian
          ((s.afterConsume transport 2 false).unframer.buffer.take PacketFieldSizeBytes.kCrc)) =
          true := by
        rw [beq_iff_eq, hcrc]
        change _ = ofLittleEndian ((s.stopAt 2).buffer.take 2)
        rw [hkeep, List.take_of_length_le (littleEndian_length 2 _).le, ofLittleEndian_littleEndian]
        exact (Nat.mod_eq_of_lt s.unframer.crc.toNat_lt).symm
      have hread := crcRead_advances (s.afterConsume transport 2 false)
      rw [hvalid] at hread
      rw [if_pos ⟨rfl, hfull.1⟩]
      refine ⟨⟨_, _, hadvances.trans hread, rfl, ?_⟩, ?_⟩
      · change Expects transport _ ((s.stopAt 2).input ++ tail) _
        rw [hrest, List.nil_append]
        exact .between rfl rfl hfull.2 hpayloads
      · change 2 * (s.stopAt 2).input.length + 0 < _
        simp only [rank, hstate, reduceCtorEq, if_false]
        omega
    | inr hshort =>
      rw [if_neg (fun h => hshort.1.ne h.2)]
      refine ⟨⟨[], _, hadvances, rfl, ?_⟩, ?_⟩
      · have hfield' : field' ≠ [] := by
          intro hnil
          rw [hnil, List.length_nil] at hkeepLength
          omega
        change Expects transport _ ((s.stopAt 2).input ++ tail) _
        rw [hrest]
        refine .crc field' wire' payloads hstate ?_ hfield' hesc hpayloads
        rw [hcrc]
        exact hkeep
      · change 2 * (s.stopAt 2).input.length + (if s.unframer.state = .findPacketCrc then 1 else 0)
          < _
        simp only [rank, hstate, reduceCtorEq, if_false]
        omega

theorem dispatch_delivers (hstream : transport.stream.AcceptsEverything)
    (hexpects : Expects transport s.unframer (s.input ++ tail) items) (hinput : s.input ≠ []) :
    ∃ s', s.dispatch transport = some (.noError, s') ∧ Delivers transport s tail items s' ∧
      s'.rank < s.rank := by
  unfold dispatch
  cases hstate : s.unframer.state with
  | findPacketStart => exact findPacketStart_delivers hexpects hstate hinput
  | findPacketLength => exact findPacketLength_delivers hexpects hstate hinput
  | findPacketCrc => exact findPacketCrc_delivers hstream hexpects hstate hinput
  | findCrcEnd => exact findCrcEnd_delivers hexpects hstate hinput

theorem writeLoop_delivers (hstream : transport.stream.AcceptsEverything) (fuel : Nat)
    (hfuel : s.rank < fuel) (hrewound : s.rewound = 0)
    (hexpects : Expects transport s.unframer (s.input ++ tail) items) :
    ∃ s', writeLoop transport fuel s = some (.noError, s') ∧ s'.input = [] ∧ s'.rewound = 0 ∧
      Delivers transport s tail items s' := by
  induction fuel generalizing s items with
  | zero => omega
  | succ fuel ih =>
    have hsize : s.inputSizeBytes = 0 ↔ s.input = [] := by
      rw [inputSizeBytes, hrewound, Nat.add_zero, List.length_eq_zero_iff]
    rw [writeLoop]
    by_cases hinput : s.input = []
    · rw [if_pos (hsize.mpr hinput)]
      exact ⟨s, rfl, hinput, hrewound, [], items, .silent rfl rfl rfl ⟨[], rfl⟩, rfl, hexpects⟩
    · obtain ⟨t, heq, ⟨made, items', hadvances, hitems, ht⟩, hrank⟩ :=
        dispatch_delivers hstream hexpects hinput
      obtain ⟨s', hloop, hend, hrewound', hdelivers⟩ := ih (s := t) (by omega)
        (hadvances.rewound.trans hrewound) ht
      rw [if_neg (mt hsize.mp hinput), heq]
      refine ⟨s', hloop, hend, hrewound', ?_⟩
      rw [hitems]
      exact .of_advances hadvances hdelivers

end Unframing

/-- A chunk of framed packets is consumed without an error, and the items come out. -/
theorem write_expects (hstream : transport.stream.AcceptsEverything) (u : Unframer)
    (history : List StreamCall) (chunk tail : List UInt8) (items : List Item)
    (hexpects : Expects transport u (chunk ++ tail) items) :
    ∃ written items', u.write transport history chunk = some written ∧
      written.returnCode = .noError ∧ written.bytesConsumed = chunk.length ∧
      Expects transport written.unframer tail items' ∧ items = itemsOf written.calls ++ items' ∧
      (∀ call ∈ written.calls, call.2 ≠ .write []) ∧
      (∀ call ∈ written.calls, call.1 ≤ chunk.length) := by
  obtain ⟨s', heq, hinput, hrewound, made, items', hadvances, hitems, hafter⟩ :=
    Unframing.writeLoop_delivers (s := ⟨u, chunk, 0, history, []⟩) hstream
      (2 * chunk.length + 2) (Unframing.rank_lt u chunk history) rfl hexpects
  rw [hinput] at hafter
  have hcalls : s'.calls = made := hadvances.calls
  unfold Unframer.write
  rw [heq]
  refine ⟨_, items', rfl, rfl, ?_, hafter, ?_, ?_, ?_⟩
  · simp only [Unframing.inputSizeBytes, hinput, hrewound, List.length_nil, Nat.add_zero,
      Nat.cast_zero, sub_zero]
  · rw [hitems, hcalls]
  · rw [hcalls]
    exact hadvances.nonempty
  · rw [hcalls]
    exact fun call hcall => (hadvances.place call hcall).2

/-- Successive calls of `Unframer::Write`, with what each leaves. -/
def Unframer.writeChunks (transport : Transport) (u : Unframer) (history : List StreamCall) :
    List (List UInt8) → Option (List Written)
  | [] => some []
  | chunk :: chunks =>
    match u.write transport history chunk with
    | none => none
    | some written =>
      (written.unframer.writeChunks transport (history ++ written.calls.map Prod.snd) chunks).map
        (written :: ·)

theorem writeChunks_expects (hstream : transport.stream.AcceptsEverything) (u : Unframer)
    (history : List StreamCall) (chunks : List (List UInt8)) (items : List Item)
    (hexpects : Expects transport u chunks.flatten items) :
    ∃ results, u.writeChunks transport history chunks = some results ∧
      results.map (fun r => (r.returnCode, r.bytesConsumed)) =
        chunks.map (fun chunk => (.noError, (chunk.length : Int))) ∧
      items = itemsOf (results.flatMap Written.calls) ∧
      (∀ call ∈ results.flatMap Written.calls, call.2 ≠ .write []) := by
  induction chunks generalizing u history items with
  | nil => exact ⟨[], rfl, rfl, hexpects.items_nil, nofun⟩
  | cons chunk chunks ih =>
    obtain ⟨written, items', hwrite, hcode, hconsumed, hafter, hitems, hnonempty, _⟩ :=
      write_expects hstream u history chunk chunks.flatten items hexpects
    obtain ⟨results, hresults, hcodes, hitems', hnonempty'⟩ :=
      ih written.unframer (history ++ written.calls.map Prod.snd) items' hafter
    refine ⟨written :: results, ?_, ?_, ?_, ?_⟩
    · rw [Unframer.writeChunks, hwrite]
      simp only [hresults, Option.map_some]
    · rw [List.map_cons, List.map_cons, hcodes, hcode, hconsumed]
    · rw [hitems, hitems', List.flatMap_cons, itemsOf_append]
    · intro call hcall
      rw [List.flatMap_cons] at hcall
      exact (List.mem_append.mp hcall).elim (hnonempty call) (hnonempty' call)

/-- The calls that hand over one packet: its payload in pieces, and then its end. -/
def packetCalls (pieces : List (List UInt8)) : List StreamCall :=
  pieces.map .write ++ [.packetDone true]

theorem take_write {data payload : List UInt8} {items rest : List Item}
    (h : data.map .byte ++ items = packetItems payload ++ rest) :
    ∃ payload', payload = data ++ payload' ∧ items = packetItems payload' ++ rest := by
  induction data generalizing payload with
  | nil => exact ⟨payload, rfl, h⟩
  | cons c data ih =>
    cases payload with
    | nil => exact nomatch (List.cons.inj h).1
    | cons d payload =>
      obtain ⟨hc, hrest⟩ := List.cons.inj h
      obtain ⟨payload', hpayload, hitems⟩ := ih hrest
      exact ⟨payload', by rw [hpayload, Item.byte.inj hc, List.cons_append], hitems⟩

theorem take_packet {calls : List StreamCall} {payload : List UInt8} {rest : List Item}
    (h : calls.flatMap StreamCall.items = packetItems payload ++ rest) :
    ∃ pieces calls', calls = packetCalls pieces ++ calls' ∧ pieces.flatten = payload ∧
      calls'.flatMap StreamCall.items = rest := by
  induction calls generalizing payload with
  | nil => cases payload <;> exact nomatch h
  | cons call calls ih =>
    cases call with
    | write data =>
      obtain ⟨payload', hpayload, hitems⟩ := take_write h
      obtain ⟨pieces, calls', hcalls, hpieces, hrest⟩ := ih hitems
      refine ⟨data :: pieces, calls', ?_, ?_, hrest⟩
      · rw [hcalls]
        rfl
      · rw [List.flatten_cons, hpieces, hpayload]
    | packetDone isValid =>
      cases payload with
      | nil =>
        obtain ⟨hdone, hrest⟩ := List.cons.inj h
        rw [Item.packetDone.inj hdone]
        exact ⟨[], calls, rfl, rfl, hrest⟩
      | cons d payload => exact nomatch (List.cons.inj h).1

/-- Calls without empty writes are known from their items, up to how payloads are cut. -/
theorem calls_of_items (calls : List StreamCall) (payloads : List (List UInt8))
    (hnonempty : ∀ call ∈ calls, call ≠ .write [])
    (h : calls.flatMap StreamCall.items = payloads.flatMap packetItems) :
    ∃ pieces : List (List (List UInt8)), calls = pieces.flatMap packetCalls ∧
      pieces.map List.flatten = payloads := by
  induction payloads generalizing calls with
  | nil =>
    refine ⟨[], ?_, rfl⟩
    cases calls with
    | nil => rfl
    | cons call calls =>
      have hitems := (List.append_eq_nil_iff.mp h).1
      cases call with
      | write data =>
        have hdata := List.map_eq_nil_iff.mp hitems
        exact absurd (congrArg StreamCall.write hdata) (hnonempty _ List.mem_cons_self)
      | packetDone isValid => exact nomatch hitems
  | cons payload payloads ih =>
    rw [List.flatMap_cons] at h
    obtain ⟨piece, calls', hcalls, hpiece, hrest⟩ := take_packet h
    obtain ⟨pieces, hcalls', hpieces⟩ := ih calls' (fun call hcall => hnonempty call (by
      rw [hcalls]
      exact List.mem_append_right _ hcall)) hrest
    refine ⟨piece :: pieces, ?_, ?_⟩
    · rw [hcalls, hcalls', List.flatMap_cons]
    · rw [List.map_cons, hpiece, hpieces]

/-- Every sequence of payloads comes out of the unframer as it went into the framer, however the
payloads are cut into chunks and the wire into writes. -/
theorem framing_round_trip (updateCrcCcitt : UInt16 → UInt8 → UInt16)
    (outgoing incoming : WriteStream) (houtgoing : outgoing.AcceptsEverything)
    (hincoming : incoming.AcceptsEverything) (packets : List (List (List UInt8)))
    (hpackets : ∀ chunks ∈ packets, chunks.flatten.length < 2 ^ 32)
    (framerCrc unframerCrc : UInt16) (remaining : Nat) (writes : List (List UInt8))
    (hwrites : writes.flatten =
      ((Framer.create framerCrc).sendPackets ⟨updateCrcCcitt, outgoing⟩ [] packets).2.2.flatMap
        StreamCall.bytes) :
    (∀ code ∈ ((Framer.create framerCrc).sendPackets ⟨updateCrcCcitt, outgoing⟩ [] packets).1,
      code = .noError) ∧
    ∃ (results : List Written) (pieces : List (List (List UInt8))), (Unframer.create remaining unframerCrc).writeChunks
        ⟨updateCrcCcitt, incoming⟩ [] writes = some results ∧
      results.map (fun r => (r.returnCode, r.bytesConsumed)) =
        writes.map (fun data => (.noError, (data.length : Int))) ∧
      (results.flatMap Written.calls).map Prod.snd = pieces.flatMap packetCalls ∧
      pieces.map List.flatten = packets.map List.flatten := by
  have houtgoing : (⟨updateCrcCcitt, outgoing⟩ : Transport).stream.AcceptsEverything := houtgoing
  have hincoming : (⟨updateCrcCcitt, incoming⟩ : Transport).stream.AcceptsEverything := hincoming
  obtain ⟨codes, made, f, hsent, hcodes, hbytes⟩ :=
    sendPackets_spec houtgoing (Framer.create framerCrc) [] packets
  rw [hsent] at hwrites ⊢
  refine ⟨hcodes, ?_⟩
  have hwire : Expects ⟨updateCrcCcitt, incoming⟩ (Unframer.create remaining unframerCrc)
      writes.flatten ((packets.map List.flatten).flatMap packetItems) := by
    rw [hwrites, List.nil_append, hbytes]
    cases packets with
    | nil => exact .idle rfl rfl rfl
    | cons packet packets =>
      have hrest : Sendable (packets.map List.flatten) := by
        intro payload hpayload
        obtain ⟨chunks, hchunks, heq⟩ := List.mem_map.mp hpayload
        rw [← heq]
        exact hpackets chunks (List.mem_cons_of_mem _ hchunks)
      have h : Expects ⟨updateCrcCcitt, incoming⟩ (Unframer.create remaining unframerCrc) _ _ :=
        .start [kEscapeNop, kEscapeStart, kPacketStart] packet.flatten (packets.map List.flatten)
          rfl rfl (.nop false) (hpackets packet List.mem_cons_self) hrest
      rw [wire, List.flatMap_map] at h
      exact h
  obtain ⟨results, hresults, hreturns, hitems, hnonempty⟩ := writeChunks_expects
    hincoming _ [] writes _ hwire
  have hcalls : ((results.flatMap Written.calls).map Prod.snd).flatMap StreamCall.items =
      (packets.map List.flatten).flatMap packetItems := by
    rw [hitems, itemsOf, List.flatMap_map]
  obtain ⟨pieces, hpieces, hflatten⟩ := calls_of_items _ _ (fun call hcall => by
    obtain ⟨placed, hplaced, heq⟩ := List.mem_map.mp hcall
    rw [← heq]
    exact hnonempty placed hplaced) hcalls
  exact ⟨results, pieces, hresults, hreturns, hpieces, hflatten⟩

/-- Two packets, cut inside the start sequence, an escape pair and a crc. -/
theorem framing_round_trip_two :
    ∃ (results : List Written) (pieces : List (List (List UInt8))), (Unframer.create 9 1).writeChunks
        ⟨fun crc c => crc * 3 + c.toUInt16, ⟨fun _ data => data.length⟩⟩ []
        [[0xfe, 0xff], [0xfd, 2, 0, 0, 0, 0xff], [0xff, 7, 136], [189, 0xff, 0xfd, 0, 0, 0, 0, 65, 63]] =
        some results ∧
      results.map (fun r => (r.returnCode, r.bytesConsumed)) =
        [(.noError, 2), (.noError, 6), (.noError, 3), (.noError, 9)] ∧
      (results.flatMap Written.calls).map Prod.snd = pieces.flatMap packetCalls ∧
      pieces.map List.flatten = [[0xff, 7], []] :=
  (framing_round_trip (fun crc c => crc * 3 + c.toUInt16) ⟨fun _ data => data.length⟩
    ⟨fun _ data => data.length⟩ (fun _ _ => rfl) (fun _ _ => rfl) [[[0xff], [7]], []] (by decide) 5 1 9
    [[0xfe, 0xff], [0xfd, 2, 0, 0, 0, 0xff], [0xff, 7, 136], [189, 0xff, 0xfd, 0, 0, 0, 0, 65, 63]]
    (by decide)).2

end StencilGraph.Micro
