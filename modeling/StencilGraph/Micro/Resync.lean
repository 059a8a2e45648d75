import StencilGraph.Micro.FramingRoundTrip

namespace StencilGraph.Micro

open Framework Escape Unframer Framer

/-- A start sequence with its nop byte lies ahead, and `rest` after it; in the start sequence the
flag is what the bytes read so far make it. -/
inductive Toward (rest : List UInt8) : Bool → List UInt8 → Prop
  | ahead (flag : Bool) (noise : List UInt8) :
      Toward rest flag (noise ++ ([kEscapeNop, kEscapeStart, kPacketStart] ++ rest))
  | within (flag : Bool) (lead : List UInt8) (h : Lead flag lead) : Toward rest flag (lead ++ rest)

variable {rest wire : List UInt8} {flag : Bool} {c : UInt8}

theorem Toward.length_lt (h : Toward rest flag wire) : rest.length < wire.length := by
  cases h with
  | ahead =>
    simp only [List.length_append, List.length_cons]
    omega
  | within _ h =>
    have hpos := List.length_pos_iff.mpr h.ne_nil
    rw [List.length_append]
    omega

theorem Toward.step (h : Toward rest flag (c :: wire)) :
    (∀ flag', Toward rest flag' wire) ∨ ∃ lead, Lead flag (c :: lead) ∧ wire = lead ++ rest := by
  generalize htotal : c :: wire = total at h
  cases h with
  | ahead noise =>
    cases noise with
    | nil =>
      obtain ⟨hc, hrest⟩ := List.cons.inj htotal
      rw [hc]
      exact .inr ⟨_, .nop flag, hrest⟩
    | cons d noise =>
      rw [(List.cons.inj htotal).2]
      exact .inl (fun flag' => .ahead flag' noise)
  | within lead h =>
    cases lead with
    | nil => exact absurd rfl h.ne_nil
    | cons d lead =>
      obtain ⟨hd, hrest⟩ := List.cons.inj htotal
      rw [hd]
      exact .inr ⟨lead, h, hrest⟩

/-- The escape flag after a byte that `ConsumeInput` takes. -/
def flagAfter : ByteAction → Bool
  | .skip flag => flag
  | _ => false

theorem Lead.consume {lead : List UInt8} (h : Lead flag (c :: lead)) :
    byteAction flag c = .shortPacket ∨ Lead (flagAfter (byteAction flag c)) lead := by
  generalize htotal : c :: lead = total at h
  cases h with
  | nop =>
    obtain ⟨hc, hlead⟩ := List.cons.inj htotal
    rw [hc, hlead]
    cases flag <;> exact .inr .escape
  | escape =>
    obtain ⟨hc, hlead⟩ := List.cons.inj htotal
    rw [hc, hlead]
    exact .inr .start
  | start =>
    rw [(List.cons.inj htotal).1]
    exact .inl rfl

theorem Toward.consume (h : Toward rest flag (c :: wire))
    (hshort : byteAction flag c ≠ .shortPacket) :
    Toward rest (flagAfter (byteAction flag c)) wire := by
  cases h.step with
  | inl hnoise => exact hnoise _
  | inr hlead =>
    obtain ⟨lead, hlead, hwire⟩ := hlead
    rw [hwire]
    exact .within _ lead (hlead.consume.resolve_left hshort)

theorem flag_of_shortPacket (h : byteAction flag c = .shortPacket) : flag = true := by
  cases flag with
  | true => rfl
  | false =>
    unfold byteAction at h
    rw [if_neg Bool.false_ne_true] at h
    split_ifs at h

theorem consumeInputLoop_toward (n : Nat) (buffer input tail : List UInt8)
    (h : Toward rest flag (input ++ tail)) :
    Toward rest (consumeInputLoop n flag buffer input).sawEscapeStart
      ((consumeInputLoop n flag buffer input).input ++ tail) := by
  induction input generalizing flag buffer with
  | nil => exact h
  | cons c input ih =>
    have hconsume := h.consume
    rw [consumeInputLoop]
    cases haction : byteAction flag c with
    | shortPacket =>
      rw [flag_of_shortPacket haction] at h
      exact h
    | invalidEscape =>
      rw [haction] at hconsume
      exact hconsume ByteAction.noConfusion
    | skip flag' =>
      rw [haction] at hconsume
      exact ih buffer (hconsume ByteAction.noConfusion)
    | store =>
      rw [haction] at hconsume
      simp only
      split_ifs
      · exact hconsume ByteAction.noConfusion
      · exact ih (buffer ++ [c]) (hconsume ByteAction.noConfusion)

/-- `FindPacketStart` ahead of a start sequence: it stops after that one, or after an earlier one
in the noise, or at the end of the input. -/
theorem findPacketStartLoop_toward (input tail : List UInt8) (h : Toward rest flag (input ++ tail)) :
    (∃ input', findPacketStartLoop flag input = (false, true, input') ∧ input' ++ tail = rest) ∨
      ∃ flag' found input', findPacketStartLoop flag input = (flag', found, input') ∧
        Toward rest flag' (input' ++ tail) ∧ (found = false → input' = []) := by
  induction input generalizing flag with
  | nil => exact .inr ⟨flag, false, [], rfl, h, fun _ => rfl⟩
  | cons c input ih =>
    have h : Toward rest flag (c :: (input ++ tail)) := h
    cases h.step with
    | inl hnoise =>
      rw [findPacketStartLoop]
      split_ifs
      · exact ih (hnoise true)
      · exact .inr ⟨false, true, input, rfl, hnoise false, Bool.noConfusion⟩
      · exact ih (hnoise false)
    | inr hlead =>
      obtain ⟨lead, hlead, hwire⟩ := hlead
      generalize htotal : c :: lead = total at hlead
      cases hlead with
      | nop =>
        obtain ⟨hc, hl⟩ := List.cons.inj htotal
        have hnext : Toward rest false (input ++ tail) := by
          rw [hwire, hl]
          exact .within _ _ .escape
        rw [hc]
        exact ih hnext
      | escape =>
        obtain ⟨hc, hl⟩ := List.cons.inj htotal
        have hnext : Toward rest true (input ++ tail) := by
          rw [hwire, hl]
          exact .within _ _ .start
        rw [hc]
        exact ih hnext
      | start =>
        obtain ⟨hc, hl⟩ := List.cons.inj htotal
        rw [hc]
        exact .inl ⟨input, rfl, by rw [hwire, hl]; rfl⟩

/-- The buffer has room for what its state reads. -/
def Unframer.Ok (u : Unframer) : Prop :=
  match u.state with
  | .findPacketStart => u.buffer = []
  | .findPacketLength => u.buffer.length < 4
  | .findPacketCrc => u.buffer = []
  | .findCrcEnd => u.buffer.length < 2

theorem ok_findPacketStart {u : Unframer} (h : u.state = .findPacketStart) :
    u.Ok ↔ u.buffer = [] := by
  unfold Unframer.Ok
  rw [h]

theorem ok_findPacketLength {u : Unframer} (h : u.state = .findPacketLength) :
    u.Ok ↔ u.buffer.length < 4 := by
  unfold Unframer.Ok
  rw [h]

theorem ok_findPacketCrc {u : Unframer} (h : u.state = .findPacketCrc) :
    u.Ok ↔ u.buffer = [] := by
  unfold Unframer.Ok
  rw [h]

theorem ok_findCrcEnd {u : Unframer} (h : u.state = .findCrcEnd) :
    u.Ok ↔ u.buffer.length < 2 := by
  unfold Unframer.Ok
  rw [h]

namespace Unframing

variable {transport : Transport} {s s' : Unframing} {tail payload : List UInt8}

/-- A round before the start sequence of the packet is complete: the start sequence still lies
ahead, and without an error there is less to do. -/
def StillToward (rest : List UInt8) (s s' : Unframing) (tail : List UInt8) (code : TvmCrtError) :
    Prop :=
  Toward rest s'.unframer.sawEscapeStart (s'.input ++ tail) ∧
    (code = .noError → s'.unframer.Ok ∧ s'.rank < s.rank)

/-- The round in which the start sequence is completed. -/
def Begins (transport : Transport) (payload : List UInt8) (s s' : Unframing) (tail : List UInt8)
    (code : TvmCrtError) : Prop :=
  code = .noError ∧ s'.input ++ tail = packetRest transport payload ∧
    Expects transport s'.unframer (s'.input ++ tail) (packetItems payload) ∧ s'.rank < s.rank

theorem findPacketStart_toward (hok : s.unframer.Ok) (hstate : s.unframer.state = .findPacketStart)
    (hpayload : payload.length < 2 ^ 32)
    (htoward : Toward (packetRest transport payload) s.unframer.sawEscapeStart (s.input ++ tail))
    (hinput : s.input ≠ []) :
    ∃ s', s.findPacketStart transport = some (.noError, s') ∧ Advances s s' [] ∧
      (StillToward (packetRest transport payload) s s' tail .noError ∨
        Begins transport payload s s' tail .noError) := by
  have hpos : 0 < s.input.length := List.length_pos_iff.mpr hinput
  have hbuffer : s.unframer.buffer = [] := (ok_findPacketStart hstate).mp hok
  have hsuffix := findPacketStartLoop_suffix s.unframer.sawEscapeStart s.input
  have hprogress := findPacketStartLoop_progress s.unframer.sawEscapeStart s.input hinput
  unfold findPacketStart
  cases findPacketStartLoop_toward s.input tail htoward with
  | inl hfound =>
    obtain ⟨input', hloop, hrest⟩ := hfound
    rw [hloop] at hsuffix hprogress ⊢
    refine ⟨_, rfl, .silent rfl rfl rfl hsuffix, .inr ⟨rfl, hrest, ?_, ?_⟩⟩
    · have hend : Sendable [] := nofun
      have hnil : packetRest transport payload ++ Framer.wire transport [] =
          packetRest transport payload := List.append_nil _
      simp only [if_true, hrest]
      rw [← hnil, ← List.append_nil (packetItems payload)]
      exact .begun rfl hbuffer rfl rfl hpayload hend
    · simp only [rank, if_true, hstate, reduceCtorEq, if_false] at hprogress ⊢
      omega
  | inr hmore =>
    obtain ⟨flag', found, input', hloop, htoward', hempty⟩ := hmore
    rw [hloop] at hsuffix hprogress ⊢
    refine ⟨_, rfl, .silent rfl rfl rfl hsuffix, .inl ?_⟩
    cases found with
    | false =>
      refine ⟨htoward', fun _ => ⟨hok, ?_⟩⟩
      simp only [rank, Bool.false_eq_true, if_false, hstate, reduceCtorEq] at hprogress ⊢
      omega
    | true =>
      refine ⟨htoward', fun _ => ⟨?_, ?_⟩⟩
      · change s.unframer.buffer.length < 4
        rw [hbuffer]
        exact Nat.zero_lt_succ 3
      · simp only [rank, if_true, hstate, reduceCtorEq, if_false] at hprogress ⊢
        omega

theorem stopAt_toward (n : Nat) (htoward : Toward rest s.unframer.sawEscapeStart (s.input ++ tail)) :
    Toward rest (s.stopAt n).sawEscapeStart ((s.stopAt n).input ++ tail) :=
  consumeInputLoop_toward n _ s.input tail htoward

theorem afterConsume_rank (n : Nat) (updateCrc : Bool) (hroom : s.unframer.buffer.length < n)
    (hcode : (s.stopAt n).toReturn = .noError) (hinput : s.input ≠ []) :
    (s.afterConsume transport n updateCrc).rank < s.rank := by
  have hprogress : (s.stopAt n).input.length < s.input.length :=
    (consumeInputLoop_consumes n _ _ s.input hroom).progress hcode hinput
  change 2 * (s.stopAt n).input.length + (if s.unframer.state = .findPacketCrc then 1 else 0) <
    2 * s.input.length + if s.unframer.state = .findPacketCrc then 1 else 0
  omega

/-- A round of `FindPacketLength` stops where `ConsumeInput` does. -/
theorem findPacketLength_round (transport : Transport) (hok : s.unframer.Ok)
    (hstate : s.unframer.state = .findPacketLength) (hinput : s.input ≠ []) :
    ∃ s', s.findPacketLength transport = some ((s.stopAt 4).toReturn, s') ∧ Advances s s' [] ∧
      s'.unframer.sawEscapeStart = (s.stopAt 4).sawEscapeStart ∧ s'.input = (s.stopAt 4).input ∧
      ((s.stopAt 4).toReturn = .noError → s'.unframer.Ok ∧ s'.rank < s.rank) := by
  have hroom : s.unframer.buffer.length < 4 := (ok_findPacketLength hstate).mp hok
  have hconsumes := consumeInputLoop_consumes 4 s.unframer.sawEscapeStart _ s.input hroom
  have hadvances : Advances s (s.afterConsume transport 4 true) [] :=
    afterConsume_advances 4 true hroom
  rw [findPacketLength_eq hroom]
  refine ⟨_, rfl, ?_⟩
  split_ifs with hfull
  · refine ⟨lengthRead_advances hadvances, rfl, rfl, fun hcode => ⟨rfl, ?_⟩⟩
    have hprogress : (s.stopAt 4).input.length < s.input.length := hconsumes.progress hcode hinput
    change 2 * (s.stopAt 4).input.length + 1 < 2 * s.input.length + _
    omega
  · refine ⟨hadvances, rfl, rfl, fun hcode => ⟨?_, ?_⟩⟩
    · have hlt : (s.stopAt 4).buffer.length < 4 :=
        lt_of_le_of_ne hconsumes.fits (fun h => hfull ⟨hcode, h⟩)
      have hstate' : (s.afterConsume transport 4 true).unframer.state = .findPacketLength := hstate
      exact (ok_findPacketLength hstate').mpr hlt
    · exact afterConsume_rank 4 true hroom hcode hinput

theorem findPacketLength_toward (transport : Transport) (hok : s.unframer.Ok)
    (hstate : s.unframer.state = .findPacketLength)
    (htoward : Toward rest s.unframer.sawEscapeStart (s.input ++ tail)) (hinput : s.input ≠ []) :
    ∃ code s', s.findPacketLength transport = some (code, s') ∧ Advances s s' [] ∧
      StillToward rest s s' tail code := by
  obtain ⟨s', heq, hadvances, hflag, hrest, hend⟩ :=
    findPacketLength_round transport hok hstate hinput
  refine ⟨_, s', heq, hadvances, ?_, hend⟩
  rw [hflag, hrest]
  exact stopAt_toward 4 htoward

/-- A round of `FindCrcEnd` stops where `ConsumeInput` does. -/
theorem findCrcEnd_round (transport : Transport) (hok : s.unframer.Ok)
    (hstate : s.unframer.state = .findCrcEnd) (hinput : s.input ≠ []) :
    ∃ s' made, s.findCrcEnd transport = some ((s.stopAt 2).toReturn, s') ∧ Advances s s' made ∧
      s'.unframer.sawEscapeStart = (s.stopAt 2).sawEscapeStart ∧ s'.input = (s.stopAt 2).input ∧
      ((s.stopAt 2).toReturn = .noError → s'.unframer.Ok ∧ s'.rank < s.rank) ∧
      ((s.stopAt 2).toReturn ≠ .noError → made = []) := by
  have hroom : s.unframer.buffer.length < 2 := (ok_findCrcEnd hstate).mp hok
  have hconsumes := consumeInputLoop_consumes 2 s.unframer.sawEscapeStart _ s.input hroom
  have hadvances : Advances s (s.afterConsume transport 2 false) [] :=
    afterConsume_advances 2 false hroom
  rw [findCrcEnd_eq hroom]
  split_ifs with hfull
  · refine ⟨_, _, rfl, hadvances.trans (crcRead_advances _), rfl, rfl, fun hcode => ⟨rfl, ?_⟩,
      fun hcode => absurd hfull.1 hcode⟩
    have hprogress : (s.stopAt 2).input.length < s.input.length := hconsumes.progress hcode hinput
    change 2 * (s.stopAt 2).input.length + 0 < 2 * s.input.length + _
    omega
  · refine ⟨_, [], rfl, hadvances, rfl, rfl, fun hcode => ⟨?_, ?_⟩, fun _ => rfl⟩
    · have hlt : (s.stopAt 2).buffer.length < 2 :=
        lt_of_le_of_ne hconsumes.fits (fun h => hfull ⟨hcode, h⟩)
      have hstate' : (s.afterConsume transport 2 false).unframer.state = .findCrcEnd := hstate
      exact (ok_findCrcEnd hstate').mpr hlt
    · exact afterConsume_rank 2 false hroom hcode hinput

theorem findCrcEnd_toward (transport : Transport) (hok : s.unframer.Ok)
    (hstate : s.unframer.state = .findCrcEnd)
    (htoward : Toward rest s.unframer.sawEscapeStart (s.input ++ tail)) (hinput : s.input ≠ []) :
    ∃ code s' made, s.findCrcEnd transport = some (code, s') ∧ Advances s s' made ∧
      StillToward rest s s' tail code := by
  obtain ⟨s', made, heq, hadvances, hflag, hrest, hend, -⟩ :=
    findCrcEnd_round transport hok hstate hinput
  refine ⟨_, s', made, heq, hadvances, ?_, hend⟩
  rw [hflag, hrest]
  exact stopAt_toward 2 htoward

theorem findPacketCrcLoop_toward (hstream : transport.stream.AcceptsEverything) (fuel : Nat)
    (hfuel : s.input.length < fuel) (hbuffer : s.unframer.buffer = [])
    (hstate : s.unframer.state = .findPacketCrc)
    (htoward : Toward rest s.unframer.sawEscapeStart (s.input ++ tail)) :
    ∃ code s' made, findPacketCrcLoop transport fuel s = some (code, s') ∧ Advances s s' made ∧
      Toward rest s'.unframer.sawEscapeStart (s'.input ++ tail) ∧
      (code = .noError → s'.unframer.buffer = [] ∧
        (s'.unframer.state = .findPacketCrc ∧ s'.input = [] ∨ s'.unframer.state = .findCrcEnd)) := by
  induction fuel generalizing s with
  | zero => omega
  | succ fuel ih =>
    by_cases hremaining : s.unframer.numPayloadBytesRemaining = 0
    · rw [findPacketCrcLoop, if_pos hremaining]
      exact ⟨_, _, [], rfl, .silent rfl rfl rfl ⟨[], rfl⟩, htoward, fun _ => ⟨hbuffer, .inr rfl⟩⟩
    · have hpos : 0 < s.unframer.numPayloadBytesRemaining := Nat.pos_of_ne_zero hremaining
      generalize hn : min s.unframer.numPayloadBytesRemaining 128 = n
      have hroom : s.unframer.buffer.length < n := by
        rw [hbuffer, List.length_nil]
        omega
      have hconsumes := consumeInputLoop_consumes n s.unframer.sawEscapeStart _ s.input hroom
      rw [findPacketCrcLoop_eq hstream fuel n hbuffer hpos hn.symm]
      split_ifs with hcode hstored
      · exact ⟨_, _, [], rfl, afterConsume_advances n true hroom, stopAt_toward n htoward,
          fun h => absurd h hcode⟩
      · refine ⟨_, _, [], rfl, afterConsume_advances n true hroom, stopAt_toward n htoward,
          fun _ => ⟨hstored, .inl ⟨hstate, ?_⟩⟩⟩
        apply (hconsumes.full_or_empty (not_not.mp hcode)).resolve_left
        intro hfull
        have hzero : (s.stopAt n).buffer.length = 0 := List.length_eq_zero_iff.mpr hstored
        change (s.stopAt n).buffer.length = n at hfull
        omega
      · have hinput : s.input ≠ [] := by
          intro hnil
          apply hstored
          rw [stopAt, hnil, consumeInputLoop, hbuffer]
        have hshorter : (s.stopAt n).input.length < s.input.length :=
          hconsumes.progress (not_not.mp hcode) hinput
        have hround : (s.payloadRound transport n).input.length < fuel := by
          change (s.stopAt n).input.length < fuel
          omega
        obtain ⟨code, s', made, heq, hadvances, htoward', hend⟩ := ih (s := s.payloadRound transport n)
          hround rfl hstate (stopAt_toward n htoward)
        exact ⟨code, s', _, heq, (payloadRound_advances n hroom hstored).trans hadvances, htoward',
          hend⟩

theorem findPacketCrc_toward (hstream : transport.stream.AcceptsEverything) (hok : s.unframer.Ok)
    (hstate : s.unframer.state = .findPacketCrc)
    (htoward : Toward rest s.unframer.sawEscapeStart (s.input ++ tail)) (hinput : s.input ≠ []) :
    ∃ code s' made, s.findPacketCrc transport = some (code, s') ∧ Advances s s' made ∧
      StillToward rest s s' tail code := by
  have hpos : 0 < s.input.length := List.length_pos_iff.mpr hinput
  obtain ⟨code, s', made, heq, hadvances, htoward', hend⟩ := findPacketCrcLoop_toward hstream
    (s.input.length + 1) (Nat.lt_succ_self _) ((ok_findPacketCrc hstate).mp hok) hstate htoward
  refine ⟨code, s', made, heq, hadvances, htoward', fun hcode => ?_⟩
  have hle := hadvances.le
  obtain ⟨hbuffer, hcases⟩ := hend hcode
  unfold rank
  rw [if_pos hstate]
  cases hcases with
  | inl h =>
    refine ⟨(ok_findPacketCrc h.1).mpr hbuffer, ?_⟩
    rw [h.2, if_pos h.1, List.length_nil]
    omega
  | inr h =>
    refine ⟨(ok_findCrcEnd h).mpr (by rw [hbuffer]; exact Nat.two_pos), ?_⟩
    rw [if_neg (by rw [h]; exact nofun)]
    omega

theorem dispatch_toward (hstream : transport.stream.AcceptsEverything) (hok : s.unframer.Ok)
    (hpayload : payload.length < 2 ^ 32)
    (htoward : Toward (packetRest transport payload) s.unframer.sawEscapeStart (s.input ++ tail))
    (hinput : s.input ≠ []) :
    ∃ code s' made, s.dispatch transport = some (code, s') ∧ Advances s s' made ∧
      (StillToward (packetRest transport payload) s s' tail code ∨
        Begins transport payload s s' tail code ∧ made = []) ∧
      (s.unframer.state = .findPacketStart → code = .noError) := by
  unfold dispatch
  cases hstate : s.unframer.state with
  | findPacketStart =>
    obtain ⟨s', heq, hadvances, h⟩ := findPacketStart_toward hok hstate hpayload htoward hinput
    exact ⟨_, s', [], heq, hadvances, h.imp_right (fun h => ⟨h, rfl⟩), fun _ => rfl⟩
  | findPacketLength =>
    obtain ⟨code, s', heq, hadvances, h⟩ := findPacketLength_toward transport hok hstate htoward hinput
    exact ⟨code, s', [], heq, hadvances, .inl h, nofun⟩
  | findPacketCrc =>
    obtain ⟨code, s', made, heq, hadvances, h⟩ :=
      findPacketCrc_toward hstream hok hstate htoward hinput
    exact ⟨code, s', made, heq, hadvances, .inl h, nofun⟩
  | findCrcEnd =>
    obtain ⟨code, s', made, heq, hadvances, h⟩ := findCrcEnd_toward transport hok hstate htoward hinput
    exact ⟨code, s', made, heq, hadvances, .inl h, nofun⟩

end Unframing

/-- Calls whose places are counted from `n` bytes further on. -/
def placedBefore (n : Nat) (calls : List (Nat × StreamCall)) : List (Nat × StreamCall) :=
  calls.map (fun call => (call.1 + n, call.2))

theorem itemsOf_placedBefore (n : Nat) (calls : List (Nat × StreamCall)) :
    itemsOf (placedBefore n calls) = itemsOf calls := by
  rw [itemsOf, placedBefore, List.flatMap_map]
  rfl

theorem mem_placedBefore {n : Nat} {calls : List (Nat × StreamCall)} {call : Nat × StreamCall}
    (h : call ∈ placedBefore n calls) : ∃ call' ∈ calls, call = (call'.1 + n, call'.2) := by
  obtain ⟨call', hmem, heq⟩ := List.mem_map.mp h
  exact ⟨call', hmem, heq.symm⟩

/-- The calls made with no more than the rest of the packet to come hand over a part of the packet,
and the unframer expects the other part. -/
def HandsOver (transport : Transport) (payload : List UInt8) (calls : List (Nat × StreamCall))
    (u : Unframer) (wire : List UInt8) : Prop :=
  wire.length ≤ (packetRest transport payload).length ∧
  ∃ early late items, calls = early ++ late ∧
    (∀ call ∈ early, (packetRest transport payload).length < call.1) ∧
    (∀ call ∈ late, call.1 ≤ (packetRest transport payload).length) ∧
    packetItems payload = itemsOf late ++ items ∧ Expects transport u wire items

variable {transport : Transport} {payload tail : List UInt8}

theorem HandsOver.after {calls early : List (Nat × StreamCall)} {u : Unframer}
    (h : HandsOver transport payload calls u wire)
    (hearly : ∀ call ∈ early, (packetRest transport payload).length < call.1) :
    HandsOver transport payload (early ++ calls) u wire := by
  obtain ⟨hwire, early', late, items, hcalls, hearly', hlate, hitems, hexpects⟩ := h
  refine ⟨hwire, early ++ early', late, items, by rw [hcalls, List.append_assoc], ?_, hlate, hitems,
    hexpects⟩
  intro call hcall
  exact (List.mem_append.mp hcall).elim (hearly call) (hearly' call)

namespace Unframing

variable {s s' : Unframing} {made : List (Nat × StreamCall)}

theorem Advances.early (h : Advances s s' made)
    (htoward : Toward rest flag (s'.input ++ tail)) :
    ∀ call ∈ placedBefore tail.length made, rest.length < call.1 := by
  intro call hcall
  obtain ⟨call', hmem, heq⟩ := mem_placedBefore hcall
  have hplace := (h.place call' hmem).1
  have hlength := htoward.length_lt
  rw [List.length_append] at hlength
  rw [heq]
  simp only
  omega

theorem writeLoop_toward (hstream : transport.stream.AcceptsEverything) (fuel : Nat)
    (hfuel : s.rank < fuel) (hrewound : s.rewound = 0) (hok : s.unframer.Ok)
    (hpayload : payload.length < 2 ^ 32)
    (htoward : Toward (packetRest transport payload) s.unframer.sawEscapeStart (s.input ++ tail)) :
    ∃ code s' made, writeLoop transport fuel s = some (code, s') ∧ Advances s s' made ∧
      (s.unframer.state = .findPacketStart → s.input ≠ [] → s'.input.length < s.input.length) ∧
      (Toward (packetRest transport payload) s'.unframer.sawEscapeStart (s'.input ++ tail) ∧
          (code = .noError → s'.unframer.Ok ∧ s'.input = []) ∨
        code = .noError ∧ s'.input = [] ∧
          HandsOver transport payload (placedBefore tail.length made) s'.unframer tail) := by
  induction fuel generalizing s with
  | zero => omega
  | succ fuel ih =>
    have hsize : s.inputSizeBytes = 0 ↔ s.input = [] := by
      rw [inputSizeBytes, hrewound, Nat.add_zero, List.length_eq_zero_iff]
    rw [writeLoop]
    by_cases hinput : s.input = []
    · rw [if_pos (hsize.mpr hinput)]
      exact ⟨_, s, [], rfl, .silent rfl rfl rfl ⟨[], rfl⟩, fun _ h => absurd hinput h,
        .inl ⟨htoward, fun _ => ⟨hok, hinput⟩⟩⟩
    · obtain ⟨code, t, made, heq, hadvances, hround, hstart⟩ :=
        dispatch_toward hstream hok hpayload htoward hinput
      rw [if_neg (mt hsize.mp hinput), heq]
      have hprogress (hstate : s.unframer.state = .findPacketStart) (hrank : t.rank < s.rank) :
          t.input.length < s.input.length := by
        have hzero : s.rank = 2 * s.input.length := by
          rw [rank, hstate, if_neg UnframerState.noConfusion, Nat.add_zero]
        have hle : 2 * t.input.length ≤ t.rank := Nat.le_add_right _ _
        omega
      cases hround with
      | inl hstill =>
        by_cases hcode : code = .noError
        · -- the start sequence still lies ahead: go on
          obtain ⟨htok, hrank⟩ := hstill.2 hcode
          obtain ⟨code', s', made', hloop, hadvances', _, hend⟩ := ih (s := t) (by omega)
            (hadvances.rewound.trans hrewound) htok hstill.1
          simp only [hcode, ne_eq, not_true_eq_false, if_false]
          refine ⟨code', s', made ++ made', hloop, hadvances.trans hadvances', ?_, ?_⟩
          · intro hstate _
            have hle := hadvances'.le
            have hlt := hprogress hstate hrank
            omega
          · refine hend.imp_right (fun h => ⟨h.1, h.2.1, ?_⟩)
            have happend : placedBefore tail.length (made ++ made') =
                placedBefore tail.length made ++ placedBefore tail.length made' := List.map_append
            rw [happend]
            exact h.2.2.after (hadvances.early hstill.1)
        · simp only [ne_eq, hcode, not_false_eq_true, if_true]
          exact ⟨code, t, made, rfl, hadvances, fun h => absurd (hstart h) hcode,
            .inl ⟨hstill.1, fun h => absurd h hcode⟩⟩
      | inr hbegins =>
        obtain ⟨⟨hcode, hrest, hexpects, hrank⟩, hnil⟩ := hbegins
        subst hnil
        obtain ⟨s', hloop, hend, _, made', items', hadvances', hitems, hexpects'⟩ :=
          writeLoop_delivers hstream fuel (by omega) (hadvances.rewound.trans hrewound) hexpects
        simp only [hcode, ne_eq, not_true_eq_false, if_false]
        refine ⟨_, s', [] ++ made', hloop, hadvances.trans hadvances', ?_, .inr ⟨rfl, hend, ?_⟩⟩
        · intro hstate _
          have hle := hadvances'.le
          have hlt := hprogress hstate hrank
          omega
        · have hlength := congrArg List.length hrest
          rw [List.length_append] at hlength
          rw [hend] at hexpects'
          refine ⟨by omega, [], placedBefore tail.length made', items', rfl,
            fun _ h => absurd h List.not_mem_nil, ?_, ?_, hexpects'⟩
          · intro call hcall
            obtain ⟨call', hmem, heq'⟩ := mem_placedBefore hcall
            have hplace := (hadvances'.place call' hmem).2
            rw [heq']
            simp only
            omega
          · rw [itemsOf_placedBefore, hitems]

end Unframing

theorem write_toward (hstream : transport.stream.AcceptsEverything) (u : Unframer)
    (history : List StreamCall) (chunk : List UInt8) (hok : u.Ok) (hpayload : payload.length < 2 ^ 32)
    (htoward : Toward (packetRest transport payload) u.sawEscapeStart (chunk ++ tail)) :
    ∃ written raw left, u.write transport history chunk = some written ∧ chunk = raw ++ left ∧
      written.bytesConsumed = raw.length ∧ (∀ call ∈ written.calls, call.2 ≠ .write []) ∧
      (left ≠ [] → written.unframer.state = .findPacketStart) ∧
      (u.state = .findPacketStart → chunk ≠ [] → raw ≠ []) ∧
      (written.unframer.Ok ∧
          Toward (packetRest transport payload) written.unframer.sawEscapeStart (left ++ tail) ∧
          (∀ call ∈ placedBefore tail.length written.calls,
            (packetRest transport payload).length < call.1) ∨
        left = [] ∧ HandsOver transport payload (placedBefore tail.length written.calls)
          written.unframer tail) := by
  obtain ⟨code, s', made, heq, hadvances, hprogress, hend⟩ :=
    Unframing.writeLoop_toward (s := ⟨u, chunk, 0, history, []⟩) hstream (2 * chunk.length + 2)
      (Unframing.rank_lt u chunk history) rfl hok hpayload htoward
  obtain ⟨raw, hraw⟩ := hadvances.suffix
  have hcalls : s'.calls = made := hadvances.calls
  have hrewound : s'.rewound = 0 := hadvances.rewound
  have hraw : chunk = raw ++ s'.input := hraw
  have hlength := congrArg List.length hraw
  rw [List.length_append] at hlength
  unfold Unframer.write
  rw [heq]
  refine ⟨_, raw, s'.input, rfl, hraw, ?_, ?_, ?_, ?_, ?_⟩
  · simp only [Unframing.inputSizeBytes, hrewound, Nat.add_zero]
    omega
  · rw [hcalls]
    exact hadvances.nonempty
  · intro hleft
    have hcode : code ≠ .noError := by
      intro hcode
      cases hend with
      | inl h => exact hleft (h.2 hcode).2
      | inr h => exact hleft h.2.1
    simp only [ne_eq, hcode, not_false_eq_true, if_true]
  · intro hstate hchunk hnil
    have hlt : s'.input.length < chunk.length := hprogress hstate hchunk
    rw [hnil, List.length_nil] at hlength
    omega
  · rw [hcalls]
    refine hend.imp (fun h => ?_) (fun h => ?_)
    · refine ⟨?_, ?_, hadvances.early h.1⟩
      · by_cases hcode : code = .noError
        · simp only [hcode, ne_eq, not_true_eq_false, if_false]
          exact (h.2 hcode).1
        · simp only [hcode, ne_eq, not_false_eq_true, if_true]
          exact (ok_findPacketStart rfl).mpr rfl
      · by_cases hcode : code = .noError
        · simp only [hcode, ne_eq, not_true_eq_false, if_false]
          exact h.1
        · simp only [hcode, ne_eq, not_false_eq_true, if_true]
          exact h.1
    · simp only [h.1, ne_eq, not_true_eq_false, if_false]
      exact ⟨h.2.1, h.2.2⟩

/-- A caller that feeds the bytes of `wire` to an unframer. Each call made on the stream is kept
with the number of bytes not consumed at that time. -/
structure Feeding where
  unframer : Unframer
  wire : List UInt8
  calls : List (Nat × StreamCall)

namespace Feeding

/-- The caller offers up to `size` bytes; what is not consumed stays at the head of `wire`. -/
def offer (transport : Transport) (f : Feeding) (size : Nat) : Option Feeding :=
  match f.unframer.write transport (f.calls.map Prod.snd) (f.wire.take size) with
  | none => none
  | some written =>
    some ⟨written.unframer, f.wire.drop written.bytesConsumed.toNat,
      f.calls ++ placedBefore (f.wire.drop size).length written.calls⟩

def offerAll (transport : Transport) (f : Feeding) : List Nat → Option Feeding
  | [] => some f
  | size :: sizes =>
    match f.offer transport size with
    | none => none
    | some f => f.offerAll transport sizes

/-- Either the start sequence of the packet lies ahead, or its payload is being handed over. -/
def Resyncs (transport : Transport) (payload : List UInt8) (f : Feeding) : Prop :=
  (∀ call ∈ f.calls, call.2 ≠ .write []) ∧
    (f.unframer.Ok ∧ Toward (packetRest transport payload) f.unframer.sawEscapeStart f.wire ∧
        (∀ call ∈ f.calls, (packetRest transport payload).length < call.1) ∨
      HandsOver transport payload f.calls f.unframer f.wire)

/-- Decreases with every offer of a byte or more. -/
def work (f : Feeding) : Nat :=
  2 * f.wire.length + if f.unframer.state = .findPacketStart then 0 else 1

theorem offer_resyncs (hstream : transport.stream.AcceptsEverything)
    (hpayload : payload.length < 2 ^ 32) (f : Feeding) (size : Nat)
    (h : f.Resyncs transport payload) :
    ∃ f', f.offer transport size = some f' ∧ f'.Resyncs transport payload ∧
      (f.wire = [] → f'.wire = []) ∧ (0 < size → f.wire ≠ [] → f'.work < f.work) := by
  have hsplit : f.wire.take size ++ f.wire.drop size = f.wire := List.take_append_drop size f.wire
  have hchunk (hsize : 0 < size) (hwire : f.wire ≠ []) : f.wire.take size ≠ [] := by
    intro hnil
    exact (List.take_eq_nil_iff.mp hnil).elim hsize.ne' hwire
  have hnonempty {calls : List (Nat × StreamCall)} (hcalls : ∀ call ∈ calls, call.2 ≠ .write []) :
      ∀ call ∈ f.calls ++ placedBefore (f.wire.drop size).length calls, call.2 ≠ .write [] := by
    intro call hcall
    cases List.mem_append.mp hcall with
    | inl hcall => exact h.1 call hcall
    | inr hcall =>
      obtain ⟨call', hmem, heq⟩ := mem_placedBefore hcall
      rw [heq]
      exact hcalls call' hmem
  unfold offer
  cases h.2 with
  | inl htoward =>
    obtain ⟨hok, htoward, hearly⟩ := htoward
    rw [← hsplit] at htoward
    obtain ⟨written, raw, left, hwrite, hraw, hconsumed, hcalls, hstop, hstart, hend⟩ :=
      write_toward hstream f.unframer (f.calls.map Prod.snd) (f.wire.take size) hok hpayload htoward
    have hrest : f.wire.drop written.bytesConsumed.toNat = left ++ f.wire.drop size := by
      rw [hconsumed, Int.toNat_natCast]
      nth_rewrite 1 [← hsplit]
      rw [hraw, List.append_assoc, List.drop_left]
    rw [hwrite]
    refine ⟨_, rfl, ⟨hnonempty hcalls, ?_⟩, ?_, ?_⟩
    · simp only [hrest]
      refine hend.imp (fun h => ⟨h.1, h.2.1, ?_⟩) (fun h => ?_)
      · intro call hcall
        exact (List.mem_append.mp hcall).elim (hearly call) (h.2.2 call)
      · rw [h.1]
        exact h.2.after hearly
    · intro hnil
      rw [hnil, List.drop_nil]
    · intro hsize hwire
      have hlength := congrArg List.length hsplit
      rw [hraw, List.length_append, List.length_append] at hlength
      simp only [work, hrest, List.length_append]
      by_cases hleft : left = []
      · have hpos : 0 < raw.length := by
          apply List.length_pos_iff.mpr
          intro hnil
          rw [hnil, hleft] at hraw
          exact hchunk hsize hwire hraw
        split_ifs <;> omega
      · rw [if_pos (hstop hleft)]
        by_cases hstate : f.unframer.state = .findPacketStart
        · have hpos := List.length_pos_iff.mpr (hstart hstate (hchunk hsize hwire))
          omega
        · rw [if_neg hstate]
          omega
  | inr hhands =>
    obtain ⟨hshort, early, late, items, hcalls, hearly, hlate, hitems, hexpects⟩ := hhands
    rw [← hsplit] at hexpects
    obtain ⟨written, items', hwrite, _, hconsumed, hexpects', hitems', hwritten, hplace⟩ :=
      write_expects hstream f.unframer (f.calls.map Prod.snd) _ _ items hexpects
    have hrest : f.wire.drop written.bytesConsumed.toNat = f.wire.drop size := by
      have hdrop : (f.wire.take size ++ f.wire.drop size).drop (f.wire.take size).length =
          f.wire.drop size := List.drop_left
      rw [hsplit] at hdrop
      rw [hconsumed, Int.toNat_natCast, hdrop]
    have hlength := congrArg List.length hsplit
    rw [List.length_append] at hlength
    rw [hwrite]
    refine ⟨_, rfl, ⟨hnonempty hwritten, .inr ?_⟩, ?_, ?_⟩
    · simp only [hrest]
      refine ⟨by omega, early, late ++ placedBefore (f.wire.drop size).length written.calls, items',
        by rw [hcalls, List.append_assoc], hearly, ?_, ?_, hexpects'⟩
      · intro call hcall
        cases List.mem_append.mp hcall with
        | inl hcall => exact hlate call hcall
        | inr hcall =>
          obtain ⟨call', hmem, heq⟩ := mem_placedBefore hcall
          have hle := hplace call' hmem
          rw [heq]
          simp only
          omega
      · rw [hitems, hitems', itemsOf_append, itemsOf_placedBefore, List.append_assoc]
    · intro hnil
      rw [hnil, List.drop_nil]
    · intro hsize hwire
      have hpos := List.length_pos_iff.mpr (hchunk hsize hwire)
      simp only [work, hrest]
      split_ifs <;> omega

theorem offerAll_resyncs (hstream : transport.stream.AcceptsEverything)
    (hpayload : payload.length < 2 ^ 32) (f : Feeding) (sizes : List Nat)
    (h : f.Resyncs transport payload) :
    ∃ f', f.offerAll transport sizes = some f' ∧ f'.Resyncs transport payload ∧
      ((∀ size ∈ sizes, 0 < size) → f.wire = [] ∨ f.work ≤ sizes.length → f'.wire = []) := by
  induction sizes generalizing f with
  | nil =>
    refine ⟨f, rfl, h, fun _ hwork => hwork.elim id (fun hwork => ?_)⟩
    unfold work at hwork
    rw [List.length_nil] at hwork
    exact List.length_eq_zero_iff.mp (by omega)
  | cons size sizes ih =>
    obtain ⟨f₁, hoffer, h₁, hkeep, hwork⟩ := offer_resyncs hstream hpayload f size h
    obtain ⟨f₂, hall, h₂, hend⟩ := ih f₁ h₁
    rw [offerAll, hoffer]
    refine ⟨f₂, hall, h₂, fun hsizes hlength => ?_⟩
    apply hend (fun n hn => hsizes n (List.mem_cons_of_mem _ hn))
    by_cases hwire : f.wire = []
    · exact .inl (hkeep hwire)
    · have hless := hwork (hsizes size List.mem_cons_self) hwire
      have hle := hlength.resolve_left hwire
      rw [List.length_cons] at hle
      exact .inr (by omega)

end Feeding

/-- Once the wire is used up, the calls made with no more than the rest of the packet to come are
the payload and the end of the packet. -/
theorem HandsOver.finished {calls : List (Nat × StreamCall)} {u : Unframer}
    (hnonempty : ∀ call ∈ calls, call.2 ≠ .write [])
    (h : HandsOver transport payload calls u []) :
    ∃ pieces : List (List UInt8),
      (calls.filter (fun call => call.1 ≤ (packetRest transport payload).length)).map Prod.snd =
        packetCalls pieces ∧ pieces.flatten = payload := by
  obtain ⟨_, early, late, items, hcalls, hearly, hlate, hitems, hexpects⟩ := h
  rw [hexpects.items_nil, List.append_nil] at hitems
  have hfilter : calls.filter (fun call => call.1 ≤ (packetRest transport payload).length) = late := by
    rw [hcalls, List.filter_append, List.filter_eq_nil_iff.mpr, List.filter_eq_self.mpr,
      List.nil_append]
    · intro call hcall
      exact decide_eq_true (hlate call hcall)
    · intro call hcall
      rw [decide_eq_true_iff, not_le]
      exact hearly call hcall
  rw [hfilter]
  have hwrites : ∀ call ∈ late.map Prod.snd, call ≠ .write [] := by
    intro call hcall
    obtain ⟨placed, hplaced, heq⟩ := List.mem_map.mp hcall
    rw [← heq]
    apply hnonempty placed
    rw [hcalls]
    exact List.mem_append_right early hplaced
  obtain ⟨pieces, hpieces, hflatten⟩ := calls_of_items (late.map Prod.snd) [payload] hwrites (by
    rw [List.flatMap_map, List.flatMap_singleton]
    exact hitems.symm)
  match pieces, hflatten with
  | [piece], hflatten =>
    refine ⟨piece, ?_, (List.cons.inj hflatten).1⟩
    rw [hpieces, List.flatMap_singleton]

/-- After any noise a packet from a framer in its reset state is received: the calls made after its
start byte was consumed are the writes of its payload and one good end of packet. The wire is used
up after enough offers. -/
theorem resynchronises (updateCrcCcitt : UInt16 → UInt8 → UInt16) (outgoing incoming : WriteStream)
    (houtgoing : outgoing.AcceptsEverything) (hincoming : incoming.AcceptsEverything) (f : Framer)
    (hreset : f.state = .reset) (chunks : List (List UInt8))
    (hchunks : chunks.flatten.length < 2 ^ 32) (noise packet : List UInt8)
    (hpacket : packet = (f.sendPacket ⟨updateCrcCcitt, outgoing⟩ [] chunks).2.2.flatMap
      StreamCall.bytes)
    (remaining : Nat) (crc : UInt16) (sizes : List Nat) :
    packet.take 3 = [kEscapeNop, kEscapeStart, kPacketStart] ∧
    ∃ fed : Feeding, Feeding.offerAll ⟨updateCrcCcitt, incoming⟩
        ⟨Unframer.create remaining crc, noise ++ packet, []⟩ sizes = some fed ∧
      (fed.wire = [] → ∃ pieces : List (List UInt8),
        (fed.calls.filter (fun call => call.1 ≤ packet.length - 3)).map Prod.snd =
          packetCalls pieces ∧ pieces.flatten = chunks.flatten) ∧
      ((∀ size ∈ sizes, 0 < size) → 2 * (noise ++ packet).length ≤ sizes.length →
        fed.wire = []) := by
  have houtgoing : (⟨updateCrcCcitt, outgoing⟩ : Transport).stream.AcceptsEverything := houtgoing
  have hincoming : (⟨updateCrcCcitt, incoming⟩ : Transport).stream.AcceptsEverything := hincoming
  obtain ⟨codes, made, crc', hsent, _, hbytes⟩ := sendPacket_spec houtgoing f [] chunks
  have hwire : packet = [kEscapeNop, kEscapeStart, kPacketStart] ++
      packetRest ⟨updateCrcCcitt, incoming⟩ chunks.flatten := by
    rw [hpacket, hsent]
    simp only [List.nil_append, hbytes, leadIn, hreset, if_true]
    rfl
  have hstart : Feeding.Resyncs ⟨updateCrcCcitt, incoming⟩ chunks.flatten
      ⟨Unframer.create remaining crc, noise ++ packet, []⟩ := by
    refine ⟨nofun, .inl ⟨rfl, ?_, nofun⟩⟩
    rw [hwire]
    exact .ahead false noise
  obtain ⟨fed, hfed, hresyncs, hend⟩ := Feeding.offerAll_resyncs hincoming hchunks _ sizes hstart
  have hlength : packet.length - 3 =
      (packetRest ⟨updateCrcCcitt, incoming⟩ chunks.flatten).length := by
    rw [hwire, List.length_append]
    exact Nat.add_sub_cancel_left 3 _
  refine ⟨by rw [hwire]; rfl, fed, hfed, ?_, ?_⟩
  · intro hnil
    rw [hlength]
    cases hresyncs.2 with
    | inl h =>
      have hlt := h.2.1.length_lt
      rw [hnil, List.length_nil] at hlt
      omega
    | inr h =>
      rw [hnil] at h
      exact h.finished hresyncs.1
  · intro hsizes hwork
    exact hend hsizes (.inr hwork)

/-- The noise starts a packet of nine bytes; every write offers one byte. -/
theorem resynchronises_after_short_packet :
    ∃ (fed : Feeding) (pieces : List (List UInt8)), Feeding.offerAll
        ⟨fun crc c => crc * 3 + c.toUInt16, ⟨fun _ data => data.length⟩⟩
        ⟨Unframer.create 9 1, [0xff, 0xfd, 9, 0, 0, 0, 1] ++
          [0xfe, 0xff, 0xfd, 1, 0, 0, 0, 7, 27, 190], []⟩ (List.replicate 34 1) = some fed ∧
      (fed.calls.filter (fun call => call.1 ≤ 7)).map Prod.snd = packetCalls pieces ∧
      pieces.flatten = [7] := by
  obtain ⟨_, fed, hfed, hcalls, hend⟩ := resynchronises (fun crc c => crc * 3 + c.toUInt16)
    ⟨fun _ data => data.length⟩ ⟨fun _ data => data.length⟩ (fun _ _ => rfl) (fun _ _ => rfl)
    (Framer.create 5) rfl [[7]] (by decide) [0xff, 0xfd, 9, 0, 0, 0, 1]
    [0xfe, 0xff, 0xfd, 1, 0, 0, 0, 7, 27, 190] (by decide) 9 1 (List.replicate 34 1)
  obtain ⟨pieces, hpieces, hflatten⟩ := hcalls (hend (by decide) (by decide))
  exact ⟨fed, pieces, hfed, hpieces, hflatten⟩

end StencilGraph.Micro
