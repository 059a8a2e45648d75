import StencilGraph.Micro.UnframerRounds

namespace StencilGraph.Micro

open Framework Escape Unframer PacketFieldSizeBytes

namespace Unframer

def bytesNeeded (u : Unframer) : Nat :=
  match u.state with
  | .findPacketStart => 1
  | .findPacketLength =>
    if u.buffer.length < kPayloadLength then kPayloadLength - u.buffer.length else 0
  | .findPacketCrc => u.numPayloadBytesRemaining
  | .findCrcEnd => if u.buffer.length < kCrc then kCrc - u.buffer.length else 0

/-- Chunks that end the packet being received after `n` more wire bytes. -/
inductive PacketEnds : Unframer → Nat → Prop
  | now {u : Unframer} {transport : Transport} {history : List StreamCall} {data : List UInt8}
      {w : Written} {left : Nat} {isValid : Bool}
      (hwrite : u.write transport history data = some w)
      (hdone : (left, .packetDone isValid) ∈ w.calls) : PacketEnds u (data.length - left)
  | later {u : Unframer} {transport : Transport} {history : List StreamCall} {data : List UInt8}
      {w : Written} {n : Nat} (hwrite : u.write transport history data = some w)
      (hcode : w.returnCode = .noError) (hrest : PacketEnds w.unframer n) :
      PacketEnds u (data.length + n)

/-- `BytesNeeded` asks for a byte at least, and for none behind the packet being received. -/
def KnowsNeed (u : Unframer) : Prop :=
  1 ≤ u.bytesNeeded ∧ ∀ n, PacketEnds u n → u.bytesNeeded ≤ n

theorem bytesNeeded_findPacketStart {u : Unframer} (h : u.state = .findPacketStart) :
    u.bytesNeeded = 1 := by
  unfold bytesNeeded
  rw [h]

theorem bytesNeeded_findPacketLength {u : Unframer} (h : u.state = .findPacketLength) :
    u.bytesNeeded = 4 - u.buffer.length := by
  unfold bytesNeeded kPayloadLength
  rw [h]
  show (if u.buffer.length < 4 then 4 - u.buffer.length else 0) = _
  split_ifs <;> omega

theorem bytesNeeded_findPacketCrc {u : Unframer} (h : u.state = .findPacketCrc) :
    u.bytesNeeded = u.numPayloadBytesRemaining := by
  unfold bytesNeeded
  rw [h]

theorem bytesNeeded_findCrcEnd {u : Unframer} (h : u.state = .findCrcEnd) :
    u.bytesNeeded = 2 - u.buffer.length := by
  unfold bytesNeeded kCrc
  rw [h]
  show (if u.buffer.length < 2 then 2 - u.buffer.length else 0) = _
  split_ifs <;> omega

/-- A stored byte takes a byte of the input. -/
theorem consumeInputLoop_length (n : Nat) (flag : Bool) (buffer input : List UInt8) :
    (consumeInputLoop n flag buffer input).buffer.length +
      (consumeInputLoop n flag buffer input).input.length ≤ buffer.length + input.length := by
  induction input generalizing flag buffer with
  | nil => exact Nat.le_refl _
  | cons c input ih =>
    rw [consumeInputLoop]
    cases byteAction flag c with
    | shortPacket => exact Nat.le_refl _
    | invalidEscape =>
      simp only [List.length_cons]
      omega
    | skip flag' =>
      have hrest := ih flag' buffer
      simp only [List.length_cons]
      omega
    | store =>
      have hrest := ih false (buffer ++ [c])
      simp only
      split_ifs
      · simp only [List.length_append, List.length_cons, List.length_nil]
        omega
      · rw [List.length_append, List.length_singleton] at hrest
        rw [List.length_cons]
        omega

end Unframer

namespace Unframing

variable {transport : Transport} {s t r : Unframing} {made made' : List (Nat × StreamCall)}

/-- The bytes needed at `s` are there before a packet ends, and are read up to `t` when none ends. -/
structure Lowers (s t : Unframing) (made : List (Nat × StreamCall)) : Prop where
  done : ∀ left isValid, (left, .packetDone isValid) ∈ made →
    s.unframer.bytesNeeded + left ≤ s.input.length
  open_packet : (∀ left isValid, (left, .packetDone isValid) ∉ made) →
    s.unframer.bytesNeeded + t.input.length ≤ t.unframer.bytesNeeded + s.input.length

theorem Lowers.silent
    (h : s.unframer.bytesNeeded + t.input.length ≤ t.unframer.bytesNeeded + s.input.length) :
    Lowers s t [] :=
  ⟨fun _ _ hmem => absurd hmem List.not_mem_nil, fun _ => h⟩

theorem Lowers.writes {calls : List StreamCall} {place : Nat}
    (hwrites : ∀ call ∈ calls, ∃ d, d ≠ [] ∧ call = .write d)
    (h : s.unframer.bytesNeeded + t.input.length ≤ t.unframer.bytesNeeded + s.input.length) :
    Lowers s t (calls.map (Prod.mk place)) := by
  constructor
  · intro left isValid hmem
    obtain ⟨call, hcall, heq⟩ := List.mem_map.mp hmem
    obtain ⟨d, -, hwrite⟩ := hwrites call hcall
    rw [hwrite] at heq
    cases heq
  · intro _
    exact h

theorem Lowers.trans (h : Lowers s t made) (hadvances : Advances s t made)
    (h' : Lowers t r made') (hadvances' : Advances t r made') : Lowers s r (made ++ made') := by
  constructor
  · intro left isValid hmem
    cases List.mem_append.mp hmem with
    | inl hfirst => exact h.done left isValid hfirst
    | inr hsecond =>
      have hlater := h'.done left isValid hsecond
      by_cases hnone : ∀ left isValid, (left, .packetDone isValid) ∉ made
      · have hopen := h.open_packet hnone
        omega
      · push Not at hnone
        obtain ⟨left', isValid', hmem'⟩ := hnone
        have hdone := h.done left' isValid' hmem'
        have hplace := (hadvances.place _ hmem').1
        have hplace' := (hadvances'.place _ hsecond).2
        simp only at hplace hplace'
        omega
  · intro hnone
    have hfirst := h.open_packet fun left isValid hmem =>
      hnone left isValid (List.mem_append_left _ hmem)
    have hsecond := h'.open_packet fun left isValid hmem =>
      hnone left isValid (List.mem_append_right _ hmem)
    omega

theorem lowers_findPacketStart (hok : s.unframer.Ok) (hinput : s.input ≠ [])
    (hstate : s.unframer.state = .findPacketStart)
    (h : s.findPacketStart transport = some (.noError, t)) : Advances s t [] ∧ Lowers s t [] := by
  obtain ⟨t', heq, hadvances, -, -, hnext⟩ := findPacketStart_round transport hok hstate hinput
  rw [h] at heq
  rw [← (Prod.mk.inj (Option.some.inj heq)).2] at hadvances hnext
  refine ⟨hadvances, .silent ?_⟩
  have hle := hadvances.le
  rw [bytesNeeded_findPacketStart hstate]
  cases hnext with
  | inl hsame =>
    rw [bytesNeeded_findPacketStart hsame]
    omega
  | inr hlength =>
    rw [bytesNeeded_findPacketLength hlength.1, hlength.2, List.length_nil]
    omega

theorem lowers_findPacketLength (hok : s.unframer.Ok) (hstate : s.unframer.state = .findPacketLength)
    (h : s.findPacketLength transport = some (.noError, t)) : Advances s t [] ∧ Lowers s t [] := by
  have hroom : s.unframer.buffer.length < 4 := (ok_findPacketLength hstate).mp hok
  have hlength := consumeInputLoop_length 4 s.unframer.sawEscapeStart s.unframer.buffer s.input
  have hconsume : Advances s (s.afterConsume transport 4 true) [] := afterConsume_advances 4 true hroom
  change (s.stopAt 4).buffer.length + (s.stopAt 4).input.length ≤ _ at hlength
  rw [findPacketLength_eq hroom] at h
  rw [← (Prod.mk.inj (Option.some.inj h)).2]
  split_ifs with hfull
  · refine ⟨lengthRead_advances hconsume, .silent ?_⟩
    rw [bytesNeeded_findPacketLength hstate]
    show 4 - s.unframer.buffer.length + (s.stopAt 4).input.length ≤ _ + s.input.length
    omega
  · refine ⟨hconsume, .silent ?_⟩
    have hstate' : (s.afterConsume transport 4 true).unframer.state = .findPacketLength := hstate
    rw [bytesNeeded_findPacketLength hstate, bytesNeeded_findPacketLength hstate']
    show 4 - s.unframer.buffer.length + (s.stopAt 4).input.length ≤
      4 - (s.stopAt 4).buffer.length + s.input.length
    omega

theorem lowers_findCrcEnd (hok : s.unframer.Ok) (hstate : s.unframer.state = .findCrcEnd)
    (h : s.findCrcEnd transport = some (.noError, t)) :
    ∃ made, Advances s t made ∧ Lowers s t made := by
  have hroom : s.unframer.buffer.length < 2 := (ok_findCrcEnd hstate).mp hok
  have hlength := consumeInputLoop_length 2 s.unframer.sawEscapeStart s.unframer.buffer s.input
  have hconsume : Advances s (s.afterConsume transport 2 false) [] :=
    afterConsume_advances 2 false hroom
  change (s.stopAt 2).buffer.length + (s.stopAt 2).input.length ≤ _ at hlength
  have hneed := bytesNeeded_findCrcEnd hstate
  rw [findCrcEnd_eq hroom] at h
  rw [← (Prod.mk.inj (Option.some.inj h)).2]
  split_ifs with hfull
  · refine ⟨_, hconsume.trans (crcRead_advances _), ?_, ?_⟩
    · intro left isValid hmem
      rw [List.nil_append] at hmem
      have hleft : left = (s.stopAt 2).input.length := (Prod.mk.inj (List.mem_singleton.mp hmem)).1
      have hstored := hfull.2
      omega
    · intro hnone
      exact absurd (List.mem_singleton_self _) (hnone _ _)
  · refine ⟨[], hconsume, .silent ?_⟩
    have hstate' : (s.afterConsume transport 2 false).unframer.state = .findCrcEnd := hstate
    rw [hneed, bytesNeeded_findCrcEnd hstate']
    show 2 - s.unframer.buffer.length + (s.stopAt 2).input.length ≤
      2 - (s.stopAt 2).buffer.length + s.input.length
    omega

theorem lowers_nextRound_crc (hok : s.unframer.Ok) (hstate : s.unframer.state = .findPacketCrc)
    (h : s.nextRound transport = some t) : ∃ made, Advances s t made ∧ Lowers s t made := by
  have hbuffer : s.unframer.buffer = [] := (ok_findPacketCrc hstate).mp hok
  have hneed := bytesNeeded_findPacketCrc hstate
  cases nextRound_crc hstate h with
  | inl hend =>
    rw [hend.2]
    refine ⟨[], .silent rfl rfl rfl ⟨[], rfl⟩, .silent ?_⟩
    rw [hneed, hend.1, Nat.zero_add]
    exact Nat.le_add_left _ _
  | inr hgo =>
    have hroom : s.unframer.buffer.length < s.roundSize := by
      rw [hbuffer]
      exact roundSize_pos hgo.1
    have hlength :=
      consumeInputLoop_length s.roundSize s.unframer.sawEscapeStart s.unframer.buffer s.input
    change (s.stopAt s.roundSize).buffer.length + (s.stopAt s.roundSize).input.length ≤ _ at hlength
    rw [hbuffer, List.length_nil] at hlength
    cases hgo.2.2 with
    | inl hexhausted =>
      rw [hexhausted.2]
      have hstate' : (s.afterConsume transport s.roundSize true).unframer.state =
          .findPacketCrc := hstate
      refine ⟨[], afterConsume_advances _ true hroom, .silent ?_⟩
      rw [hneed, bytesNeeded_findPacketCrc hstate']
      show s.unframer.numPayloadBytesRemaining + (s.stopAt s.roundSize).input.length ≤
        s.unframer.numPayloadBytesRemaining + s.input.length
      omega
    | inr hsent =>
      have hadvances := afterSent_advances transport hbuffer hgo.1
      have hwrites := transport.stream.writeAll_spec (s.history ++ s.calls.map Prod.snd)
        (s.stopAt s.roundSize).buffer
      have hall : (s.sent transport).2.1 = (s.stopAt s.roundSize).buffer.length :=
        hwrites.2.1 hsent.2.1
      rw [hsent.2.2]
      refine ⟨_, ⟨hadvances.calls, hadvances.history, hadvances.rewound, hadvances.suffix,
        hadvances.place, hadvances.nonempty⟩, .writes hwrites.2.2 ?_⟩
      have hstate' : (s.afterSent transport).unframer.clearBuffer.state = .findPacketCrc := hstate
      show s.unframer.bytesNeeded + (s.stopAt s.roundSize).input.length ≤
        (s.afterSent transport).unframer.clearBuffer.bytesNeeded + s.input.length
      rw [hneed, bytesNeeded_findPacketCrc hstate']
      show s.unframer.numPayloadBytesRemaining + (s.stopAt s.roundSize).input.length ≤
        s.unframer.numPayloadBytesRemaining - (s.sent transport).2.1 + s.input.length
      omega

theorem nextRound_lowers (hok : s.unframer.Ok) (h : s.nextRound transport = some t) :
    ∃ made, Advances s t made ∧ Lowers s t made := by
  by_cases hcrc : s.unframer.state = .findPacketCrc
  · exact lowers_nextRound_crc hok hcrc h
  · obtain ⟨hinput, hdispatch⟩ := nextRound_other hok hcrc h
    unfold dispatch at hdispatch
    cases hstate : s.unframer.state with
    | findPacketStart =>
      rw [hstate] at hdispatch
      exact ⟨[], lowers_findPacketStart hok hinput hstate hdispatch⟩
    | findPacketLength =>
      rw [hstate] at hdispatch
      exact ⟨[], lowers_findPacketLength hok hstate hdispatch⟩
    | findPacketCrc => exact absurd hstate hcrc
    | findCrcEnd =>
      rw [hstate] at hdispatch
      exact lowers_findCrcEnd hok hstate hdispatch

theorem Rounds.lowers (hok : s.unframer.Ok) (h : Rounds transport s t) :
    ∃ made, Advances s t made ∧ Lowers s t made := by
  induction h with
  | refl => exact ⟨[], .silent rfl rfl rfl ⟨[], rfl⟩, .silent (Nat.le_refl _)⟩
  | tail hrounds hstep ih =>
    obtain ⟨made, hadvances, hlowers⟩ := ih
    obtain ⟨made', hadvances', hlowers'⟩ := nextRound_lowers (Rounds.advances hok hrounds).1 hstep
    exact ⟨made ++ made', hadvances.trans hadvances', hlowers.trans hadvances hlowers' hadvances'⟩

end Unframing

namespace Unframer

open Unframing

variable {transport : Transport} {u : Unframer} {history : List StreamCall} {data : List UInt8}
  {w : Written}

/-- What a call of `Write` says about the bytes needed before it. -/
theorem write_lowers (hok : u.Ok) (hwrite : u.write transport history data = some w) :
    (∀ left isValid, (left, .packetDone isValid) ∈ w.calls → u.bytesNeeded + left ≤ data.length) ∧
      (w.returnCode = .noError → (∃ left isValid, (left, .packetDone isValid) ∈ w.calls) ∨
        u.bytesNeeded ≤ w.unframer.bytesNeeded + data.length) := by
  obtain ⟨t, hrounds, hend⟩ := write_rounds transport hok history data
  obtain ⟨made, hadvances, hlowers⟩ := hrounds.lowers hok
  have hcalls : t.calls = made := hadvances.calls
  rw [hwrite] at hend
  cases hend with
  | inl hused =>
    rw [Option.some.inj hused.2]
    show (∀ left isValid, (left, .packetDone isValid) ∈ t.calls → _) ∧ _
    rw [hcalls]
    refine ⟨hlowers.done, fun _ => ?_⟩
    by_cases hnone : ∀ left isValid, (left, .packetDone isValid) ∉ made
    · apply Or.inr
      have hopen := hlowers.open_packet hnone
      rw [hused.1] at hopen
      exact hopen
    · push Not at hnone
      exact Or.inl hnone
  | inr hstops =>
    cases hstops with
    | inl hfails =>
      obtain ⟨stop, hstop, heq⟩ := Option.map_eq_some_iff.mp hfails.2.symm
      obtain ⟨m, -, hm⟩ := Option.map_eq_some_iff.mp hstop
      have hwrites := (transport.stream.writeAll_spec (t.history ++ t.calls.map Prod.snd)
        (t.stopAt t.roundSize).buffer).2.2
      constructor
      · intro left isValid hmem
        rw [← heq, ← hm] at hmem
        cases List.mem_append.mp hmem with
        | inl hearlier =>
          have hmade : (left, .packetDone isValid) ∈ t.calls := hearlier
          rw [hcalls] at hmade
          exact hlowers.done left isValid hmade
        | inr hwrite =>
          obtain ⟨call, hcall, hpair⟩ := List.mem_map.mp hwrite
          obtain ⟨d, -, hd⟩ := hwrites call hcall
          rw [hd] at hpair
          cases hpair
      · intro hcode
        rw [← heq, ← hm] at hcode
        exact absurd hcode hfails.1.2.2.2.2
    | inr hbreaks =>
      obtain ⟨-, -, code, t', hcode, hadvances', heq⟩ := hbreaks
      rw [Option.some.inj heq]
      refine ⟨?_, fun hnoError => absurd hnoError hcode⟩
      intro left isValid hmem
      have hmem' : (left, .packetDone isValid) ∈ t'.calls := hmem
      rw [hadvances'.calls, List.append_nil, hcalls] at hmem'
      exact hlowers.done left isValid hmem'

theorem bytesNeeded_le {n : Nat} (hok : u.Ok) (h : PacketEnds u n) : u.bytesNeeded ≤ n := by
  induction h with
  | now hwrite hdone =>
    have hle := (write_lowers hok hwrite).1 _ _ hdone
    omega
  | later hwrite hcode _ ih =>
    obtain ⟨hdone, hopen⟩ := write_lowers hok hwrite
    have hrest := ih (write_ok hok hwrite)
    cases hopen hcode with
    | inl hended =>
      obtain ⟨left, isValid, hmem⟩ := hended
      have hle := hdone left isValid hmem
      omega
    | inr hle => omega

/-- The length of a packet without payload is read, and nothing after it. -/
def AtZeroLength (u : Unframer) : Prop :=
  u.state = .findPacketCrc ∧ u.numPayloadBytesRemaining = 0

theorem knowsNeed_iff (hok : u.Ok) : u.KnowsNeed ↔ ¬ u.AtZeroLength := by
  constructor
  · intro h hzero
    have hpos := h.1
    rw [bytesNeeded_findPacketCrc hzero.1, hzero.2] at hpos
    exact absurd hpos (by decide)
  · intro hzero
    refine ⟨?_, fun n h => bytesNeeded_le hok h⟩
    cases hstate : u.state with
    | findPacketStart => rw [bytesNeeded_findPacketStart hstate]
    | findPacketLength =>
      have hroom := (ok_findPacketLength hstate).mp hok
      rw [bytesNeeded_findPacketLength hstate]
      omega
    | findPacketCrc =>
      rw [bytesNeeded_findPacketCrc hstate]
      apply Nat.one_le_iff_ne_zero.mpr
      intro hremaining
      exact hzero ⟨hstate, hremaining⟩
    | findCrcEnd =>
      have hroom := (ok_findCrcEnd hstate).mp hok
      rw [bytesNeeded_findCrcEnd hstate]
      omega

/-- In this call the chunk ends with the last byte of a length field of zeros. -/
def EndsAtZeroLength (transport : Transport) (u : Unframer) (history : List StreamCall)
    (data : List UInt8) : Prop :=
  ∃ s, Dispatches transport (start u history data) s ∧ s.unframer.state = .findPacketLength ∧
    s.input ≠ [] ∧ (s.stopAt kPayloadLength).toReturn = .noError ∧
    (s.stopAt kPayloadLength).buffer = [0, 0, 0, 0] ∧ (s.stopAt kPayloadLength).input = []

theorem write_of_dispatches {s : Unframing} (hok : u.Ok)
    (h : Dispatches transport (start u history data) s) (hinput : s.input = []) :
    u.write transport history data =
      some ⟨.noError, data.length, s.unframer, s.calls⟩ := by
  obtain ⟨-, hrewound, left, hleft, heq⟩ := writeLoop_of_dispatches h hok rfl
    (2 * data.length + 2) (rank_lt u data history)
  have hsize : s.inputSizeBytes = 0 := by
    rw [inputSizeBytes, hinput, hrewound]
    rfl
  have hend : Unframing.writeLoop transport left s = some (.noError, s) := by
    cases left with
    | zero => omega
    | succ left => rw [writeLoop, if_pos hsize]
  have hwhole : (data.length : Int) - (s.inputSizeBytes : Nat) = data.length := by
    rw [hsize]
    exact sub_zero _
  unfold write
  rw [← start, heq, hend]
  simp only [ne_eq, not_true_eq_false, if_false, hwhole]

/-- A chunk that ends with the last byte of a length field of zeros leaves nothing to ask for. -/
theorem atZeroLength_of_ends (hok : u.Ok) (h : EndsAtZeroLength transport u history data) :
    ∃ w, u.write transport history data = some w ∧ w.unframer.AtZeroLength := by
  obtain ⟨s, hturns, hstate, hinput, hcode, hbuffer, hrest⟩ := h
  obtain ⟨hoks, hrewound, -⟩ := writeLoop_of_dispatches hturns hok rfl
    (2 * data.length + 2) (rank_lt u data history)
  have hroom : s.unframer.buffer.length < 4 := (ok_findPacketLength hstate).mp hoks
  unfold kPayloadLength at hcode hbuffer hrest
  have hdispatch : s.dispatch transport =
      some (.noError, (s.afterConsume transport 4 true).lengthRead) := by
    unfold dispatch
    rw [hstate]
    show s.findPacketLength transport = _
    rw [findPacketLength_eq hroom, hcode, if_pos ⟨rfl, by rw [hbuffer]; rfl⟩]
  have hsize : s.inputSizeBytes ≠ 0 := by
    have hpos := List.length_pos_iff.mpr hinput
    unfold inputSizeBytes
    omega
  refine ⟨_, write_of_dispatches hok (hturns.tail ⟨hsize, hdispatch⟩) hrest, rfl, ?_⟩
  show ofLittleEndian ((s.stopAt 4).buffer.take 4) = 0
  rw [hbuffer]
  rfl

/-- The turn of `Write` that leaves nothing to ask for. -/
theorem zeroLength_turn {s t : Unframing} (hok : s.unframer.Ok) (hinput : s.input ≠ [])
    (hdispatch : s.dispatch transport = some (.noError, t)) (hafter : t.unframer.AtZeroLength) :
    s.unframer.state = .findPacketLength ∧ (s.stopAt 4).toReturn = .noError ∧
      (s.stopAt 4).buffer = [0, 0, 0, 0] ∧ (s.stopAt 4).input = t.input := by
  unfold dispatch at hdispatch
  cases hstate : s.unframer.state with
  | findPacketStart =>
    rw [hstate] at hdispatch
    obtain ⟨t', heq, -, -, -, hnext⟩ := findPacketStart_round transport hok hstate hinput
    rw [show s.findPacketStart transport = _ from hdispatch] at heq
    rw [← (Prod.mk.inj (Option.some.inj heq)).2, hafter.1] at hnext
    cases hnext with
    | inl hsame => cases hsame
    | inr hlength => cases hlength.1
  | findPacketLength =>
    rw [hstate] at hdispatch
    have hroom : s.unframer.buffer.length < 4 := (ok_findPacketLength hstate).mp hok
    have heq : s.findPacketLength transport = some (.noError, t) := hdispatch
    rw [findPacketLength_eq hroom] at heq
    obtain ⟨hcode, ht⟩ := Prod.mk.inj (Option.some.inj heq)
    rw [← ht] at hafter ⊢
    split_ifs at hafter ⊢ with hfull
    · have hlength : ((s.stopAt 4).buffer.take 4).length = 4 := by
        rw [List.length_take, hfull.2]
        exact Nat.min_self 4
      have hzeros : (s.stopAt 4).buffer.take 4 = List.replicate _ 0 :=
        ofLittleEndian_eq_zero hafter.2
      rw [hlength, List.take_of_length_le hfull.2.le] at hzeros
      exact ⟨rfl, hcode, hzeros, rfl⟩
    · have hsame : (s.afterConsume transport 4 true).unframer.state = .findPacketLength := hstate
      rw [hafter.1] at hsame
      cases hsame
  | findPacketCrc =>
    rw [hstate] at hdispatch
    obtain ⟨t', -, hend⟩ := findPacketCrcLoop_rounds transport (s.input.length + 1)
      (Nat.lt_succ_self _) ((ok_findPacketCrc hstate).mp hok) hstate
    have heq : findPacketCrcLoop transport (s.input.length + 1) s = some (.noError, t) := hdispatch
    rw [heq] at hend
    exfalso
    cases hend with
    | inl hgo =>
      rw [← (Prod.mk.inj (Option.some.inj hgo.2)).2] at hgo
      cases hgo.1 with
      | inl hremaining => exact hremaining.2.1 hafter.2
      | inr hcrcEnd =>
        rw [hafter.1] at hcrcEnd
        cases hcrcEnd
    | inr hstops => exact hstops.code_ne t rfl rfl
  | findCrcEnd =>
    rw [hstate] at hdispatch
    have hroom : s.unframer.buffer.length < 2 := (ok_findCrcEnd hstate).mp hok
    have heq : s.findCrcEnd transport = some (.noError, t) := hdispatch
    rw [findCrcEnd_eq hroom] at heq
    have ht := (Prod.mk.inj (Option.some.inj heq)).2
    have hcrc := hafter.1
    rw [← ht] at hcrc
    exfalso
    split_ifs at hcrc
    · cases hcrc
    · have hsame : (s.afterConsume transport 2 false).unframer.state = .findCrcEnd := hstate
      rw [hcrc] at hsame
      cases hsame

theorem ends_of_atZeroLength (hok : u.Ok) (hbefore : ¬ u.AtZeroLength)
    (hwrite : u.write transport history data = some w) (hafter : w.unframer.AtZeroLength) :
    EndsAtZeroLength transport u history data := by
  unfold write at hwrite
  cases hloop : writeLoop transport (2 * data.length + 2) (start u history data) with
  | none =>
    rw [← start, hloop] at hwrite
    cases hwrite
  | some result =>
    obtain ⟨code, t⟩ := result
    rw [← start, hloop] at hwrite
    have hw := Option.some.inj hwrite
    by_cases hcode : code = .noError
    · simp only [hcode, ne_eq, not_true_eq_false, if_false] at hw
      rw [hcode] at hloop
      obtain ⟨hturns, hsize⟩ := dispatches_of_writeLoop _ hloop
      have hzero : t.unframer.AtZeroLength := by
        rw [← hw] at hafter
        exact hafter
      have hempty : t.input = [] := by
        unfold inputSizeBytes at hsize
        exact List.eq_nil_of_length_eq_zero (by omega)
      cases Relation.ReflTransGen.cases_tail hturns with
      | inl hstart =>
        rw [hstart] at hzero
        exact absurd hzero hbefore
      | inr hlast =>
        obtain ⟨s, hbeforeTurns, hsizes, hdispatch⟩ := hlast
        obtain ⟨hoks, hrewound, -⟩ := writeLoop_of_dispatches hbeforeTurns hok rfl
          (2 * data.length + 2) (rank_lt u data history)
        have hinput : s.input ≠ [] := by
          intro hnil
          apply hsizes
          rw [inputSizeBytes, hnil, hrewound]
          rfl
        obtain ⟨hstate, hreturn, hbuffer, hrest⟩ := zeroLength_turn hoks hinput hdispatch hzero
        exact ⟨s, hbeforeTurns, hstate, hinput, hreturn, hbuffer, hrest.trans hempty⟩
    · simp only [hcode, ne_eq, not_false_eq_true, if_true] at hw
      rw [← hw] at hafter
      cases hafter.1

/-- A call of `Write`, with the calls the stream had before. -/
structure Feed where
  transport : Transport
  history : List StreamCall
  data : List UInt8

/-- Before and after each of the calls. -/
def KnowsThroughout : Unframer → List Feed → Prop
  | u, [] => u.KnowsNeed
  | u, feed :: feeds => u.KnowsNeed ∧
    ∀ w, u.write feed.transport feed.history feed.data = some w → w.unframer.KnowsThroughout feeds

/-- None of the chunks ends with the last byte of a length field of zeros. -/
def NeverEndsAtZeroLength : Unframer → List Feed → Prop
  | _, [] => True
  | u, feed :: feeds => ¬ u.EndsAtZeroLength feed.transport feed.history feed.data ∧
    ∀ w, u.write feed.transport feed.history feed.data = some w →
      w.unframer.NeverEndsAtZeroLength feeds

theorem KnowsThroughout.head {feeds : List Feed} (h : u.KnowsThroughout feeds) : u.KnowsNeed := by
  cases feeds with
  | nil => exact h
  | cons feed feeds => exact h.1

theorem knowsThroughout_iff (feeds : List Feed) (hok : u.Ok) (hbefore : ¬ u.AtZeroLength) :
    u.KnowsThroughout feeds ↔ u.NeverEndsAtZeroLength feeds := by
  induction feeds generalizing u with
  | nil =>
    constructor
    · intro _
      trivial
    · intro _
      exact (knowsNeed_iff hok).mpr hbefore
  | cons feed feeds ih =>
    constructor
    · intro h
      have hnever (w : Written)
          (hw : u.write feed.transport feed.history feed.data = some w) :
          ¬ w.unframer.AtZeroLength := (knowsNeed_iff (write_ok hok hw)).mp (h.2 w hw).head
      constructor
      · intro hends
        obtain ⟨w, hw, hzero⟩ := atZeroLength_of_ends hok hends
        exact hnever w hw hzero
      · intro w hw
        exact (ih (write_ok hok hw) (hnever w hw)).mp (h.2 w hw)
    · intro h
      refine ⟨(knowsNeed_iff hok).mpr hbefore, fun w hw => ?_⟩
      have hnever : ¬ w.unframer.AtZeroLength := by
        intro hzero
        exact h.1 (ends_of_atZeroLength hok hbefore hw hzero)
      exact (ih (write_ok hok hw) hnever).mpr (h.2 w hw)

/-- `BytesNeeded` is right before and after every call if and only if no chunk ends with the last
byte of the length of a packet without payload. -/
theorem bytesNeeded_throughout_iff (numPayloadBytesRemaining : Nat) (crc : UInt16)
    (feeds : List Feed) : (create numPayloadBytesRemaining crc).KnowsThroughout feeds ↔
      (create numPayloadBytesRemaining crc).NeverEndsAtZeroLength feeds := by
  have hok : (create numPayloadBytesRemaining crc).Ok := rfl
  apply knowsThroughout_iff feeds hok
  intro hzero
  cases hzero.1

/-- A chunk with the start sequence and a length of zero. -/
theorem bytesNeeded_zero : ¬ ∀ u : Unframer, Reached u → u.KnowsNeed := by
  intro h
  have hwrite : (create 0 0).write ⟨fun crc _ => crc, ⟨fun _ data => data.length⟩⟩ []
      [0xff, 0xfd, 0, 0, 0, 0] = some ⟨.noError, 6, ⟨.findPacketCrc, false, [], 0, 0xffff⟩, []⟩ := by
    decide
  have hknows := h _ ((Reached.create 0 0).write hwrite)
  exact absurd hknows.1 (by decide)

end Unframer

end StencilGraph.Micro
