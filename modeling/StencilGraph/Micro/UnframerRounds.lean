import Mathlib.Logic.Relation
import StencilGraph.Micro.Resync

namespace StencilGraph.Micro

open Framework Escape Unframer

namespace WriteStream

theorem writeAllLoop_spec (stream : WriteStream) (fuel : Nat) (calls : List StreamCall)
    (data : List UInt8) (bytesConsumed : Nat) (hfuel : data.length ≤ fuel) :
    (stream.writeAllLoop fuel calls data bytesConsumed).2.1 ≤ bytesConsumed + data.length ∧
      ((stream.writeAllLoop fuel calls data bytesConsumed).1 = .noError →
        (stream.writeAllLoop fuel calls data bytesConsumed).2.1 = bytesConsumed + data.length) ∧
      ∀ call ∈ (stream.writeAllLoop fuel calls data bytesConsumed).2.2, ∃ d, d ≠ [] ∧ call = .write d := by
  induction fuel generalizing calls data bytesConsumed with
  | zero =>
    have hnil : data = [] := List.length_eq_zero_iff.mp (Nat.le_zero.mp hfuel)
    rw [hnil, writeAllLoop]
    exact ⟨Nat.le_refl _, fun _ => rfl, fun _ h => absurd h List.not_mem_nil⟩
  | succ fuel ih =>
    rw [writeAllLoop]
    by_cases hnil : data = []
    · rw [if_pos hnil, hnil]
      exact ⟨Nat.le_refl _, fun _ => rfl, fun _ h => absurd h List.not_mem_nil⟩
    · rw [if_neg hnil]
      have hone : ∀ call ∈ [StreamCall.write data], ∃ d, d ≠ [] ∧ call = .write d :=
        fun call hcall => ⟨data, hnil, List.mem_singleton.mp hcall⟩
      by_cases hzero : stream.write calls data = 0
      · simp only [hzero, if_true]
        exact ⟨Nat.le_add_right _ _, fun hcode => TvmCrtError.noConfusion hcode, hone⟩
      by_cases hneg : stream.write calls data < 0
      · simp only [hzero, hneg, if_true, if_false]
        exact ⟨Nat.le_add_right _ _, fun hcode => TvmCrtError.noConfusion hcode, hone⟩
      by_cases hlong : (data.length : Int) < stream.write calls data
      · simp only [hzero, hneg, hlong, if_true, if_false]
        exact ⟨Nat.le_add_right _ _, fun hcode => TvmCrtError.noConfusion hcode, hone⟩
      simp only [hzero, hneg, hlong, if_false]
      -- the stream takes at least one byte of the data, and the rest is offered again
      generalize htaken : (stream.write calls data).toNat = taken
      have hdrop : (data.drop taken).length = data.length - taken := List.length_drop
      have hfit : taken ≤ data.length := by omega
      have hrest := ih (calls ++ [.write data]) (data.drop taken) (bytesConsumed + taken) (by omega)
      generalize stream.writeAllLoop fuel (calls ++ [.write data]) (data.drop taken)
        (bytesConsumed + taken) = result at hrest ⊢
      obtain ⟨error, consumed, made⟩ := result
      obtain ⟨hle, hall, hcalls⟩ := hrest
      simp only at hle hall hcalls ⊢
      refine ⟨by omega, ?_, ?_⟩
      · intro hcode
        have := hall hcode
        omega
      · intro call hcall
        cases List.mem_cons.mp hcall with
        | inl hfirst => exact ⟨data, hnil, hfirst⟩
        | inr hrest => exact hcalls call hrest

theorem writeAll_spec (stream : WriteStream) (calls : List StreamCall) (data : List UInt8) :
    (stream.writeAll calls data).2.1 ≤ data.length ∧
      ((stream.writeAll calls data).1 = .noError → (stream.writeAll calls data).2.1 = data.length) ∧
      ∀ call ∈ (stream.writeAll calls data).2.2, ∃ d, d ≠ [] ∧ call = .write d := by
  have h := writeAllLoop_spec stream data.length calls data 0 (Nat.le_refl _)
  rw [Nat.zero_add] at h
  exact h

end WriteStream

namespace Unframing

variable {transport : Transport} {s t f : Unframing}

/-- How many bytes a round of `FindPacketCrc` asks for. -/
def roundSize (s : Unframing) : Nat :=
  min s.unframer.numPayloadBytesRemaining Unframer.bufferSizeBytes

/-- What `WriteAll` answers in a round of `FindPacketCrc`. -/
def sent (transport : Transport) (s : Unframing) : TvmCrtError × Nat × List StreamCall :=
  transport.stream.writeAll (s.history ++ s.calls.map Prod.snd) (s.stopAt s.roundSize).buffer

/-- A round of `FindPacketCrc` after `WriteAll`. -/
def afterSent (transport : Transport) (s : Unframing) : Unframing :=
  let t := s.afterConsume transport s.roundSize true
  { t with
    unframer := { t.unframer with
      numPayloadBytesRemaining := t.unframer.numPayloadBytesRemaining - (s.sent transport).2.1 }
    calls := t.calls ++ (s.sent transport).2.2.map (Prod.mk t.input.length) }

/-- The round of `FindPacketCrc` that starts here is the one in which the stream fails. -/
def Failing (transport : Transport) (s : Unframing) : Prop :=
  s.unframer.state = .findPacketCrc ∧ s.unframer.numPayloadBytesRemaining ≠ 0 ∧
    (s.stopAt s.roundSize).toReturn = .noError ∧ (s.stopAt s.roundSize).buffer ≠ [] ∧
    (s.sent transport).1 ≠ .noError

/-- Moving `input_` back once the stream has failed. -/
def rewind (transport : Transport) (s : Unframing) (bufferBytesConsumed : Nat) : Unframing :=
  { s.afterSent transport with
    unframer := { (s.afterSent transport).unframer with sawEscapeStart := false }
    rewound := s.input.length - bufferBytesConsumed }

/-- What a round in which the stream fails returns. -/
def failed (transport : Transport) (s : Unframing) : Option (TvmCrtError × Unframing) :=
  (rewindLoop s.input (s.sent transport).2.1).map fun bufferBytesConsumed =>
    ((s.sent transport).1, s.rewind transport bufferBytesConsumed)

/-- The state after one round of the loops of `Write` and `FindPacketCrc`; `none` when an error ends
the loops or the input is used up. -/
def nextRound (transport : Transport) (s : Unframing) : Option Unframing :=
  if s.unframer.state = .findPacketCrc then
    if s.unframer.numPayloadBytesRemaining = 0 then
      some { s with unframer := { s.unframer with state := .findCrcEnd } }
    else if (s.stopAt s.roundSize).toReturn ≠ .noError then none
    else if (s.stopAt s.roundSize).buffer = [] then some (s.afterConsume transport s.roundSize true)
    else if (s.sent transport).1 ≠ .noError then none
    else some { s.afterSent transport with unframer := (s.afterSent transport).unframer.clearBuffer }
  else if s.input = [] then none
  else
    match s.dispatch transport with
    | some (.noError, t) => some t
    | _ => none

/-- Round after round. -/
def Rounds (transport : Transport) : Unframing → Unframing → Prop :=
  Relation.ReflTransGen fun s t => s.nextRound transport = some t

theorem roundSize_pos (hremaining : s.unframer.numPayloadBytesRemaining ≠ 0) : 0 < s.roundSize := by
  unfold roundSize bufferSizeBytes
  omega

theorem findPacketCrcLoop_round (fuel : Nat) (hbuffer : s.unframer.buffer = [])
    (hremaining : s.unframer.numPayloadBytesRemaining ≠ 0) :
    findPacketCrcLoop transport (fuel + 1) s =
      if (s.stopAt s.roundSize).toReturn ≠ .noError then
        some ((s.stopAt s.roundSize).toReturn, s.afterConsume transport s.roundSize true)
      else if (s.stopAt s.roundSize).buffer = [] then
        some (.noError, s.afterConsume transport s.roundSize true)
      else if (s.sent transport).1 ≠ .noError then s.failed transport
      else findPacketCrcLoop transport fuel
        { s.afterSent transport with unframer := (s.afterSent transport).unframer.clearBuffer } := by
  have hroom : s.unframer.buffer.length < s.roundSize := by
    rw [hbuffer]
    exact roundSize_pos hremaining
  have hlength : s.unframer.buffer.length =
      (s.afterConsume transport s.roundSize true).unframer.buffer.length ↔
        (s.stopAt s.roundSize).buffer = [] := by
    rw [hbuffer, List.length_nil, eq_comm]
    exact List.length_eq_zero_iff
  have hadd : s.addToBuffer transport s.roundSize true = some ((s.stopAt s.roundSize).toReturn,
      s.afterConsume transport s.roundSize true) := addToBuffer_eq s.roundSize true hroom
  have hsent : transport.stream.writeAll ((s.afterConsume transport s.roundSize true).history ++
      (s.afterConsume transport s.roundSize true).calls.map Prod.snd)
      (s.afterConsume transport s.roundSize true).unframer.buffer = s.sent transport := rfl
  rw [findPacketCrcLoop, if_neg hremaining]
  have hsize : min s.unframer.numPayloadBytesRemaining Unframer.bufferSizeBytes = s.roundSize := rfl
  simp only [hsize, hadd, hlength, hsent]
  split_ifs
  · rfl
  · rfl
  · unfold failed
    cases rewindLoop s.input (s.sent transport).2.1 <;> rfl
  · rfl

theorem findPacketStartLoop_end (flag : Bool) (input : List UInt8)
    (h : (findPacketStartLoop flag input).2.1 = false) : (findPacketStartLoop flag input).2.2 = [] := by
  induction input generalizing flag with
  | nil => rfl
  | cons c input ih =>
    rw [findPacketStartLoop] at h ⊢
    split_ifs at h ⊢
    · exact ih true h
    · exact ih false h

theorem findPacketStart_round (transport : Transport) (hok : s.unframer.Ok)
    (hstate : s.unframer.state = .findPacketStart) (hinput : s.input ≠ []) :
    ∃ t, s.findPacketStart transport = some (.noError, t) ∧ Advances s t [] ∧ t.unframer.Ok ∧
      t.rank < s.rank ∧ (t.unframer.state = .findPacketStart ∨
        t.unframer.state = .findPacketLength ∧ t.unframer.buffer = []) := by
  have hbuffer : s.unframer.buffer = [] := (ok_findPacketStart hstate).mp hok
  have hsuffix := findPacketStartLoop_suffix s.unframer.sawEscapeStart s.input
  have hprogress := findPacketStartLoop_progress s.unframer.sawEscapeStart s.input hinput
  unfold findPacketStart
  generalize findPacketStartLoop s.unframer.sawEscapeStart s.input = stop at hsuffix hprogress
  obtain ⟨flag, found, input'⟩ := stop
  refine ⟨_, rfl, .silent rfl rfl rfl hsuffix, ?_⟩
  cases found with
  | false =>
    refine ⟨(ok_findPacketStart hstate).mpr hbuffer, ?_, Or.inl hstate⟩
    simp only [rank, Bool.false_eq_true, if_false, hstate, reduceCtorEq] at hprogress ⊢
    omega
  | true =>
    refine ⟨?_, ?_, Or.inr ⟨rfl, hbuffer⟩⟩
    · show s.unframer.buffer.length < 4
      rw [hbuffer]
      exact Nat.zero_lt_succ 3
    · simp only [rank, if_true, hstate, reduceCtorEq, if_false] at hprogress ⊢
      omega

/-- A round outside `FindPacketCrc`. -/
theorem dispatch_round (transport : Transport) (hok : s.unframer.Ok)
    (hstate : s.unframer.state ≠ .findPacketCrc) (hinput : s.input ≠ []) :
    ∃ code t made, s.dispatch transport = some (code, t) ∧ Advances s t made ∧
      (code = .noError → t.unframer.Ok ∧ t.rank < s.rank) ∧ (code ≠ .noError → made = []) := by
  unfold dispatch
  cases hat : s.unframer.state with
  | findPacketStart =>
    obtain ⟨t, heq, hadvances, hokt, hrank, -⟩ := findPacketStart_round transport hok hat hinput
    exact ⟨_, t, [], heq, hadvances, fun _ => ⟨hokt, hrank⟩, fun _ => rfl⟩
  | findPacketLength =>
    obtain ⟨t, heq, hadvances, -, -, hend⟩ := findPacketLength_round transport hok hat hinput
    exact ⟨_, t, [], heq, hadvances, hend, fun _ => rfl⟩
  | findPacketCrc => exact absurd hat hstate
  | findCrcEnd =>
    obtain ⟨t, made, heq, hadvances, -, -, hend, hnone⟩ :=
      findCrcEnd_round transport hok hat hinput
    exact ⟨_, t, made, heq, hadvances, hend, hnone⟩

theorem nextRound_other (hok : s.unframer.Ok) (hstate : s.unframer.state ≠ .findPacketCrc)
    (h : s.nextRound transport = some t) :
    s.input ≠ [] ∧ s.dispatch transport = some (.noError, t) := by
  unfold nextRound at h
  rw [if_neg hstate] at h
  split_ifs at h with hinput
  obtain ⟨code, t', made, heq, -⟩ := dispatch_round transport hok hstate hinput
  rw [heq] at h ⊢
  cases code with
  | noError =>
    rw [Option.some.inj h]
    exact ⟨hinput, rfl⟩
  | _ => cases h

theorem afterSent_advances (transport : Transport) (hbuffer : s.unframer.buffer = [])
    (hremaining : s.unframer.numPayloadBytesRemaining ≠ 0) :
    Advances s (s.afterSent transport)
      ((s.sent transport).2.2.map (Prod.mk (s.stopAt s.roundSize).input.length)) := by
  have hroom : s.unframer.buffer.length < s.roundSize := by
    rw [hbuffer]
    exact roundSize_pos hremaining
  have hconsume : Advances s (s.afterConsume transport s.roundSize true) [] :=
    afterConsume_advances _ true hroom
  have hwrites := (transport.stream.writeAll_spec (s.history ++ s.calls.map Prod.snd)
    (s.stopAt s.roundSize).buffer).2.2
  refine ⟨rfl, rfl, rfl, hconsume.suffix, ?_, ?_⟩
  · intro call hcall
    obtain ⟨made, -, heq⟩ := List.mem_map.mp hcall
    rw [← heq]
    exact ⟨Nat.le_refl _, hconsume.le⟩
  · intro call hcall
    obtain ⟨made, hmade, heq⟩ := List.mem_map.mp hcall
    obtain ⟨d, hd, hwrite⟩ := hwrites made hmade
    rw [← heq]
    show made ≠ .write []
    rw [hwrite]
    intro hnil
    exact hd (StreamCall.write.inj hnil)

/-- The rounds of `FindPacketCrc` that go on. -/
theorem nextRound_crc (hstate : s.unframer.state = .findPacketCrc)
    (h : s.nextRound transport = some t) :
    (s.unframer.numPayloadBytesRemaining = 0 ∧
      t = { s with unframer := { s.unframer with state := .findCrcEnd } }) ∨
    (s.unframer.numPayloadBytesRemaining ≠ 0 ∧ (s.stopAt s.roundSize).toReturn = .noError ∧
      ((s.stopAt s.roundSize).buffer = [] ∧ t = s.afterConsume transport s.roundSize true ∨
        (s.stopAt s.roundSize).buffer ≠ [] ∧ (s.sent transport).1 = .noError ∧
          t = { s.afterSent transport with
            unframer := (s.afterSent transport).unframer.clearBuffer })) := by
  unfold nextRound at h
  rw [if_pos hstate] at h
  split_ifs at h with hremaining hcode hstored hsent
  · exact Or.inl ⟨hremaining, (Option.some.inj h).symm⟩
  · exact Or.inr ⟨hremaining, not_not.mp hcode, Or.inl ⟨hstored, (Option.some.inj h).symm⟩⟩
  · exact Or.inr ⟨hremaining, not_not.mp hcode,
      Or.inr ⟨hstored, not_not.mp hsent, (Option.some.inj h).symm⟩⟩

theorem nextRound_advances (hok : s.unframer.Ok) (h : s.nextRound transport = some t) :
    t.unframer.Ok ∧ ∃ made, Advances s t made := by
  by_cases hstate : s.unframer.state = .findPacketCrc
  · have hbuffer : s.unframer.buffer = [] := (ok_findPacketCrc hstate).mp hok
    cases nextRound_crc hstate h with
    | inl hend =>
      rw [hend.2]
      refine ⟨?_, [], .silent rfl rfl rfl ⟨[], rfl⟩⟩
      show s.unframer.buffer.length < 2
      rw [hbuffer]
      exact Nat.zero_lt_succ 1
    | inr hgo =>
      have hroom : s.unframer.buffer.length < s.roundSize := by
        rw [hbuffer]
        exact roundSize_pos hgo.1
      cases hgo.2.2 with
      | inl hexhausted =>
        rw [hexhausted.2]
        have hstate' : (s.afterConsume transport s.roundSize true).unframer.state =
            .findPacketCrc := hstate
        exact ⟨(ok_findPacketCrc hstate').mpr hexhausted.1, [], afterConsume_advances _ true hroom⟩
      | inr hsent =>
        have hadvances := afterSent_advances transport hbuffer hgo.1
        rw [hsent.2.2]
        refine ⟨?_, _, ⟨hadvances.calls, hadvances.history, hadvances.rewound, hadvances.suffix,
          hadvances.place, hadvances.nonempty⟩⟩
        apply (ok_findPacketCrc _).mpr
        · rfl
        · exact hstate
  · obtain ⟨hinput, hdispatch⟩ := nextRound_other hok hstate h
    obtain ⟨code, t', made, heq, hadvances, hend, -⟩ :=
      dispatch_round transport hok hstate hinput
    rw [heq] at hdispatch
    obtain ⟨hcode, ht⟩ := Prod.mk.inj (Option.some.inj hdispatch)
    rw [← ht]
    exact ⟨(hend hcode).1, made, hadvances⟩

theorem Rounds.advances (hok : s.unframer.Ok) (h : Rounds transport s t) :
    t.unframer.Ok ∧ ∃ made, Advances s t made := by
  induction h with
  | refl => exact ⟨hok, [], .silent rfl rfl rfl ⟨[], rfl⟩⟩
  | tail _ hstep ih =>
    obtain ⟨hokt, made, hadvances⟩ := ih
    obtain ⟨hoku, made', hadvances'⟩ := nextRound_advances hokt hstep
    exact ⟨hoku, made ++ made', hadvances.trans hadvances'⟩

/-- The rounds stop here: the stream fails, or the input breaks the framing. -/
def StopsAt (transport : Transport) (t : Unframing) (result : Option (TvmCrtError × Unframing)) :
    Prop :=
  t.Failing transport ∧ result = t.failed transport ∨
  t.nextRound transport = none ∧ ¬ t.Failing transport ∧ ∃ code t', code ≠ .noError ∧
    result = some (code, t') ∧ Advances t t' []

/-- Where the rounds stop there is an error. -/
theorem StopsAt.code_ne {code : TvmCrtError} {result : Option (TvmCrtError × Unframing)}
    (h : StopsAt transport t result) (s : Unframing) (heq : result = some (code, s)) :
    code ≠ .noError := by
  cases h with
  | inl hfails =>
    rw [hfails.2] at heq
    obtain ⟨m, -, hm⟩ := Option.map_eq_some_iff.mp heq
    rw [← (Prod.mk.inj hm).1]
    exact hfails.1.2.2.2.2
  | inr hbreaks =>
    obtain ⟨-, -, code', t', hcode, hresult, -⟩ := hbreaks
    rw [hresult] at heq
    rw [← (Prod.mk.inj (Option.some.inj heq)).1]
    exact hcode

theorem Failing.nextRound (h : s.Failing transport) : s.nextRound transport = none := by
  obtain ⟨hstate, hremaining, hcode, hstored, hsent⟩ := h
  unfold Unframing.nextRound
  rw [if_pos hstate, if_neg hremaining, if_neg (not_not.mpr hcode), if_neg hstored, if_pos hsent]

theorem findPacketCrcLoop_rounds (transport : Transport) (fuel : Nat)
    (hfuel : s.input.length < fuel) (hbuffer : s.unframer.buffer = [])
    (hstate : s.unframer.state = .findPacketCrc) :
    ∃ t, Rounds transport s t ∧
      ((t.unframer.state = .findPacketCrc ∧ t.unframer.numPayloadBytesRemaining ≠ 0 ∧ t.input = [] ∨
          t.unframer.state = .findCrcEnd) ∧
        findPacketCrcLoop transport fuel s = some (.noError, t) ∨
      StopsAt transport t (findPacketCrcLoop transport fuel s)) := by
  induction fuel generalizing s with
  | zero => omega
  | succ fuel ih =>
    by_cases hremaining : s.unframer.numPayloadBytesRemaining = 0
    · rw [findPacketCrcLoop, if_pos hremaining]
      refine ⟨_, Relation.ReflTransGen.single ?_, Or.inl ⟨Or.inr ?_, rfl⟩⟩
      · rw [nextRound, if_pos hstate, if_pos hremaining]
      · rfl
    have hroom : s.unframer.buffer.length < s.roundSize := by
      rw [hbuffer]
      exact roundSize_pos hremaining
    have hconsumes := consumeInputLoop_consumes s.roundSize s.unframer.sawEscapeStart _ s.input hroom
    rw [findPacketCrcLoop_round fuel hbuffer hremaining]
    by_cases hcode : (s.stopAt s.roundSize).toReturn = .noError
    · rw [if_neg (not_not.mpr hcode)]
      by_cases hstored : (s.stopAt s.roundSize).buffer = []
      · -- every byte of the input belongs to an escape sequence
        rw [if_pos hstored]
        refine ⟨s.afterConsume transport s.roundSize true, Relation.ReflTransGen.single ?_,
          Or.inl ⟨Or.inl ⟨hstate, hremaining, ?_⟩, rfl⟩⟩
        · rw [nextRound, if_pos hstate, if_neg hremaining, if_neg (not_not.mpr hcode),
            if_pos hstored]
        · apply (hconsumes.full_or_empty hcode).resolve_left
          intro hfull
          have hzero : (s.stopAt s.roundSize).buffer.length = 0 := by rw [hstored, List.length_nil]
          have hpos := roundSize_pos hremaining
          change (s.stopAt s.roundSize).buffer.length = s.roundSize at hfull
          omega
      · rw [if_neg hstored]
        by_cases hsent : (s.sent transport).1 = .noError
        · rw [if_neg (not_not.mpr hsent)]
          have hinput : s.input ≠ [] := by
            intro hnil
            apply hstored
            rw [stopAt, hnil, consumeInputLoop, hbuffer]
          have hshorter : (s.stopAt s.roundSize).input.length < s.input.length :=
            hconsumes.progress hcode hinput
          have hnext : s.nextRound transport = some { s.afterSent transport with
              unframer := (s.afterSent transport).unframer.clearBuffer } := by
            rw [nextRound, if_pos hstate, if_neg hremaining, if_neg (not_not.mpr hcode),
              if_neg hstored, if_neg (not_not.mpr hsent)]
          have hfuel' : (s.stopAt s.roundSize).input.length < fuel := by omega
          obtain ⟨t, hrounds, hend⟩ := @ih { s.afterSent transport with
            unframer := (s.afterSent transport).unframer.clearBuffer } hfuel' rfl hstate
          exact ⟨t, Relation.ReflTransGen.head hnext hrounds, hend⟩
        · rw [if_pos hsent]
          exact ⟨s, Relation.ReflTransGen.refl,
            Or.inr (Or.inl ⟨⟨hstate, hremaining, hcode, hstored, hsent⟩, rfl⟩)⟩
    · rw [if_pos hcode]
      refine ⟨s, Relation.ReflTransGen.refl, Or.inr (Or.inr ⟨?_, ?_, _, _, hcode, rfl,
        afterConsume_advances _ true hroom⟩)⟩
      · rw [nextRound, if_pos hstate, if_neg hremaining, if_pos hcode]
      · intro hfailing
        exact hcode hfailing.2.2.1

theorem dispatch_rounds (transport : Transport) (hok : s.unframer.Ok) (hinput : s.input ≠ []) :
    ∃ t, Rounds transport s t ∧
      (s.dispatch transport = some (.noError, t) ∧ t.rank < s.rank ∨
        StopsAt transport t (s.dispatch transport)) := by
  by_cases hstate : s.unframer.state = .findPacketCrc
  · have hbuffer : s.unframer.buffer = [] := (ok_findPacketCrc hstate).mp hok
    have hpos : 0 < s.input.length := List.length_pos_iff.mpr hinput
    have hdispatch : s.dispatch transport =
        findPacketCrcLoop transport (s.input.length + 1) s := by
      rw [dispatch, hstate]
      rfl
    obtain ⟨t, hrounds, hend⟩ := findPacketCrcLoop_rounds transport (s.input.length + 1)
      (Nat.lt_succ_self _) hbuffer hstate
    rw [hdispatch]
    refine ⟨t, hrounds, hend.imp_left fun hgo => ⟨hgo.2, ?_⟩⟩
    obtain ⟨-, made, hadvances⟩ := hrounds.advances hok
    have hle := hadvances.le
    unfold rank
    rw [if_pos hstate]
    cases hgo.1 with
    | inl hexhausted =>
      rw [hexhausted.2.2, if_pos hexhausted.1, List.length_nil]
      omega
    | inr hcrcEnd =>
      rw [hcrcEnd, if_neg UnframerState.noConfusion]
      omega
  · obtain ⟨code, t, made, heq, hadvances, hgo, hnone⟩ := dispatch_round transport hok hstate hinput
    by_cases hcode : code = .noError
    · rw [hcode] at heq
      refine ⟨t, Relation.ReflTransGen.single ?_, Or.inl ⟨heq, (hgo hcode).2⟩⟩
      rw [nextRound, if_neg hstate, if_neg hinput, heq]
    · rw [hnone hcode] at hadvances
      refine ⟨s, Relation.ReflTransGen.refl, Or.inr (Or.inr ⟨?_, ?_, code, t, hcode, heq,
        hadvances⟩)⟩
      · rw [nextRound, if_neg hstate, if_neg hinput, heq]
        cases code with
        | noError => exact absurd rfl hcode
        | _ => rfl
      · intro hfailing
        exact hstate hfailing.1

/-- The rounds of `Write` use up the input, or stop with an error. -/
theorem writeLoop_rounds (transport : Transport) (fuel : Nat) (hok : s.unframer.Ok)
    (hrewound : s.rewound = 0) (hfuel : s.rank < fuel) :
    ∃ t, Rounds transport s t ∧
      (t.input = [] ∧ writeLoop transport fuel s = some (.noError, t) ∨
        StopsAt transport t (writeLoop transport fuel s)) := by
  induction fuel generalizing s with
  | zero => omega
  | succ fuel ih =>
    rw [writeLoop]
    by_cases hinput : s.input = []
    · have hsize : s.inputSizeBytes = 0 := by rw [inputSizeBytes, hrewound, hinput]; rfl
      rw [if_pos hsize]
      exact ⟨s, Relation.ReflTransGen.refl, Or.inl ⟨hinput, rfl⟩⟩
    · have hpos : 0 < s.input.length := List.length_pos_iff.mpr hinput
      have hsize : s.inputSizeBytes ≠ 0 := by
        rw [inputSizeBytes]
        omega
      rw [if_neg hsize]
      obtain ⟨t, hrounds, hend⟩ := dispatch_rounds transport hok hinput
      cases hend with
      | inl hgo =>
        obtain ⟨hokt, made, hadvances⟩ := hrounds.advances hok
        obtain ⟨t', hrounds', hend'⟩ := ih hokt (hadvances.rewound.trans hrewound) (by omega)
        rw [hgo.1]
        exact ⟨t', hrounds.trans hrounds', hend'⟩
      | inr hstops =>
        refine ⟨t, hrounds, Or.inr ?_⟩
        cases hstops with
        | inl hfails =>
          refine Or.inl ⟨hfails.1, ?_⟩
          rw [hfails.2, failed]
          cases rewindLoop t.input (t.sent transport).2.1 with
          | none => rfl
          | some m => exact if_pos hfails.1.2.2.2.2
        | inr hbreaks =>
          obtain ⟨hnone, hfailing, code, t', hcode, heq, hadvances⟩ := hbreaks
          refine Or.inr ⟨hnone, hfailing, code, t', hcode, ?_, hadvances⟩
          rw [heq]
          exact if_pos hcode

/-- Turn after turn of the loop of `Write`. -/
def Dispatches (transport : Transport) : Unframing → Unframing → Prop :=
  Relation.ReflTransGen fun s t =>
    s.inputSizeBytes ≠ 0 ∧ s.dispatch transport = some (.noError, t)

theorem dispatch_noError (hok : s.unframer.Ok) (hinput : s.input ≠ [])
    (h : s.dispatch transport = some (.noError, t)) :
    t.unframer.Ok ∧ t.rewound = s.rewound ∧ t.rank < s.rank := by
  obtain ⟨t', hrounds, hend⟩ := dispatch_rounds transport hok hinput
  rw [h] at hend
  cases hend with
  | inl hgo =>
    obtain ⟨hokt, made, hadvances⟩ := hrounds.advances hok
    rw [(Prod.mk.inj (Option.some.inj hgo.1)).2]
    exact ⟨hokt, hadvances.rewound, hgo.2⟩
  | inr hstops => exact absurd rfl (hstops.code_ne _ rfl)

/-- The loop of `Write` goes through its turns. -/
theorem writeLoop_of_dispatches (h : Dispatches transport s t) (hok : s.unframer.Ok)
    (hrewound : s.rewound = 0) (fuel : Nat) (hfuel : s.rank < fuel) :
    t.unframer.Ok ∧ t.rewound = 0 ∧
      ∃ left, t.rank < left ∧ writeLoop transport fuel s = writeLoop transport left t := by
  induction h using Relation.ReflTransGen.head_induction_on generalizing fuel with
  | refl => exact ⟨hok, hrewound, fuel, hfuel, rfl⟩
  | @head s s' hturn _ ih =>
    have hinput : s.input ≠ [] := by
      intro hnil
      apply hturn.1
      rw [inputSizeBytes, hnil, hrewound]
      rfl
    obtain ⟨hokt, hrewoundt, hrank⟩ := dispatch_noError hok hinput hturn.2
    cases fuel with
    | zero => omega
    | succ fuel =>
      rw [writeLoop, if_neg hturn.1, hturn.2]
      exact ih hokt (hrewoundt.trans hrewound) fuel (by omega)

theorem dispatches_of_writeLoop (fuel : Nat) (h : writeLoop transport fuel s = some (.noError, t)) :
    Dispatches transport s t ∧ t.inputSizeBytes = 0 := by
  induction fuel generalizing s with
  | zero => cases h
  | succ fuel ih =>
    rw [writeLoop] at h
    split_ifs at h with hsize
    · rw [← (Prod.mk.inj (Option.some.inj h)).2]
      exact ⟨Relation.ReflTransGen.refl, hsize⟩
    · cases hdispatch : s.dispatch transport with
      | none => simp [hdispatch] at h
      | some result =>
        obtain ⟨code, s'⟩ := result
        rw [hdispatch] at h
        by_cases hcode : code = .noError
        · simp only [hcode, ne_eq, not_true_eq_false, if_false] at h
          rw [hcode] at hdispatch
          obtain ⟨hturns, hend⟩ := ih h
          exact ⟨Relation.ReflTransGen.head ⟨hsize, hdispatch⟩ hturns, hend⟩
        · simp only [hcode, ne_eq, not_false_eq_true, if_true] at h
          exact absurd (Prod.mk.inj (Option.some.inj h)).1 hcode

theorem Failing.input_ne_nil (hok : s.unframer.Ok) (h : s.Failing transport) : s.input ≠ [] := by
  intro hnil
  apply h.2.2.2.1
  rw [stopAt, hnil, consumeInputLoop, (ok_findPacketCrc h.1).mp hok]

theorem Rounds.eq_of_nextRound (h : Rounds transport s t) (hnone : s.nextRound transport = none) :
    s = t := by
  cases Relation.ReflTransGen.cases_head h with
  | inl heq => exact heq
  | inr hstep =>
    obtain ⟨_, hnext, -⟩ := hstep
    rw [hnone] at hnext
    cases hnext

/-- The stream fails in one round at most, and no round follows it. -/
theorem Rounds.failing_eq (hok : s.unframer.Ok) (ht : Rounds transport s t)
    (hend : t.input = [] ∨ t.nextRound transport = none) (hf : Rounds transport s f)
    (hfailing : f.Failing transport) : f = t := by
  have hunique : Relator.RightUnique fun s t : Unframing => s.nextRound transport = some t := by
    intro a b c hb hc
    exact Option.some.inj (hb.symm.trans hc)
  cases Relation.ReflTransGen.total_of_right_unique hunique hf ht with
  | inl hft => exact Rounds.eq_of_nextRound hft hfailing.nextRound
  | inr htf =>
    cases hend with
    | inr hnone => exact (Rounds.eq_of_nextRound htf hnone).symm
    | inl hempty =>
      obtain ⟨-, _, hadvances⟩ := Rounds.advances (ht.advances hok).1 htf
      have hle := hadvances.le
      rw [hempty] at hle
      have hnil : f.input = [] := List.eq_nil_of_length_eq_zero (Nat.le_zero.mp hle)
      exact absurd hnil (hfailing.input_ne_nil (hf.advances hok).1)

/-- Where `Write` starts. -/
def start (u : Unframer) (history : List StreamCall) (data : List UInt8) : Unframing :=
  ⟨u, data, 0, history, []⟩

end Unframing

namespace Unframer

open Unframing

def reset (u : Unframer) : Unframer :=
  { u with state := .findPacketStart, sawEscapeStart := false, buffer := [] }

/-- What a call of `Write` leaves that stopped with an error. -/
def stoppedAt (data : List UInt8) (code : TvmCrtError) (t : Unframing) : Written :=
  ⟨code, (data.length : Int) - t.inputSizeBytes,
    { t.unframer with state := .findPacketStart, buffer := [] }, t.calls⟩

variable {transport : Transport} {u : Unframer} {history : List StreamCall} {data : List UInt8}

/-- The three ends of `Write`: the chunk is used up, the stream fails, or the chunk breaks the
framing. -/
theorem write_rounds (transport : Transport) (hok : u.Ok) (history : List StreamCall)
    (data : List UInt8) : ∃ t, Rounds transport (start u history data) t ∧
      (t.input = [] ∧
          u.write transport history data = some ⟨.noError, data.length, t.unframer, t.calls⟩ ∨
        t.Failing transport ∧ u.write transport history data =
            (t.failed transport).map (fun stop => stoppedAt data stop.1 stop.2) ∨
        t.nextRound transport = none ∧ ¬ t.Failing transport ∧ ∃ code t', code ≠ .noError ∧
          Advances t t' [] ∧ u.write transport history data = some (stoppedAt data code t')) := by
  have hfuel : (start u history data).rank < 2 * data.length + 2 := rank_lt u data history
  obtain ⟨t, hrounds, hend⟩ := writeLoop_rounds transport _ hok rfl hfuel
  obtain ⟨-, made, hadvances⟩ := hrounds.advances hok
  refine ⟨t, hrounds, ?_⟩
  unfold write
  cases hend with
  | inl hused =>
    apply Or.inl
    have hsize : t.inputSizeBytes = 0 := by
      rw [inputSizeBytes, hused.1, hadvances.rewound]
      rfl
    have hwhole : (data.length : Int) - (t.inputSizeBytes : Nat) = data.length := by
      rw [hsize]
      exact sub_zero _
    refine ⟨hused.1, ?_⟩
    rw [← start, hused.2]
    simp only [ne_eq, not_true_eq_false, if_false, hwhole]
  | inr hstops =>
    apply Or.inr
    cases hstops with
    | inl hfails =>
      refine Or.inl ⟨hfails.1, ?_⟩
      rw [← start, hfails.2]
      unfold failed
      cases rewindLoop t.input (t.sent transport).2.1 with
      | none => rfl
      | some m =>
        simp only [Option.map_some, hfails.1.2.2.2.2, ne_eq, not_false_eq_true, if_true]
        rfl
    | inr hbreaks =>
      obtain ⟨hnone, hfailing, code, t', hcode, heq, hadvances'⟩ := hbreaks
      refine Or.inr ⟨hnone, hfailing, code, t', hcode, hadvances', ?_⟩
      rw [← start, heq]
      simp only [hcode, ne_eq, not_false_eq_true, if_true]
      rfl

theorem stoppedAt_ok (data : List UInt8) (code : TvmCrtError) (t : Unframing) :
    (stoppedAt data code t).unframer.Ok := rfl

theorem write_ok {w : Written} (hok : u.Ok) (h : u.write transport history data = some w) :
    w.unframer.Ok := by
  obtain ⟨t, hrounds, hend⟩ := write_rounds transport hok history data
  rw [h] at hend
  cases hend with
  | inl hused =>
    rw [Option.some.inj hused.2]
    exact (hrounds.advances hok).1
  | inr hstops =>
    cases hstops with
    | inl hfails =>
      obtain ⟨stop, -, hstop⟩ := Option.map_eq_some_iff.mp hfails.2.symm
      rw [← hstop]
      exact stoppedAt_ok _ _ _
    | inr hbreaks =>
      obtain ⟨-, -, code, t', -, -, heq⟩ := hbreaks
      rw [Option.some.inj heq]
      exact stoppedAt_ok _ _ _

/-- The states of an unframer that is fed any bytes in any chunks, whatever its stream answers. -/
inductive Reached : Unframer → Prop
  | create (numPayloadBytesRemaining : Nat) (crc : UInt16) :
      Reached (create numPayloadBytesRemaining crc)
  | reset {u : Unframer} (h : Reached u) : Reached u.reset
  | write {u : Unframer} {transport : Transport} {history : List StreamCall} {data : List UInt8}
      {w : Written} (h : Reached u) (hwrite : u.write transport history data = some w) :
      Reached w.unframer

theorem Reached.ok (h : Reached u) : u.Ok := by
  induction h with
  | create => rfl
  | reset => rfl
  | write _ hwrite ih => exact write_ok ih hwrite

end Unframer

end StencilGraph.Micro
