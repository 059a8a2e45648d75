import StencilGraph.Micro.UnframerRounds

namespace StencilGraph.Micro

open Framework Escape Unframer

/-- How many input bytes hold the next `k` payload bytes. -/
def wireLength : Bool → List UInt8 → Nat → Nat
  | _, _, 0 => 0
  | _, [], _ + 1 => 0
  | flag, c :: input, k + 1 =>
    match byteAction flag c with
    | .shortPacket => 0
    | .invalidEscape => 0
    | .skip flag => wireLength flag input (k + 1) + 1
    | .store => wireLength false input k + 1

/-- The first `m` bytes hold `k` bytes other than the escape byte and do not end with it. -/
def CountsTo (input : List UInt8) (k m : Nat) : Prop :=
  (input.take m).countP (· ≠ kEscapeStart) = k ∧ (input.take m).getLast? ≠ some kEscapeStart

theorem wireLength_add_le (n k : Nat) (flag : Bool) (buffer input : List UInt8)
    (hroom : buffer.length < n)
    (hstored : buffer.length + k ≤ (consumeInputLoop n flag buffer input).buffer.length) :
    wireLength flag input k + (consumeInputLoop n flag buffer input).input.length ≤ input.length := by
  induction input generalizing flag buffer k with
  | nil => cases k <;> exact Nat.le_refl 0
  | cons c input ih =>
    cases k with
    | zero =>
      obtain ⟨raw, hraw⟩ := (consumeInputLoop_consumes n flag buffer (c :: input) hroom).suffix
      have hlength := congrArg List.length hraw
      rw [List.length_append] at hlength
      rw [wireLength]
      omega
    | succ k =>
      rw [consumeInputLoop] at hstored ⊢
      rw [wireLength, List.length_cons]
      cases haction : byteAction flag c with
      | shortPacket =>
        simp only [haction] at hstored
        omega
      | invalidEscape =>
        simp only [haction] at hstored
        omega
      | skip flag' =>
        simp only [haction] at hstored ⊢
        have hrest := ih (k + 1) flag' buffer hroom hstored
        omega
      | store =>
        simp only [haction] at hstored ⊢
        split_ifs at hstored ⊢ with hfull
        · have hone : k = 0 := by
            rw [List.length_append, List.length_singleton] at hstored
            omega
          rw [hone, wireLength]
          show 0 + 1 + input.length ≤ input.length + 1
          omega
        · rw [List.length_append, List.length_singleton] at hfull
          have hrest := ih k false (buffer ++ [c])
            (by rw [List.length_append, List.length_singleton]; omega)
            (by rw [List.length_append, List.length_singleton]; omega)
          omega

theorem countsTo_zero (input : List UInt8) (k : Nat) : CountsTo input k 0 ↔ k = 0 := by
  unfold CountsTo
  rw [List.take_zero, List.countP_nil]
  constructor
  · intro h
    exact h.1.symm
  · intro h
    refine ⟨h.symm, ?_⟩
    intro hlast
    cases hlast

theorem countsTo_nothing {input : List UInt8} {m : Nat} (hm : m ≤ input.length)
    (h : CountsTo input 0 m) : m = 0 := by
  cases m with
  | zero => rfl
  | succ m =>
    exfalso
    have hlength : (input.take (m + 1)).length = m + 1 := by
      rw [List.length_take]
      omega
    have hne : input.take (m + 1) ≠ [] := by
      intro hnil
      rw [hnil] at hlength
      cases hlength
    have hlast := List.countP_eq_zero.mp h.1 _ (List.getLast_mem hne)
    apply h.2
    rw [List.getLast?_eq_some_getLast hne]
    congr 1
    simpa using hlast

theorem countsTo_cons_escape (input : List UInt8) (k m : Nat) :
    CountsTo (kEscapeStart :: input) (k + 1) (m + 1) ↔ CountsTo input (k + 1) m := by
  unfold CountsTo
  rw [List.take_succ_cons, List.countP_cons_of_neg (by decide)]
  apply and_congr_right
  intro hcount
  cases htake : input.take m with
  | nil =>
    rw [htake] at hcount
    cases hcount
  | cons d rest => rw [List.getLast?_cons_cons]

theorem countsTo_cons {c : UInt8} (hc : c ≠ kEscapeStart) (input : List UInt8) (k m : Nat) :
    CountsTo (c :: input) (k + 1) (m + 1) ↔ CountsTo input k m := by
  unfold CountsTo
  rw [List.take_succ_cons, List.countP_cons_of_pos (by simpa using hc), Nat.succ_inj]
  apply and_congr_right
  intro hcount
  cases htake : input.take m with
  | nil =>
    simp only [List.getLast?_singleton, List.getLast?_nil]
    constructor
    · intro _
      intro hlast
      cases hlast
    · intro _ heq
      exact hc (Option.some.inj heq)
  | cons d rest => rw [List.getLast?_cons_cons]

namespace Unframing

/-- The count of `FindPacketCrc` ends behind the `k`-th byte other than the escape byte. -/
theorem rewindLoop_eq_some_iff (input : List UInt8) (k m : Nat) :
    rewindLoop input k = some m ↔ m ≤ input.length ∧ CountsTo input k m := by
  induction input generalizing k m with
  | nil =>
    cases k with
    | zero =>
      rw [rewindLoop]
      constructor
      · intro h
        rw [← Option.some.inj h]
        exact ⟨Nat.le_refl 0, (countsTo_zero _ _).mpr rfl⟩
      · intro h
        rw [Nat.le_zero.mp h.1]
    | succ k =>
      rw [rewindLoop]
      constructor
      · intro h
        cases h
      · intro h
        have hzero : m = 0 := Nat.le_zero.mp h.1
        rw [hzero] at h
        exact absurd ((countsTo_zero _ _).mp h.2) (Nat.succ_ne_zero k)
  | cons c input ih =>
    cases k with
    | zero =>
      rw [rewindLoop]
      constructor
      · intro h
        rw [← Option.some.inj h]
        exact ⟨Nat.zero_le _, (countsTo_zero _ _).mpr rfl⟩
      · intro h
        rw [countsTo_nothing h.1 h.2]
    | succ k =>
      rw [rewindLoop, Option.map_eq_some_iff]
      cases m with
      | zero =>
        constructor
        · intro h
          obtain ⟨_, -, hzero⟩ := h
          cases hzero
        · intro h
          exact absurd ((countsTo_zero _ _).mp h.2) (Nat.succ_ne_zero k)
      | succ m =>
        have hsucc (k' : Nat) : (∃ a, rewindLoop input k' = some a ∧ a + 1 = m + 1) ↔
            m + 1 ≤ (c :: input).length ∧ CountsTo input k' m := by
          rw [List.length_cons, Nat.succ_le_succ_iff, ← ih k' m]
          constructor
          · intro h
            obtain ⟨a, ha, heq⟩ := h
            rw [← Nat.succ.inj heq]
            exact ha
          · intro h
            exact ⟨m, h, rfl⟩
        rw [hsucc]
        by_cases hc : c = kEscapeStart
        · rw [if_neg (not_not.mpr hc), hc, countsTo_cons_escape]
        · rw [if_pos hc, countsTo_cons hc]

variable {transport : Transport} {f t : Unframing}

/-- The payload bytes that the stream accepts in a round of `FindPacketCrc`. -/
def accepted (transport : Transport) (f : Unframing) : Nat := (f.sent transport).2.1

/-- The input bytes that hold the payload bytes accepted in a round of `FindPacketCrc`. -/
def acceptedWire (transport : Transport) (f : Unframing) : Nat :=
  wireLength f.unframer.sawEscapeStart f.input (f.accepted transport)

/-- Of the input of the round, take the wire bytes of the accepted bytes, and as many bytes again as
there are behind the buffered part: they hold as many bytes other than the escape byte as payload
bytes were accepted, and do not end with the escape byte. -/
def RewindExact (transport : Transport) (f : Unframing) : Prop :=
  CountsTo f.input (f.accepted transport)
    (f.acceptedWire transport + (f.stopAt f.roundSize).input.length)

theorem acceptedWire_add_le (hok : f.unframer.Ok) (hfailing : f.Failing transport) :
    f.acceptedWire transport + (f.stopAt f.roundSize).input.length ≤ f.input.length := by
  have hbuffer : f.unframer.buffer = [] := (ok_findPacketCrc hfailing.1).mp hok
  apply wireLength_add_le
  · rw [hbuffer]
    exact roundSize_pos hfailing.2.1
  · have hle : f.accepted transport ≤ (f.stopAt f.roundSize).buffer.length :=
      (transport.stream.writeAll_spec _ _).1
    have hzero : f.unframer.buffer.length = 0 := by rw [hbuffer, List.length_nil]
    show f.unframer.buffer.length + f.accepted transport ≤ (f.stopAt f.roundSize).buffer.length
    omega

end Unframing

namespace Unframer

open Unframing

variable {transport : Transport} {u : Unframer} {history : List StreamCall} {data : List UInt8}

/-- The round of a call of `Write` in which the stream fails. -/
def FailsAt (transport : Transport) (u : Unframer) (history : List StreamCall) (data : List UInt8)
    (f : Unframing) : Prop :=
  Rounds transport (start u history data) f ∧ f.Failing transport

/-- `Write` returns and consumes a part of the chunk; where the stream fails, the rest is what
follows the wire bytes of the payload bytes it accepted. -/
def Accounts (transport : Transport) (u : Unframer) (history : List StreamCall)
    (data : List UInt8) : Prop :=
  ∃ w, u.write transport history data = some w ∧ 0 ≤ w.bytesConsumed ∧
    w.bytesConsumed ≤ data.length ∧ ∀ f, FailsAt transport u history data f →
      data.drop w.bytesConsumed.toNat = f.input.drop (f.acceptedWire transport)

/-- Where the stream does not fail the chunk is accounted for. -/
theorem accounts_of_advances {t t' : Unframing} {code : TvmCrtError}
    (hsuffix : ∃ raw, data = raw ++ t.input) (hrewound : t.rewound = 0)
    (hadvances : Advances t t' [])
    (hwrite : u.write transport history data = some (stoppedAt data code t'))
    (hnone : ∀ f, ¬ FailsAt transport u history data f) : Accounts transport u history data := by
  obtain ⟨raw, hraw⟩ := hsuffix
  obtain ⟨raw', hraw'⟩ := hadvances.suffix
  have hdata : data.length = raw.length + (raw'.length + t'.input.length) := by
    rw [hraw, hraw', List.length_append, List.length_append]
  have hsize : t'.inputSizeBytes = t'.input.length := by
    rw [inputSizeBytes, hadvances.rewound, hrewound, Nat.add_zero]
  refine ⟨_, hwrite, ?_, ?_, fun f hf => absurd hf (hnone f)⟩
  · show 0 ≤ (data.length : Int) - t'.inputSizeBytes
    omega
  · show (data.length : Int) - t'.inputSizeBytes ≤ data.length
    omega

/-- In the round in which the stream fails, the count is right if and only if the condition on the
bytes holds. -/
theorem accounts_iff_of_failing {f : Unframing} (hok : u.Ok)
    (hf : FailsAt transport u history data f)
    (hwrite : u.write transport history data =
      (f.failed transport).map (fun stop => stoppedAt data stop.1 stop.2)) :
    Accounts transport u history data ↔ f.RewindExact transport := by
  obtain ⟨hokf, made, hadvances⟩ := hf.1.advances hok
  obtain ⟨raw, hraw⟩ := hadvances.suffix
  have hdata : data = raw ++ f.input := hraw
  have hlength : data.length = raw.length + f.input.length := by rw [hdata, List.length_append]
  have hfits := acceptedWire_add_le hokf hf.2
  have hunique (f' : Unframing) (hf' : FailsAt transport u history data f') : f' = f :=
    Rounds.failing_eq hok hf.1 (Or.inr hf.2.nextRound) hf'.1 hf'.2
  have hsize (m : Nat) : (f.rewind transport m).inputSizeBytes =
      (f.stopAt f.roundSize).input.length + (f.input.length - m) := rfl
  have hcount := rewindLoop_eq_some_iff f.input (f.accepted transport)
  constructor
  · intro haccounts
    obtain ⟨w, hw, hnonneg, hle, hrest⟩ := haccounts
    have hdrop := congrArg List.length (hrest f hf)
    rw [List.length_drop, List.length_drop] at hdrop
    rw [hw] at hwrite
    obtain ⟨stop, hstop, hw'⟩ := Option.map_eq_some_iff.mp hwrite.symm
    obtain ⟨m, hm, hstop'⟩ := Option.map_eq_some_iff.mp hstop
    obtain ⟨hmle, hcounts⟩ := (hcount m).mp hm
    have hbytes : w.bytesConsumed =
        (data.length : Int) - (f.rewind transport m).inputSizeBytes := by
      rw [← hw', ← hstop']
      rfl
    rw [hsize] at hbytes
    have hm' : m = f.acceptedWire transport + (f.stopAt f.roundSize).input.length := by omega
    rw [hm'] at hcounts
    exact hcounts
  · intro hexact
    have hm := (hcount _).mpr ⟨hfits, hexact⟩
    rw [failed, ← accepted, hm] at hwrite
    refine ⟨_, hwrite, ?_⟩
    have hbytes : (data.length : Int) - ((f.stopAt f.roundSize).input.length +
        (f.input.length - (f.acceptedWire transport + (f.stopAt f.roundSize).input.length)) : Nat) =
          (raw.length + f.acceptedWire transport : Nat) := by
      omega
    simp only [stoppedAt, hsize, hbytes, Int.toNat_natCast]
    refine ⟨Int.natCast_nonneg _, ?_, ?_⟩
    · omega
    · intro f' hf'
      rw [hunique f' hf', hdata, List.drop_length_add_append]

/-- `Write` accounts for its chunk if and only if the rewind count is exact in the round in which the
stream fails, if there is one. -/
theorem write_accounts_iff (transport : Transport) {u : Unframer} (hu : Reached u)
    (history : List StreamCall) (data : List UInt8) :
    Accounts transport u history data ↔
      ∀ f, FailsAt transport u history data f → f.RewindExact transport := by
  have hok := hu.ok
  obtain ⟨t, hrounds, hend⟩ := write_rounds transport hok history data
  obtain ⟨hokt, made, hadvances⟩ := hrounds.advances hok
  have hunique (hend : t.input = [] ∨ t.nextRound transport = none)
      (f : Unframing) (hf : FailsAt transport u history data f) : f = t :=
    Rounds.failing_eq hok hrounds hend hf.1 hf.2
  cases hend with
  | inl hused =>
    have hnone (f : Unframing) : ¬ FailsAt transport u history data f := by
      intro hf
      rw [hunique (Or.inl hused.1) f hf] at hf
      exact hf.2.input_ne_nil hokt hused.1
    constructor
    · intro _ f hf
      exact absurd hf (hnone f)
    · intro _
      exact ⟨_, hused.2, Int.natCast_nonneg _, Int.le_refl _, fun f hf => absurd hf (hnone f)⟩
  | inr hstops =>
    cases hstops with
    | inl hfails =>
      have hiff := accounts_iff_of_failing hok ⟨hrounds, hfails.1⟩ hfails.2
      rw [hiff]
      constructor
      · intro hexact f hf
        rw [hunique (Or.inr hfails.1.nextRound) f hf]
        exact hexact
      · intro hall
        exact hall t ⟨hrounds, hfails.1⟩
    | inr hbreaks =>
      obtain ⟨hnextRound, hfailing, code, t', -, hadvances', hwrite⟩ := hbreaks
      have hnone (f : Unframing) : ¬ FailsAt transport u history data f := by
        intro hf
        rw [hunique (Or.inr hnextRound) f hf] at hf
        exact hfailing hf.2
      constructor
      · intro _ f hf
        exact absurd hf (hnone f)
      · intro _
        exact accounts_of_advances hadvances.suffix hadvances.rewound hadvances' hwrite hnone

/-- A stream that takes one byte of the first offer and then fails. -/
def takesOne : Transport :=
  ⟨fun crc _ => crc, ⟨fun calls _ => if calls = [] then 1 else -1⟩⟩

/-- A packet of two bytes of payload is begun. -/
def begun : Unframer := ⟨.findPacketCrc, false, [], 2, 0xffff⟩

theorem begun_reached : Reached begun := by
  have hwrite : (create 0 0).write takesOne [] [0xff, 0xfd, 2, 0, 0, 0] =
      some ⟨.noError, 6, begun, []⟩ := by decide
  exact (Reached.create 0 0).write hwrite

theorem write_accounts_iff_begun : Accounts takesOne begun [] [7, 8] ↔
    ∀ f, FailsAt takesOne begun [] [7, 8] f → f.RewindExact takesOne :=
  write_accounts_iff takesOne begun_reached [] [7, 8]

/-- With the crc in the same chunk `input_` ends in front of the chunk: three bytes are offered and
four are left. -/
theorem write_moves_before_chunk :
    ¬ ∀ (transport : Transport) (u : Unframer), Reached u → ∀ history data,
      Accounts transport u history data := by
  intro h
  obtain ⟨w, hw, hnonneg, -, -⟩ := h takesOne begun begun_reached [.write []] [7, 8, 1]
  have hrun : (begun.write takesOne [.write []] [7, 8, 1]).map Written.bytesConsumed =
      some (-1) := by decide
  rw [hw] at hrun
  rw [Option.some.inj hrun] at hnonneg
  exact absurd hnonneg (by decide)

end Unframer

end StencilGraph.Micro
