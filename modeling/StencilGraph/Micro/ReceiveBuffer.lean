import Mathlib.Data.List.Induction
import StencilGraph.Micro.Session

namespace StencilGraph.Micro

namespace Session

variable {s : Session}

/-- Payload writes, one after the other. -/
def writeAll (s : Session) : List (List UInt8) → List WriteResult × Session
  | [] => ([], s)
  | chunk :: writes =>
    let (result, s) := s.write chunk
    let (results, s) := s.writeAll writes
    (result :: results, s)

/-- What happens to a session between two messages. -/
inductive Event where
  | start (initialSessionNonce : UInt8)
  | startSession
  | terminateSession
  | packet (writes : List (List UInt8)) (isValid : Bool)

def handle (s : Session) : Event → Session × List Output
  | .start nonce => s.initializeWith nonce
  | .startSession => (s.startSession).getD (s, [])
  | .terminateSession => s.terminateSession
  | .packet writes isValid => (s.writeAll writes).2.packetDone isValid

def run (s : Session) (history : List Event) : Session :=
  history.foldl (fun s e => (s.handle e).1) s

theorem run_append_singleton (s : Session) (history : List Event) (e : Event) :
    s.run (history ++ [e]) = ((s.run history).handle e).1 := by
  simp [run]

/-- The test of `PacketDone` before it calls `message_received_func_` with the buffer. -/
def Deliverable (s : Session) (header : SessionHeader) : Prop :=
  header.messageType ≠ MessageType.kStartSessionInit ∧
    header.messageType ≠ MessageType.kStartSessionReply ∧
    header.messageType ≠ MessageType.kTerminateSession ∧
    if header.messageType = MessageType.kLog then header.sessionId = 0 ∨ header.sessionId = s.sessionId
    else s.state = .sessionEstablished ∧ header.sessionId = s.sessionId

instance (s : Session) (header : SessionHeader) : Decidable (s.Deliverable header) := by
  unfold Deliverable
  infer_instance

/-- The packet in the buffer reaches the callback. -/
def HandsOverNow (s : Session) (isValid : Bool) : Prop :=
  isValid = true ∧ ∃ header, SessionHeader.ofBytes (s.receiveBuffer.read 3).1 = some header ∧
    s.Deliverable header

/-- The event is a packet that reaches the callback once it is written. -/
def HandsOver (s : Session) : Event → Prop
  | .packet writes isValid => (s.writeAll writes).2.HandsOverNow isValid
  | _ => False

/-- No payload byte arrives. -/
def Event.Quiet : Event → Prop
  | .packet writes _ => writes.flatten = []
  | _ => True

/-- A packet has reached the callback and no payload byte came after it, or none came at all. -/
def LastHandedOver (s : Session) (history : List Event) : Prop :=
  (∀ e ∈ history, e.Quiet) ∨
    ∃ before e after, history = before ++ e :: after ∧ (s.run before).HandsOver e ∧
      ∀ e ∈ after, e.Quiet

/-- In an established session every normal packet that fits the receive buffer is accepted however
it is cut into writes, and the callback gets its payload. -/
def AcceptsNormal (s : Session) : Prop :=
  s.state = .sessionEstablished → ∀ (writes : List (List UInt8)) (body : List UInt8),
    writes.flatten = Message.bytes ⟨⟨s.sessionId, MessageType.kNormal⟩, body⟩ →
    writes.flatten.length ≤ s.receiveBuffer.capacity →
    (s.writeAll writes).1 = writes.map (fun chunk => .written chunk.length) ∧
      ((s.writeAll writes).2.packetDone true).2 = [.received MessageType.kNormal (some body)]

/-- Only the receive buffer and its flag change. -/
structure SameSession (s t : Session) : Prop where
  sessionId : t.sessionId = s.sessionId
  state : t.state = s.state
  capacity : t.receiveBuffer.capacity = s.receiveBuffer.capacity
  hasCompleteMessage : t.hasCompleteMessage = s.hasCompleteMessage
  readCursor : t.receiveBuffer.readCursor = s.receiveBuffer.readCursor

theorem write_same (s : Session) (chunk : List UInt8) : SameSession s (s.write chunk).2 := by
  unfold write FrameBuffer.write
  simp only
  split_ifs
  · exact ⟨rfl, rfl, rfl, rfl, rfl⟩
  · exact ⟨rfl, rfl, rfl, rfl, rfl⟩
  · exact ⟨rfl, rfl, rfl, rfl, rfl⟩

theorem writeAll_same (s : Session) (writes : List (List UInt8)) :
    SameSession s (s.writeAll writes).2 := by
  induction writes generalizing s with
  | nil => exact ⟨rfl, rfl, rfl, rfl, rfl⟩
  | cons chunk writes ih =>
    have h₁ := write_same s chunk
    have h₂ := ih (s.write chunk).2
    exact ⟨h₂.sessionId.trans h₁.sessionId, h₂.state.trans h₁.state, h₂.capacity.trans h₁.capacity,
      h₂.hasCompleteMessage.trans h₁.hasCompleteMessage, h₂.readCursor.trans h₁.readCursor⟩

theorem write_data (s : Session) (chunk : List UInt8) (hflag : s.hasCompleteMessage = false) :
    (s.write chunk).2.receiveBuffer.data = s.receiveBuffer.data ++
      chunk.take (s.receiveBuffer.capacity - s.receiveBuffer.data.length) := by
  have htake (n : Nat) : chunk.take (min chunk.length n) = chunk.take n := by
    rw [Nat.min_comm, ← List.take_take, List.take_length]
  unfold write FrameBuffer.write
  simp only [hflag, Bool.false_eq_true, if_false]
  split_ifs
  · exact congrArg _ (htake _)
  · exact congrArg _ (htake _)

theorem writeAll_prefix (s : Session) (writes : List (List UInt8)) :
    s.receiveBuffer.data <+: (s.writeAll writes).2.receiveBuffer.data := by
  induction writes generalizing s with
  | nil => exact List.prefix_rfl
  | cons chunk writes ih =>
    have hwrite : s.receiveBuffer.data <+: (s.write chunk).2.receiveBuffer.data := by
      cases hflag : s.hasCompleteMessage with
      | true => simp [write, hflag]
      | false =>
        rw [write_data s chunk hflag]
        exact List.prefix_append _ _
    exact hwrite.trans (ih _)

/-- What fits is stored and reported as written. -/
theorem writeAll_fits (s : Session) (writes : List (List UInt8))
    (hflag : s.hasCompleteMessage = false)
    (hroom : s.receiveBuffer.data.length + writes.flatten.length ≤ s.receiveBuffer.capacity) :
    (s.writeAll writes).1 = writes.map (fun chunk => .written chunk.length) ∧
      (s.writeAll writes).2.receiveBuffer.data = s.receiveBuffer.data ++ writes.flatten := by
  induction writes generalizing s with
  | nil => simp [writeAll]
  | cons chunk writes ih =>
    rw [List.flatten_cons, List.length_append] at hroom
    have hsame := write_same s chunk
    have hdata : (s.write chunk).2.receiveBuffer.data = s.receiveBuffer.data ++ chunk := by
      rw [write_data s chunk hflag, List.take_of_length_le (by omega)]
    have hresult : (s.write chunk).1 = .written chunk.length := by
      have hmin : min chunk.length (s.receiveBuffer.capacity - s.receiveBuffer.data.length) =
          chunk.length := by omega
      simp [write, FrameBuffer.write, hflag, hmin]
    have hrest := ih (s.write chunk).2 (hsame.hasCompleteMessage.trans hflag) (by
      rw [hdata, hsame.capacity, List.length_append]
      omega)
    constructor
    · show (s.write chunk).1 :: ((s.write chunk).2.writeAll writes).1 = _
      rw [hresult, hrest.1, List.map_cons]
    · show ((s.write chunk).2.writeAll writes).2.receiveBuffer.data = _
      rw [hrest.2, hdata, List.flatten_cons, List.append_assoc]

/-- An empty buffer stays empty only when no byte arrives. -/
theorem writeAll_eq_nil (s : Session) (writes : List (List UInt8))
    (hflag : s.hasCompleteMessage = false) (hcap : 0 < s.receiveBuffer.capacity) :
    (s.writeAll writes).2.receiveBuffer.data = [] ↔
      s.receiveBuffer.data = [] ∧ writes.flatten = [] := by
  induction writes generalizing s with
  | nil => simp [writeAll]
  | cons chunk writes ih =>
    have hsame := write_same s chunk
    have hrest := ih (s.write chunk).2 (hsame.hasCompleteMessage.trans hflag)
      (by rw [hsame.capacity]; exact hcap)
    show ((s.write chunk).2.writeAll writes).2.receiveBuffer.data = [] ↔ _
    rw [hrest, write_data s chunk hflag, List.append_eq_nil_iff, List.flatten_cons,
      List.append_eq_nil_iff, List.take_eq_nil_iff, and_assoc, and_congr_right_iff]
    intro hnil
    rw [hnil, List.length_nil]
    constructor
    · intro h
      exact ⟨h.1.resolve_left (by omega), h.2⟩
    · intro h
      exact ⟨Or.inr h.1, h.2⟩

/-- The read cursor is in the buffer, and a complete message has bytes there. -/
structure Sound (s : Session) : Prop where
  cursor : s.receiveBuffer.readCursor ≤ s.receiveBuffer.data.length
  flag : s.hasCompleteMessage = true → s.receiveBuffer.data ≠ []

/-- The bytes in the buffer stay; the read cursor may move. -/
structure SameData (s t : Session) : Prop where
  data : t.receiveBuffer.data = s.receiveBuffer.data
  capacity : t.receiveBuffer.capacity = s.receiveBuffer.capacity
  cursor : s.receiveBuffer.readCursor ≤ s.receiveBuffer.data.length →
    t.receiveBuffer.readCursor ≤ t.receiveBuffer.data.length

theorem SameData.trans {s t u : Session} (h : SameData s t) (h' : SameData t u) : SameData s u :=
  ⟨h'.data.trans h.data, h'.capacity.trans h.capacity, h'.cursor ∘ h.cursor⟩

theorem read_cursor (b : FrameBuffer) (n : Nat) (h : b.readCursor ≤ b.data.length) :
    (b.read n).2.readCursor ≤ b.data.length := by
  simp only [FrameBuffer.read]
  omega

theorem sendSessionStartReply_data (s : Session) (header : SessionHeader) :
    SameData s (s.sendSessionStartReply header).1 := ⟨rfl, rfl, id⟩

theorem startSession_data (s : Session) : SameData s ((s.startSession).getD (s, [])).1 ∧
    ((s.startSession).getD (s, [])).1.hasCompleteMessage = s.hasCompleteMessage := by
  unfold startSession
  split_ifs
  · exact ⟨⟨rfl, rfl, id⟩, rfl⟩
  · exact ⟨⟨rfl, rfl, id⟩, rfl⟩

theorem readVersion_data (s : Session) : SameData s s.readVersion.2 := ⟨rfl, rfl, read_cursor _ 1⟩

theorem processStartSessionInit_data (s : Session) (header : SessionHeader) :
    SameData s (s.processStartSessionInit header).1 := by
  have hread := readVersion_data s
  unfold processStartSessionInit
  generalize s.readVersion = r at hread
  by_cases hnonce : initiatorNonce header.sessionId = kInvalidNonce
  · rw [if_pos hnonce]
    exact ⟨rfl, rfl, id⟩
  · rw [if_neg hnonce]
    match r, hread with
    | (none, t), hread => exact hread
    | (some version, t), hread =>
      apply hread.trans
      simp only
      split
      · exact sendSessionStartReply_data t header
      · exact sendSessionStartReply_data t header
      · split_ifs
        · exact sendSessionStartReply_data t header
        · exact ⟨rfl, rfl, id⟩
        · exact (startSession_data t).1
        · exact ⟨rfl, rfl, id⟩
      · exact sendSessionStartReply_data t header

theorem processStartSessionReply_data (s : Session) (header : SessionHeader) :
    SameData s (s.processStartSessionReply header).1 := by
  have hread := readVersion_data s
  unfold processStartSessionReply
  generalize s.readVersion = r at hread
  by_cases hnonce : responderNonce header.sessionId = kInvalidNonce
  · rw [if_pos hnonce]
    exact ⟨rfl, rfl, id⟩
  · rw [if_neg hnonce]
    match r, hread with
    | (none, t), hread => exact hread
    | (some version, t), hread =>
      apply hread.trans
      simp only
      split
      · exact ⟨rfl, rfl, id⟩
      · exact ⟨rfl, rfl, id⟩
      · split_ifs
        · exact ⟨rfl, rfl, id⟩
        · exact ⟨rfl, rfl, id⟩
      · split_ifs
        · exact sendSessionStartReply_data t header
        · exact ⟨rfl, rfl, id⟩
        · exact ⟨rfl, rfl, id⟩

theorem ofBytes_ne_nil {bytes : List UInt8} {header : SessionHeader}
    (h : SessionHeader.ofBytes bytes = some header) : bytes ≠ [] := by
  intro hnil
  rw [hnil] at h
  exact nomatch h

theorem read_ne_nil (b : FrameBuffer) {n : Nat} (h : (b.read n).1 ≠ []) : b.data ≠ [] := by
  intro hnil
  apply h
  simp [FrameBuffer.read, hnil]

/-- `PacketDone` once the header is read. -/
theorem packetDone_header {header : SessionHeader}
    (hheader : SessionHeader.ofBytes (s.receiveBuffer.read 3).1 = some header) :
    if s.Deliverable header then
      s.packetDone true = receiveMessage { s with receiveBuffer := (s.receiveBuffer.read 3).2 }
        header.messageType
    else SameData s (s.packetDone true).1 := by
  have hread := read_cursor s.receiveBuffer 3
  unfold packetDone Deliverable
  simp only [hheader, Bool.not_true, Bool.false_eq_true, if_false]
  by_cases hinit : header.messageType = MessageType.kStartSessionInit
  · rw [if_neg (fun h => h.1 hinit), if_pos hinit]
    have h := processStartSessionInit_data
      { s with receiveBuffer := (s.receiveBuffer.read 3).2, hasCompleteMessage := true } header
    exact ⟨h.data, h.capacity, h.cursor ∘ hread⟩
  by_cases hreply : header.messageType = MessageType.kStartSessionReply
  · rw [if_neg (fun h => h.2.1 hreply), if_neg hinit, if_pos hreply]
    have h := processStartSessionReply_data
      { s with receiveBuffer := (s.receiveBuffer.read 3).2, hasCompleteMessage := true } header
    exact ⟨h.data, h.capacity, h.cursor ∘ hread⟩
  by_cases hterm : header.messageType = MessageType.kTerminateSession
  · rw [if_neg (fun h => h.2.2.1 hterm), if_neg hinit, if_neg hreply, if_pos hterm]
    split_ifs
    · exact ⟨rfl, rfl, hread⟩
    · exact ⟨rfl, rfl, hread⟩
  simp only [ne_eq, hinit, hreply, hterm, not_false_eq_true, true_and, if_false]
  by_cases hlog : header.messageType = MessageType.kLog
  · simp only [hlog, if_true]
    split_ifs
    · rfl
    · exact ⟨rfl, rfl, hread⟩
  · simp only [hlog, if_false]
    split_ifs
    · rfl
    · exact ⟨rfl, rfl, hread⟩

/-- Either the callback empties the buffer, or `PacketDone` leaves its bytes where they are. -/
theorem packetDone_data (s : Session) (isValid : Bool) :
    (s.HandsOverNow isValid ∧ (s.packetDone isValid).1.receiveBuffer = s.receiveBuffer.clear ∧
      (s.packetDone isValid).1.hasCompleteMessage = false) ∨
    (¬ s.HandsOverNow isValid ∧ SameData s (s.packetDone isValid).1 ∧
      ((s.packetDone isValid).1.hasCompleteMessage = true →
        s.hasCompleteMessage = true ∨ s.receiveBuffer.data ≠ [])) := by
  cases isValid with
  | false => exact Or.inr ⟨fun h => Bool.false_ne_true h.1, ⟨rfl, rfl, id⟩, Or.inl⟩
  | true =>
    cases hheader : SessionHeader.ofBytes (s.receiveBuffer.read 3).1 with
    | none =>
      refine Or.inr ⟨?_, ?_, ?_⟩
      · intro h
        obtain ⟨-, header, hsome, -⟩ := h
        rw [hheader] at hsome
        exact nomatch hsome
      · simp only [packetDone, hheader]
        exact ⟨rfl, rfl, read_cursor _ 3⟩
      · simp only [packetDone, hheader]
        exact Or.inl
    | some header =>
      have hdone := packetDone_header hheader
      by_cases hdel : s.Deliverable header
      · rw [if_pos hdel] at hdone
        rw [hdone]
        exact Or.inl ⟨⟨rfl, header, hheader, hdel⟩, rfl, rfl⟩
      · rw [if_neg hdel] at hdone
        refine Or.inr ⟨?_, hdone, fun _ => Or.inr (read_ne_nil _ (ofBytes_ne_nil hheader))⟩
        intro h
        obtain ⟨-, header', hsome, hdel'⟩ := h
        rw [hheader] at hsome
        exact hdel (Option.some.inj hsome ▸ hdel')

theorem writeAll_sound (writes : List (List UInt8)) (h : s.Sound) : (s.writeAll writes).2.Sound := by
  have hpre := writeAll_prefix s writes
  have hsame := writeAll_same s writes
  constructor
  · rw [hsame.readCursor]
    exact h.cursor.trans hpre.length_le
  · intro hflag hnil
    rw [hnil, List.prefix_nil] at hpre
    exact h.flag (hsame.hasCompleteMessage ▸ hflag) hpre

/-- One event: the invariant is kept, and the buffer is empty afterwards exactly when the event
reaches the callback or brings no byte to an empty buffer. -/
theorem handle_data (e : Event) (h : s.Sound) :
    (s.handle e).1.Sound ∧
    (s.handle e).1.receiveBuffer.capacity = s.receiveBuffer.capacity ∧
    (0 < s.receiveBuffer.capacity → ((s.handle e).1.receiveBuffer.data = [] ↔
      s.HandsOver e ∨ (e.Quiet ∧ s.receiveBuffer.data = []))) := by
  cases e with
  | start nonce => exact ⟨⟨h.cursor, h.flag⟩, rfl, by simp [HandsOver, Event.Quiet, handle,
      initializeWith, terminateSession]⟩
  | terminateSession =>
    exact ⟨⟨h.cursor, h.flag⟩, rfl, by simp [HandsOver, Event.Quiet, handle, terminateSession]⟩
  | startSession =>
    obtain ⟨hsame, hflag⟩ := startSession_data s
    show (Sound (s.startSession.getD (s, [])).1) ∧
      (s.startSession.getD (s, [])).1.receiveBuffer.capacity = _ ∧
      (_ → ((s.startSession.getD (s, [])).1.receiveBuffer.data = [] ↔ _))
    refine ⟨⟨hsame.cursor h.cursor, ?_⟩, hsame.capacity, ?_⟩
    · rw [hsame.data, hflag]
      exact h.flag
    · intro _
      rw [hsame.data]
      simp [HandsOver, Event.Quiet]
  | packet writes isValid =>
    have hwrite := writeAll_sound writes h
    have hwcap := (writeAll_same s writes).capacity
    show (Sound (packetDone _ isValid).1) ∧
      (packetDone _ isValid).1.receiveBuffer.capacity = _ ∧
      (_ → ((packetDone _ isValid).1.receiveBuffer.data = [] ↔
        (s.writeAll writes).2.HandsOverNow isValid ∨ writes.flatten = [] ∧ _))
    rcases packetDone_data (s.writeAll writes).2 isValid with
      ⟨hnow, hclear, hflag⟩ | ⟨hnow, hsame, hflag⟩
    · rw [hclear]
      refine ⟨⟨?_, ?_⟩, hwcap, fun _ => ⟨fun _ => Or.inl hnow, fun _ => rfl⟩⟩
      · rw [hclear]
        exact Nat.le_refl 0
      · rw [hflag]
        intro hf
        exact absurd hf Bool.false_ne_true
    · refine ⟨⟨hsame.cursor hwrite.cursor, ?_⟩, hsame.capacity.trans hwcap, ?_⟩
      · intro hf
        rw [hsame.data]
        exact (hflag hf).elim hwrite.flag id
      · intro hcap
        rw [hsame.data, or_iff_right hnow]
        cases hsf : s.hasCompleteMessage with
        | false => rw [writeAll_eq_nil s writes hsf hcap, and_comm]
        | true =>
          have hne := h.flag hsf
          constructor
          · intro hnil
            have hpre := writeAll_prefix s writes
            rw [hnil, List.prefix_nil] at hpre
            exact absurd hpre hne
          · intro hnil
            exact absurd hnil.2 hne

theorem lastHandedOver_append_singleton (s : Session) (history : List Event) (e : Event) :
    s.LastHandedOver (history ++ [e]) ↔
      (s.run history).HandsOver e ∨ (e.Quiet ∧ s.LastHandedOver history) := by
  constructor
  · intro h
    rcases h with h | ⟨before, e', after, heq, hover, hquiet⟩
    · exact Or.inr ⟨h e (by simp), Or.inl fun e' he' => h e' (by simp [he'])⟩
    · -- the packet that reached the callback is the last event or an earlier one
      rcases List.eq_nil_or_concat after with rfl | ⟨after', last, rfl⟩
      · obtain ⟨rfl, hlast⟩ := List.append_inj' heq rfl
        obtain rfl : e = e' := by simpa using hlast
        exact Or.inl hover
      · rw [List.concat_eq_append] at heq hquiet
        rw [← List.cons_append, ← List.append_assoc] at heq
        obtain ⟨rfl, hlast⟩ := List.append_inj' heq rfl
        obtain rfl : e = last := by simpa using hlast
        exact Or.inr ⟨hquiet e (by simp), Or.inr ⟨before, e', after', rfl, hover,
          fun e'' he'' => hquiet e'' (by simp [he''])⟩⟩
  · intro h
    rcases h with hover | ⟨hquiet, hall | ⟨before, e', after, rfl, hover, hafter⟩⟩
    · exact Or.inr ⟨history, e, [], rfl, hover, by simp⟩
    · refine Or.inl fun e' he' => ?_
      rcases List.mem_append.mp he' with he' | he'
      · exact hall e' he'
      · rw [List.mem_singleton.mp he']
        exact hquiet
    · refine Or.inr ⟨before, e', after ++ [e], by simp, hover, fun e'' he'' => ?_⟩
      rcases List.mem_append.mp he'' with he'' | he''
      · exact hafter e'' he''
      · rw [List.mem_singleton.mp he'']
        exact hquiet

theorem run_data (buffer : FrameBuffer) (history : List Event) :
    ((create buffer).run history).Sound ∧
    ((create buffer).run history).receiveBuffer.capacity = buffer.capacity ∧
    (0 < buffer.capacity → (((create buffer).run history).receiveBuffer.data = [] ↔
      (create buffer).LastHandedOver history)) := by
  induction history using List.reverseRecOn with
  | nil =>
    refine ⟨⟨Nat.le_refl 0, fun h => nomatch h⟩, rfl, fun _ => ⟨fun _ => Or.inl ?_, fun _ => rfl⟩⟩
    simp
  | append_singleton history e ih =>
    obtain ⟨hsound, hc, hdata⟩ := ih
    obtain ⟨hsound', hc', hdata'⟩ := handle_data e hsound
    rw [run_append_singleton, lastHandedOver_append_singleton]
    refine ⟨hsound', hc'.trans hc, fun hcap => ?_⟩
    rw [hdata' (hc ▸ hcap), hdata hcap]

/-- From an empty buffer a normal packet of the session is delivered. -/
theorem acceptsNormal_of_empty (h : s.Sound) (hdata : s.receiveBuffer.data = []) :
    s.AcceptsNormal := by
  intro hstate writes body hbytes hfit
  have hflag : s.hasCompleteMessage = false := by
    cases hf : s.hasCompleteMessage with
    | false => rfl
    | true => exact absurd hdata (h.flag hf)
  have hcursor : s.receiveBuffer.readCursor = 0 := by
    have hle := h.cursor
    rw [hdata] at hle
    exact Nat.le_zero.mp hle
  obtain ⟨hresults, hwritten⟩ := writeAll_fits s writes hflag (by simpa [hdata] using hfit)
  have hsame := writeAll_same s writes
  refine ⟨hresults, ?_⟩
  generalize (s.writeAll writes).2 = t at hwritten hsame
  rw [hdata, List.nil_append, hbytes] at hwritten
  have hread : (t.receiveBuffer.read 3).1 = SessionHeader.bytes ⟨s.sessionId, MessageType.kNormal⟩ := by
    simp [FrameBuffer.read, hwritten, hsame.readCursor, hcursor, Message.bytes, SessionHeader.bytes]
  have hdone := packetDone_header (s := t) (by rw [hread, ofBytes_bytes])
  rw [if_pos ?_] at hdone
  · rw [hdone]
    simp [receiveMessage, FrameBuffer.read, hwritten, hsame.readCursor, hcursor, Message.bytes,
      SessionHeader.bytes]
  · have hnormal : MessageType.kNormal ≠ MessageType.kStartSessionInit ∧
        MessageType.kNormal ≠ MessageType.kStartSessionReply ∧
        MessageType.kNormal ≠ MessageType.kTerminateSession := by decide
    refine ⟨hnormal.1, hnormal.2.1, hnormal.2.2, ?_⟩
    show if MessageType.kNormal = MessageType.kLog then _ else _
    rw [if_neg (by decide), hsame.state, hsame.sessionId]
    exact ⟨hstate, rfl⟩

/-- A packet as long as the whole buffer is only accepted when the buffer is empty. -/
theorem empty_of_acceptsNormal (hstate : s.state = .sessionEstablished)
    (hcap : 3 ≤ s.receiveBuffer.capacity) (h : s.AcceptsNormal) : s.receiveBuffer.data = [] := by
  let m : Message := ⟨⟨s.sessionId, MessageType.kNormal⟩,
    List.replicate (s.receiveBuffer.capacity - 3) 0⟩
  have hlen : m.bytes.length = s.receiveBuffer.capacity := by
    simp only [m, Message.bytes, SessionHeader.bytes, List.length_append, List.length_replicate,
      List.length_cons, List.length_nil]
    omega
  have haccept := (h hstate [m.bytes] m.body (by simp [m]) (by simp [hlen])).1
  have hwritten : (s.write m.bytes).1 = .written m.bytes.length := by
    simpa [writeAll] using haccept
  unfold write FrameBuffer.write at hwritten
  simp only [hlen] at hwritten
  apply List.eq_nil_of_length_eq_zero
  split_ifs at hwritten with hflag hshort
  omega

/-- The receiver is ready for every normal packet exactly after histories whose last payload byte
belongs to a packet that reached the callback. -/
theorem receiver_accepts_iff (buffer : FrameBuffer) (history : List Event) :
    ((create buffer).run history).AcceptsNormal ↔
      ((create buffer).run history).state ≠ .sessionEstablished ∨ buffer.capacity < 3 ∨
        (create buffer).LastHandedOver history := by
  obtain ⟨hsound, hc, hdata⟩ := run_data buffer history
  by_cases hstate : ((create buffer).run history).state = .sessionEstablished
  · by_cases hcap : buffer.capacity < 3
    · -- no packet with a header fits
      refine ⟨fun _ => Or.inr (Or.inl hcap), fun _ _ writes body hbytes hfit => ?_⟩
      rw [hbytes, hc] at hfit
      simp only [Message.bytes, SessionHeader.bytes, List.length_append, List.length_cons] at hfit
      omega
    · rw [← hdata (by omega)]
      constructor
      · intro h
        exact Or.inr (Or.inr (empty_of_acceptsNormal hstate (by omega) h))
      · intro h
        apply acceptsNormal_of_empty hsound
        rcases h with h | h | h
        · exact absurd hstate h
        · exact absurd h hcap
        · exact h
  · exact ⟨fun _ => Or.inl hstate, fun _ h => absurd h hstate⟩

/-- The remote side starts a session and a packet of an older one arrives: the buffer of 16 bytes
stays busy, and a packet of 4 bytes is refused. -/
theorem receiver_busy_after_stale_packet :
    let s := (create ⟨[], 16, 0⟩).run [.start 0x3c, .packet [[1, 0, 0, 1]] true,
      .packet [[7, 7, 0x10, 5]] true]
    s.state = .sessionEstablished ∧ s.sessionId = 0x8201 ∧
      (s.writeAll [[1, 0x82, 0x10, 0x2a]]).1 = [.receiveBufferBusy] ∧ ¬ s.AcceptsNormal := by
  intro s
  refine ⟨by decide, by decide, by decide, ?_⟩
  intro h
  have haccept := (h (by decide) [[1, 0x82, 0x10, 0x2a]] [0x2a] (by decide) (by decide)).1
  exact absurd haccept (by decide)

end Session

end StencilGraph.Micro
