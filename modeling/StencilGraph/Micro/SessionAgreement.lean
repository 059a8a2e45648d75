import StencilGraph.Micro.Session

namespace StencilGraph.Micro

namespace Session

variable {s s' : Session} {m : Message} {i r n : UInt8} {out : List Output}

theorem initiatorNonce_make (i r : UInt8) : initiatorNonce (makeSessionId i r) = i := by
  unfold initiatorNonce makeSessionId
  apply UInt8.toBitVec_inj.mp
  simp only [UInt16.toBitVec_toUInt8, UInt16.toBitVec_and, UInt16.toBitVec_or,
    UInt8.toBitVec_toUInt16, UInt16.toBitVec_shiftLeft]
  ext k hk
  simp
  interval_cases k <;> simp

theorem responderNonce_make (i r : UInt8) : responderNonce (makeSessionId i r) = r := by
  unfold responderNonce makeSessionId
  apply UInt8.toBitVec_inj.mp
  simp only [UInt16.toBitVec_toUInt8, UInt16.toBitVec_and, UInt16.toBitVec_or,
    UInt8.toBitVec_toUInt16, UInt16.toBitVec_shiftLeft, UInt16.toBitVec_shiftRight]
  ext k hk
  simp
  interval_cases k <;> simp [BitVec.getLsbD_eq_getElem]

theorem regenerateNonce_ne (n : UInt8) : regenerateNonce n ≠ kInvalidNonce := by
  unfold regenerateNonce
  simp only
  split
  · rename_i h
    rw [h]
    decide
  · assumption

/-- A message that arrives is what is unread in the receive buffer. The bytes in front of it,
`seen`, belong to earlier messages: `PacketDone` leaves them there. -/
def deliver (s : Session) (seen : List UInt8) (m : Message) : Session × List Output :=
  { s with
    receiveBuffer := ⟨seen ++ m.bytes, s.receiveBuffer.capacity, seen.length⟩
    hasCompleteMessage := false }.packetDone true

theorem packetDone_write (s : Session) (m : Message) (hflag : s.hasCompleteMessage = false)
    (hread : s.receiveBuffer.readCursor = s.receiveBuffer.data.length)
    (hroom : s.receiveBuffer.data.length + m.bytes.length ≤ s.receiveBuffer.capacity) :
    (s.write m.bytes).2.packetDone true = s.deliver s.receiveBuffer.data m := by
  have hcopy : min m.bytes.length (s.receiveBuffer.capacity - s.receiveBuffer.data.length) =
      m.bytes.length := by omega
  simp [write, deliver, FrameBuffer.write, hflag, hcopy, hread]

/-- The messages of the session protocol. -/
def initMessage (n : UInt8) : Message :=
  ⟨⟨makeSessionId n 0, MessageType.kStartSessionInit⟩, [kVersion]⟩

def replyMessage (i r : UInt8) : Message :=
  ⟨⟨makeSessionId i r, MessageType.kStartSessionReply⟩, [kVersion]⟩

def terminateMessage : Message := ⟨⟨makeSessionId 0 0, MessageType.kTerminateSession⟩, []⟩

@[simp] theorem initMessage_messageType (n : UInt8) :
    (initMessage n).header.messageType = MessageType.kStartSessionInit := rfl

@[simp] theorem replyMessage_messageType (i r : UInt8) :
    (replyMessage i r).header.messageType = MessageType.kStartSessionReply := rfl

@[simp] theorem terminateMessage_messageType :
    terminateMessage.header.messageType = MessageType.kTerminateSession := rfl

/-- What the two sides send: nonces in use are valid. -/
inductive Sendable : Message → Prop where
  | init (n : UInt8) (hn : n ≠ kInvalidNonce) : Sendable (initMessage n)
  | reply (i r : UInt8) (hr : r ≠ kInvalidNonce) : Sendable (replyMessage i r)
  | terminate : Sendable terminateMessage

/-- The messages among the outputs. -/
def sent (out : List Output) : List Message :=
  out.filterMap fun
    | .send m => some m
    | .received _ _ => none

/-- How a session answers one message of the protocol, up to its receive buffer. -/
inductive Answers (s s' : Session) (out : List Message) : Message → Prop where
  | established (n : UInt8) (hs' : s'.state = .sessionEstablished)
      (hid : s'.sessionId = makeSessionId n s'.localNonce)
      (hn : s'.localNonce ≠ kInvalidNonce) (hout : out = [replyMessage n s'.localNonce]) :
      Answers s s' out (initMessage n)
  | restarted (n : UInt8) (hs' : s'.state = .startSessionSent)
      (hn : s'.localNonce ≠ kInvalidNonce) (hout : out = [initMessage s'.localNonce]) :
      Answers s s' out (initMessage n)
  | accepted (r : UInt8) (hs : s.state = .startSessionSent) (hs' : s'.state = .sessionEstablished)
      (hid : s'.sessionId = makeSessionId s.localNonce r) (hout : out = []) :
      Answers s s' out (replyMessage s.localNonce r)
  | dropped (m : Message) (hs' : s'.state = .reset ∨ s'.state = .noSessionEstablished)
      (hout : out = []) : Answers s s' out m
  | ignored (m : Message) (hs : s.state ≠ .sessionEstablished) (hs' : s'.state = s.state)
      (hn : s'.localNonce = s.localNonce) (hout : out = []) : Answers s s' out m

theorem sent_terminateSession (s : Session) : sent s.terminateSession.2 = [terminateMessage] := by
  have hlog : MessageType.kTerminateSession ≠ MessageType.kLog := by decide
  simp [terminateSession, sent, sendInternal, hlog, terminateMessage]

/-- The session while it handles `m`: the header is read. -/
def handling (s : Session) (seen : List UInt8) (m : Message) : Session :=
  { s with
    receiveBuffer := ⟨seen ++ m.bytes, s.receiveBuffer.capacity, seen.length + 3⟩
    hasCompleteMessage := true }

theorem deliver_eq (s : Session) (seen : List UInt8) (m : Message) :
    s.deliver seen m =
      if m.header.messageType = MessageType.kStartSessionInit then
        ({ ((s.handling seen m).processStartSessionInit m.header).1 with hasCompleteMessage := false },
          ((s.handling seen m).processStartSessionInit m.header).2)
      else if m.header.messageType = MessageType.kStartSessionReply then
        ({ ((s.handling seen m).processStartSessionReply m.header).1 with hasCompleteMessage := false },
          ((s.handling seen m).processStartSessionReply m.header).2)
      else if m.header.messageType = MessageType.kTerminateSession then
        if s.state = .sessionEstablished then
          ({ s.handling seen m with state := .noSessionEstablished, hasCompleteMessage := false },
            [onSessionTerminatedMessage])
        else ({ s.handling seen m with hasCompleteMessage := false }, [])
      else if m.header.messageType = MessageType.kLog then
        if m.header.sessionId = 0 ∨ m.header.sessionId = s.sessionId then
          (s.handling seen m).receiveMessage m.header.messageType
        else (s.handling seen m, [])
      else if s.state = .sessionEstablished ∧ m.header.sessionId = s.sessionId then
        (s.handling seen m).receiveMessage m.header.messageType
      else (s.handling seen m, []) := by
  have hread : FrameBuffer.read ⟨seen ++ m.bytes, s.receiveBuffer.capacity, seen.length⟩ 3 =
      (m.header.bytes, ⟨seen ++ m.bytes, s.receiveBuffer.capacity, seen.length + 3⟩) := by
    have hlen : m.header.bytes.length = 3 := rfl
    simp [FrameBuffer.read, Message.bytes, hlen]
  unfold deliver packetDone
  simp only [hread, ofBytes_bytes, Bool.not_true, Bool.false_eq_true, if_false]
  unfold handling
  split_ifs <;> rfl

theorem readVersion_handling (s : Session) (seen : List UInt8) (m : Message) {v : UInt8} (hb : m.body = [v]) :
    (s.handling seen m).readVersion =
      (some v, { s.handling seen m with
        receiveBuffer := ⟨seen ++ m.bytes, s.receiveBuffer.capacity, seen.length + 4⟩ }) := by
  have hlen : m.header.bytes.length = 3 := rfl
  have hbytes : m.bytes = m.header.bytes ++ [v] := by rw [Message.bytes, hb]
  simp [readVersion, handling, FrameBuffer.read, hbytes, hlen]

/-- Replying to the initiator `n` establishes the session. -/
theorem answers_reply (s t : Session) (header : SessionHeader) (more : List Output) (flag : Bool)
    (hn : initiatorNonce header.sessionId = n) (hmore : sent more = []) :
    Answers s { (t.sendSessionStartReply header).1 with hasCompleteMessage := flag }
      (sent ((t.sendSessionStartReply header).2 ++ more)) (initMessage n) := by
  refine .established n rfl ?_ (regenerateNonce_ne _) ?_
  · simp [sendSessionStartReply, hn]
  · have hlog : MessageType.kStartSessionReply ≠ MessageType.kLog := by decide
    unfold sent at *
    simp [sendSessionStartReply, sendInternal, hn, replyMessage, onSessionEstablishedMessage, hlog,
      hmore]

theorem deliver_init (s : Session) (seen : List UInt8) (n : UInt8) (hn : n ≠ kInvalidNonce) :
    Answers s (s.deliver seen (initMessage n)).1 (sent (s.deliver seen (initMessage n)).2) (initMessage n) := by
  have hnonce : initiatorNonce (initMessage n).header.sessionId = n := initiatorNonce_make n 0
  rw [deliver_eq, initMessage_messageType, if_pos rfl]
  unfold processStartSessionInit
  rw [hnonce, if_neg hn, readVersion_handling s seen (initMessage n) rfl]
  cases hs : s.state with
  | reset =>
    simp only [handling, hs]
    simpa using answers_reply s _ (initMessage n).header [] false hnonce rfl
  | noSessionEstablished =>
    simp only [handling, hs]
    simpa using answers_reply s _ (initMessage n).header [] false hnonce rfl
  | startSessionSent =>
    simp only [handling, hs]
    split_ifs with hlt heq
    · simpa using answers_reply s _ (initMessage n).header [] false hnonce rfl
    · refine .restarted n rfl (regenerateNonce_ne _) ?_
      have hlog : MessageType.kStartSessionInit ≠ MessageType.kLog := by decide
      simp [startSession, sent, sendInternal, initMessage, hlog]
    · exact .ignored _ (by simp [hs]) (by simp [hs]) rfl rfl
  | sessionEstablished =>
    simp only [handling, hs]
    exact answers_reply s _ (initMessage n).header [onSessionEstablishedMessage] false hnonce rfl

theorem deliver_reply (s : Session) (seen : List UInt8) (i r : UInt8) (hr : r ≠ kInvalidNonce) :
    Answers s (s.deliver seen (replyMessage i r)).1 (sent (s.deliver seen (replyMessage i r)).2)
      (replyMessage i r) := by
  have hresp : responderNonce (replyMessage i r).header.sessionId = r := responderNonce_make i r
  have hinit : initiatorNonce (replyMessage i r).header.sessionId = i := initiatorNonce_make i r
  rw [deliver_eq, replyMessage_messageType, if_neg (by decide), if_pos rfl]
  unfold processStartSessionReply
  rw [hresp, hinit, if_neg hr, readVersion_handling s seen (replyMessage i r) rfl]
  cases hs : s.state with
  | reset => exact .dropped _ (Or.inl (by simp [handling, hs])) (by simp [handling, hs, sent])
  | noSessionEstablished =>
    exact .dropped _ (Or.inr (by simp [handling, hs])) (by simp [handling, hs, sent])
  | startSessionSent =>
    simp only [handling, hs]
    split_ifs with hcond
    · obtain ⟨rfl, -⟩ := hcond
      exact .accepted r hs rfl rfl rfl
    · exact .ignored _ (by simp [hs]) (by simp [hs]) rfl rfl
  | sessionEstablished =>
    simp only [handling, hs, hr, and_false, if_false]
    exact .dropped _ (Or.inl rfl) rfl

theorem deliver_terminate (s : Session) (seen : List UInt8) :
    Answers s (s.deliver seen terminateMessage).1 (sent (s.deliver seen terminateMessage).2)
      terminateMessage := by
  rw [deliver_eq, terminateMessage_messageType, if_neg (by decide), if_neg (by decide), if_pos rfl]
  split_ifs with hs
  · exact .dropped _ (Or.inr rfl) rfl
  · exact .ignored _ hs rfl rfl rfl

theorem deliver_answers (s : Session) (seen : List UInt8) (hm : Sendable m) :
    Answers s (s.deliver seen m).1 (sent (s.deliver seen m).2) m := by
  cases hm with
  | init n hn => exact deliver_init s seen n hn
  | reply i r hr => exact deliver_reply s seen i r hr
  | terminate => exact deliver_terminate s seen

theorem Answers.sendable {out : List Message} (h : Answers s s' out m) : ∀ m' ∈ out, Sendable m' := by
  cases h with
  | established n hs' hid hn hout =>
    rw [hout]
    simpa using Sendable.reply n s'.localNonce hn
  | restarted n hs' hn hout =>
    rw [hout]
    simpa using Sendable.init s'.localNonce hn
  | accepted r hs hs' hid hout => simp [hout]
  | dropped m hs' hout => simp [hout]
  | ignored m hs hs' hn hout => simp [hout]

/-- What an open or established side has last sent and last received. The one that replied has seen
nothing since the initiator's message, and the initiator nothing since the reply. -/
structure Remembers (s : Session) (lastSent lastReceived : Option Message) : Prop where
  starting : s.state = .startSessionSent → lastSent = some (initMessage s.localNonce)
  established : s.state = .sessionEstablished →
    ∃ i r, s.sessionId = makeSessionId i r ∧
      (lastReceived = some (initMessage i) ∧ lastSent = some (replyMessage i r) ∨
        lastReceived = some (replyMessage i r) ∧ lastSent = some (initMessage i))

theorem Remembers.deliver {out : List Message} {lastSent lastReceived : Option Message}
    (h : Remembers s lastSent lastReceived) (ha : Answers s s' out m) :
    Remembers s' (out.getLast?.or lastSent) (some m) := by
  cases ha with
  | established n hs' hid hn hout =>
    refine ⟨by simp [hs'], fun _ => ⟨n, s'.localNonce, hid, Or.inl ⟨rfl, by simp [hout]⟩⟩⟩
  | restarted n hs' hn hout => exact ⟨fun _ => by simp [hout], by simp [hs']⟩
  | accepted r hs hs' hid hout =>
    refine ⟨by simp [hs'], fun _ => ⟨s.localNonce, r, hid, Or.inr ⟨rfl, ?_⟩⟩⟩
    rw [hout]
    exact h.starting hs
  | dropped m hs' hout =>
    refine ⟨fun hst => ?_, fun hst => ?_⟩ <;> rcases hs' with hs' | hs' <;> simp [hst] at hs'
  | ignored m hs hs' hn hout =>
    refine ⟨fun hst => ?_, fun hst => absurd (hs' ▸ hst) hs⟩
    rw [hout, hn]
    exact h.starting (hs' ▸ hst)

end Session

/-- Two sessions and the messages in flight, oldest first. -/
structure Link where
  alice : Session
  bob : Session
  toAlice : List Message
  toBob : List Message

namespace Link
open Session

/-- The other end's view of the same link. -/
def swap (l : Link) : Link := ⟨l.bob, l.alice, l.toBob, l.toAlice⟩

/-- The first side after `m` is taken from the channel, which leaves `rest`. -/
def delivered (l : Link) (seen : List UInt8) (m : Message) (rest : List Message) : Link :=
  { l with
    alice := (l.alice.deliver seen m).1
    toAlice := rest
    toBob := l.toBob ++ sent (l.alice.deliver seen m).2 }

/-- What can happen on the first side. -/
inductive SideStep (l : Link) : Link → Prop where
  | start (s : Session) (out : List Output) (h : l.alice.startSession = some (s, out)) :
      SideStep l { l with alice := s, toBob := l.toBob ++ sent out }
  | terminate :
      SideStep l { l with
        alice := l.alice.terminateSession.1,
        toBob := l.toBob ++ sent l.alice.terminateSession.2 }
  | deliver (seen : List UInt8) (m : Message) (rest : List Message) (h : l.toAlice = m :: rest) :
      SideStep l (l.delivered seen m rest)

def Step (l l' : Link) : Prop := SideStep l l' ∨ SideStep l.swap l'.swap

/-- Both sides after `Initialize`. -/
def start (bufferA bufferB : FrameBuffer) (nonceA nonceB : UInt8) : Link :=
  let a := (Session.create bufferA).initializeWith nonceA
  let b := (Session.create bufferB).initializeWith nonceB
  ⟨a.1, b.1, sent b.2, sent a.2⟩

/-- The last message sent to a side is the last one in flight, else the last one received. -/
structure Agrees (l : Link) : Prop where
  alice : ∀ m ∈ l.toAlice, Sendable m
  bob : ∀ m ∈ l.toBob, Sendable m
  remembers : ∃ receivedA receivedB,
    Remembers l.alice (l.toBob.getLast?.or receivedB) receivedA ∧
    Remembers l.bob (l.toAlice.getLast?.or receivedA) receivedB

theorem Agrees.swap {l : Link} (h : l.Agrees) : l.swap.Agrees := by
  obtain ⟨ra, rb, ha, hb⟩ := h.remembers
  exact ⟨h.bob, h.alice, rb, ra, hb, ha⟩

theorem agrees_start (bufferA bufferB : FrameBuffer) (nonceA nonceB : UInt8) :
    (start bufferA bufferB nonceA nonceB).Agrees := by
  have hsend (s : Session) (n : UInt8) : ∀ m ∈ sent (s.initializeWith n).2, Sendable m := by
    intro m hm
    rw [initializeWith, sent_terminateSession] at hm
    rw [List.mem_singleton.mp hm]
    exact .terminate
  refine ⟨hsend _ _, hsend _ _, none, none, ?_, ?_⟩
  · exact ⟨fun h => (nomatch h), fun h => (nomatch h)⟩
  · exact ⟨fun h => (nomatch h), fun h => (nomatch h)⟩

theorem SideStep.agrees {l l' : Link} (hstep : SideStep l l') (h : l.Agrees) : l'.Agrees := by
  obtain ⟨ra, rb, ha, hb⟩ := h.remembers
  cases hstep with
  | start s out hs =>
    unfold startSession at hs
    split at hs
    · simp at hs
    · obtain ⟨rfl, rfl⟩ : _ = s ∧ _ = out := by simpa using hs
      have hlog : MessageType.kStartSessionInit ≠ MessageType.kLog := by decide
      have hsent : sent [sendInternal { l.alice with
          localNonce := regenerateNonce l.alice.localNonce
          sessionId := makeSessionId (regenerateNonce l.alice.localNonce) 0 }
          MessageType.kStartSessionInit [kVersion]] =
            [initMessage (regenerateNonce l.alice.localNonce)] := by
        simp [sent, sendInternal, initMessage, hlog]
      refine ⟨h.alice, ?_, ra, rb, ?_, hb⟩
      · intro m hm
        rw [hsent, List.mem_append] at hm
        rcases hm with hm | hm
        · exact h.bob m hm
        · rw [List.mem_singleton.mp hm]
          exact .init _ (regenerateNonce_ne _)
      · refine ⟨fun _ => ?_, fun hst => nomatch hst⟩
        rw [hsent]
        simp
  | terminate =>
    refine ⟨h.alice, ?_, ra, rb, ⟨fun hst => (nomatch hst), fun hst => (nomatch hst)⟩, hb⟩
    intro m hm
    rcases List.mem_append.mp hm with hm | hm
    · exact h.bob m hm
    · rw [sent_terminateSession] at hm
      rw [List.mem_singleton.mp hm]
      exact .terminate
  | deliver seen m rest hm =>
    have hans := deliver_answers l.alice seen (h.alice m (by simp [hm]))
    refine ⟨?_, ?_, some m, rb, ?_, ?_⟩
    · intro m' hm'
      apply h.alice
      rw [hm]
      exact List.mem_cons_of_mem m hm'
    · intro m' hm'
      rcases List.mem_append.mp hm' with hm' | hm'
      · exact h.bob m' hm'
      · exact hans.sendable m' hm'
    · show Remembers (l.alice.deliver seen m).1
        ((l.toBob ++ sent (l.alice.deliver seen m).2).getLast?.or rb) (some m)
      rw [List.getLast?_append, Option.or_assoc]
      exact ha.deliver hans
    · have hlast : rest.getLast?.or (some m) = l.toAlice.getLast?.or ra := by
        rw [hm, List.getLast?_cons]
        cases hrest : rest.getLast? <;> simp
      show Remembers l.bob (rest.getLast?.or (some m)) rb
      rw [hlast]
      exact hb

theorem Step.agrees {l l' : Link} (hstep : Step l l') (h : l.Agrees) : l'.Agrees := by
  rcases hstep with hstep | hstep
  · exact hstep.agrees h
  · exact (hstep.agrees h.swap).swap

theorem agrees_of_reachable {l l' : Link} (h : l.Agrees) (hrun : Relation.ReflTransGen Step l l') :
    l'.Agrees := by
  induction hrun with
  | refl => exact h
  | tail _ hstep ih => exact hstep.agrees ih

theorem initMessage_ne_reply (n i r : UInt8) : initMessage n ≠ replyMessage i r := by
  intro h
  have htype : MessageType.kStartSessionInit = MessageType.kStartSessionReply := by
    simpa using congrArg (fun m => m.header.messageType) h
  exact absurd htype (by decide)

theorem initMessage_injective {n i : UInt8} (h : initMessage n = initMessage i) : n = i := by
  have hid := congrArg (fun m => initiatorNonce m.header.sessionId) h
  simpa [initMessage, initiatorNonce_make] using hid

end Link

end StencilGraph.Micro
