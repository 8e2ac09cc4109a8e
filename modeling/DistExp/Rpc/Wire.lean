import DistExp.Library.Bytes
import DistExp.Library.Stream

namespace DistExp.Rpc.Wire

open DistExp.Library.Bytes DistExp.Library.Stream

def magicNum : UInt8 := 39

def maxBufLen : Nat := 1048576 * 10

def headLen : Nat := 20

inductive RequestType where
  | reqRes
  | subPub
  deriving DecidableEq

def RequestType.toByte : RequestType → UInt8
  | .reqRes => 0
  | .subPub => 1

def RequestType.ofByte (b : UInt8) : Option RequestType :=
  if b = 0 then some .reqRes else if b = 1 then some .subPub else none

/-- `rpc_header` as it lies in memory: nobody sets or reads the two bytes in front of `body_len`. -/
structure RpcHeader where
  magic : UInt8
  reqType : UInt8
  padding : UInt8 × UInt8
  bodyLen : UInt32
  reqId : UInt64
  funcId : UInt32

namespace RpcHeader

def bytes (h : RpcHeader) : List UInt8 :=
  h.magic :: h.reqType :: h.padding.1 :: h.padding.2 ::
    (littleEndian 4 h.bodyLen.toNat ++ (littleEndian 8 h.reqId.toNat ++
      littleEndian 4 h.funcId.toNat))

def ofBytes (head : List UInt8) : RpcHeader where
  magic := head.getD 0 0
  reqType := head.getD 1 0
  padding := (head.getD 2 0, head.getD 3 0)
  bodyLen := UInt32.ofNat (ofLittleEndian ((head.drop 4).take 4))
  reqId := UInt64.ofNat (ofLittleEndian ((head.drop 8).take 8))
  funcId := UInt32.ofNat (ofLittleEndian ((head.drop 16).take 4))

theorem length_bytes (h : RpcHeader) : h.bytes.length = headLen := by
  simp [bytes, headLen]

theorem ofBytes_bytes (h : RpcHeader) : ofBytes h.bytes = h := by
  have hlen : h.bodyLen.toNat < 256 ^ 4 := h.bodyLen.toNat_lt
  have hreq : h.reqId.toNat < 256 ^ 8 := h.reqId.toNat_lt
  have hfunc : h.funcId.toNat < 256 ^ 4 := h.funcId.toNat_lt
  have hprefix : (h.magic :: h.reqType :: h.padding.1 :: h.padding.2 ::
      littleEndian 4 h.bodyLen.toNat).length = 8 := by simp
  have hrest : ∀ s, List.drop 8 (h.magic :: h.reqType :: h.padding.1 :: h.padding.2 ::
      littleEndian 4 h.bodyLen.toNat ++ s) = s := fun s => List.drop_left' hprefix
  have hdrop : h.bytes.drop 8 = littleEndian 8 h.reqId.toNat ++ littleEndian 4 h.funcId.toNat :=
    hrest _
  have hdrop' : (h.bytes.drop 16) = littleEndian 4 h.funcId.toNat := by
    rw [show 16 = 8 + 8 from rfl, ← List.drop_drop, hdrop]
    exact List.drop_left' (by simp)
  have hbody : (h.bytes.drop 4).take 4 = littleEndian 4 h.bodyLen.toNat :=
    List.take_left' (by simp)
  rw [ofBytes, hbody, hdrop, hdrop', List.take_left' (by simp), List.take_of_length_le (by simp),
    ofLittleEndian_littleEndian, ofLittleEndian_littleEndian, ofLittleEndian_littleEndian,
    Nat.mod_eq_of_lt hlen, Nat.mod_eq_of_lt hreq, Nat.mod_eq_of_lt hfunc, UInt32.ofNat_toNat,
    UInt64.ofNat_toNat, UInt32.ofNat_toNat]
  rfl

theorem bytes_ofBytes {head : List UInt8} (h : head.length = headLen) :
    (ofBytes head).bytes = head := by
  obtain ⟨b₀, b₁, b₂, b₃, tail, rfl⟩ :
      ∃ b₀ b₁ b₂ b₃ tail, head = b₀ :: b₁ :: b₂ :: b₃ :: tail := by
    match head, h with
    | b₀ :: b₁ :: b₂ :: b₃ :: tail, _ => exact ⟨b₀, b₁, b₂, b₃, tail, rfl⟩
  have htail : tail.length = 16 := by simpa [headLen] using h
  have hsplit : tail.take 4 ++ ((tail.drop 4).take 8 ++ (tail.drop 12).take 4) = tail := by
    rw [List.take_of_length_le (l := tail.drop 12) (by rw [List.length_drop]; omega),
      show 12 = 4 + 8 from rfl, ← List.drop_drop, List.take_append_drop, List.take_append_drop]
  have hword : ∀ w n, (tail.drop n).length ≥ w →
      littleEndian w (ofLittleEndian ((tail.drop n).take w)) = (tail.drop n).take w := by
    intro w n hw
    have hlen : ((tail.drop n).take w).length = w := List.length_take_of_le hw
    have hinv := littleEndian_ofLittleEndian ((tail.drop n).take w)
    rwa [hlen] at hinv
  have hlt : ∀ w n, (tail.drop n).length ≥ w →
      ofLittleEndian ((tail.drop n).take w) < 256 ^ w := by
    intro w n hw
    have hlen : ((tail.drop n).take w).length = w := List.length_take_of_le hw
    have hlt := ofLittleEndian_lt ((tail.drop n).take w)
    rwa [hlen] at hlt
  have h₀ : (tail.drop 0).length ≥ 4 := by rw [List.length_drop]; omega
  have h₄ : (tail.drop 4).length ≥ 8 := by rw [List.length_drop]; omega
  have h₁₂ : (tail.drop 12).length ≥ 4 := by rw [List.length_drop]; omega
  have hbody := hword 4 0 h₀
  have hreq := hword 8 4 h₄
  have hfunc := hword 4 12 h₁₂
  change b₀ :: b₁ :: b₂ :: b₃ ::
    (littleEndian 4 (UInt32.ofNat (ofLittleEndian ((tail.drop 0).take 4))).toNat ++
      (littleEndian 8 (UInt64.ofNat (ofLittleEndian ((tail.drop 4).take 8))).toNat ++
        littleEndian 4 (UInt32.ofNat (ofLittleEndian ((tail.drop 12).take 4))).toNat)) = _
  rw [UInt32.toNat_ofNat_of_lt' (hlt 4 0 h₀), UInt64.toNat_ofNat_of_lt' (hlt 8 4 h₄),
    UInt32.toNat_ofNat_of_lt' (hlt 4 12 h₁₂), hbody, hreq, hfunc, List.drop_zero, hsplit]

end RpcHeader

theorem bytes_ne_nil (h : RpcHeader) : h.bytes ≠ [] := List.cons_ne_nil _ _

structure Packet where
  header : RpcHeader
  body : List UInt8
  length_eq : header.bodyLen.toNat = body.length

def Packet.bytes (p : Packet) : List UInt8 := p.header.bytes ++ p.body

/-- `message_type` and `client_message_type`: both `write`s assert the bound. The responses of the
server have no function id, and the padding is what the bytes of `header_` happened to be. -/
structure Message where
  reqId : UInt64
  reqType : RequestType
  content : List UInt8
  funcId : UInt32
  padding : UInt8 × UInt8
  length_lt : content.length < maxBufLen

namespace Message

def header (m : Message) : RpcHeader where
  magic := magicNum
  reqType := m.reqType.toByte
  padding := m.padding
  bodyLen := UInt32.ofNat m.content.length
  reqId := m.reqId
  funcId := m.funcId

def frame (m : Message) : List UInt8 := m.header.bytes ++ m.content

theorem toNat_bodyLen (m : Message) : m.header.bodyLen.toNat = m.content.length :=
  UInt32.toNat_ofNat_of_lt' (m.length_lt.trans (by decide))

end Message

/-- What a connection reads next, `stopped` where it has started no other read. -/
inductive ReadState where
  | head
  | body (reqId : UInt64) (reqType : UInt8) (funcId : UInt32) (bodyLen : Nat)
  | stopped

def ReadState.need : ReadState → Nat
  | .head => headLen
  | .body _ _ _ bodyLen => bodyLen
  | .stopped => 0

/-- What the handlers of `connection` do with what they have read: a request is routed, a
subscription goes to `callback_`, and the other two close the connection. -/
inductive ServerRead where
  | request (reqId : UInt64) (funcId : UInt32) (body : List UInt8)
  | subscribe (body : List UInt8)
  | protocolError
  | invalidBodyLen

/-- The handlers in `read_head` and `read_body` of `connection`. -/
def serverHandle : ReadState → List UInt8 → ReadState × List ServerRead
  | .head, head =>
    let header := RpcHeader.ofBytes head
    let bodyLen := header.bodyLen.toNat
    if header.magic ≠ magicNum then (.stopped, [.protocolError])
    else if 0 < bodyLen ∧ bodyLen < maxBufLen then
      (.body header.reqId header.reqType header.funcId bodyLen, [])
    else if bodyLen = 0 then (.head, [])
    else (.stopped, [.invalidBodyLen])
  | .body reqId reqType funcId _, body =>
    match RequestType.ofByte reqType with
    | some .reqRes => (.head, [.request reqId funcId body])
    | some .subPub => (.head, [.subscribe body])
    | none => (.head, [])
  | .stopped, _ => (.stopped, [])

/-- What the handlers of `rpc_client` do with what they have read: a response goes to `call_back`,
published data to `callback_sub`, and the other two close the client. -/
inductive ClientRead where
  | response (reqId : UInt64) (body : List UInt8)
  | published (body : List UInt8)
  | messageSize
  | invalidArgument

/-- The handlers in `do_read` and `read_body` of `rpc_client`: the magic number is not looked at,
and after a body length of `MAX_BUF_LEN` itself no other read is started. -/
def clientHandle : ReadState → List UInt8 → ReadState × List ClientRead
  | .head, head =>
    let header := RpcHeader.ofBytes head
    let bodyLen := header.bodyLen.toNat
    if 0 < bodyLen ∧ bodyLen < maxBufLen then
      (.body header.reqId header.reqType header.funcId bodyLen, [])
    else if bodyLen = 0 ∨ maxBufLen < bodyLen then (.stopped, [.messageSize])
    else (.stopped, [])
  | .body reqId reqType _ _, body =>
    match RequestType.ofByte reqType with
    | some .reqRes => (.head, [.response reqId body])
    | some .subPub => (.head, [.published body])
    | none => (.stopped, [.invalidArgument])
  | .stopped, _ => (.stopped, [])

def serverReader : Reader ReadState UInt8 ServerRead := ⟨ReadState.need, serverHandle⟩

def clientReader : Reader ReadState UInt8 ClientRead := ⟨ReadState.need, clientHandle⟩

section Frames

theorem ofByte_toByte (t : RequestType) : RequestType.ofByte t.toByte = some t := by
  cases t <;> rfl

theorem serverReader_header (h : RpcHeader) :
    serverReader.feed (.head, []) h.bytes =
      (((serverHandle .head h.bytes).1, []), (serverHandle .head h.bytes).2) :=
  Reader.feed_full (bytes_ne_nil h) (by rw [RpcHeader.length_bytes]; rfl)

theorem clientReader_header (h : RpcHeader) :
    clientReader.feed (.head, []) h.bytes =
      (((clientHandle .head h.bytes).1, []), (clientHandle .head h.bytes).2) :=
  Reader.feed_full (bytes_ne_nil h) (by rw [RpcHeader.length_bytes]; rfl)

theorem serverHandle_accepts {h : RpcHeader} (hmagic : h.magic = magicNum)
    (hlt : h.bodyLen.toNat < maxBufLen) :
    serverHandle .head h.bytes = (if h.bodyLen.toNat = 0 then .head
      else .body h.reqId h.reqType h.funcId h.bodyLen.toNat, []) := by
  rw [serverHandle, RpcHeader.ofBytes_bytes, if_neg (not_not.mpr hmagic)]
  by_cases hzero : h.bodyLen.toNat = 0
  · rw [if_neg (fun hpos => hpos.1.ne' hzero), if_pos hzero, if_pos hzero]
  · rw [if_pos ⟨Nat.pos_of_ne_zero hzero, hlt⟩, if_neg hzero]

theorem clientHandle_accepts {h : RpcHeader} (hpos : 0 < h.bodyLen.toNat)
    (hlt : h.bodyLen.toNat < maxBufLen) :
    clientHandle .head h.bytes = (.body h.reqId h.reqType h.funcId h.bodyLen.toNat, []) := by
  rw [clientHandle, RpcHeader.ofBytes_bytes, if_pos ⟨hpos, hlt⟩]

/-- What the server does with a packet: one without a body is a heartbeat, and one of another type
is passed over. -/
def serverReads (p : Packet) : List ServerRead :=
  if p.body = [] then []
  else
    match RequestType.ofByte p.header.reqType with
    | some .reqRes => [.request p.header.reqId p.header.funcId p.body]
    | some .subPub => [.subscribe p.body]
    | none => []

theorem serverReader_packet {p : Packet} (hmagic : p.header.magic = magicNum)
    (hlt : p.body.length < maxBufLen) :
    serverReader.feed (.head, []) p.bytes = ((.head, []), serverReads p) := by
  rw [← p.length_eq] at hlt
  rw [Packet.bytes, Reader.feed_append, serverReader_header, serverHandle_accepts hmagic hlt,
    p.length_eq, serverReads]
  by_cases hnil : p.body = []
  · rw [if_pos hnil, hnil]
    rfl
  · have hlen : p.body.length ≠ 0 := fun h => hnil (List.length_eq_zero_iff.mp h)
    rw [if_neg hnil, if_neg hlen, Reader.feed_full hnil (by rw [List.length_nil, Nat.zero_add]; rfl)]
    simp only [serverReader, serverHandle, List.nil_append]
    cases RequestType.ofByte p.header.reqType with
    | none => rfl
    | some t => cases t <;> rfl

def clientReads (p : Packet) : List ClientRead :=
  match RequestType.ofByte p.header.reqType with
  | some .reqRes => [.response p.header.reqId p.body]
  | some .subPub => [.published p.body]
  | none => [.invalidArgument]

theorem clientReader_packet {p : Packet} (hne : p.body ≠ []) (hlt : p.body.length < maxBufLen) :
    clientReader.feed (.head, []) p.bytes =
      ((if (RequestType.ofByte p.header.reqType).isSome then .head else .stopped, []),
        clientReads p) := by
  have hpos : 0 < p.body.length := List.length_pos_iff.mpr hne
  rw [← p.length_eq] at hlt hpos
  rw [Packet.bytes, Reader.feed_append, clientReader_header, clientHandle_accepts hpos hlt,
    p.length_eq, Reader.feed_full hne (by rw [List.length_nil, Nat.zero_add]; rfl), clientReads]
  simp only [clientReader, clientHandle, List.nil_append]
  cases RequestType.ofByte p.header.reqType with
  | none => rfl
  | some t => cases t <;> rfl

def Message.packet (m : Message) : Packet := ⟨m.header, m.content, m.toNat_bodyLen⟩

def serverMeaning (m : Message) : List ServerRead :=
  if m.content = [] then []
  else
    match m.reqType with
    | .reqRes => [.request m.reqId m.funcId m.content]
    | .subPub => [.subscribe m.content]

theorem serverReader_frame (m : Message) :
    serverReader.feed (.head, []) m.frame = ((.head, []), serverMeaning m) := by
  have hpacket := serverReader_packet (p := m.packet) rfl m.length_lt
  rw [serverReads, show m.packet.header.reqType = m.reqType.toByte from rfl,
    ofByte_toByte] at hpacket
  refine hpacket.trans ?_
  rw [serverMeaning]
  cases m.reqType <;> rfl

structure Reply extends Message where
  ne_nil : content ≠ []

def clientMeaning (m : Reply) : List ClientRead :=
  match m.reqType with
  | .reqRes => [.response m.reqId m.content]
  | .subPub => [.published m.content]

theorem clientReader_frame (m : Reply) :
    clientReader.feed (.head, []) m.frame = ((.head, []), clientMeaning m) := by
  have hpacket := clientReader_packet (p := m.packet) m.ne_nil m.length_lt
  rw [clientReads, show m.packet.header.reqType = m.reqType.toByte from rfl,
    ofByte_toByte] at hpacket
  refine hpacket.trans ?_
  rw [clientMeaning]
  cases m.reqType <;> rfl

def requests : Protocol Message ServerRead UInt8 ReadState where
  toReader := serverReader
  idle := .head
  frame := Message.frame
  meaning := serverMeaning
  feed_frame := serverReader_frame

def replies : Protocol Reply ClientRead UInt8 ReadState where
  toReader := clientReader
  idle := .head
  frame m := m.frame
  meaning := clientMeaning
  feed_frame := clientReader_frame

end Frames

end DistExp.Rpc.Wire
