import DistExp.Rpc.Wire

namespace DistExp.Rpc.Streams

open DistExp.Library.Bytes DistExp.Library.Stream DistExp.Rpc.Wire

section Packets

/-- What may follow the packets that a reader takes: a header or a body that is not complete, or a
header or a packet that it does not take. -/
inductive Rest (Header : RpcHeader → Prop) (Taken : Packet → Prop) : List UInt8 → Prop where
  | head {bs : List UInt8} (h : bs.length < headLen) : Rest Header Taken bs
  | body {bs : List UInt8} {h : RpcHeader} (hh : Header h) (hlt : bs.length < h.bodyLen.toNat) :
      Rest Header Taken (h.bytes ++ bs)
  | header {bs : List UInt8} {h : RpcHeader} (hh : ¬Header h) : Rest Header Taken (h.bytes ++ bs)
  | packet {bs : List UInt8} {p : Packet} (hh : Header p.header) (hp : ¬Taken p) :
      Rest Header Taken (p.bytes ++ bs)

variable {bs : List UInt8}

theorem exists_header (h : headLen ≤ bs.length) :
    ∃ (header : RpcHeader) (cs : List UInt8), bs = header.bytes ++ cs := by
  refine ⟨.ofBytes (bs.take headLen), bs.drop headLen, ?_⟩
  rw [RpcHeader.bytes_ofBytes (List.length_take_of_le h), List.take_append_drop]

theorem exists_packet {header : RpcHeader} (h : header.bodyLen.toNat ≤ bs.length) :
    ∃ (p : Packet) (cs : List UInt8), p.header = header ∧ header.bytes ++ bs = p.bytes ++ cs := by
  refine ⟨⟨header, bs.take header.bodyLen.toNat, (List.length_take_of_le h).symm⟩,
    bs.drop header.bodyLen.toNat, rfl, ?_⟩
  rw [Packet.bytes, List.append_assoc, List.take_append_drop]

theorem exists_packets (Header : RpcHeader → Prop) (Taken : Packet → Prop) (bs : List UInt8) :
    ∃ (ps : List Packet) (cs : List UInt8), (∀ p ∈ ps, Header p.header ∧ Taken p) ∧
      Rest Header Taken cs ∧ bs = ps.flatMap Packet.bytes ++ cs := by
  induction hn : bs.length using Nat.strong_induction_on generalizing bs with
  | h n ih =>
    by_cases hhead : bs.length < headLen
    · exact ⟨[], bs, by simp, .head hhead, rfl⟩
    obtain ⟨header, cs, rfl⟩ := exists_header (not_lt.mp hhead)
    by_cases hh : Header header
    swap
    · exact ⟨[], _, by simp, .header hh, rfl⟩
    by_cases hbody : cs.length < header.bodyLen.toNat
    · exact ⟨[], _, by simp, .body hh hbody, rfl⟩
    obtain ⟨p, ds, rfl, hds⟩ := exists_packet (not_lt.mp hbody)
    rw [hds] at hn ⊢
    by_cases hp : Taken p
    swap
    · exact ⟨[], _, by simp, .packet hh hp, rfl⟩
    have hlen : ds.length < n := by
      have hpos : 0 < headLen := by decide
      rw [← hn, Packet.bytes, List.length_append, List.length_append, RpcHeader.length_bytes]
      omega
    obtain ⟨ps, es, hps, hes, rfl⟩ := ih ds.length hlen ds rfl
    refine ⟨p :: ps, es, ?_, hes, ?_⟩
    · rintro q hq
      obtain rfl | hq := List.mem_cons.mp hq
      · exact ⟨hh, hp⟩
      · exact hps q hq
    · rw [List.flatMap_cons, List.append_assoc]

theorem feed_packets {E : Type} {r : Reader ReadState UInt8 E} {reads : Packet → List E}
    {ps : List Packet} (h : ∀ p ∈ ps, r.feed (.head, []) p.bytes = ((.head, []), reads p)) :
    r.feed (.head, []) (ps.flatMap Packet.bytes) = ((.head, []), ps.flatMap reads) := by
  induction ps with
  | nil => rfl
  | cons p ps ih =>
    rw [List.flatMap_cons, Reader.feed_append, h p List.mem_cons_self,
      ih fun q hq => h q (List.mem_cons_of_mem p hq), List.flatMap_cons]

end Packets

section Server

/-- Where a connection stands after bytes that hold no further packet, and what it makes of them. -/
inductive ServerRest : List UInt8 → ReadState × List UInt8 → List ServerRead → Prop where
  | head {bs : List UInt8} (h : bs.length < headLen) : ServerRest bs (.head, bs) []
  | body {bs : List UInt8} {h : RpcHeader} (hmagic : h.magic = magicNum)
      (hmax : h.bodyLen.toNat < maxBufLen) (hlt : bs.length < h.bodyLen.toNat) :
      ServerRest (h.bytes ++ bs) (.body h.reqId h.reqType h.funcId h.bodyLen.toNat, bs) []
  | protocolError {bs : List UInt8} {h : RpcHeader} (hmagic : h.magic ≠ magicNum) :
      ServerRest (h.bytes ++ bs) (.stopped, []) [.protocolError]
  | invalidBodyLen {bs : List UInt8} {h : RpcHeader} (hmagic : h.magic = magicNum)
      (hmax : maxBufLen ≤ h.bodyLen.toNat) :
      ServerRest (h.bytes ++ bs) (.stopped, []) [.invalidBodyLen]

variable {bs : List UInt8} {s : ReadState × List UInt8} {es : List ServerRead}

theorem serverReader_rest (h : ServerRest bs s es) :
    serverReader.feed (.head, []) bs = (s, es) := by
  cases h with
  | head h => exact Reader.feed_short (by rwa [List.length_nil, Nat.zero_add])
  | @body bs h hmagic hmax hlt =>
    rw [Reader.feed_append, serverReader_header, serverHandle_accepts hmagic hmax,
      if_neg (by omega), Reader.feed_short (by rwa [List.length_nil, Nat.zero_add])]
    rfl
  | @protocolError bs h hmagic =>
    have hhandle : serverHandle .head h.bytes = (.stopped, [.protocolError]) := by
      rw [serverHandle, RpcHeader.ofBytes_bytes, if_pos hmagic]
    rw [Reader.feed_append, serverReader_header, hhandle, Reader.feed_stopped rfl]
    rfl
  | @invalidBodyLen bs h hmagic hmax =>
    have hhandle : serverHandle .head h.bytes = (.stopped, [.invalidBodyLen]) := by
      have hpos : 0 < maxBufLen := by decide
      rw [serverHandle, RpcHeader.ofBytes_bytes, if_neg (not_not.mpr hmagic),
        if_neg (by omega), if_neg (by omega)]
    rw [Reader.feed_append, serverReader_header, hhandle, Reader.feed_stopped rfl]
    rfl

/-- What a connection makes of the bytes it gets, whatever they are: of each packet what it means,
up to a header that closes the connection. -/
theorem server_reads_iff :
    serverReader.feed (.head, []) bs = (s, es) ↔
      ∃ (ps : List Packet) (cs : List UInt8) (last : List ServerRead),
        (∀ p ∈ ps, p.header.magic = magicNum ∧ p.body.length < maxBufLen) ∧
        ServerRest cs s last ∧ bs = ps.flatMap Packet.bytes ++ cs ∧
        es = ps.flatMap serverReads ++ last := by
  have hfeed : ∀ {ps : List Packet} {cs : List UInt8} {s : ReadState × List UInt8}
      {last : List ServerRead}, (∀ p ∈ ps, p.header.magic = magicNum ∧ p.body.length < maxBufLen) →
      ServerRest cs s last → serverReader.feed (.head, []) (ps.flatMap Packet.bytes ++ cs) =
        (s, ps.flatMap serverReads ++ last) := by
    intro ps cs s last hps hcs
    rw [Reader.feed_append, feed_packets fun p hp => serverReader_packet (hps p hp).1 (hps p hp).2,
      serverReader_rest hcs]
  constructor
  · intro h
    obtain ⟨ps, cs, hps, hcs, rfl⟩ := exists_packets
      (fun h => h.magic = magicNum ∧ h.bodyLen.toNat < maxBufLen) (fun _ => True) bs
    have htaken : ∀ p ∈ ps, p.header.magic = magicNum ∧ p.body.length < maxBufLen :=
      fun p hp => p.length_eq ▸ (hps p hp).1
    have hrest : ∃ s last, ServerRest cs s last := by
      cases hcs with
      | head h => exact ⟨_, _, .head h⟩
      | body hh hlt => exact ⟨_, _, .body hh.1 hh.2 hlt⟩
      | @header _ header hh =>
        by_cases hmagic : header.magic = magicNum
        · exact ⟨_, _, .invalidBodyLen hmagic (not_lt.mp fun hmax => hh ⟨hmagic, hmax⟩)⟩
        · exact ⟨_, _, .protocolError hmagic⟩
      | packet _ hp => exact absurd trivial hp
    obtain ⟨s', last, hrest⟩ := hrest
    rw [hfeed htaken hrest] at h
    cases h
    exact ⟨ps, cs, last, htaken, hrest, rfl, rfl⟩
  · rintro ⟨ps, cs, last, hps, hcs, rfl, rfl⟩
    exact hfeed hps hcs

end Server

section Client

/-- Where a client stands after bytes that hold no further packet that it takes, and what it makes
of them. After a body length of `MAX_BUF_LEN` it neither reads on nor closes. -/
inductive ClientRest : List UInt8 → ReadState × List UInt8 → List ClientRead → Prop where
  | head {bs : List UInt8} (h : bs.length < headLen) : ClientRest bs (.head, bs) []
  | body {bs : List UInt8} {h : RpcHeader} (hmax : h.bodyLen.toNat < maxBufLen)
      (hlt : bs.length < h.bodyLen.toNat) :
      ClientRest (h.bytes ++ bs) (.body h.reqId h.reqType h.funcId h.bodyLen.toNat, bs) []
  | messageSize {bs : List UInt8} {h : RpcHeader}
      (hlen : h.bodyLen.toNat = 0 ∨ maxBufLen < h.bodyLen.toNat) :
      ClientRest (h.bytes ++ bs) (.stopped, []) [.messageSize]
  | stalled {bs : List UInt8} {h : RpcHeader} (hlen : h.bodyLen.toNat = maxBufLen) :
      ClientRest (h.bytes ++ bs) (.stopped, []) []
  | invalidArgument {bs : List UInt8} {p : Packet} (hne : p.body ≠ [])
      (hlt : p.body.length < maxBufLen) (htype : RequestType.ofByte p.header.reqType = none) :
      ClientRest (p.bytes ++ bs) (.stopped, []) [.invalidArgument]

variable {bs : List UInt8} {s : ReadState × List UInt8} {es : List ClientRead}

theorem clientReader_rest (h : ClientRest bs s es) :
    clientReader.feed (.head, []) bs = (s, es) := by
  cases h with
  | head h => exact Reader.feed_short (by rwa [List.length_nil, Nat.zero_add])
  | @body bs h hmax hlt =>
    rw [Reader.feed_append, clientReader_header, clientHandle_accepts (by omega) hmax,
      Reader.feed_short (by rwa [List.length_nil, Nat.zero_add])]
    rfl
  | @messageSize bs h hlen =>
    have hhandle : clientHandle .head h.bytes = (.stopped, [.messageSize]) := by
      rw [clientHandle, RpcHeader.ofBytes_bytes, if_neg (by omega), if_pos hlen]
    rw [Reader.feed_append, clientReader_header, hhandle, Reader.feed_stopped rfl]
    rfl
  | @stalled bs h hlen =>
    have hhandle : clientHandle .head h.bytes = (.stopped, []) := by
      have hpos : 0 < maxBufLen := by decide
      rw [clientHandle, RpcHeader.ofBytes_bytes, if_neg (by omega), if_neg (by omega)]
    rw [Reader.feed_append, clientReader_header, hhandle, Reader.feed_stopped rfl]
    rfl
  | @invalidArgument bs p hne hlt htype =>
    rw [Reader.feed_append, clientReader_packet hne hlt, clientReads, htype]
    dsimp only [Option.isSome_none]
    rw [if_neg Bool.false_ne_true, Reader.feed_stopped rfl]
    rfl

def ClientTakes (p : Packet) : Prop :=
  p.body ≠ [] ∧ p.body.length < maxBufLen ∧ (RequestType.ofByte p.header.reqType).isSome

/-- What a client makes of the bytes it gets, whatever they are: of each packet what it means, up to
a header or a packet that closes the client, or leaves it with nothing to read. -/
theorem client_reads_iff :
    clientReader.feed (.head, []) bs = (s, es) ↔
      ∃ (ps : List Packet) (cs : List UInt8) (last : List ClientRead),
        (∀ p ∈ ps, ClientTakes p) ∧ ClientRest cs s last ∧ bs = ps.flatMap Packet.bytes ++ cs ∧
        es = ps.flatMap clientReads ++ last := by
  have hfeed : ∀ {ps : List Packet} {cs : List UInt8} {s : ReadState × List UInt8}
      {last : List ClientRead}, (∀ p ∈ ps, ClientTakes p) → ClientRest cs s last →
      clientReader.feed (.head, []) (ps.flatMap Packet.bytes ++ cs) =
        (s, ps.flatMap clientReads ++ last) := by
    intro ps cs s last hps hcs
    have hpacket : ∀ p ∈ ps,
        clientReader.feed (.head, []) p.bytes = ((.head, []), clientReads p) := by
      intro p hp
      obtain ⟨hne, hlt, htype⟩ := hps p hp
      rw [clientReader_packet hne hlt, if_pos htype]
    rw [Reader.feed_append, feed_packets hpacket, clientReader_rest hcs]
  constructor
  · intro h
    obtain ⟨ps, cs, hps, hcs, rfl⟩ := exists_packets
      (fun h => 0 < h.bodyLen.toNat ∧ h.bodyLen.toNat < maxBufLen)
      (fun p => (RequestType.ofByte p.header.reqType).isSome) bs
    have hbody : ∀ {p : Packet}, 0 < p.header.bodyLen.toNat ∧ p.header.bodyLen.toNat < maxBufLen →
        p.body ≠ [] ∧ p.body.length < maxBufLen := by
      intro p hp
      rw [p.length_eq] at hp
      exact ⟨List.length_pos_iff.mp hp.1, hp.2⟩
    have htakes : ∀ p ∈ ps, ClientTakes p := fun p hp =>
      ⟨(hbody (hps p hp).1).1, (hbody (hps p hp).1).2, (hps p hp).2⟩
    have hrest : ∃ s last, ClientRest cs s last := by
      cases hcs with
      | head h => exact ⟨_, _, .head h⟩
      | body hh hlt => exact ⟨_, _, .body hh.2 hlt⟩
      | @header _ header hh =>
        by_cases hmax : header.bodyLen.toNat = maxBufLen
        · exact ⟨_, _, .stalled hmax⟩
        · exact ⟨_, _, .messageSize (by omega)⟩
      | packet hh hp =>
        exact ⟨_, _, .invalidArgument (hbody hh).1 (hbody hh).2 (Option.not_isSome_iff_eq_none.mp hp)⟩
    obtain ⟨s', last, hrest⟩ := hrest
    rw [hfeed htakes hrest] at h
    cases h
    exact ⟨ps, cs, last, htakes, hrest, rfl, rfl⟩
  · rintro ⟨ps, cs, last, hps, hcs, rfl, rfl⟩
    exact hfeed hps hcs

end Client

end DistExp.Rpc.Streams
