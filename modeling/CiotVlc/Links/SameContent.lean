import CiotVlc.Gateway.State
import CiotVlc.Kernel.Transparency

/-! # One packet over two links

The gateway sends a packet over RF, straight to the node, or to a VLC transmitter, whose program writes
it to the VLC device. The two headers have different field orders: node, transmitter, length, number on
Ethernet, and length, node, transmitter, number on the VLC device. The node reads the same packet from
both.
-/
namespace CiotVlc.Links
open Foundations.Bytes Foundations.Checked CiotVlc.Gateway CiotVlc.Node CiotVlc.Kernel
set_option autoImplicit false

/-- `BUF_SIZ`, in all three programs. -/
def bufSiz : ℕ := 1024

abbrev MacAddress := { bytes : List UInt8 // bytes.length = 6 }

/-- `NODE_MAC0`..`NODE_MAC5` of the gateway, `MY_MAC0`..`MY_MAC5` of the node. -/
def nodeMac : MacAddress := ⟨[0xec, 0x08, 0x6b, 0x13, 0x1e, 0x5c], rfl⟩

def vlcMac : MacAddress := ⟨[0xb0, 0xd5, 0xcc, 0xfc, 0xfe, 0x85], rfl⟩

/-- `GATEWAY_MAC0`..`GATEWAY_MAC5` of the node: the address of the gateway's RF interface. -/
def gatewayMac : MacAddress := ⟨rfMac, rfl⟩

/-! ## The gateway -/

/-- The link-layer header; `ETH_P_ALL` in network order. -/
def etherHeader (dhost shost : MacAddress) : List UInt8 := dhost.val ++ shost.val ++ [0, 3]

/-- The text of the two senders: what is handed to `sendto`. -/
def transmitPacket (dhost shost : MacAddress) (vlcId : ℤ) (data : GatewayPacket) :
    Except Fault (List UInt8) := do
  let sendbuf ← put bufSiz (etherHeader dhost shost) []
  let sendbuf ← put bufSiz (littleEndian 2 data.nodeId.toNat) sendbuf
  -- two bytes of an `int`
  let sendbuf ← put bufSiz (littleEndian 2 (ofInt32 vlcId)) sendbuf
  let sendbuf ← put bufSiz (littleEndian 2 data.payloadLen.toNat) sendbuf
  let sendbuf ← put bufSiz (littleEndian 4 data.seqNumber.toNat) sendbuf
  let payload ← readBytes data.data 0 data.payloadLen.toNat
  put bufSiz payload sendbuf

def transmitPacketRf (rfIfMac : MacAddress) (data : GatewayPacket) : Except Fault (List UInt8) :=
  transmitPacket nodeMac rfIfMac 0 data

def transmitPacketVlc (ethIfMac : MacAddress) (content : GatewayPacket) : Except Fault (List UInt8) :=
  transmitPacket vlcMac ethIfMac (content.vlcId.toNat + 1) content

/-! ## The VLC transmitter -/

def generateGatewayPacketFromBytes (buff : List UInt8) : Except Fault GatewayPacket := do
  let nodeId ← readBytes buff 0 2
  let vlcId ← readBytes buff 2 2
  let len ← readBytes buff 4 2
  let seq ← readBytes buff 6 4
  let payloadLen := UInt16.ofNat (ofLittleEndian len)
  let data ← readBytes buff 10 payloadLen.toNat
  return { nodeId := UInt16.ofNat (ofLittleEndian nodeId), vlcId := UInt16.ofNat (ofLittleEndian vlcId),
           payloadLen, seqNumber := UInt32.ofNat (ofLittleEndian seq), data }

/-- The bytes written to the VLC device. -/
def transmitToVlc (packet : GatewayPacket) : Except Fault (List UInt8) := do
  let vlcBuff ← put bufSiz (littleEndian 2 packet.payloadLen.toNat) []
  let vlcBuff ← put bufSiz (littleEndian 2 packet.nodeId.toNat) vlcBuff
  let vlcBuff ← put bufSiz (littleEndian 2 packet.vlcId.toNat) vlcBuff
  let vlcBuff ← put bufSiz (littleEndian 4 packet.seqNumber.toNat) vlcBuff
  let payload ← readBytes packet.data 0 packet.payloadLen.toNat
  put bufSiz payload vlcBuff

/-! ## The node -/

def isFromGateway (eh : List UInt8) : Bool :=
  (eh.drop 6).take 6 = gatewayMac.val && eh.take 6 = nodeMac.val

/-- One pass of `receive_rf`: the packet given to `push`, if any. -/
def receiveRf (buf : List UInt8) : Except Fault (Option NodePacket) := do
  if isFromGateway buf then
    let reportContent := buf.drop 14
    let nodeId ← readBytes reportContent 0 2
    let vlcId ← readBytes reportContent 2 2
    let len ← readBytes reportContent 4 2
    let seq ← readBytes reportContent 6 4
    let payloadLen := UInt16.ofNat (ofLittleEndian len)
    let data ← readBytes reportContent 10 payloadLen.toNat
    return some { nodeId := UInt16.ofNat (ofLittleEndian nodeId), vlcId := UInt16.ofNat (ofLittleEndian vlcId),
                  payloadLen, seqNumber := UInt32.ofNat (ofLittleEndian seq), data }
  else return none

def viaVlc (ethIfMac : MacAddress) (rest rest' : List UInt8) (p : GatewayPacket) : Except Fault NodePacket := do
  let frame ← transmitPacketVlc ethIfMac p
  let relayed ← generateGatewayPacketFromBytes ((frame ++ rest).drop 14)
  let bytes ← transmitToVlc relayed
  generateFromBytes (bytes ++ rest')

def viaRf (rest : List UInt8) (p : GatewayPacket) : Except Fault (Option NodePacket) := do
  let frame ← transmitPacketRf gatewayMac p
  receiveRf (frame ++ rest)

/-! ## Packets as they are built -/

/-- The payload has the length that the header gives, and fits the send buffer behind the headers. -/
structure PayloadFits (p : GatewayPacket) : Prop where
  length : p.data.length = p.payloadLen.toNat
  fits : 24 + p.payloadLen.toNat ≤ bufSiz

def ethernetBytes (p : GatewayPacket) (vlcId : ℤ) : List UInt8 :=
  littleEndian 2 p.nodeId.toNat ++ (littleEndian 2 (ofInt32 vlcId) ++ (littleEndian 2 p.payloadLen.toNat ++
    (littleEndian 4 p.seqNumber.toNat ++ p.data)))

section
variable {p : GatewayPacket}

theorem readBytes_all (hp : PayloadFits p) : readBytes p.data 0 p.payloadLen.toNat = .ok p.data := by
  rw [readBytes, if_pos (by rw [hp.length]; omega), List.drop_zero, ← hp.length, List.take_length]

@[simp] theorem etherHeader_length (dhost shost : MacAddress) : (etherHeader dhost shost).length = 14 := by
  rw [etherHeader, List.length_append, List.length_append, dhost.property, shost.property]
  rfl

theorem transmitPacket_eq (hp : PayloadFits p) (dhost shost : MacAddress) (vlcId : ℤ) :
    transmitPacket dhost shost vlcId p = .ok (etherHeader dhost shost ++ ethernetBytes p vlcId) := by
  have hfits := hp.fits
  have hlen := hp.length
  unfold transmitPacket
  rw [put_ok (by simp only [List.length_nil, etherHeader_length]; omega), ok_bind,
    put_ok (by simp only [List.length_append, List.length_nil, littleEndian_length, etherHeader_length]; omega),
    ok_bind,
    put_ok (by simp only [List.length_append, List.length_nil, littleEndian_length, etherHeader_length]; omega),
    ok_bind,
    put_ok (by simp only [List.length_append, List.length_nil, littleEndian_length, etherHeader_length]; omega),
    ok_bind,
    put_ok (by simp only [List.length_append, List.length_nil, littleEndian_length, etherHeader_length]; omega),
    ok_bind, readBytes_all hp, ok_bind,
    put_ok (by simp only [List.length_append, List.length_nil, littleEndian_length, etherHeader_length]; omega)]
  simp only [ethernetBytes, List.append_assoc, List.nil_append]

theorem transmitToVlc_eq (hp : PayloadFits p) :
    transmitToVlc p = .ok (VlcPacket.mk p.nodeId p.vlcId p.seqNumber p.data).bytes := by
  have hfits := hp.fits
  have hlen := hp.length
  unfold transmitToVlc
  rw [put_ok (by simp only [List.length_nil, littleEndian_length]; omega), ok_bind,
    put_ok (by simp only [List.length_append, List.length_nil, littleEndian_length]; omega), ok_bind,
    put_ok (by simp only [List.length_append, List.length_nil, littleEndian_length]; omega), ok_bind,
    put_ok (by simp only [List.length_append, List.length_nil, littleEndian_length]; omega), ok_bind,
    readBytes_all hp, ok_bind,
    put_ok (by simp only [List.length_append, List.length_nil, littleEndian_length]; omega)]
  simp only [VlcPacket.bytes, VlcPacket.header, hlen, List.append_assoc, List.nil_append]

/-! ## Reading the Ethernet fields -/

/-- The five fields, each behind the ones before it. -/
theorem readBytes_ethernet (p : GatewayPacket) (vlcId : ℤ) (rest : List UInt8) :
    readBytes (ethernetBytes p vlcId ++ rest) 0 2 = .ok (littleEndian 2 p.nodeId.toNat) ∧
    readBytes (ethernetBytes p vlcId ++ rest) 2 2 = .ok (littleEndian 2 (ofInt32 vlcId)) ∧
    readBytes (ethernetBytes p vlcId ++ rest) 4 2 = .ok (littleEndian 2 p.payloadLen.toNat) ∧
    readBytes (ethernetBytes p vlcId ++ rest) 6 4 = .ok (littleEndian 4 p.seqNumber.toNat) ∧
    readBytes (ethernetBytes p vlcId ++ rest) 10 p.data.length = .ok p.data := by
  let node := littleEndian 2 p.nodeId.toNat
  let vlc := littleEndian 2 (ofInt32 vlcId)
  let len := littleEndian 2 p.payloadLen.toNat
  let seq := littleEndian 4 p.seqNumber.toNat
  have hbytes : ethernetBytes p vlcId ++ rest = node ++ (vlc ++ (len ++ (seq ++ (p.data ++ rest)))) := by
    simp only [ethernetBytes, List.append_assoc, node, vlc, len, seq]
  refine ⟨?_, ?_, ?_, ?_, ?_⟩
  · rw [hbytes]
    exact readBytes_append [] node _
  · rw [hbytes]
    exact readBytes_append node vlc _
  · rw [hbytes, ← List.append_assoc]
    exact readBytes_append (node ++ vlc) len _
  · rw [hbytes, ← List.append_assoc, ← List.append_assoc]
    exact readBytes_append (node ++ vlc ++ len) seq _
  · rw [hbytes, ← List.append_assoc, ← List.append_assoc, ← List.append_assoc]
    exact readBytes_append (node ++ vlc ++ len ++ seq) p.data _

theorem uint16_ofLittleEndian (x : UInt16) : UInt16.ofNat (ofLittleEndian (littleEndian 2 x.toNat)) = x := by
  rw [ofLittleEndian_of_lt (by norm_num; exact x.toNat_lt), UInt16.ofNat_toNat]

theorem uint32_ofLittleEndian (x : UInt32) : UInt32.ofNat (ofLittleEndian (littleEndian 4 x.toNat)) = x := by
  rw [ofLittleEndian_of_lt (by norm_num; exact x.toNat_lt), UInt32.ofNat_toNat]

/-- A transmitter's id as it is read back. -/
def readVlcId (vlcId : ℤ) : UInt16 := UInt16.ofNat (ofLittleEndian (littleEndian 2 (ofInt32 vlcId)))

theorem generateGatewayPacketFromBytes_eq (hp : PayloadFits p) (vlcId : ℤ) (rest : List UInt8) :
    generateGatewayPacketFromBytes (ethernetBytes p vlcId ++ rest) = .ok { p with vlcId := readVlcId vlcId } := by
  obtain ⟨hnode, hvlc, hlen, hseq, hdata⟩ := readBytes_ethernet p vlcId rest
  rw [hp.length] at hdata
  rw [generateGatewayPacketFromBytes, hnode, ok_bind, hvlc, ok_bind, hlen, ok_bind, hseq, ok_bind]
  simp only [uint16_ofLittleEndian, uint32_ofLittleEndian, hdata, ok_bind, pure_eq_ok]
  rfl

def asNodePacket (p : GatewayPacket) (vlcId : UInt16) : NodePacket :=
  { nodeId := p.nodeId, vlcId, payloadLen := p.payloadLen, seqNumber := p.seqNumber, data := p.data }

theorem receiveRf_eq (hp : PayloadFits p) (vlcId : ℤ) (rest : List UInt8) :
    receiveRf (etherHeader nodeMac gatewayMac ++ ethernetBytes p vlcId ++ rest) =
      .ok (some (asNodePacket p (readVlcId vlcId))) := by
  obtain ⟨hnode, hvlc, hlen, hseq, hdata⟩ := readBytes_ethernet p vlcId rest
  rw [hp.length] at hdata
  have hdrop : (etherHeader nodeMac gatewayMac ++ ethernetBytes p vlcId ++ rest).drop 14 =
      ethernetBytes p vlcId ++ rest := by
    rw [List.append_assoc]
    exact List.drop_left' (etherHeader_length _ _)
  have hfrom : isFromGateway (etherHeader nodeMac gatewayMac ++ ethernetBytes p vlcId ++ rest) = true := by
    rw [List.append_assoc]
    rfl
  rw [receiveRf, if_pos hfrom, hdrop]
  simp only [hnode, hvlc, hlen, hseq, ok_bind, uint16_ofLittleEndian, uint32_ofLittleEndian, hdata, pure_eq_ok]
  rfl

end

/-! ## Both links -/

/-- What the node keeps of a packet, apart from the transmitter. -/
structure SameContent (p : GatewayPacket) (q : NodePacket) : Prop where
  nodeId : q.nodeId = p.nodeId
  seqNumber : q.seqNumber = p.seqNumber
  payloadLen : q.payloadLen = p.payloadLen
  data : q.data = p.data

/-- **The content does not depend on the link.** Transmitter `k` shows as `k + 1`, RF as 0. -/
theorem same_content (p : GatewayPacket) (hp : PayloadFits p) (hk : p.vlcId.toNat < 65535)
    (ethIfMac : MacAddress) (rest rest' : List UInt8) :
    (∃ q, viaVlc ethIfMac rest rest' p = .ok q ∧ SameContent p q ∧ q.vlcId.toNat = p.vlcId.toNat + 1) ∧
    (∃ q, viaRf rest p = .ok (some q) ∧ SameContent p q ∧ q.vlcId = 0) := by
  constructor
  · have hid : (readVlcId (p.vlcId.toNat + 1 : ℤ)).toNat = p.vlcId.toNat + 1 := by
      have hint : ofInt32 ((p.vlcId.toNat : ℤ) + 1) = p.vlcId.toNat + 1 := by
        unfold ofInt32
        omega
      rw [readVlcId, hint, ofLittleEndian_of_lt (by norm_num; omega), UInt16.toNat_ofNat']
      exact Nat.mod_eq_of_lt (by omega)
    set relayed : GatewayPacket := { p with vlcId := readVlcId (p.vlcId.toNat + 1 : ℤ) } with hrelayed
    have hsend : PayloadFits relayed := ⟨hp.length, hp.fits⟩
    have hdrop : (etherHeader vlcMac ethIfMac ++ ethernetBytes p (p.vlcId.toNat + 1) ++ rest).drop 14 =
        ethernetBytes p (p.vlcId.toNat + 1) ++ rest := by
      rw [List.append_assoc]
      exact List.drop_left' (etherHeader_length _ _)
    have hread := generateFromBytes_eq (VlcPacket.mk relayed.nodeId relayed.vlcId relayed.seqNumber relayed.data)
      (by rw [hsend.length]; exact relayed.payloadLen.toNat_lt) rest'
    refine ⟨(VlcPacket.mk relayed.nodeId relayed.vlcId relayed.seqNumber relayed.data).received, ?_, ?_, hid⟩
    · rw [viaVlc, transmitPacketVlc, transmitPacket_eq hp, ok_bind, hdrop,
        generateGatewayPacketFromBytes_eq hp, ok_bind, ← hrelayed, transmitToVlc_eq hsend, ok_bind]
      exact hread
    · refine ⟨rfl, rfl, ?_, rfl⟩
      change UInt16.ofNat p.data.length = p.payloadLen
      rw [hp.length, UInt16.ofNat_toNat]
  · refine ⟨asNodePacket p (readVlcId 0), ?_, ⟨rfl, rfl, rfl, rfl⟩, ?_⟩
    · rw [viaRf, transmitPacketRf, transmitPacket_eq hp, ok_bind]
      exact receiveRf_eq hp 0 rest
    · change readVlcId 0 = 0
      decide

/-- A packet for the last transmitter that has an id. -/
theorem same_content_last_vlc :
    let p : GatewayPacket := ⟨1, 65534, 1, 4294967295, [7]⟩
    (∃ q, viaVlc gatewayMac [] [] p = .ok q ∧ SameContent p q ∧ q.vlcId.toNat = p.vlcId.toNat + 1) ∧
    (∃ q, viaRf [] p = .ok (some q) ∧ SameContent p q ∧ q.vlcId = 0) :=
  same_content ⟨1, 65534, 1, 4294967295, [7]⟩ ⟨rfl, by decide⟩ (by decide) gatewayMac [] []

end CiotVlc.Links
