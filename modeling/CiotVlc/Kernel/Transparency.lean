import CiotVlc.Kernel.Receive
import CiotVlc.Kernel.Transmit
import CiotVlc.Node.ReceiveVlc

/-! # Is error correction transparent?

The receiving driver signals corrected errors inside the packet that it delivers, and the node's
receiver undoes a part of that. Both programs run on one frame of the ring; the frame is what the
transmitting driver stored, with a few bytes wrong.
-/
namespace CiotVlc.Kernel
open Foundations.Bytes Foundations.BlockCode Foundations.Checked Foundations.LinkedQueue CiotVlc.Node
set_option autoImplicit false

/-! ## Reading a delivered packet -/

/-- The packet as the node's program reads it. -/
def VlcPacket.received (p : VlcPacket) : NodePacket :=
  { nodeId := p.nodeId, vlcId := p.vlcId, payloadLen := UInt16.ofNat p.payload.length,
    seqNumber := p.seqNumber, data := p.payload }

theorem readUInt16_append (pre rest : List UInt8) (x : ℕ) :
    readUInt16 (pre ++ (littleEndian 2 x ++ rest)) pre.length = .ok (UInt16.ofNat x) := by
  have hlow : readByte (pre ++ (littleEndian 2 x ++ rest)) pre.length = .ok (UInt8.ofNat x) :=
    readByte_append pre _ _
  have hhigh : readByte (pre ++ (littleEndian 2 x ++ rest)) (pre.length + 1) = .ok (UInt8.ofNat (x / 256)) := by
    have h := readByte_append (pre ++ [UInt8.ofNat x]) (UInt8.ofNat (x / 256)) rest
    rwa [List.append_assoc, List.length_append] at h
  have hvalue : (UInt8.ofNat (x / 256)).toNat * 256 + (UInt8.ofNat x).toNat = x % 65536 := by
    rw [UInt8.toNat_ofNat', UInt8.toNat_ofNat']
    omega
  rw [readUInt16, hhigh, ok_bind, hlow, ok_bind, hvalue, pure_eq_ok]
  congr 1
  apply UInt16.toNat_inj.mp
  rw [UInt16.toNat_ofNat', UInt16.toNat_ofNat']
  omega

theorem readUInt16_length (p : VlcPacket) (rest : List UInt8) :
    readUInt16 (p.bytes ++ rest) 0 = .ok (UInt16.ofNat p.payload.length) := by
  have hbytes : p.bytes ++ rest = [] ++ (littleEndian 2 p.payload.length ++ (p.bytes.drop 2 ++ rest)) := by
    simp only [VlcPacket.bytes, VlcPacket.header, List.append_assoc, List.nil_append]
    rfl
  rw [hbytes]
  exact readUInt16_append [] _ _

theorem generateFromBytes_eq (p : VlcPacket) (hlen : p.payload.length < 2 ^ 16) (rest : List UInt8) :
    generateFromBytes (p.bytes ++ rest) = .ok p.received := by
  let len := littleEndian 2 p.payload.length
  let node := littleEndian 2 p.nodeId.toNat
  let vlc := littleEndian 2 p.vlcId.toNat
  let seq := littleEndian 4 p.seqNumber.toNat
  have hbytes : p.bytes ++ rest = len ++ (node ++ (vlc ++ (seq ++ (p.payload ++ rest)))) := by
    simp only [VlcPacket.bytes, VlcPacket.header, List.append_assoc, len, node, vlc, seq]
  have hnode : readUInt16 (p.bytes ++ rest) 2 = .ok p.nodeId := by
    rw [hbytes]
    exact (readUInt16_append len _ _).trans (by rw [UInt16.ofNat_toNat])
  have hvlc : readUInt16 (p.bytes ++ rest) 4 = .ok p.vlcId := by
    rw [hbytes, ← List.append_assoc]
    exact (readUInt16_append (len ++ node) _ _).trans (by rw [UInt16.ofNat_toNat])
  have hseq : readBytes (p.bytes ++ rest) 6 4 = .ok seq := by
    rw [hbytes, ← List.append_assoc, ← List.append_assoc]
    exact readBytes_append (len ++ node ++ vlc) seq _
  have hdata : readBytes (p.bytes ++ rest) 10 (UInt16.ofNat p.payload.length).toNat = .ok p.payload := by
    rw [hbytes, ← List.append_assoc, ← List.append_assoc, ← List.append_assoc, UInt16.toNat_ofNat',
      Nat.mod_eq_of_lt hlen]
    exact readBytes_append (len ++ node ++ vlc ++ seq) p.payload rest
  have hnum : UInt32.ofNat (ofLittleEndian seq) = p.seqNumber := by
    rw [ofLittleEndian_of_lt (by norm_num; exact p.seqNumber.toNat_lt), UInt32.ofNat_toNat]
  rw [generateFromBytes, readUInt16_length, ok_bind, hnode, ok_bind, hvlc, ok_bind, hseq, ok_bind, hdata, ok_bind,
    pure_eq_ok, hnum]
  rfl

theorem markFrame_ok (frameRx : ℕ → ℤ) (vlcId : UInt16) : ∃ frameRx', markFrame frameRx vlcId = .ok frameRx' := by
  unfold markFrame
  split
  · next h =>
    have hn : nVlc = 1 := rfl
    exact ⟨_, writeCell_ok _ _ (by omega)⟩
  · exact ⟨_, rfl⟩

/-- The packet that the receiver pushes for a delivered one. -/
def VlcPacket.pushed (p : VlcPacket) : Option NodePacket :=
  if p.nodeId = selfId ∨ p.nodeId = rsErrorId then some { p.received with nodeId := selfId } else none

theorem countErrors_ok (receiver : VlcReceiver) {p : VlcPacket} (hlen : 4 ≤ p.payload.length)
    (hid : p.nodeId = selfId ∨ p.nodeId = rsErrorId) :
    ∃ receiver', countErrors receiver p.received = .ok ({ p.received with nodeId := selfId }, receiver') := by
  unfold countErrors
  split
  · have hread : readBytes p.received.data 0 4 = .ok ((p.payload.drop 0).take 4) := if_pos hlen
    exact ⟨_, by rw [hread, ok_bind]; rfl⟩
  · next hne =>
    have hself : p.nodeId = selfId := hid.resolve_right hne
    exact ⟨receiver, by rw [← hself]; rfl⟩

theorem acceptPacket_eq (receiver : VlcReceiver) {p : VlcPacket} (hlen : 4 ≤ p.payload.length) :
    ∃ receiver', acceptPacket receiver p.received = .ok (p.pushed, receiver') := by
  unfold acceptPacket VlcPacket.pushed
  obtain ⟨frameRx, hframe⟩ := markFrame_ok receiver.frameRx p.received.vlcId
  have hnode : p.received.nodeId = p.nodeId := rfl
  by_cases hid : p.nodeId = selfId ∨ p.nodeId = rsErrorId
  · obtain ⟨receiver', hcount⟩ := countErrors_ok { receiver with frameRx } hlen hid
    rw [hnode, if_pos (by tauto), if_pos hid, hframe, ok_bind, if_pos hid, hcount, ok_bind]
    exact ⟨_, rfl⟩
  · rw [hnode, if_neg hid, hframe, ok_bind, if_neg hid]
    split
    · exact ⟨_, rfl⟩
    · exact ⟨_, rfl⟩

theorem receiveVlc_eq (receiver : VlcReceiver) {p : VlcPacket} (hlen : 4 ≤ p.payload.length)
    (hmtu : p.payload.length ≤ Node.mtuValue.toNat) :
    ∃ receiver', receiveVlc receiver p.bytes = .ok (p.pushed, receiver') := by
  have hsize := p.bytes_length
  have hmtu' : p.payload.length ≤ 100 := hmtu
  have hrecv : recvFrom receiver.buff p.bytes = p.bytes ++ receiver.buff.drop p.bytes.length := by
    rw [recvFrom, List.take_of_length_le (by simp only [bufSize]; omega)]
  have hlt : (UInt16.ofNat p.payload.length).toNat = p.payload.length := by
    rw [UInt16.toNat_ofNat', Nat.mod_eq_of_lt (by omega)]
  have hlength : 0 < UInt16.ofNat p.payload.length ∧ UInt16.ofNat p.payload.length ≤ Node.mtuValue := by
    rw [UInt16.lt_iff_toNat_lt, UInt16.le_iff_toNat_le, hlt]
    exact ⟨by change 0 < _; omega, hmtu⟩
  obtain ⟨receiver', haccept⟩ := acceptPacket_eq { receiver with buff := recvFrom receiver.buff p.bytes } hlen
  refine ⟨receiver', ?_⟩
  rw [receiveVlc, if_pos (by omega)]
  simp only [hrecv] at haccept ⊢
  rw [readUInt16_length, ok_bind, if_pos hlength, generateFromBytes_eq p (by omega), ok_bind, haccept]

/-! ## From the ring to the process queue -/

/-- One pass of the driver and what the node's receiver does with what it delivers. -/
def receiveFrame (rs : ReedSolomon) (pru : Memory) (receiver : VlcReceiver) :
    Except Fault (Option NodePacket × VlcReceiver) :=
  match (pruPhyDecoding rs pru).1 with
  | some bytes => receiveVlc receiver bytes
  | none => .ok (none, receiver)

/-- The packet is pushed when it is for this node, and only as it was sent. -/
def Transparent (p : VlcPacket) (result : Except Fault (Option NodePacket × VlcReceiver)) : Prop :=
  ∃ pushed receiver, result = .ok (pushed, receiver) ∧ (pushed.isSome ↔ p.nodeId = selfId) ∧
    ∀ q, pushed = some q → q = p.received

/-- The packets that survive this number of wrong bytes: an untouched one that does not carry the error id,
and, of the touched ones, the dummy packet and a packet that starts with the count written over it. -/
def Survives (p : VlcPacket) (wrong : ℕ) : Prop :=
  if wrong = 0 then p.nodeId ≠ rsErrorId
  else p.nodeId = Node.dummyPacketNodeId ∨ p.nodeId = selfId ∧ p.payload.take 4 = littleEndian 4 wrong

instance (p : VlcPacket) (wrong : ℕ) : Decidable (Survives p wrong) := by
  unfold Survives
  infer_instance

/-- What the transmitter stored for a packet. -/
def sentFrame (rs : ReedSolomon) (data : PacketData) (pru : Memory) (writeIdx : ℕ) : List UInt8 :=
  image (writePacketToPruMemory rs data pru writeIdx).2.1 writeIdx (payloadLen + 26)

section
variable {rs : ReedSolomon} {p : VlcPacket}

theorem sentFrame_eq {data : PacketData} (hdata : Holds data p.bytes) (hlen : p.payload.length = payloadLen)
    (pru : Memory) (writeIdx : ℕ) : sentFrame rs data pru writeIdx = p.frame rs := by
  obtain ⟨data', -, hwrite⟩ := @writePacketToPruMemory_eq rs _ _ hdata (by rw [hlen]; decide) pru writeIdx
  have hsize : payloadLen + 26 = (p.frame rs).length := by
    rw [VlcPacket.frame_length, hlen]
    rfl
  rw [sentFrame, hwrite, hsize]
  exact image_store _ _ _

/-- The frame is delivered marked with its number of wrong bytes, and handled as such. -/
theorem receiveFrame_eq (hlen : p.payload.length = payloadLen)
    (hrepairs : Repairs rs.decoder p.bytes (rs.parity p.bytes) 8) {pru : Memory}
    (hready : load pru readIdxOffset 2 ≠ load pru writeIdxOffset 2)
    (hlength : load pru (load pru readIdxOffset 2) 2 = payloadLen) {got : List UInt8}
    (hgot : image pru (load pru readIdxOffset 2) (payloadLen + 26) = got)
    (hwrong : wrongSymbols (p.frame rs) got ≤ 8) (receiver : VlcReceiver) :
    ∃ receiver', receiveFrame rs pru receiver =
      .ok ((p.marked (wrongSymbols (p.frame rs) got)).pushed, receiver') := by
  have hbytes : p.bytes.length = 84 := by
    rw [VlcPacket.bytes_length, hlen]
    rfl
  have hgotlen : got.length = 100 := by
    rw [← hgot, image_length]
    rfl
  have hsplit : got.take 84 ++ got.drop 84 = got := List.take_append_drop 84 got
  have hdata : (got.take 84).length = p.bytes.length := by
    rw [List.length_take]
    omega
  have hparity : (got.drop 84).length = eccLen := by
    rw [List.length_drop, hgotlen]
    rfl
  have hdecode : rs.decoder (got.take 84) (got.drop 84) = (p.bytes, (wrongSymbols (p.frame rs) got : ℤ)) := by
    have h := hrepairs (got.take 84) (got.drop 84) hdata (by rw [hparity, ReedSolomon.parity_length])
    rw [hsplit] at h
    exact h hwrong
  have hlong : 4 ≤ p.payload.length := by rw [hlen]; decide
  have hframe : image pru (load pru readIdxOffset 2) (p.bytes.length + eccLen) = got.take 84 ++ got.drop 84 := by
    rw [hsplit, hbytes]
    exact hgot
  have hpass := pruPhyDecoding_eq hready (by rw [hlength, hlen]) hlong (by rw [hlen]; decide) hframe hparity
    (by omega) hdecode
  have hmarked : (p.marked (wrongSymbols (p.frame rs) got)).payload.length = payloadLen := by
    have h := p.marked_length hlong (wrongSymbols (p.frame rs) got)
    rw [VlcPacket.bytes_length, VlcPacket.bytes_length, hlen] at h
    omega
  rw [receiveFrame, hpass]
  exact receiveVlc_eq receiver (by rw [hmarked]; decide) (by rw [hmarked]; decide)

theorem transparent_ok_iff (pushed : Option NodePacket) (receiver : VlcReceiver) :
    Transparent p (.ok (pushed, receiver)) ↔
      (pushed.isSome ↔ p.nodeId = selfId) ∧ ∀ q, pushed = some q → q = p.received := by
  constructor
  · rintro ⟨pushed', receiver', heq, h⟩
    cases heq
    exact h
  · intro h
    exact ⟨pushed, receiver, rfl, h⟩

theorem transparent_clean_iff (receiver : VlcReceiver) :
    Transparent p (.ok (p.pushed, receiver)) ↔ p.nodeId ≠ rsErrorId := by
  rw [transparent_ok_iff, VlcPacket.pushed]
  by_cases herror : p.nodeId = rsErrorId
  · have hself : p.nodeId ≠ selfId := by rw [herror]; decide
    simp [herror, show rsErrorId ≠ selfId by decide]
  · by_cases hself : p.nodeId = selfId
    · simp [hself, VlcPacket.received, show selfId ≠ rsErrorId by decide]
    · simp [hself, herror]

/-- The first four bytes of a payload are overwritten unnoticed only if they were what is written. -/
theorem overwrite_eq_iff {payload bs : List UInt8} (hbs : bs.length = 4) :
    bs ++ payload.drop 4 = payload ↔ payload.take 4 = bs := by
  constructor
  · intro h
    rw [← h, List.take_left' hbs]
  · intro h
    rw [← h, List.take_append_drop]

theorem transparent_touched_iff (hlong : 4 ≤ p.payload.length) {wrong : ℕ} (hwrong : wrong > 0)
    (receiver : VlcReceiver) : Transparent p (.ok ((p.marked wrong).pushed, receiver)) ↔
      p.nodeId = Node.dummyPacketNodeId ∨ p.nodeId = selfId ∧ p.payload.take 4 = littleEndian 4 wrong := by
  have hdummy : p.nodeId.toNat = dummyPacketNodeId ↔ p.nodeId = Node.dummyPacketNodeId := by
    rw [← UInt16.toNat_inj]
    rfl
  rw [transparent_ok_iff]
  by_cases hid : p.nodeId = Node.dummyPacketNodeId
  · have hnone : (p.marked wrong).pushed = none := by
      rw [VlcPacket.marked, if_pos hwrong, VlcPacket.pushed, if_neg]
      rw [if_pos (hdummy.mpr hid), hid]
      decide
    rw [hnone]
    simp [hid, show Node.dummyPacketNodeId ≠ selfId by decide]
  · have hsome : (p.marked wrong).pushed = some { p.received with
        nodeId := selfId, data := littleEndian 4 wrong ++ p.payload.drop 4 } := by
      have hsize : (littleEndian 4 wrong ++ p.payload.drop 4).length = p.payload.length := by
        rw [List.length_append, List.length_drop, littleEndian_length]
        omega
      rw [VlcPacket.marked, if_pos hwrong, VlcPacket.pushed, if_pos]
      · simp only [VlcPacket.received, hsize]
      · rw [if_neg (fun h => hid (hdummy.mp h))]
        exact Or.inr rfl
    rw [hsome]
    have hdata := @overwrite_eq_iff p.payload _ (littleEndian_length 4 wrong)
    by_cases hself : p.nodeId = selfId
    · simp [hself, VlcPacket.received, hdata, show selfId ≠ Node.dummyPacketNodeId by decide]
    · simp [hself, hid]

end

/-! ## One packet -/

/-- A codec that knows one packet and its parity. -/
def oneWordCodec (bytes parity : List UInt8) : ReedSolomon where
  encodeRs8 := fun _ _ => parity.map UInt8.toUInt16
  decodeRs8 := fun _ block par => repairTo bytes parity 8 (-74) block (par.map UInt16.toUInt8)

theorem oneWordCodec_decoder (bytes parity : List UInt8) :
    (oneWordCodec bytes parity).decoder = repairTo bytes parity 8 (-74) := by
  have hbyte : UInt16.toUInt8 ∘ UInt8.toUInt16 = id := by
    funext b
    exact UInt8.toUInt8_toUInt16 b
  funext block par
  change repairTo bytes parity 8 (-74) block ((par.map UInt8.toUInt16).map UInt16.toUInt8) = _
  rw [List.map_map, hbyte, List.map_id]

/-- A packet for node 1 whose payload starts with this byte. -/
def onePacket (first : UInt8) : VlcPacket := ⟨1, 1, 7, first :: List.replicate 73 0⟩

/-- The parity of `onePacket 0`, for the polynomial `0x11d` with 16 roots. -/
def zeroParity : List UInt8 := [217, 238, 10, 37, 215, 131, 21, 76, 32, 81, 209, 186, 7, 208, 72, 221]

/-- The parity of `onePacket 1`. -/
def oneParity : List UInt8 := [4, 3, 157, 113, 121, 85, 119, 235, 242, 143, 193, 157, 63, 103, 161, 207]

/-- A ring with one frame, at its start. -/
def oneFrame (frame : List UInt8) : Memory :=
  store (store (store (fun _ => 0) 0 (littleEndian 2 104)) 2 (littleEndian 2 4)) 4 frame

def idleReceiver : VlcReceiver := ⟨[], fun _ => 0, [], 0, 0, 0⟩

/-- One wrong parity byte, and the packet arrives with another payload. -/
theorem corrected_packet_altered :
    let rs := oneWordCodec (onePacket 0).bytes zeroParity
    let got := (onePacket 0).bytes ++ zeroParity.set 15 0
    Repairs rs.decoder (onePacket 0).bytes (rs.parity (onePacket 0).bytes) 8 ∧
      wrongSymbols ((onePacket 0).frame rs) got = 1 ∧
      load (oneFrame got) (load (oneFrame got) readIdxOffset 2) 2 = payloadLen ∧
      ¬ Transparent (onePacket 0) (receiveFrame rs (oneFrame got) idleReceiver) := by
  intro rs got
  have hparity : rs.parity (onePacket 0).bytes = zeroParity := by decide +kernel
  have hrepairs : Repairs rs.decoder (onePacket 0).bytes (rs.parity (onePacket 0).bytes) 8 := by
    rw [hparity, oneWordCodec_decoder]
    exact repairTo_repairs _ _ _ _
  have hwrong : wrongSymbols ((onePacket 0).frame rs) got = 1 := by decide +kernel
  have hgot : image (oneFrame got) (load (oneFrame got) readIdxOffset 2) (payloadLen + 26) = got := by
    decide +kernel
  have hlength : load (oneFrame got) (load (oneFrame got) readIdxOffset 2) 2 = payloadLen := by decide +kernel
  obtain ⟨receiver, hresult⟩ := receiveFrame_eq (by decide) hrepairs
    (by decide +kernel) hlength hgot (by rw [hwrong]; decide) idleReceiver
  refine ⟨hrepairs, hwrong, hlength, ?_⟩
  rw [hresult, hwrong, transparent_touched_iff (by decide) (by decide)]
  decide

/-- **Error correction is not transparent.** With at most eight wrong bytes and an intact length, exactly the
packets that survive the marking reach the process queue as they were sent. -/
theorem transparent_iff (rs : ReedSolomon) (p : VlcPacket) (hlen : p.payload.length = payloadLen)
    (data : PacketData) (hdata : Holds data p.bytes) (txPru : Memory) (writeIdx : ℕ)
    (hrepairs : Repairs rs.decoder p.bytes (rs.parity p.bytes) 8)
    (pru : Memory) (receiver : VlcReceiver) (hready : load pru readIdxOffset 2 ≠ load pru writeIdxOffset 2)
    (hlength : load pru (load pru readIdxOffset 2) 2 = payloadLen)
    (hwrong : wrongSymbols (sentFrame rs data txPru writeIdx)
      (image pru (load pru readIdxOffset 2) (payloadLen + 26)) ≤ 8) :
    Transparent p (receiveFrame rs pru receiver) ↔
      Survives p (wrongSymbols (sentFrame rs data txPru writeIdx)
        (image pru (load pru readIdxOffset 2) (payloadLen + 26))) := by
  rw [sentFrame_eq hdata hlen] at hwrong ⊢
  obtain ⟨receiver', hresult⟩ := receiveFrame_eq hlen hrepairs hready hlength rfl hwrong receiver
  have hlong : 4 ≤ p.payload.length := by rw [hlen]; decide
  rw [hresult, Survives]
  split
  · next hzero =>
    rw [hzero, VlcPacket.marked_zero]
    exact transparent_clean_iff receiver'
  · next hpos => exact transparent_touched_iff hlong (by omega) receiver'

/-- A packet that starts with the count of its one wrong byte. -/
theorem transparent_iff_one_byte :
    let rs := oneWordCodec (onePacket 1).bytes oneParity
    let got := (onePacket 1).bytes ++ oneParity.set 15 0
    Transparent (onePacket 1) (receiveFrame rs (oneFrame got) idleReceiver) := by
  intro rs got
  have hparity : rs.parity (onePacket 1).bytes = oneParity := by decide +kernel
  have hrepairs : Repairs rs.decoder (onePacket 1).bytes (rs.parity (onePacket 1).bytes) 8 := by
    rw [hparity, oneWordCodec_decoder]
    exact repairTo_repairs _ _ _ _
  exact (transparent_iff rs (onePacket 1) (by decide) (store (fun _ => 0) 0 (onePacket 1).bytes)
    (image_store _ _ _) (fun _ => 0) 4 hrepairs
    (oneFrame got) idleReceiver (by decide +kernel) (by decide +kernel) (by decide +kernel)).mpr (by decide +kernel)

end CiotVlc.Kernel
