import CiotVlc.Kernel.Transparency
import CiotVlc.Node.Status

/-! # What becomes of an uncorrectable frame

`decode_rs8` reports an uncorrectable block by a negative code. The driver stores the code in an unsigned
variable, so its error branch is dead: the code counts as a number of corrected errors, the packet is
marked like a corrected one, and the node's program queues it as its own. `Dropped` says which of these
frames the node's window nevertheless does not notice.
-/
namespace CiotVlc.Kernel
open Foundations.Bytes Foundations.BlockCode Foundations.Checked Foundations.LinkedQueue CiotVlc.Node
set_option autoImplicit false

/-! ## The code on its way -/

/-- A negative code, stored in the unsigned variable, is a positive count. -/
theorem ofInt32_pos_of_neg {e : ℤ} (hneg : e < 0) (hfits : FitsInt32 e) : 0 < ofInt32 e := by
  unfold FitsInt32 at hfits
  unfold ofInt32
  norm_num at hfits ⊢
  omega

/-- The data bytes of the frame at the read index, and the parity behind them. -/
def frameData (pru : Memory) : List UInt8 :=
  let readIdx := load pru readIdxOffset 2
  image pru readIdx (packetLength (load pru readIdx 2))

def frameParity (pru : Memory) : List UInt8 :=
  let readIdx := load pru readIdxOffset 2
  image pru (readIdx + packetLength (load pru readIdx 2)) eccLen

/-- What `decode_rs8` leaves in `rx_data` for the frame at the read index. -/
def decodedBuffer (rs : ReedSolomon) (pru : Memory) : Memory :=
  store (rxBuffer (frameData pru ++ frameParity pru)) 0 (rs.decoder (frameData pru) (frameParity pru)).1

/-- The ring has a frame at the read index, of a length that the driver accepts. -/
structure FrameReady (pru : Memory) : Prop where
  ready : load pru readIdxOffset 2 ≠ load pru writeIdxOffset 2
  accepted : acceptLength (load pru (load pru readIdxOffset 2) 2) = true

/-- `decode_rs8` answers with a negative `int`. -/
structure Uncorrectable (rs : ReedSolomon) (pru : Memory) : Prop where
  negative : (rs.decoder (frameData pru) (frameParity pru)).2 < 0
  fits : FitsInt32 (rs.decoder (frameData pru) (frameParity pru)).2

theorem FrameReady.length {pru : Memory} (h : FrameReady pru) :
    11 ≤ (frameData pru).length ∧ (frameData pru).length < blockSize := by
  have hacc := h.accepted
  rw [acceptLength, decide_eq_true_iff] at hacc
  obtain ⟨hpos, hle⟩ := hacc
  have hother : otherPacketContentByte + 2 = 10 := rfl
  simp only [mtuValue] at hle
  rw [frameData, image_length, packetLength, hother, Nat.mod_eq_of_lt (by omega), blockSize]
  omega

theorem pruPhyDecoding_marks {rs : ReedSolomon} {pru : Memory} (hframe : FrameReady pru) :
    pruPhyDecoding rs pru =
      (some (image (markErrors (decodedBuffer rs pru)
          (ofInt32 (rs.decoder (frameData pru) (frameParity pru)).2)) 0 (frameData pru).length),
        store pru readIdxOffset
          (littleEndian 2 (nextReadIdx (load pru readIdxOffset 2) (frameData pru).length))) := by
  obtain ⟨hge, hlt⟩ := hframe.length
  have hlength : (frameData pru).length = packetLength (load pru (load pru readIdxOffset 2) 2) :=
    image_length _ _ _
  have hsplit : image pru (load pru readIdxOffset 2) ((frameData pru).length + eccLen) =
      frameData pru ++ frameParity pru := by
    rw [image_add, hlength]
    rfl
  have hblocks := @decodeBlocks_eq rs (frameData pru) (frameParity pru) ⟨by omega, hlt⟩ (image_length _ _ _)
  unfold pruPhyDecoding
  rw [if_neg hframe.ready, if_pos hframe.accepted]
  dsimp only
  rw [← hlength, hsplit, decodeFrame, hblocks]
  rfl

/-! ## The fields of a marked buffer -/

section
variable {m : Memory} {total : ℕ}

theorem load_markErrors_length (m : Memory) (total : ℕ) : load (markErrors m total) 0 2 = load m 0 2 := by
  unfold markErrors
  split
  · rw [load_store_disjoint _ _ _ _ _ (Or.inl (by omega))]
    split
    · exact load_store_disjoint _ _ _ _ _ (Or.inl (by omega))
    · rfl
  · rfl

theorem load_markErrors_seqNumber (m : Memory) (total : ℕ) : load (markErrors m total) 6 4 = load m 6 4 := by
  unfold markErrors
  split
  · rw [load_store_disjoint _ _ _ _ _ (Or.inl (by omega))]
    split
    · exact load_store_disjoint _ _ _ _ _ (Or.inr (by rw [littleEndian_length]; omega))
    · rfl
  · rfl

theorem load_markErrors_nodeId (m : Memory) (hpos : 0 < total) : load (markErrors m total) 2 2 =
    if load m 2 2 = dummyPacketNodeId then dummyPacketNodeId else errorNodeId := by
  rw [markErrors, if_pos hpos, load_store_disjoint _ _ _ _ _ (Or.inl (by omega))]
  by_cases hid : load m 2 2 = dummyPacketNodeId
  · rw [if_neg (not_not.mpr hid), if_pos hid, hid]
  · rw [if_pos hid, if_neg hid, load_store]
    rfl

end

/-! ## Reading a delivered buffer -/

section
variable {m : Memory} {n : ℕ} {rest : List UInt8}

theorem image_split {k w : ℕ} (h : k + w ≤ n) :
    image m 0 n = image m 0 k ++ (image m k w ++ image m (k + w) (n - (k + w))) := by
  have hn : n = k + (w + (n - (k + w))) := by omega
  conv_lhs => rw [hn, image_add, image_add, Nat.zero_add]

theorem readBytes_image (rest : List UInt8) {k w : ℕ} (h : k + w ≤ n) :
    readBytes (image m 0 n ++ rest) k w = .ok (image m k w) := by
  have hread := readBytes_append (image m 0 k) (image m k w) (image m (k + w) (n - (k + w)) ++ rest)
  rw [image_length, image_length] at hread
  rw [image_split h, List.append_assoc, List.append_assoc]
  exact hread

theorem readUInt16_image (rest : List UInt8) {k : ℕ} (h : k + 2 ≤ n) :
    readUInt16 (image m 0 n ++ rest) k = .ok (UInt16.ofNat (load m k 2)) := by
  have hword : image m k 2 = littleEndian 2 (load m k 2) := by
    have h := littleEndian_ofLittleEndian (image m k 2)
    rw [image_length] at h
    exact h.symm
  have hread := readUInt16_append (image m 0 k) (image m (k + 2) (n - (k + 2)) ++ rest) (load m k 2)
  rw [image_length] at hread
  rw [image_split h, List.append_assoc, List.append_assoc, hword]
  exact hread

/-- A received packet that starts with these header fields. -/
structure Reads (m : Memory) (p : NodePacket) : Prop where
  nodeId : p.nodeId = UInt16.ofNat (load m 2 2)
  seqNumber : p.seqNumber.toNat = load m 6 4
  data : p.data.length = load m 0 2

theorem generateFromBytes_image (hn : 11 ≤ n) (hroom : load m 0 2 + 10 ≤ n + rest.length) :
    ∃ p, generateFromBytes (image m 0 n ++ rest) = .ok p ∧ Reads m p := by
  have hlen : (UInt16.ofNat (load m 0 2)).toNat = load m 0 2 := by
    rw [UInt16.toNat_ofNat']
    exact Nat.mod_eq_of_lt (load_lt m 0 2)
  have hseq : (UInt32.ofNat (load m 6 4)).toNat = load m 6 4 := by
    rw [UInt32.toNat_ofNat']
    exact Nat.mod_eq_of_lt (load_lt m 6 4)
  have hdata : readBytes (image m 0 n ++ rest) 10 (UInt16.ofNat (load m 0 2)).toNat =
      .ok (((image m 0 n ++ rest).drop 10).take (load m 0 2)) := by
    rw [hlen]
    exact if_pos (by rw [List.length_append, image_length]; omega)
  rw [generateFromBytes, readUInt16_image rest (by omega), ok_bind, readUInt16_image rest (by omega), ok_bind,
    readUInt16_image rest (by omega), ok_bind, readBytes_image rest (by omega), ok_bind, hdata, ok_bind]
  refine ⟨_, rfl, rfl, hseq, ?_⟩
  rw [List.length_take, List.length_drop, List.length_append, image_length]
  omega

end

/-! ## The node's receiver -/

section
variable {m : Memory} {n : ℕ} {receiver : VlcReceiver}

theorem receiveVlc_image (hbuff : receiver.buff.length = bufSize) (hn : 11 ≤ n) (hle : n ≤ bufSize) :
    (¬ (0 < load m 0 2 ∧ load m 0 2 ≤ Node.mtuValue.toNat) →
      ∃ receiver', receiveVlc receiver (image m 0 n) = .ok (none, receiver')) ∧
    (0 < load m 0 2 ∧ load m 0 2 ≤ Node.mtuValue.toNat → ∃ p receiver', Reads m p ∧
      receiveVlc receiver (image m 0 n) = acceptPacket receiver' p) := by
  have hrecv : recvFrom receiver.buff (image m 0 n) = image m 0 n ++ receiver.buff.drop n := by
    rw [recvFrom, List.take_of_length_le (by rw [image_length]; exact hle), image_length]
  have hlen : (UInt16.ofNat (load m 0 2)).toNat = load m 0 2 := by
    rw [UInt16.toNat_ofNat']
    exact Nat.mod_eq_of_lt (load_lt m 0 2)
  have htest : (0 < UInt16.ofNat (load m 0 2) ∧ UInt16.ofNat (load m 0 2) ≤ Node.mtuValue) ↔
      (0 < load m 0 2 ∧ load m 0 2 ≤ Node.mtuValue.toNat) := by
    rw [UInt16.lt_iff_toNat_lt, UInt16.le_iff_toNat_le, hlen]
    rfl
  rw [receiveVlc, if_pos (by rw [image_length]; omega)]
  simp only [hrecv]
  rw [readUInt16_image _ (by omega), ok_bind]
  constructor
  · intro hbad
    rw [if_neg (fun h => hbad (htest.mp h))]
    exact ⟨_, rfl⟩
  · intro hgood
    have hmtu : load m 0 2 ≤ 100 := hgood.2
    obtain ⟨p, hp, hreads⟩ := @generateFromBytes_image m n (receiver.buff.drop n) hn (by
      rw [List.length_drop, hbuff]
      simp only [bufSize] at hle ⊢
      omega)
    refine ⟨p, { receiver with buff := image m 0 n ++ receiver.buff.drop n }, hreads, ?_⟩
    rw [if_pos (htest.mpr hgood), hp, ok_bind]

theorem acceptPacket_dummy {p : NodePacket} (hid : p.nodeId = Node.dummyPacketNodeId) :
    ∃ receiver', acceptPacket receiver p = .ok (none, receiver') := by
  obtain ⟨frameRx, hframe⟩ := markFrame_ok receiver.frameRx p.vlcId
  rw [acceptPacket, if_pos (Or.inr (Or.inl hid)), hframe, ok_bind, hid, if_neg (by decide)]
  exact ⟨_, rfl⟩

/-- A packet under the error id is queued, when the count it should start with can be read. -/
theorem acceptPacket_error {p : NodePacket} (hid : p.nodeId = rsErrorId) :
    (p.data.length < 4 → ∃ e, acceptPacket receiver p = .error e) ∧
    (4 ≤ p.data.length → ∃ receiver', acceptPacket receiver p =
      .ok (some { p with nodeId := selfId }, receiver')) := by
  obtain ⟨frameRx, hframe⟩ := markFrame_ok receiver.frameRx p.vlcId
  rw [acceptPacket, if_pos (Or.inr (Or.inr hid)), hframe, ok_bind, if_pos (Or.inr hid), countErrors, if_pos hid]
  constructor
  · intro hshort
    have hread : readBytes p.data 0 4 = .error (.outOfBounds (0 + 4 - 1)) := if_neg (by omega)
    rw [hread]
    exact ⟨_, rfl⟩
  · intro hlong
    have hread : readBytes p.data 0 4 = .ok ((p.data.drop 0).take 4) := if_pos (by omega)
    rw [hread]
    exact ⟨_, rfl⟩

end

/-! ## From the ring to the window -/

/-- One pass of the driver, one of the node's receiver, and `process_data` for the packet that was pushed, if
there was room for it. -/
def handleFrame (rs : ReedSolomon) (pru : Memory) (receiver : VlcReceiver) (status : NodeStatus) :
    Except Fault (NodeStatus × Memory) :=
  match pruPhyDecoding rs pru with
  | (none, pru) => .ok (status, pru)
  | (some bytes, pru) => do
    let (packet, _) ← receiveVlc receiver bytes
    match packet with
    | none => return (status, pru)
    | some packet =>
      if receiver.processQueue.length < maxProcessQueue then do
        let status ← processData status packet
        return (status, pru)
      else return (status, pru)

/-- The frame leaves the window as it was, and the driver's loop is at the next one. -/
def Unnoticed (rs : ReedSolomon) (pru : Memory) (receiver : VlcReceiver) (status : NodeStatus) : Prop :=
  ∃ status' pru', handleFrame rs pru receiver status = .ok (status', pru') ∧ SameWindow status status' ∧
    load pru' readIdxOffset 2 = nextReadIdx (load pru readIdxOffset 2) (frameData pru).length

/-- The uncorrectable frames that the node drops or does not need: of a length the node rejects, a dummy
packet, or one for a full queue or with a number that the window has. -/
def Dropped (m : Memory) (receiver : VlcReceiver) (status : NodeStatus) : Prop :=
  ¬ (0 < load m 0 2 ∧ load m 0 2 ≤ Node.mtuValue.toNat) ∨ load m 2 2 = dummyPacketNodeId ∨
    4 ≤ load m 0 2 ∧
      (maxProcessQueue ≤ receiver.processQueue.length ∨ AlreadyCounted status (int32 (load m 6 4)))

theorem SameWindow.refl (status : NodeStatus) : SameWindow status status := ⟨rfl, rfl, rfl⟩

section
variable {rs : ReedSolomon} {pru : Memory} {receiver : VlcReceiver} {status : NodeStatus}

theorem load_nextReadIdx (pru : Memory) (readIdx datalen : ℕ) :
    load (store pru readIdxOffset (littleEndian 2 (nextReadIdx readIdx datalen))) readIdxOffset 2 =
      nextReadIdx readIdx datalen := by
  rw [load_store]
  refine Nat.mod_eq_of_lt ?_
  unfold nextReadIdx
  by_cases hend : (readIdx + (datalen + eccLen)) % 2 ^ 16 ≥ bufferLimit
  · rw [if_pos hend]
    decide
  · rw [if_neg hend]
    norm_num
    omega

/-- The receiver returns, and every packet it pushes has `P`. -/
def Delivers (P : NodePacket → Prop) (result : Except Fault (Option NodePacket × VlcReceiver)) : Prop :=
  ∃ packet receiver', result = .ok (packet, receiver') ∧ ∀ p, packet = some p → P p

theorem delivers_none {P : NodePacket → Prop} (receiver' : VlcReceiver) : Delivers P (.ok (none, receiver')) :=
  ⟨none, receiver', rfl, fun _ h => by cases h⟩

theorem delivers_some {P : NodePacket → Prop} {p : NodePacket} {receiver' : VlcReceiver} :
    Delivers P (.ok (some p, receiver')) ↔ P p := by
  constructor
  · rintro ⟨packet, r, heq, h⟩
    cases heq
    exact h p rfl
  · exact fun h => ⟨some p, receiver', rfl, fun q hq => by cases hq; exact h⟩

theorem not_delivers_error {P : NodePacket → Prop} (e : Fault) : ¬ Delivers P (.error e) := by
  rintro ⟨_, _, heq, -⟩
  cases heq

theorem unnoticed_iff_received {bytes : List UInt8}
    (hpass : pruPhyDecoding rs pru = (some bytes, store pru readIdxOffset
      (littleEndian 2 (nextReadIdx (load pru readIdxOffset 2) (frameData pru).length)))) :
    Unnoticed rs pru receiver status ↔ Delivers (fun p => maxProcessQueue ≤ receiver.processQueue.length ∨
      AlreadyCounted status (int32 p.seqNumber.toNat)) (receiveVlc receiver bytes) := by
  have hnext := load_nextReadIdx pru (load pru readIdxOffset 2) (frameData pru).length
  unfold Unnoticed handleFrame
  rw [hpass]
  simp only
  cases hrecv : receiveVlc receiver bytes with
  | error e =>
    refine iff_of_false ?_ (not_delivers_error e)
    rintro ⟨_, _, hrun, -⟩
    cases hrun
  | ok result =>
    obtain ⟨packet, receiver'⟩ := result
    cases packet with
    | none => exact iff_of_true ⟨status, _, rfl, SameWindow.refl status, hnext⟩ (delivers_none receiver')
    | some p =>
      rw [delivers_some, ok_bind]
      simp only
      by_cases hroom : receiver.processQueue.length < maxProcessQueue
      · rw [if_pos hroom, or_iff_right (by omega), ← processData_same_iff]
        constructor
        · rintro ⟨status', pru', hrun, hsame, -⟩
          obtain ⟨st, hst, hrun⟩ := bind_eq_ok.mp hrun
          cases hrun
          exact ⟨status', hst, hsame⟩
        · rintro ⟨status', hrun, hsame⟩
          exact ⟨status', _, by rw [hrun]; rfl, hsame, hnext⟩
      · rw [if_neg hroom]
        exact iff_of_true ⟨status, _, rfl, SameWindow.refl status, hnext⟩ (Or.inl (by omega))

end

/-- **When an uncorrectable frame goes unnoticed.** For every content of the ring: exactly when the node drops
the packet for another reason, or has counted its number before. -/
theorem unnoticed_iff (rs : ReedSolomon) (pru : Memory) (receiver : VlcReceiver) (status : NodeStatus)
    (hbuff : receiver.buff.length = bufSize) (hframe : FrameReady pru) (hbad : Uncorrectable rs pru) :
    Unnoticed rs pru receiver status ↔ Dropped (decodedBuffer rs pru) receiver status := by
  set m := decodedBuffer rs pru with hm
  set total := ofInt32 (rs.decoder (frameData pru) (frameParity pru)).2 with htotal
  have hpos : 0 < total := ofInt32_pos_of_neg hbad.negative hbad.fits
  obtain ⟨hge, hlt⟩ := hframe.length
  have hlen := load_markErrors_length m total
  have hseq := load_markErrors_seqNumber m total
  have hid := load_markErrors_nodeId m hpos
  obtain ⟨hreject, haccept⟩ := @receiveVlc_image (markErrors m total) (frameData pru).length receiver hbuff hge
    (by simp only [blockSize] at hlt; simp only [bufSize]; omega)
  rw [hlen] at hreject haccept
  rw [unnoticed_iff_received (pruPhyDecoding_marks hframe), Dropped]
  by_cases hmtu : 0 < load m 0 2 ∧ load m 0 2 ≤ Node.mtuValue.toNat
  · obtain ⟨p, receiver', hreads, hrun⟩ := haccept hmtu
    rw [or_iff_right (not_not.mpr hmtu), hrun]
    by_cases hdummy : load m 2 2 = dummyPacketNodeId
    · rw [if_pos hdummy] at hid
      have hp : p.nodeId = Node.dummyPacketNodeId := by
        rw [hreads.nodeId, hid]
        rfl
      obtain ⟨receiver'', hnone⟩ := @acceptPacket_dummy receiver' p hp
      rw [hnone]
      exact iff_of_true (delivers_none receiver'') (Or.inl hdummy)
    · rw [if_neg hdummy] at hid
      have hp : p.nodeId = rsErrorId := by
        rw [hreads.nodeId, hid]
        rfl
      have hdata : p.data.length = load m 0 2 := by rw [hreads.data, hlen]
      have hnum : p.seqNumber.toNat = load m 6 4 := by rw [hreads.seqNumber, hseq]
      obtain ⟨hshort, hlong⟩ := @acceptPacket_error receiver' p hp
      rw [or_iff_right hdummy]
      by_cases hfour : 4 ≤ load m 0 2
      · obtain ⟨receiver'', hsome⟩ := hlong (by omega)
        rw [hsome, delivers_some, and_iff_right hfour, ← hnum]
      · obtain ⟨e, he⟩ := hshort (by omega)
        rw [he]
        exact iff_of_false (not_delivers_error e) fun h => hfour h.1
  · obtain ⟨receiver', hnone⟩ := hreject hmtu
    rw [hnone]
    exact iff_of_true (delivers_none receiver') (Or.inl hmtu)

/-- The codec of one packet, on a frame that differs from it in every payload byte. -/
def garbledFrame (nodeId : UInt16) : Memory :=
  oneFrame ((VlcPacket.mk nodeId 1 7 (List.replicate 74 5)).bytes ++ zeroParity)

def freshReceiver : VlcReceiver := ⟨List.replicate bufSize 0, fun _ => 0, [], 0, 0, 0⟩

/-- A dummy packet beyond repair. -/
theorem unnoticed_iff_dummy :
    Unnoticed (oneWordCodec (onePacket 0).bytes zeroParity) (garbledFrame 99) freshReceiver
      (initializeNodeStatus Node.maxSeqNumber) := by
  refine (unnoticed_iff _ _ freshReceiver _ ?_ ⟨?_, ?_⟩ ⟨?_, ?_, ?_⟩).mpr (Or.inr (Or.inl ?_))
  · exact List.length_replicate
  all_goals decide +kernel

/-- A packet beyond repair, for number 7: the window takes it. -/
theorem uncorrectable_acknowledged :
    FrameReady (garbledFrame 1) ∧ Uncorrectable (oneWordCodec (onePacket 0).bytes zeroParity) (garbledFrame 1) ∧
      ¬ Unnoticed (oneWordCodec (onePacket 0).bytes zeroParity) (garbledFrame 1) freshReceiver
        (initializeNodeStatus Node.maxSeqNumber) := by
  have hframe : FrameReady (garbledFrame 1) := ⟨by decide +kernel, by decide +kernel⟩
  have hbad : Uncorrectable (oneWordCodec (onePacket 0).bytes zeroParity) (garbledFrame 1) :=
    ⟨by decide +kernel, by decide +kernel, by decide +kernel⟩
  refine ⟨hframe, hbad, fun h => ?_⟩
  rcases (unnoticed_iff _ _ freshReceiver _ List.length_replicate hframe hbad).mp h with
    hlen | hdummy | ⟨-, hfull | hcounted⟩
  · exact hlen (by decide +kernel)
  · revert hdummy
    decide +kernel
  · revert hfull
    decide +kernel
  · have hseen := hcounted.seen
    revert hseen
    decide +kernel

end CiotVlc.Kernel
