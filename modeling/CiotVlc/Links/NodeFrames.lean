import CiotVlc.Links.SameContent
import CiotVlc.Node.ReceiveVlc
import CiotVlc.Node.Status

/-! # The frames that a node receives

The two receivers of the node program and `process_data`, over any frames that the two sockets deliver. A
receive buffer keeps what it held behind a short frame; neither receiver looks at the number of bytes
that came.
-/
namespace CiotVlc.Links
open Foundations.Bytes Foundations.Checked Foundations.LinkedQueue CiotVlc.Node
set_option autoImplicit false

/-- A receive buffer of `BUF_SIZ` bytes. -/
abbrev Buffer := { bytes : List UInt8 // bytes.length = bufSize }

theorem recvFrom_length {buff : List UInt8} (h : buff.length = bufSize) (frame : List UInt8) :
    (recvFrom buff frame).length = bufSize := by
  rw [recvFrom, List.length_append, List.length_take, List.length_drop, h]
  omega

def Buffer.recvFrom (buff : Buffer) (frame : List UInt8) : Buffer :=
  ⟨Node.recvFrom buff.val frame, recvFrom_length buff.property frame⟩

/-! ## What the receivers queue -/

/-- What `receive_vlc` reads from its buffer: a packet of an accepted length. -/
def readVlcFrame (buff : List UInt8) : Except Fault (Option NodePacket) := do
  let packetLength ← readUInt16 buff 0
  if 0 < packetLength ∧ packetLength ≤ mtuValue then
    let arrived ← generateFromBytes buff
    return some arrived
  else return none

/-- What `receive_vlc` queues of a packet. -/
def queuedVlc (arrived : NodePacket) : Option NodePacket :=
  if arrived.nodeId = selfId ∨ arrived.nodeId = rsErrorId then some { arrived with nodeId := selfId } else none

def enqueue (processQueue : List NodePacket) (packet : Option NodePacket) : List NodePacket :=
  match packet with
  | some packet => Fifo.push maxProcessQueue processQueue packet
  | none => processQueue

/-- Whatever the counters of an error frame are, the whole receiver queues this. -/
theorem receiveVlc_queues {receiver receiver' : VlcReceiver} {frame : List UInt8} {packet : Option NodePacket}
    (hlen : frame.length > 0) (h : receiveVlc receiver frame = .ok (packet, receiver')) :
    ∃ arrived, readVlcFrame (recvFrom receiver.buff frame) = .ok arrived ∧ packet = arrived.bind queuedVlc ∧
      receiver'.buff = recvFrom receiver.buff frame ∧
      receiver'.processQueue = enqueue receiver.processQueue packet := by
  rw [receiveVlc, if_pos hlen] at h
  obtain ⟨packetLength, hread, h⟩ := bind_eq_ok.mp h
  rw [readVlcFrame, hread, ok_bind]
  split at h
  case isFalse hno =>
    cases h
    rw [if_neg hno]
    exact ⟨none, rfl, rfl, rfl, rfl⟩
  case isTrue hyes =>
    obtain ⟨arrived, hgen, h⟩ := bind_eq_ok.mp h
    rw [if_pos hyes, hgen]
    refine ⟨some arrived, rfl, ?_⟩
    unfold acceptPacket at h
    split at h
    case isFalse hid =>
      cases h
      have hnone : queuedVlc arrived = none := if_neg fun hself => hid (hself.imp_right Or.inr)
      exact ⟨hnone.symm, rfl, rfl⟩
    case isTrue =>
      obtain ⟨frameRx, -, h⟩ := bind_eq_ok.mp h
      split at h
      case isFalse hself =>
        cases h
        exact ⟨(if_neg hself).symm, rfl, rfl⟩
      case isTrue hself =>
        obtain ⟨⟨queued, counted⟩, hcount, h⟩ := bind_eq_ok.mp h
        cases h
        have hqueued : queued = { arrived with nodeId := selfId } ∧ counted.buff = recvFrom receiver.buff frame ∧
            counted.processQueue = receiver.processQueue := by
          unfold countErrors at hcount
          split at hcount
          case isTrue =>
            obtain ⟨bytes, -, hcount⟩ := bind_eq_ok.mp hcount
            cases hcount
            refine ⟨rfl, ?_, ?_⟩ <;> simp only <;> split <;> rfl
          case isFalse herr =>
            cases hcount
            rw [← hself.resolve_right herr]
            exact ⟨rfl, rfl, rfl⟩
        obtain ⟨rfl, hbuff, hqueue⟩ := hqueued
        exact ⟨(if_pos hself).symm, hbuff, congrArg (fun q => Fifo.push maxProcessQueue q _) hqueue⟩

/-! ## The node -/

structure NodeSystem where
  buf : Buffer
  buff : Buffer
  processQueue : List NodePacket
  status : NodeStatus

/-- The buffers hold anything before the first frame. -/
def initialNode (buf buff : Buffer) : NodeSystem where
  buf
  buff
  processQueue := []
  status := initializeNodeStatus maxSeqNumber

/-- One pass of one of the three loops. -/
inductive NodeAction
  | receiveRf (frame : List UInt8)
  | receiveVlc (frame : List UInt8)
  | processData

def nodeStep (s : NodeSystem) : NodeAction → Except Fault NodeSystem
  | .receiveRf frame => do
    let buf := s.buf.recvFrom frame
    let packet ← receiveRf buf.val
    return { s with buf, processQueue := enqueue s.processQueue packet }
  | .receiveVlc frame =>
    if frame.length > 0 then do
      let buff := s.buff.recvFrom frame
      let arrived ← readVlcFrame buff.val
      return { s with buff, processQueue := enqueue s.processQueue (arrived.bind queuedVlc) }
    else .ok s
  | .processData =>
    match s.processQueue with
    | [] => .ok s
    | temp :: q => do
      let status ← processData s.status temp
      return { s with processQueue := q, status }

/-! ## When a pass stays in bounds -/

/-- The `payload_len` field of an RF frame. -/
def payloadLenField (buf : List UInt8) : ℕ := ofLittleEndian ((buf.drop 18).take 2)

/-- The number names an entry of the table or one below the window, and the table has another entry from
`rcv_seq` on that is not marked. -/
structure InTable (status : NodeStatus) (p : NodePacket) : Prop where
  index : int32 p.seqNumber.toNat < status.rcvSeq ∨ int32 p.seqNumber.toNat < maxSeqNumber
  gap : ∃ n : ℕ, status.rcvSeq ≤ n ∧ n < maxSeqNumber ∧ (n : ℤ) ≠ int32 p.seqNumber.toNat ∧
    status.rcvState n ≠ 1

/-- What a pass needs of the state and the frame. -/
def PassInBounds (s : NodeSystem) : NodeAction → Prop
  | .receiveRf frame =>
    isFromGateway (s.buf.recvFrom frame).val = true → 24 + payloadLenField (s.buf.recvFrom frame).val ≤ bufSize
  | .receiveVlc _ => True
  | .processData => ∀ temp q, s.processQueue = temp :: q → InTable s.status temp

theorem generateFromBytes_returns {buff : List UInt8} (h : buff.length = bufSize) {len : UInt16}
    (hlen : readUInt16 buff 0 = .ok len) (hmtu : len ≤ mtuValue) : ∃ p, generateFromBytes buff = .ok p := by
  have hbyte : ∀ i < bufSize, ∃ b, readByte buff i = .ok b := fun i hi => readByte_returns_iff.mpr (by omega)
  have huint : ∀ i, i + 1 < bufSize → ∃ x, readUInt16 buff i = .ok x := by
    intro i hi
    obtain ⟨high, hhigh⟩ := hbyte (i + 1) hi
    obtain ⟨low, hlow⟩ := hbyte i (by omega)
    exact ⟨_, by rw [readUInt16, hhigh, ok_bind, hlow, ok_bind]; rfl⟩
  have hbytes : ∀ i n, i + n ≤ bufSize → ∃ out, readBytes buff i n = .ok out :=
    fun i n hin => readBytes_returns_iff.mpr (by omega)
  have hpayload : len.toNat ≤ 100 := UInt16.le_iff_toNat_le.mp hmtu
  obtain ⟨nodeId, hnode⟩ := huint 2 (by decide)
  obtain ⟨vlcId, hvlc⟩ := huint 4 (by decide)
  obtain ⟨seq, hseq⟩ := hbytes 6 4 (by decide)
  obtain ⟨data, hdata⟩ := hbytes 10 len.toNat (by simp only [bufSize]; omega)
  rw [generateFromBytes, hlen, ok_bind, hnode, ok_bind, hvlc, ok_bind, hseq, ok_bind, hdata, ok_bind]
  exact ⟨_, rfl⟩

theorem readVlcFrame_returns {buff : List UInt8} (h : buff.length = bufSize) :
    ∃ arrived, readVlcFrame buff = .ok arrived := by
  obtain ⟨high, hhigh⟩ := readByte_returns_iff.mpr (show 0 + 1 < buff.length by rw [h]; decide)
  obtain ⟨low, hlow⟩ := readByte_returns_iff.mpr (show 0 < buff.length by rw [h]; decide)
  have hread : readUInt16 buff 0 = .ok (UInt16.ofNat (high.toNat * 256 + low.toNat)) := by
    rw [readUInt16, hhigh, ok_bind, hlow, ok_bind]
    rfl
  rw [readVlcFrame, hread, ok_bind]
  split
  · next hlen =>
    obtain ⟨p, hp⟩ := generateFromBytes_returns h hread hlen.2
    rw [hp]
    exact ⟨_, rfl⟩
  · exact ⟨_, rfl⟩

theorem receiveRf_returns_iff {buf : List UInt8} (h : buf.length = bufSize) :
    (∃ packet, receiveRf buf = .ok packet) ↔
      (isFromGateway buf = true → 24 + payloadLenField buf ≤ bufSize) := by
  unfold receiveRf
  split
  case isFalse hno => exact iff_of_true ⟨none, rfl⟩ fun hyes => absurd hyes hno
  case isTrue hyes =>
    have hcontent : (buf.drop 14).length = 1010 := by rw [List.length_drop, h]; rfl
    have hbytes : ∀ i n, i + n ≤ 1010 → ∃ out, readBytes (buf.drop 14) i n = .ok out :=
      fun i n hin => readBytes_returns_iff.mpr (by omega)
    obtain ⟨nodeId, hnode⟩ := hbytes 0 2 (by decide)
    obtain ⟨vlcId, hvlc⟩ := hbytes 2 2 (by decide)
    obtain ⟨len, hlen⟩ := hbytes 4 2 (by decide)
    obtain ⟨seq, hseq⟩ := hbytes 6 4 (by decide)
    have hfield : (UInt16.ofNat (ofLittleEndian len)).toNat = payloadLenField buf := by
      have hlt := ofLittleEndian_lt len
      have htwo : len.length ≤ 2 := by
        rw [readBytes_eq_ok hlen]
        exact List.length_take_le _ _
      have hpow : 256 ^ len.length ≤ 65536 := Nat.pow_le_pow_right (show 0 < 256 by decide) htwo
      rw [UInt16.toNat_ofNat', Nat.mod_eq_of_lt (by omega), payloadLenField, readBytes_eq_ok hlen, List.drop_drop]
    have hdata := @readBytes_returns_iff (buf.drop 14) 10 (UInt16.ofNat (ofLittleEndian len)).toNat
    rw [hfield, hcontent] at hdata
    simp only [hnode, hvlc, hlen, hseq, ok_bind, hfield]
    constructor
    · rintro ⟨packet, hrun⟩ -
      obtain ⟨data, hread, -⟩ := bind_eq_ok.mp hrun
      have := hdata.mp ⟨data, hread⟩
      simp only [bufSize]
      omega
    · intro hfit
      have hle := hfit hyes
      simp only [bufSize] at hle
      obtain ⟨data, hread⟩ := hdata.mpr (by omega)
      rw [hread]
      exact ⟨_, rfl⟩

/-! ## Runs -/

/-- What every run keeps. -/
structure StatusSound (status : NodeStatus) : Prop where
  rcvSeq : 0 ≤ status.rcvSeq
  size : status.size = maxSeqNumber

theorem StatusSound.step {s t : NodeSystem} {a : NodeAction} (h : StatusSound s.status)
    (hstep : nodeStep s a = .ok t) : StatusSound t.status := by
  cases a with
  | receiveRf frame =>
    obtain ⟨packet, -, hstep⟩ := bind_eq_ok.mp hstep
    cases hstep
    exact h
  | receiveVlc frame =>
    rw [nodeStep] at hstep
    split at hstep
    · obtain ⟨arrived, -, hstep⟩ := bind_eq_ok.mp hstep
      cases hstep
      exact h
    · cases hstep
      exact h
  | processData =>
    rw [nodeStep] at hstep
    split at hstep
    · cases hstep
      exact h
    · obtain ⟨status, hrun, hstep⟩ := bind_eq_ok.mp hstep
      cases hstep
      obtain ⟨hge, hsize⟩ := processData_rcvSeq_ge hrun
      exact ⟨h.rcvSeq.trans hge, hsize.trans h.size⟩

theorem nodeStep_returns_iff {s : NodeSystem} (h : StatusSound s.status) (a : NodeAction) :
    (∃ t, nodeStep s a = .ok t) ↔ PassInBounds s a := by
  cases a with
  | receiveRf frame =>
    rw [PassInBounds, ← receiveRf_returns_iff (s.buf.recvFrom frame).property]
    constructor
    · rintro ⟨t, hstep⟩
      obtain ⟨packet, hread, -⟩ := bind_eq_ok.mp hstep
      exact ⟨packet, hread⟩
    · rintro ⟨packet, hread⟩
      exact ⟨_, by rw [nodeStep, hread]; rfl⟩
  | receiveVlc frame =>
    refine iff_of_true ?_ trivial
    rw [nodeStep]
    split
    · obtain ⟨arrived, hread⟩ := readVlcFrame_returns (s.buff.recvFrom frame).property
      simp only [hread, ok_bind]
      exact ⟨_, rfl⟩
    · exact ⟨_, rfl⟩
  | processData =>
    rw [PassInBounds, nodeStep]
    split
    · next hq => exact iff_of_true ⟨_, rfl⟩ fun temp q hcons => by simp [hq] at hcons
    · next temp q hq =>
      have hiff := processData_returns_iff (p := temp) h.rcvSeq
      rw [h.size] at hiff
      constructor
      · rintro ⟨t, hstep⟩ temp' q' hcons
        obtain ⟨rfl, rfl⟩ := List.cons.inj (hq.symm.trans hcons)
        obtain ⟨status, hrun, -⟩ := bind_eq_ok.mp hstep
        obtain ⟨hindex, hgap⟩ := hiff.mp ⟨status, hrun⟩
        exact ⟨hindex, hgap⟩
      · intro hin
        obtain ⟨status, hrun⟩ := hiff.mpr ⟨(hin temp q hq).index, (hin temp q hq).gap⟩
        rw [hrun]
        exact ⟨_, rfl⟩

/-- **When the node stays in bounds.** Over any frames and any order of passes, no access leaves its buffer or
table exactly when every RF frame announces at most 1000 payload bytes and every packet taken off the
queue names an entry of the table that is not its last one still missing. -/
theorem node_in_bounds_iff (buf buff : Buffer) (actions : List NodeAction) :
    (∃ t, actions.foldlM nodeStep (initialNode buf buff) = .ok t) ↔
      ∀ before a, before ++ [a] <+: actions → ∀ s, before.foldlM nodeStep (initialNode buf buff) = .ok s →
        PassInBounds s a := by
  rw [foldlM_returns_iff]
  refine forall_congr' fun before => forall_congr' fun a => forall_congr' fun _ => forall_congr' fun s =>
    forall_congr' fun hs => nodeStep_returns_iff ?_ a
  exact foldlM_invariant (I := fun s => StatusSound s.status) hs ⟨le_rfl, rfl⟩
    fun _ _ _ _ hu hstep => hu.step hstep

/-- An RF frame that announces 65535 payload bytes; and packet 500000 over the VLC link, the first number past
the table. -/
theorem node_out_of_bounds :
    let zeros : Buffer := ⟨List.replicate 1024 0, List.length_replicate⟩
    let rfFrame : List UInt8 := etherHeader nodeMac gatewayMac ++ [1, 0, 0, 0, 255, 255, 0, 0, 0, 0]
    let p : Kernel.VlcPacket := ⟨1, 1, 500000, [7]⟩
    (¬ ∃ t, [NodeAction.receiveRf rfFrame].foldlM nodeStep (initialNode zeros zeros) = .ok t) ∧
      ¬ ∃ t, [NodeAction.receiveVlc p.bytes, .processData].foldlM nodeStep (initialNode zeros zeros) = .ok t := by
  intro zeros rfFrame p
  constructor
  · rintro ⟨t, ht⟩
    obtain ⟨v, hv⟩ := foldlM_returns_iff.mp ⟨t, ht⟩ [] _ List.prefix_rfl _ rfl
    have hin := (nodeStep_returns_iff (s := initialNode zeros zeros) ⟨le_rfl, rfl⟩ _).mp ⟨v, hv⟩
    exact absurd (hin (by decide +kernel)) (by decide +kernel)
  · rintro ⟨t, ht⟩
    have hread : readVlcFrame (p.bytes ++ zeros.val.drop 11) = .ok (some p.received) := by
      rw [readVlcFrame, Kernel.readUInt16_length, ok_bind, if_pos (by decide),
        Kernel.generateFromBytes_eq p (by decide)]
      rfl
    obtain ⟨s, hs, hqueue, hstatus⟩ : ∃ s, nodeStep (initialNode zeros zeros) (.receiveVlc p.bytes) = .ok s ∧
        s.processQueue = [p.received] ∧ s.status = initializeNodeStatus maxSeqNumber := by
      have hrecv : (zeros.recvFrom p.bytes).val = p.bytes ++ zeros.val.drop 11 := rfl
      refine ⟨{ initialNode zeros zeros with buff := zeros.recvFrom p.bytes, processQueue := [p.received] },
        ?_, rfl, rfl⟩
      have hbuff : (initialNode zeros zeros).buff = zeros := rfl
      rw [nodeStep, if_pos (by decide)]
      simp only [hbuff, hrecv, hread, ok_bind]
      rfl
    obtain ⟨v, hv⟩ := foldlM_returns_iff.mp ⟨t, ht⟩ [.receiveVlc p.bytes] _ List.prefix_rfl s (by
      rw [List.foldlM_cons, hs]
      rfl)
    have hin := (nodeStep_returns_iff (by rw [hstatus]; exact ⟨le_rfl, rfl⟩) _).mp ⟨v, hv⟩
    have hindex := (hin _ _ hqueue).index
    rw [hstatus] at hindex
    exact absurd hindex (by decide)

end CiotVlc.Links
