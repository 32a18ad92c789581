import CiotVlc.Links.SameContent

/-! # The queue reports of the VLC transmitters

A transmitter reports the length of its queue in a frame with its id and four bytes; the gateway stores it
in `vk`. The loop of `is_vlc_tx_address` goes over the table of transmitters but compares with its
first entry every time, so only the first transmitter is heard (`queueReports_iff`).
-/
namespace CiotVlc.Links
open Foundations.Bytes Foundations.Checked
set_option autoImplicit false

/-- `GATEWAY_DEST_MAC0`..`GATEWAY_DEST_MAC5` of the transmitter, `MY_MAC0`..`MY_MAC5` of the gateway. -/
def gatewayEthMac : MacAddress := ⟨[0xa0, 0xf6, 0xfd, 0x64, 0xaf, 0xfc], rfl⟩

/-! ## The transmitter -/

/-- The frame that `send_queue_report` hands to `sendto`. -/
def sendQueueReport (selfId : ℕ) (ethIfMac : MacAddress) (queueSize : ℤ) : Except Fault (List UInt8) := do
  let sendbuf ← put bufSiz (etherHeader gatewayEthMac ethIfMac) []
  let sendbuf ← put bufSiz [UInt8.ofNat selfId] sendbuf
  put bufSiz (littleEndian 4 (ofInt32 queueSize)) sendbuf

/-! ## The gateway -/

section
variable (nVlc : ℕ) (vlcAddresses : ℕ → MacAddress)

/-- The loop variable does not occur in the comparison. -/
def isVlcTxAddress (eh : List UInt8) : Bool :=
  (List.range nVlc).any fun _ =>
    (eh.drop 6).take 6 = (vlcAddresses 0).val && eh.take 6 = gatewayEthMac.val

/-- One pass of `receive_vlc_report`, on the buffer that `recvfrom` has filled. -/
def receiveVlcReport (vk : ℕ → ℤ) (buf : List UInt8) : Except Fault (ℕ → ℤ) := do
  if isVlcTxAddress nVlc vlcAddresses buf then
    let reportContent := buf.drop 14
    let vlcId ← readByte reportContent 0
    if vlcId.toNat ≤ nVlc ∧ vlcId.toNat > 0 then
      let bytes ← readBytes reportContent 1 4
      writeCell nVlc vk (vlcId.toNat - 1 : ℕ) (int32 (ofLittleEndian bytes))
    else return vk
  else return vk

end

/-! ## From the transmitter to the gateway -/

theorem sendQueueReport_eq (selfId : ℕ) (ethIfMac : MacAddress) (queueSize : ℤ) :
    sendQueueReport selfId ethIfMac queueSize = .ok (etherHeader gatewayEthMac ethIfMac ++
      (UInt8.ofNat selfId :: littleEndian 4 (ofInt32 queueSize))) := by
  unfold sendQueueReport
  rw [put_ok (by simp [bufSiz]), ok_bind, put_ok (by simp [bufSiz]), ok_bind, put_ok (by simp [bufSiz])]
  simp

section
variable {nVlc : ℕ} {vlcAddresses : ℕ → MacAddress}

theorem header_shost (dhost shost : MacAddress) (rest : List UInt8) :
    ((etherHeader dhost shost ++ rest).drop 6).take 6 = shost.val := by
  rw [etherHeader, List.append_assoc, List.append_assoc, List.drop_left' dhost.property,
    List.take_left' shost.property]

theorem header_dhost (dhost shost : MacAddress) (rest : List UInt8) :
    (etherHeader dhost shost ++ rest).take 6 = dhost.val := by
  rw [etherHeader, List.append_assoc, List.append_assoc, List.take_left' dhost.property]

/-- The filter lets a report pass exactly if it comes from the first transmitter. -/
theorem isVlcTxAddress_report (hsome : 0 < nVlc) (shost : MacAddress) (rest : List UInt8) :
    isVlcTxAddress nVlc vlcAddresses (etherHeader gatewayEthMac shost ++ rest) = true ↔
      shost = vlcAddresses 0 := by
  rw [isVlcTxAddress, List.any_eq_true]
  simp only [header_shost, header_dhost, decide_true, Bool.and_true, decide_eq_true_eq, List.mem_range]
  constructor
  · rintro ⟨-, -, h⟩
    exact Subtype.ext h
  · intro h
    exact ⟨0, hsome, congrArg Subtype.val h⟩

theorem receiveVlcReport_dropped {vk : ℕ → ℤ} {buf : List UInt8}
    (h : ¬ isVlcTxAddress nVlc vlcAddresses buf = true) :
    receiveVlcReport nVlc vlcAddresses vk buf = .ok vk := by
  rw [receiveVlcReport, if_neg h]
  rfl

/-- A frame from an address outside the table is dropped. -/
theorem receiveVlcReport_foreign (vk : ℕ → ℤ) {buf : List UInt8}
    (hforeign : ∀ i < nVlc, (buf.drop 6).take 6 ≠ (vlcAddresses i).val) :
    receiveVlcReport nVlc vlcAddresses vk buf = .ok vk := by
  apply receiveVlcReport_dropped
  rw [isVlcTxAddress, List.any_eq_true]
  rintro ⟨i, hi, h⟩
  rw [List.mem_range] at hi
  rw [Bool.and_eq_true, decide_eq_true_eq] at h
  exact hforeign 0 (by omega) h.1

/-- The first transmitter's report is stored. -/
theorem receiveVlcReport_first (hsome : 0 < nVlc) {q : ℤ} (hq : FitsInt32 q) (vk : ℕ → ℤ) (rest : List UInt8) :
    receiveVlcReport nVlc vlcAddresses vk (etherHeader gatewayEthMac (vlcAddresses 0) ++
      (UInt8.ofNat 1 :: littleEndian 4 (ofInt32 q)) ++ rest) = .ok (Function.update vk 0 q) := by
  have hpass : isVlcTxAddress nVlc vlcAddresses (etherHeader gatewayEthMac (vlcAddresses 0) ++
      ((UInt8.ofNat 1 :: littleEndian 4 (ofInt32 q)) ++ rest)) = true :=
    (isVlcTxAddress_report hsome _ _).mpr rfl
  have hcontent : (etherHeader gatewayEthMac (vlcAddresses 0) ++
      ((UInt8.ofNat 1 :: littleEndian 4 (ofInt32 q)) ++ rest)).drop 14 =
      UInt8.ofNat 1 :: (littleEndian 4 (ofInt32 q) ++ rest) :=
    List.drop_left' (etherHeader_length _ _)
  have hbytes : readBytes (UInt8.ofNat 1 :: (littleEndian 4 (ofInt32 q) ++ rest)) 1 4 =
      .ok (littleEndian 4 (ofInt32 q)) := by
    have h := readBytes_append [UInt8.ofNat 1] (littleEndian 4 (ofInt32 q)) rest
    rwa [littleEndian_length] at h
  have hone : (UInt8.ofNat 1).toNat = 1 := rfl
  have hid : readByte (UInt8.ofNat 1 :: (littleEndian 4 (ofInt32 q) ++ rest)) 0 = .ok (UInt8.ofNat 1) := rfl
  rw [List.append_assoc, receiveVlcReport, if_pos hpass]
  dsimp only
  rw [hcontent, hid, ok_bind, hone, if_pos ⟨hsome, Nat.one_pos⟩, hbytes, ok_bind, ofLittleEndian_of_lt (ofInt32_lt q),
    int32_ofInt32 hq]
  exact writeCell_ok vk q hsome

/-- **A report reaches the gateway's counter exactly if it is the first transmitter's, or tells nothing new**;
and no frame from outside the table changes anything. -/
theorem queueReports_iff {k : ℕ} {q : ℤ} (hk : 1 ≤ k ∧ k ≤ nVlc) (hq : FitsInt32 q)
    (hdistinct : ∀ i < nVlc, ∀ j < nVlc, vlcAddresses i = vlcAddresses j → i = j) (vk : ℕ → ℤ)
    (rest : List UInt8) :
    ((∃ frame, sendQueueReport k (vlcAddresses (k - 1)) q = .ok frame ∧
        receiveVlcReport nVlc vlcAddresses vk (frame ++ rest) = .ok (Function.update vk (k - 1) q)) ↔
      k = 1 ∨ vk (k - 1) = q) ∧
    ∀ buf : List UInt8, (∀ i < nVlc, (buf.drop 6).take 6 ≠ (vlcAddresses i).val) →
      receiveVlcReport nVlc vlcAddresses vk buf = .ok vk := by
  refine ⟨?_, fun buf hforeign => receiveVlcReport_foreign vk hforeign⟩
  have hsome : 0 < nVlc := by omega
  have hsend := sendQueueReport_eq k (vlcAddresses (k - 1)) q
  by_cases hfirst : k = 1
  · subst hfirst
    exact iff_of_true ⟨_, hsend, receiveVlcReport_first hsome hq vk rest⟩ (Or.inl rfl)
  · have hdrop : receiveVlcReport nVlc vlcAddresses vk (etherHeader gatewayEthMac (vlcAddresses (k - 1)) ++
        (UInt8.ofNat k :: littleEndian 4 (ofInt32 q)) ++ rest) = .ok vk := by
      apply receiveVlcReport_dropped
      rw [List.append_assoc, isVlcTxAddress_report hsome]
      intro hsame
      have hzero := hdistinct (k - 1) (by omega) 0 hsome hsame
      omega
    constructor
    · rintro ⟨frame, hframe, hreceive⟩
      rw [hsend] at hframe
      cases hframe
      rw [hdrop] at hreceive
      have hvk := congrFun (Except.ok.inj hreceive) (k - 1)
      rw [Function.update_self] at hvk
      exact Or.inr hvk
    · intro h
      refine ⟨_, hsend, ?_⟩
      rw [hdrop, ← h.resolve_left hfirst, Function.update_eq_self]

/-- The two addresses that `main` sets up. -/
def setupVlcAddress : ℕ → MacAddress
  | 0 => vlcMac
  | _ => ⟨[0xb0, 0xd5, 0xcc, 0xff, 0x7b, 0xef], rfl⟩

theorem queueReports_of_first :
    ((∃ frame, sendQueueReport 1 (setupVlcAddress 0) 5 = .ok frame ∧
        receiveVlcReport 2 setupVlcAddress (fun _ => 0) (frame ++ []) =
          .ok (Function.update (fun _ => 0) 0 5)) ↔ 1 = 1 ∨ (0 : ℤ) = 5) ∧
    ∀ buf : List UInt8, (∀ i < 2, (buf.drop 6).take 6 ≠ (setupVlcAddress i).val) →
      receiveVlcReport 2 setupVlcAddress (fun _ => 0) buf = .ok fun _ => 0 :=
  queueReports_iff ⟨by decide, by decide⟩ ⟨by decide, by decide⟩ (by decide) (fun _ => 0) []

/-- Five packets in the queue of the second transmitter, and the gateway does not learn of it. -/
theorem queueReports_second_unheard :
    ∃ frame, sendQueueReport 2 (setupVlcAddress 1) 5 = .ok frame ∧
      receiveVlcReport 2 setupVlcAddress (fun _ => 0) frame = .ok fun _ => 0 :=
  ⟨_, rfl, rfl⟩

end

end CiotVlc.Links
