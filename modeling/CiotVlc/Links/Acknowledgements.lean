import CiotVlc.Links.AckLoop

/-! # Cumulative acknowledgements are truthful

What the gateway believes of the node, over links that lose, repeat and reorder packets and reports, as long as
the sequence numbers have not run out.
-/
namespace CiotVlc.Links
open Foundations.Bytes Foundations.Checked Foundations.Runs Foundations.LinkedQueue Foundations.SlidingWindow
open Foundations.BitPack
open CiotVlc.Gateway CiotVlc.Report
open CiotVlc.Node (NodePacket NodeStatus processData processAll processAll_append processAll_singleton
  processAll_tracks initializeNodeStatus selfId seqNumbers maxAckBitPattern windowWidth WindowExact
  processData_rcvSeq_ge)
set_option autoImplicit false

/-! ## The node's window and its reports -/

section
variable {cfg : Config} {processed : List NodePacket} {status : NodeStatus}

theorem window_of_processed (hrun : processAll (initializeNodeStatus Node.maxSeqNumber) processed = .ok status)
    (hfew : ∀ q ∈ processed, q.seqNumber.toNat + 1 < Node.maxSeqNumber) :
    WindowExact (seqNumbers processed) status ∧ status.size = Node.maxSeqNumber ∧ 0 ≤ status.rcvSeq ∧
      status.lastRcvSeq < Node.maxSeqNumber := by
  obtain ⟨status', hrun', hsize, ht⟩ := processAll_tracks (by decide) (show 1 < Node.maxSeqNumber by decide) processed hfew
  cases hrun.symm.trans hrun'
  have hw := acceptAll_exact (show 0 < windowWidth by decide) (seqNumbers processed)
  have hlast := Node.last_lt (show 1 < Node.maxSeqNumber by decide) hfew
  refine ⟨.of_tracks ht hw (by rw [hsize]; omega), hsize, ?_, ?_⟩
  · rw [ht.rcvSeq]
    exact Int.natCast_nonneg _
  · rw [ht.lastRcvSeq]
    omega

theorem sendable_of_sent {eh : EtherHeader} {nodeId : UInt8} {in255Range : ℕ → ℤ} {frame : List UInt8}
    (hrun : processAll (initializeNodeStatus Node.maxSeqNumber) processed = .ok status)
    (hfew : ∀ q ∈ processed, q.seqNumber.toNat + 1 < Node.maxSeqNumber)
    (hsent : sendReport eh nodeId status cfg.nVlc in255Range = .ok frame) : Sendable cfg status := by
  obtain ⟨hwin, hsize, hpos, hlast⟩ := window_of_processed hrun hfew
  have hnonneg := hwin.pattern_nonneg
  have hfits := (sendReport_returns_iff ⟨hpos, by omega, by rw [hsize]; exact hlast⟩).mp ⟨frame, hsent⟩
  refine ⟨hsize, hpos, hnonneg, hlast, ?_⟩
  have hspec : byteCount (patternLength status).toNat = ((patternLength status).toNat + 7) / 8 := rfl
  have hvlc := cfg.nVlc_le
  simp only [widestWindow, Report.bufSiz] at hfits ⊢
  omega

/-- What the gateway reads of a report. -/
theorem decode_sent {eh : EtherHeader} {nodeId : UInt8} {in255Range : ℕ → ℤ} {frame : List UInt8}
    (hs : Sendable cfg status) (hsent : sendReport eh nodeId status cfg.nVlc in255Range = .ok frame)
    (rest : List UInt8) :
    ∃ report idx, generateStatusReportFromString ((frame ++ rest).drop 14) = .ok (report, idx) ∧
      report.nodeId = nodeId.toNat ∧ report.ackNumber = status.rcvSeq := by
  set c := statusContents cfg nodeId status in255Range hs with hc
  have hbytes : c.bytes.length = _ := statusContents_bytes_length hs
  have hfit := hs.fits
  have hsend := @sendReport_ok eh nodeId status cfg.nVlc in255Range _ (sendsContents_status hs)
    (by rw [statusContents_bytes_length]; omega)
  rw [← hc] at hsend
  cases hsent.symm.trans hsend
  have hdrop : (eh.bytes ++ c.bytes ++ rest).drop 14 = c.bytes ++ rest := by
    rw [List.append_assoc]
    exact List.drop_left' eh.size
  have hbits : c.bits.length < 2 ^ 31 := by
    have h0 := hs.rcvSeq_nonneg
    have h1 := hs.last_lt
    simp only [hc, statusContents, List.length_map, List.length_range, patternLength, maxSeqNumber] at h1 ⊢
    omega
  rw [hdrop]
  exact ⟨_, _, generateStatusReportFromString_ok c rest hbits, rfl, rfl⟩

theorem processAll_mono {status' : NodeStatus} {more : List NodePacket}
    (hrun : processAll status more = .ok status') : status.rcvSeq ≤ status'.rcvSeq :=
  foldlM_invariant (I := fun u => status.rcvSeq ≤ u.rcvSeq) hrun le_rfl
    fun _ _ _ _ hu hstep => hu.trans (processData_rcvSeq_ge hstep).1

end

/-! ## The invariant -/

/-- The packet is for this node, and carries the number of one that the gateway sent over one of its links. -/
def Genuine (s : GatewaySystem) (q : NodePacket) : Prop :=
  q.nodeId = 1 ∧ ∃ p ∈ s.vlcSent ++ s.rfSent, q.seqNumber = p.packet.seqNumber

structure LoopInv (cfg : Config) (s : AckLoop) : Prop where
  numbered : AllNumbered s.gateway
  vlcAir : ∀ r ∈ s.vlcAir, r.nodeId = 1 ∧ r.data.length = payloadSize ∧
    ∃ p ∈ s.gateway.vlcSent, r.seqNumber = p.packet.seqNumber
  rfAir : ∀ frame ∈ s.rfAir, ∃ content, frame = rfFrame content ∧ PayloadFits content ∧ content.nodeId = 1 ∧
    ∃ p ∈ s.gateway.rfSent, content.seqNumber = p.packet.seqNumber
  queued : ∀ q ∈ s.node.processQueue, Genuine s.gateway q
  processed : ∀ q ∈ s.processed, Genuine s.gateway q
  status : processAll (initializeNodeStatus Node.maxSeqNumber) s.processed = .ok s.node.status
  reports : ∀ frame ∈ s.reports, ∃ before status in255Range, before <+: s.processed ∧
    processAll (initializeNodeStatus Node.maxSeqNumber) before = .ok status ∧
    sendReport reportHeader (UInt8.ofNat selfId.toNat) status cfg.nVlc in255Range = .ok frame
  acked : s.gateway.path.serial < Gateway.maxSeqNumber →
    0 ≤ s.gateway.path.unackedSeq 0 ∧ s.gateway.path.unackedSeq 0 ≤ s.node.status.rcvSeq

theorem loopInv_initial (cfg : Config) (buf buff : Buffer) : LoopInv cfg (initialLoop buf buff) where
  numbered := allNumbered_initial
  vlcAir := fun _ h => absurd h List.not_mem_nil
  rfAir := fun _ h => absurd h List.not_mem_nil
  queued := fun _ h => absurd h List.not_mem_nil
  processed := fun _ h => absurd h List.not_mem_nil
  status := rfl
  reports := fun _ h => absurd h List.not_mem_nil
  acked := fun _ => ⟨le_rfl, le_rfl⟩

section
variable {cfg : Config} {s t : AckLoop} {g : GatewaySystem}

theorem Genuine.mono {g g' : GatewaySystem} {q : NodePacket} (h : Genuine g q) (hvlc : g.vlcSent ⊆ g'.vlcSent)
    (hrf : g.rfSent ⊆ g'.rfSent) : Genuine g' q := by
  obtain ⟨hid, p, hp, hnum⟩ := h
  refine ⟨hid, p, ?_, hnum⟩
  rcases List.mem_append.mp hp with hp | hp
  · exact List.mem_append_left _ (hvlc hp)
  · exact List.mem_append_right _ (hrf hp)

/-- The number of a genuine packet is that of one of the packets made. -/
theorem Genuine.seqNumber {g : GatewaySystem} {q : NodePacket} (h : Genuine g q) (hnum : AllNumbered g)
    (hfew : g.path.serial < Gateway.maxSeqNumber) :
    ∃ p ∈ g.vlcSent ++ g.rfSent, q.seqNumber.toNat = p.serial ∧ p.serial < g.path.serial := by
  obtain ⟨-, p, hp, heq⟩ := h
  have hp' := hnum.taken p (by rw [mem_taken]; rw [List.mem_append] at hp; tauto)
  have hlt := hp'.serial_lt
  refine ⟨p, hp, ?_, hlt⟩
  rw [heq, hp'.seqNumber]
  exact Nat.mod_eq_of_lt (by omega)

/-- The gateway takes a step, and what it has sent so far stays. -/
theorem LoopInv.gateway (h : LoopInv cfg s) (hnum : AllNumbered g) (hvlc : s.gateway.vlcSent ⊆ g.vlcSent)
    (hrf : s.gateway.rfSent ⊆ g.rfSent)
    (hacked : g.path.serial < Gateway.maxSeqNumber →
      0 ≤ g.path.unackedSeq 0 ∧ g.path.unackedSeq 0 ≤ s.node.status.rcvSeq) :
    LoopInv cfg { s with gateway := g } where
  numbered := hnum
  vlcAir := by
    intro r hr
    obtain ⟨hid, hlen, p, hp, heq⟩ := h.vlcAir r hr
    exact ⟨hid, hlen, p, hvlc hp, heq⟩
  rfAir := by
    intro frame hframe
    obtain ⟨content, heq, hfits, hid, p, hp, hseq⟩ := h.rfAir frame hframe
    exact ⟨content, heq, hfits, hid, p, hrf hp, hseq⟩
  queued := fun q hq => (h.queued q hq).mono hvlc hrf
  processed := fun q hq => (h.processed q hq).mono hvlc hrf
  status := h.status
  reports := h.reports
  acked := hacked

/-- A step of the gateway that is not a reception: what it has sent grows, and it believes what it believed. -/
theorem gatewayStep_keeps {a : ThreadAction cfg} {g g' : GatewaySystem} (hone : cfg.nNode = 1) (hnum : AllNumbered g)
    (hreport : ∀ buf, a ≠ .report buf) (hstep : gatewayStep cfg g a = some g') :
    g.vlcSent ⊆ g'.vlcSent ∧ g.rfSent ⊆ g'.rfSent ∧ g'.path.unackedSeq = g.path.unackedSeq ∧
      g.path.serial ≤ g'.path.serial := by
  cases a with
  | generate i payloads =>
    cases hstep
    have hi : (i : ℕ) = 0 := by omega
    have hmakes := @makes_generatePacket cfg _ hnum.next payloads
    obtain ⟨_, _, _, _, hpath⟩ := @VlcPath.generatePacket_frame cfg g.path 0 payloads
    rw [hi]
    exact ⟨List.Subset.refl _, List.Subset.refl _, by rw [hpath], hmakes.serial_le⟩
  | scheduleRf i =>
    cases hstep
    rcases hq : g.path.nodeQueues i with _ | ⟨temp, q⟩
    · simp [VlcPath.scheduleRf_nil hq]
    · obtain ⟨_, _, hpath⟩ := @VlcPath.scheduleRf_cons cfg _ _ _ _ hq
      simp [hpath]
  | scheduleVlc i tx now =>
    cases hstep
    rcases hq : g.path.nodeQueues i with _ | ⟨temp, q⟩
    · simp [VlcPath.schedulePacket_nil hq]
    · obtain ⟨_, _, _, _, hpath⟩ := @VlcPath.schedulePacket_cons cfg _ _ tx now _ _ hq
      simp [hpath]
  | transmitVlc =>
    cases hstep
    obtain ⟨_, _, _, hpath⟩ := @VlcPath.transmitVlc_frame g.path
    simp [hpath]
  | report buf => exact absurd rfl (hreport buf)
  | check now =>
    rcases check_cases (toOption_eq_some.mp hstep) with ⟨_, _, rfl⟩ | ⟨path, -, hpath, rfl⟩
    · simp
    · rcases checkPacket_cases hpath with ⟨-, rfl⟩ | ⟨entry, -, -, rfl⟩
      · simp
      · simp
  | transmitRf =>
    cases hstep
    unfold GatewaySystem.transmitRf
    split
    · simp
    · split <;> simp
  | addToken =>
    cases hstep
    unfold GatewaySystem.addToken
    split <;> simp
  | tbfTransmit sendSucceeds =>
    cases hstep
    unfold GatewaySystem.tbfTransmit
    split
    · simp
    · split
      · split <;> simp
      · simp

theorem LoopInv.thread (hone : cfg.nNode = 1) (h : LoopInv cfg s) {a : ThreadAction cfg}
    (hreport : ∀ buf, a ≠ .report buf) (hstep : gatewayStep cfg s.gateway a = some g) :
    LoopInv cfg { s with gateway := g } := by
  obtain ⟨hvlc, hrf, hunacked, hserial⟩ := gatewayStep_keeps hone h.numbered hreport hstep
  refine h.gateway (h.numbered.step hone hstep) hvlc hrf ?_
  rw [hunacked]
  exact fun hfew => h.acked (hserial.trans_lt hfew)

/-! ## Sending -/

theorem LoopInv.sendVlc (hone : cfg.nNode = 1) (h : LoopInv cfg s) (hstep : loopStep cfg s .sendVlc = some t) :
    LoopInv cfg t := by
  rw [loopStep] at hstep
  obtain ⟨g, hg, hstep⟩ := Option.bind_eq_some_iff.mp hstep
  obtain ⟨sent, hsent, hstep⟩ := Option.bind_eq_some_iff.mp hstep
  cases hstep
  have hinv := h.thread hone (a := .transmitVlc) nofun hg
  cases hg
  refine { hinv with vlcAir := ?_ }
  intro r hr
  rcases List.mem_append.mp hr with hr | hr
  · exact hinv.vlcAir r hr
  · rcases hq : s.gateway.path.vlcQueue with _ | ⟨temp, q⟩
    · rw [hq] at hsent
      cases hsent
      exact absurd hr List.not_mem_nil
    · have hnum := h.numbered.taken temp (by rw [mem_taken, hq]; exact Or.inl List.mem_cons_self)
      have hrelay : [temp].mapM (fun temp => relay temp.packet) =
          .ok [{ temp.packet with vlcId := readVlcId (temp.packet.vlcId.toNat + 1) }] := by
        rw [List.mapM_cons, relay_eq hnum.fits]
        rfl
      rw [hq, List.take_one, List.head?_cons, Option.toList_some, hrelay] at hsent
      cases hsent
      rw [List.mem_singleton.mp hr]
      refine ⟨hnum.nodeId, hnum.payload, temp, ?_, rfl⟩
      simp only [List.take_one, List.head?_cons, Option.toList_some]
      exact List.mem_append_right _ (List.mem_singleton_self temp)

theorem LoopInv.sendRf (hone : cfg.nNode = 1) (h : LoopInv cfg s) {memory : Payload}
    (hstep : loopStep cfg s (.sendRf memory) = some t) : LoopInv cfg t := by
  rw [loopStep] at hstep
  split at hstep
  case isFalse =>
    cases hstep
    exact h
  case isTrue htoken =>
    obtain ⟨g, hg, hstep⟩ := Option.bind_eq_some_iff.mp hstep
    obtain ⟨sent, hsent, hstep⟩ := Option.bind_eq_some_iff.mp hstep
    cases hstep
    have hinv := h.thread hone (a := .tbfTransmit true) nofun hg
    cases hg
    refine { hinv with rfAir := ?_ }
    intro frame hframe
    rcases List.mem_append.mp hframe with hframe | hframe
    · exact hinv.rfAir frame hframe
    · rcases hq : s.gateway.tbfQueue with _ | ⟨temp, q⟩
      · rw [hq] at hsent
        cases hsent
        exact absurd hframe List.not_mem_nil
      · have hnum := h.numbered.taken temp (by rw [mem_taken, hq]; simp)
        have hfits := rfContent_fits hnum s.gateway.path.released memory
        have hsend : [temp].mapM (fun temp =>
            transmitPacketRf gatewayMac (rfContent s.gateway.path.released memory temp)) =
            .ok [rfFrame (rfContent s.gateway.path.released memory temp)] := by
          rw [List.mapM_cons, transmitPacketRf_eq hfits]
          rfl
        rw [hq, List.take_one, List.head?_cons, Option.toList_some, hsend] at hsent
        cases hsent
        have hcopied : (rfContent s.gateway.path.released memory temp).nodeId = temp.packet.nodeId ∧
            (rfContent s.gateway.path.released memory temp).seqNumber = temp.packet.seqNumber := by
          unfold rfContent
          split
          · exact ⟨rfl, rfl⟩
          · exact ⟨rfl, rfl⟩
        refine ⟨_, List.mem_singleton.mp hframe, hfits, hcopied.1.trans hnum.nodeId, temp, ?_, hcopied.2⟩
        simp only [GatewaySystem.tbfTransmit, hq, if_pos htoken, if_true]
        exact List.mem_append_right _ (List.mem_singleton_self temp)

theorem LoopInv.sendReport (h : LoopInv cfg s) {in255Range : ℕ → ℤ}
    (hstep : loopStep cfg s (.sendReport in255Range) = some t) : LoopInv cfg t := by
  obtain ⟨frame, hframe, hstep⟩ := Option.bind_eq_some_iff.mp hstep
  cases hstep
  refine { h with reports := ?_ }
  intro frame' hframe'
  rcases List.mem_append.mp hframe' with hframe' | hframe'
  · exact h.reports frame' hframe'
  · rw [List.mem_singleton.mp hframe']
    exact ⟨s.processed, s.node.status, in255Range, List.prefix_rfl, h.status, toOption_eq_some.mp hframe⟩

/-! ## Hearing -/

/-- A packet reaches the process queue. -/
theorem LoopInv.enqueue (h : LoopInv cfg s) {q : NodePacket} (hq : Genuine s.gateway q) (buf buff : Buffer)
    (rfHeard : ℕ) :
    LoopInv cfg { s with
      rfHeard
      node := { s.node with buf, buff, processQueue := Fifo.push Node.maxProcessQueue s.node.processQueue q } } where
  numbered := h.numbered
  vlcAir := h.vlcAir
  rfAir := h.rfAir
  queued := by
    intro p hp
    rcases Fifo.mem_of_mem_push hp with hp | rfl
    · exact h.queued p hp
    · exact hq
  processed := h.processed
  status := h.status
  reports := h.reports
  acked := h.acked

theorem LoopInv.hearVlc (h : LoopInv cfg s) {packet : GatewayPacket} {wrong : ℕ}
    (hstep : loopStep cfg s (.hearVlc packet wrong) = some t) : LoopInv cfg t := by
  rw [loopStep] at hstep
  split at hstep
  case isFalse => cases hstep
  case isTrue hair =>
    obtain ⟨node, hnode, hstep⟩ := Option.bind_eq_some_iff.mp hstep
    cases hstep
    obtain ⟨hid, hlen, p, hp, hseq⟩ := h.vlcAir packet hair.1
    obtain ⟨buff, q, hrecv, hnum, hself⟩ := nodeStep_receiveVlc s.node hlen hid wrong
    cases (toOption_eq_some.mp hnode).symm.trans hrecv
    exact h.enqueue ⟨hself, p, List.mem_append_left _ hp, hnum.trans hseq⟩ _ _ _

theorem LoopInv.hearRf (h : LoopInv cfg s) {k : ℕ} (hstep : loopStep cfg s (.hearRf k) = some t) : LoopInv cfg t := by
  obtain ⟨frame, hframe, hstep⟩ := Option.bind_eq_some_iff.mp hstep
  obtain ⟨node, hnode, hstep⟩ := Option.bind_eq_some_iff.mp hstep
  cases hstep
  obtain ⟨content, rfl, hfits, hid, p, hp, hseq⟩ := h.rfAir frame (List.mem_of_getElem? hframe)
  obtain ⟨buf, hrecv⟩ := nodeStep_receiveRf s.node hfits
  cases (toOption_eq_some.mp hnode).symm.trans hrecv
  exact h.enqueue ⟨hid, p, List.mem_append_right _ hp, hseq⟩ _ _ _

theorem LoopInv.processData (h : LoopInv cfg s) (hstep : loopStep cfg s .processData = some t) : LoopInv cfg t := by
  obtain ⟨node, hnode, hstep⟩ := Option.bind_eq_some_iff.mp hstep
  cases hstep
  have hnode := toOption_eq_some.mp hnode
  rw [nodeStep] at hnode
  split at hnode
  case h_1 hq =>
    cases hnode
    simp only [hq, List.take_nil, List.append_nil]
    exact h
  case h_2 temp q hq =>
    obtain ⟨status, hrun, hnode⟩ := bind_eq_ok.mp hnode
    cases hnode
    simp only [hq, List.take_one, List.head?_cons, Option.toList_some]
    have htemp : Genuine s.gateway temp := h.queued temp (by rw [hq]; exact List.mem_cons_self)
    exact
      { numbered := h.numbered
        vlcAir := h.vlcAir
        rfAir := h.rfAir
        queued := fun p hp => h.queued p (by rw [hq]; exact List.mem_cons_of_mem _ hp)
        processed := by
          intro p hp
          rcases List.mem_append.mp hp with hp | hp
          · exact h.processed p hp
          · rw [List.mem_singleton.mp hp]
            exact htemp
        status := by
          rw [processAll_append, h.status, ok_bind, processAll_singleton]
          exact hrun
        reports := by
          intro frame hframe
          obtain ⟨before, status', in255Range, hpre, hbefore, hsent⟩ := h.reports frame hframe
          exact ⟨before, status', in255Range, hpre.trans (List.prefix_append _ _), hbefore, hsent⟩
        acked := by
          intro hfew
          obtain ⟨hpos, hle⟩ := h.acked hfew
          exact ⟨hpos, hle.trans (processData_rcvSeq_ge hrun).1⟩ }

/-- The numbers that the node has processed lie two below the table's size. -/
theorem LoopInv.processed_lt (h : LoopInv cfg s) (hfew : s.gateway.path.serial < Gateway.maxSeqNumber) :
    ∀ q ∈ s.processed, q.seqNumber.toNat + 1 < Node.maxSeqNumber := by
  intro q hq
  obtain ⟨p, -, heq, hlt⟩ := (h.processed q hq).seqNumber h.numbered hfew
  have hmax : Gateway.maxSeqNumber = Node.maxSeqNumber := rfl
  omega

/-- The number that a report acknowledges lay behind what the node waits for now. -/
theorem LoopInv.hearReport (hone : cfg.nNode = 1) (h : LoopInv cfg s) {frame rest : List UInt8}
    (hstep : loopStep cfg s (.hearReport frame rest) = some t) : LoopInv cfg t := by
  rw [loopStep] at hstep
  split at hstep
  case isFalse => cases hstep
  case isTrue hframe =>
    obtain ⟨g, hg, hstep⟩ := Option.bind_eq_some_iff.mp hstep
    cases hstep
    have hnum := h.numbered.step hone hg
    rw [gatewayStep] at hg
    split at hg
    case h_2 => cases hg
    case h_1 path hpath =>
      cases hg
      refine h.gateway hnum (List.Subset.refl _) (List.Subset.refl _) ?_
      intro hfew
      rcases receiveReport_cases hpath with rfl | ⟨report, idx, e, hdecode, -, rfl⟩
      · exact h.acked hfew
      · obtain ⟨before, status, in255Range, hpre, hbefore, hsent⟩ := h.reports frame hframe
        obtain ⟨more, hmore⟩ := hpre
        have hlt := h.processed_lt hfew
        have hs := sendable_of_sent hbefore
          (fun q hq => hlt q (by rw [← hmore]; exact List.mem_append_left _ hq)) hsent
        obtain ⟨report', idx', hdecode', hid, hack⟩ := decode_sent hs hsent rest
        cases hdecode.symm.trans hdecode'
        have hnode : (report.nodeId - 1).toNat = 0 := by
          rw [hid]
          rfl
        have hrun := h.status
        rw [← hmore, processAll_append, hbefore, ok_bind] at hrun
        simp only [hnode, Function.update_self, hack]
        exact ⟨hs.rcvSeq_nonneg, processAll_mono hrun⟩

theorem LoopInv.step (hone : cfg.nNode = 1) {a : LoopAction cfg} (h : LoopInv cfg s)
    (hstep : loopStep cfg s a = some t) : LoopInv cfg t := by
  cases a with
  | thread a =>
    rw [loopStep] at hstep
    split at hstep
    case isFalse => cases hstep
    case isTrue hint =>
      obtain ⟨g, hg, hstep⟩ := Option.bind_eq_some_iff.mp hstep
      cases hstep
      refine h.thread hone ?_ hg
      rintro buf rfl
      cases hint
  | sendVlc => exact h.sendVlc hone hstep
  | sendRf memory => exact h.sendRf hone hstep
  | hearReport frame rest => exact h.hearReport hone hstep
  | hearVlc packet wrong => exact h.hearVlc hstep
  | hearRf k => exact h.hearRf hstep
  | processData => exact h.processData hstep
  | sendReport in255Range => exact h.sendReport hstep

end

/-! ## What the gateway believes -/

/-- What the gateway takes for received has been received, or the node has given it up; and the node has taken only
what the gateway sent. -/
structure Truthful (s : AckLoop) : Prop where
  nonneg : 0 ≤ s.gateway.path.unackedSeq 0
  behind : s.gateway.path.unackedSeq 0 ≤ s.node.status.rcvSeq
  made : s.node.status.rcvSeq ≤ s.gateway.path.serial
  received : ∀ n : ℕ, n < s.gateway.path.unackedSeq 0 →
    n ∈ seqNumbers s.processed ∨ n < s.node.status.lastRcvSeq - maxAckBitPattern + 1
  genuine : ∀ q ∈ s.processed, ∃ p ∈ s.gateway.vlcSent ++ s.gateway.rfSent, q.seqNumber.toNat = p.serial

/-- **Cumulative acknowledgements are truthful.** Over links that lose, repeat and reorder packets and reports, in
every state that the gateway and its node can reach before the sequence numbers run out. -/
theorem acknowledgements_truthful (cfg : Config) (hone : cfg.nNode = 1) (buf buff : Buffer)
    (as : List (LoopAction cfg)) (t : AckLoop) (hrun : Run (loopStep cfg) (initialLoop buf buff) as t)
    (hfew : t.gateway.path.serial < Gateway.maxSeqNumber) : Truthful t := by
  have h : LoopInv cfg t := hrun.invariant (loopInv_initial cfg buf buff) fun _ _ _ h hstep => h.step hone hstep
  obtain ⟨hpos, hle⟩ := h.acked hfew
  obtain ⟨hwin, -, -, -⟩ := window_of_processed h.status (h.processed_lt hfew)
  have hgenuine : ∀ q ∈ t.processed, ∃ p ∈ t.gateway.vlcSent ++ t.gateway.rfSent,
      q.seqNumber.toNat = p.serial ∧ p.serial < t.gateway.path.serial :=
    fun q hq => (h.processed q hq).seqNumber h.numbered hfew
  refine ⟨hpos, hle, ?_, ?_, ?_⟩
  · rcases List.eq_nil_or_concat' t.processed with hnil | ⟨before, q, hcons⟩
    · have hstart := h.status
      rw [hnil] at hstart
      rw [← Except.ok.inj hstart]
      exact Int.natCast_nonneg _
    · -- the last number seen is that of a packet processed
      have hnonneg := hwin.pattern_nonneg
      have hmax := hwin.last_max
      rw [Node.foldl_max_eq_sup] at hmax
      have hsup : (seqNumbers t.processed).toFinset.sup id < t.gateway.path.serial := by
        obtain ⟨p, -, -, hlt⟩ := hgenuine q (by rw [hcons]; simp)
        refine (Finset.sup_lt_iff (Nat.zero_lt_of_lt hlt)).mpr ?_
        intro n hn
        obtain ⟨q', hq', rfl⟩ := List.mem_map.mp (List.mem_toFinset.mp hn)
        obtain ⟨p', -, heq, hlt'⟩ := hgenuine q' hq'
        rw [id_eq, heq]
        exact hlt'
      omega
  · intro n hn
    exact hwin.below n (hn.trans_le hle)
  · intro q hq
    obtain ⟨p, hp, heq, -⟩ := hgenuine q hq
    exact ⟨p, hp, heq⟩

def zeroBuffer : Buffer := ⟨List.replicate 1024 0, List.length_replicate⟩

/-- The node takes packet 0 first. -/
theorem processData_first {q : NodePacket} (hnum : q.seqNumber = 0) :
    processData (initializeNodeStatus Node.maxSeqNumber) q =
      .ok ⟨1, Function.update (fun _ => 0) 0 1, 0, Node.maxSeqNumber⟩ := by
  have hzero : int32 q.seqNumber.toNat = 0 := by
    rw [hnum]
    rfl
  -- the scan passes packet 0
  have hscan : Node.skipReceived Node.maxSeqNumber (Function.update (fun _ => 0) 0 1) 0 = .ok 1 := by
    rw [Node.skipReceived, if_pos (by decide), if_pos (by decide)]
    exact Node.skipReceived_self_iff.mpr (by decide)
  exact @Node.processData_ok (initializeNodeStatus Node.maxSeqNumber) q 0 1 _ hzero rfl hscan

/-- One packet goes out over VLC and is heard with three bytes repaired. -/
def heardOnce : Option AckLoop :=
  exec (loopStep shipped) (initialLoop zeroBuffer zeroBuffer)
    [.thread (.generate ⟨0, Nat.one_pos⟩ fun _ => zeroPayload),
      .thread (.scheduleVlc ⟨0, Nat.one_pos⟩ ⟨0, Nat.one_pos⟩ ⟨0, 0⟩), .sendVlc,
      .hearVlc ⟨1, 1, 74, 0, List.replicate payloadSize 0⟩ 3]

/-- The node takes the packet and reports, and the gateway hears the report. -/
theorem acknowledgements_truthful_one_packet :
    ∃ as t, Run (loopStep shipped) (initialLoop zeroBuffer zeroBuffer) as t ∧ t.gateway.path.unackedSeq 0 = 1 ∧
      Truthful t := by
  obtain ⟨s, hs⟩ := Option.isSome_iff_exists.mp (show heardOnce.isSome = true by decide +kernel)
  have hrun := run_of_exec hs
  have hinv : LoopInv shipped s :=
    hrun.invariant (loopInv_initial shipped _ _) fun _ _ _ h hstep => h.step rfl hstep
  have hmade : heardOnce.map (fun s => (s.node.processQueue.map NodePacket.seqNumber, s.processed,
      s.gateway.path.serial)) = some ([0], [], 1) := by decide +kernel
  rw [hs, Option.map_some, Option.some.injEq, Prod.mk.injEq, Prod.mk.injEq] at hmade
  obtain ⟨hqueue, hprocessed, hserial⟩ := hmade
  obtain ⟨q, hq, hnum⟩ : ∃ q, s.node.processQueue = [q] ∧ q.seqNumber = 0 := by
    obtain ⟨q, hq, hnum⟩ := List.map_eq_singleton_iff.mp hqueue
    exact ⟨q, hq, hnum⟩
  have hstatus : s.node.status = initializeNodeStatus Node.maxSeqNumber := by
    have hstart := hinv.status
    rw [hprocessed] at hstart
    exact (Except.ok.inj hstart).symm
  have hdata : processData s.node.status q =
      .ok ⟨1, Function.update (fun _ => 0) 0 1, 0, Node.maxSeqNumber⟩ := by
    rw [hstatus]
    exact processData_first hnum
  obtain ⟨u, hu, hustatus, hgateway⟩ : ∃ u, loopStep shipped s .processData = some u ∧
      u.node.status = ⟨1, Function.update (fun _ => 0) 0 1, 0, Node.maxSeqNumber⟩ ∧ u.gateway = s.gateway := by
    simp only [loopStep, nodeStep, hq, hdata, ok_bind]
    exact ⟨_, rfl, rfl, rfl⟩
  obtain ⟨v, frame, hv, hframe, hvgateway, hvreports⟩ :
      ∃ v frame, loopStep shipped u (.sendReport fun _ => 255) = some v ∧
      frame = reportHeader.bytes ++ [1, 1, 0, 0, 0, 0, 0, 0, 0, 1, 1, 255] ∧ v.gateway = u.gateway ∧
      frame ∈ v.reports := by
    simp only [loopStep, hustatus]
    exact ⟨_, _, rfl, rfl, rfl, List.mem_append_right _ (List.mem_singleton_self _)⟩
  obtain ⟨path, hpath, hacked, hsame⟩ : ∃ path, v.gateway.path.receiveReport shipped (frame ++ []) = .ok path ∧
      path.unackedSeq 0 = 1 ∧ path.serial = v.gateway.path.serial := by
    rw [hframe]
    exact ⟨_, rfl, rfl, rfl⟩
  obtain ⟨t, ht, htpath⟩ : ∃ t, loopStep shipped v (.hearReport frame []) = some t ∧ t.gateway.path = path := by
    simp only [loopStep, if_pos hvreports, gatewayStep, hpath]
    exact ⟨_, rfl, rfl⟩
  have hend := ((hrun.snoc hu).snoc hv).snoc ht
  refine ⟨_, t, hend, by rw [htpath, hacked], acknowledgements_truthful shipped rfl _ _ _ t hend ?_⟩
  rw [htpath, hsame, hvgateway, hgateway, hserial]
  decide

end CiotVlc.Links
