import CiotVlc.Node.Window
import CiotVlc.Report.Format

/-! # The send buffer

`send_report` writes the whole window of the receive status into a buffer of `BUF_SIZ` bytes. The window
may span `max_ACK_bit_pattern` numbers, one bit each; the buffer holds far fewer.
-/
namespace CiotVlc.Report
open Foundations.Bytes Foundations.Checked Foundations.BitPack Foundations.SlidingWindow CiotVlc.Node
set_option autoImplicit false

/-! ## The length of an encoded report -/

section
variable {cap : ℕ} {cell : ℕ → Except Fault ℤ} {entry : ℕ → Except Fault VlcInformation} {buff out : List UInt8}

theorem packPattern_length {count i : ℕ} {remaining : ℤ}
    (h : packPattern cap cell count i remaining buff = .ok out) : out.length = buff.length + count := by
  induction count generalizing i remaining buff with
  | zero =>
    cases h
    rfl
  | succ count ih =>
    obtain ⟨tempByte, -, h⟩ := bind_eq_ok.mp h
    obtain ⟨buff', hput, h⟩ := bind_eq_ok.mp h
    obtain ⟨rfl, -⟩ := put_eq_ok hput
    rw [ih h, List.length_append, List.length_singleton]
    omega

theorem putVlcData_length {count i : ℕ} (h : putVlcData cap entry count i buff = .ok out) :
    out.length = buff.length + 2 * count ∧ (buff.length ≤ cap → out.length ≤ cap) := by
  induction count generalizing i buff with
  | zero =>
    cases h
    exact ⟨rfl, fun h => h⟩
  | succ count ih =>
    obtain ⟨info, -, h⟩ := bind_eq_ok.mp h
    obtain ⟨buff', hid, h⟩ := bind_eq_ok.mp h
    obtain ⟨buff'', hquality, h⟩ := bind_eq_ok.mp h
    obtain ⟨rfl, -⟩ := put_eq_ok hid
    obtain ⟨rfl, hcap⟩ := put_eq_ok hquality
    obtain ⟨hlen, hle⟩ := ih h
    refine ⟨?_, fun _ => hle hcap⟩
    simp only [hlen, List.length_append, List.length_singleton]
    omega

theorem encodeReport_length {nodeId ackNumber : ℤ} {n m : ℕ}
    (h : encodeReport cap nodeId ackNumber n cell m entry buff = .ok out) :
    out.length = buff.length + 10 + byteCount n + 2 * m ∧ out.length ≤ cap := by
  obtain ⟨b1, h1, h⟩ := bind_eq_ok.mp h
  obtain ⟨b2, h2, h⟩ := bind_eq_ok.mp h
  obtain ⟨b3, h3, h⟩ := bind_eq_ok.mp h
  obtain ⟨b4, h4, h⟩ := bind_eq_ok.mp h
  obtain ⟨b5, h5, h⟩ := bind_eq_ok.mp h
  obtain ⟨rfl, -⟩ := put_eq_ok h1
  obtain ⟨rfl, -⟩ := put_eq_ok h2
  obtain ⟨rfl, -⟩ := put_eq_ok h3
  have hpattern := packPattern_length h4
  obtain ⟨rfl, hcap⟩ := put_eq_ok h5
  obtain ⟨hlen, hle⟩ := putVlcData_length h
  rw [patternBytes_natCast, Int.toNat_natCast] at hpattern
  refine ⟨?_, hle hcap⟩
  simp only [hlen, hpattern, intBytes, littleEndian_length, List.length_append, List.length_singleton,
    Int.toNat_natCast]
  omega

/-! ## A report that fits -/

theorem exists_cellBits {n : ℕ} (h : ∀ k < n, ∃ x, cell k = .ok x) :
    ∃ bits : List Bool, bits.length = n ∧ CellBits cell 0 bits := by
  choose! x hx using h
  refine ⟨(List.range n).map fun k => decide (x k % 2 = 1), by simp, fun k hk => ?_⟩
  rw [List.length_map, List.length_range] at hk
  refine ⟨x k, by rw [Nat.zero_add]; exact hx k hk, ?_⟩
  simp only [List.getElem_map, List.getElem_range]
  by_cases hodd : x k % 2 = 1
  · rw [hodd, decide_eq_true rfl]
    rfl
  · rw [decide_eq_false hodd, Bool.toNat_false]
    omega

theorem exists_entryBytes {m : ℕ} (h : ∀ k < m, ∃ e, entry k = .ok e) :
    ∃ vlc : List (UInt8 × UInt8), vlc.length = m ∧ EntryBytes entry 0 vlc := by
  have : Nonempty VlcInformation := ⟨⟨0, 0⟩⟩
  choose! e he using h
  refine ⟨(List.range m).map fun k => (UInt8.ofInt (e k).vlcTxId, UInt8.ofInt (e k).vlcLinkQuality), by simp,
    fun k hk => ?_⟩
  rw [List.length_map, List.length_range] at hk
  refine ⟨e k, by rw [Nat.zero_add]; exact he k hk, ?_⟩
  simp

theorem encodeReport_returns {nodeId ackNumber : ℤ} {n m : ℕ} (hcell : ∀ k < n, ∃ x, cell k = .ok x)
    (hentry : ∀ k < m, ∃ e, entry k = .ok e) (hfit : buff.length + 10 + byteCount n + 2 * m ≤ cap) :
    ∃ out, encodeReport cap nodeId ackNumber n cell m entry buff = .ok out := by
  obtain ⟨bits, rfl, hbits⟩ := exists_cellBits hcell
  obtain ⟨vlc, rfl, hvlc⟩ := exists_entryBytes hentry
  have hint : ∀ x, (intBytes x).length = 4 := fun x => littleEndian_length 4 _
  have hpattern := fun b (hb : b.length + byteCount bits.length ≤ cap) =>
    @packPattern_ok cap cell (byteCount bits.length) 0 bits.length bits b rfl (fun _ => rfl)
      (by rw [Nat.zero_mul]; exact hbits) hb
  have hdata := fun b (hb : b.length + 2 * vlc.length ≤ cap) => @putVlcData_ok cap entry 0 vlc b hvlc hb
  unfold encodeReport
  rw [put_ok (by rw [List.length_singleton]; omega), ok_bind,
    put_ok (by simp only [List.length_append, List.length_singleton, hint]; omega), ok_bind,
    put_ok (by simp only [List.length_append, List.length_singleton, hint]; omega), ok_bind,
    patternBytes_natCast, Int.toNat_natCast,
    hpattern _ (by simp only [List.length_append, List.length_singleton, hint]; omega), ok_bind,
    put_ok (by simp only [List.length_append, List.length_singleton, hint, packMsb_length]; omega), ok_bind,
    Int.toNat_natCast,
    hdata _ (by simp only [List.length_append, List.length_singleton, hint, packMsb_length]; omega)]
  exact ⟨_, rfl⟩

end

/-! ## send_report -/

/-- The window that fits behind both headers, the count and the transmitters' pairs. -/
def widestWindow (nVlc : ℕ) : ℤ := 8 * ((bufSiz : ℤ) - 24 - 2 * nVlc)

/-- The numbers of the window lie in the table. -/
structure WindowInTable (status : NodeStatus) : Prop where
  rcvSeq_nonneg : 0 ≤ status.rcvSeq
  rcvSeq_le : status.rcvSeq ≤ status.lastRcvSeq + 1
  last_lt : status.lastRcvSeq < status.size

theorem sendReport_returns_iff {eh : EtherHeader} {nodeId : UInt8} {status : NodeStatus} {nVlc : ℕ}
    {in255Range : ℕ → ℤ} (h : WindowInTable status) :
    (∃ frame, sendReport eh nodeId status nVlc in255Range = .ok frame) ↔
      patternLength status ≤ widestWindow nVlc := by
  obtain ⟨n, hn⟩ : ∃ n : ℕ, patternLength status = n := by
    have := h.rcvSeq_le
    exact Int.eq_ofNat_of_zero_le (by unfold patternLength; omega)
  have hspec : byteCount n = (n + 7) / 8 := rfl
  unfold sendReport widestWindow
  rw [hn]
  constructor
  · rintro ⟨frame, hframe⟩
    obtain ⟨hlen, hcap⟩ := encodeReport_length hframe
    rw [hlen, eh.size] at hcap
    omega
  · intro hle
    refine encodeReport_returns (fun k hk => ?_) (fun k _ => ⟨_, rfl⟩) (by rw [eh.size]; omega)
    have h0 := h.rcvSeq_nonneg
    have hlast := h.last_lt
    unfold patternLength at hn
    exact ⟨_, if_pos ⟨by omega, by omega⟩⟩

theorem processAll_windowInTable (packets : List NodePacket)
    (h : ∀ p ∈ packets, p.seqNumber.toNat ≤ maxSeqNumber - 2) :
    ∃ status, processAll (initializeNodeStatus maxSeqNumber) packets = .ok status ∧ WindowInTable status := by
  have hlt : ∀ p ∈ packets, p.seqNumber.toNat + 1 < maxSeqNumber := by
    intro p hp
    have := h p hp
    simp only [maxSeqNumber] at this ⊢
    omega
  have hone : 1 < maxSeqNumber := by decide
  obtain ⟨st, hrun, hst, ht⟩ := processAll_tracks (by decide) hone packets hlt
  have hw := acceptAll_exact (show 0 < windowWidth by decide) (seqNumbers packets)
  have hhead := hw.head_le
  have hlast := last_lt hone hlt
  refine ⟨st, hrun, ?_, ?_, ?_⟩
  · rw [ht.rcvSeq]
    omega
  · rw [ht.rcvSeq, ht.lastRcvSeq]
    omega
  · rw [ht.lastRcvSeq, hst]
    omega

/-- **When a report fits its buffer.** After any packets the report has a non-negative `pattern_length`, and
`send_report` stays inside `sendbuf` exactly when the window spans at most `8 * (1024 - 24 - 2 * N_VLC)`
numbers. -/
theorem send_report_fits_iff (packets : List NodePacket)
    (h : ∀ p ∈ packets, p.seqNumber.toNat ≤ maxSeqNumber - 2) (eh : EtherHeader) (nodeId : UInt8) (nVlc : ℕ)
    (in255Range : ℕ → ℤ) :
    ∃ status, processAll (initializeNodeStatus maxSeqNumber) packets = .ok status ∧
      0 ≤ patternLength status ∧
      ((∃ frame, sendReport eh nodeId status nVlc in255Range = .ok frame) ↔
        status.lastRcvSeq - status.rcvSeq + 1 ≤ widestWindow nVlc) := by
  obtain ⟨st, hrun, hwin⟩ := processAll_windowInTable packets h
  have hle := hwin.rcvSeq_le
  exact ⟨st, hrun, by unfold patternLength; omega, sendReport_returns_iff hwin⟩

/-- The first packet to arrive is number 7984: 7985 bits make 999 bytes, and the frame has 1025. -/
theorem send_report_overflows :
    let p : NodePacket := ⟨1, 1, 0, 7984, []⟩
    p.seqNumber.toNat ≤ maxSeqNumber - 2 ∧
      ∃ status, processAll (initializeNodeStatus maxSeqNumber) [p] = .ok status ∧
        ∀ (eh : EtherHeader) (in255Range : ℕ → ℤ), ¬ ∃ frame, sendReport eh 1 status 1 in255Range = .ok frame := by
  intro p
  have hstep : processData (initializeNodeStatus maxSeqNumber) p =
      .ok ⟨0, Function.update (fun _ => 0) 7984 1, 7984, maxSeqNumber⟩ :=
    @processData_ok (initializeNodeStatus maxSeqNumber) p 7984 0 _ rfl rfl
      (skipReceived_self_iff.mpr ⟨by decide, by decide, by decide⟩)
  refine ⟨by decide, _, (processAll_singleton _ _).trans hstep, fun eh in255Range => ?_⟩
  rw [sendReport_returns_iff ⟨by decide, by decide, by decide⟩]
  decide

/-- Packets 0, 3 and 1, and one transmitter. -/
theorem send_report_fits_iff_three :
    let p : ℕ → NodePacket := fun n => ⟨1, 1, 0, UInt32.ofNat n, []⟩
    ∃ status, processAll (initializeNodeStatus maxSeqNumber) [p 0, p 3, p 1] = .ok status ∧
      0 ≤ patternLength status ∧
      ((∃ frame, sendReport ⟨List.replicate 14 0, rfl⟩ 1 status 1 (fun _ => 255) = .ok frame) ↔
        status.lastRcvSeq - status.rcvSeq + 1 ≤ widestWindow 1) :=
  send_report_fits_iff _ (by decide) _ 1 1 _

end CiotVlc.Report
