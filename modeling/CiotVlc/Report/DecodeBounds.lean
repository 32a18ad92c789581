import CiotVlc.Report.Format

/-! # Where the decoder reads

`generate_status_report_from_string` takes two lengths from the bytes it reads: the pattern's, as a signed
number, and the count of transmitters. It stays inside its bytes exactly when the report that these
lengths describe ends inside them; the arrays it writes have the sizes it gave them.
-/
namespace CiotVlc.Report
open Foundations.Bytes Foundations.Checked
set_option autoImplicit false

/-! ## The fields of a report -/

def nodeField (content : List UInt8) : ℕ := (content.getD 0 0).toNat

def ackField (content : List UInt8) : ℤ := int32 (ofLittleEndian ((content.drop 1).take 4))

def lengthField (content : List UInt8) : ℤ := int32 (ofLittleEndian ((content.drop 5).take 4))

/-- Where the count of transmitters stands, behind the pattern. -/
def countIndex (content : List UInt8) : ℕ := 9 + (patternBytes (lengthField content)).toNat

def countField (content : List UInt8) : ℕ := (content.getD (countIndex content) 0).toNat

/-- The `k`-th pair behind position `idx`. -/
def entryAt (content : List UInt8) (idx k : ℕ) : VlcInformation where
  vlcTxId := (content.getD (idx + 2 * k) 0).toNat
  vlcLinkQuality := (content.getD (idx + 2 * k + 1) 0).toNat

/-- The report ends inside the bytes. -/
def EndsInside (content : List UInt8) : Prop :=
  countIndex content + 1 + 2 * countField content ≤ content.length

/-! ## The loops -/

section
variable {content bits : List UInt8} {cap : ℕ}

theorem readByte_getD {i : ℕ} (h : i < content.length) : readByte content i = .ok (content.getD i 0) := by
  simp [readByte, List.getD, h]

theorem readByte_eq_ok {i : ℕ} {b : UInt8} (h : readByte content i = .ok b) :
    i < content.length ∧ b = content.getD i 0 := by
  have hlt := readByte_returns_iff.mp ⟨b, h⟩
  exact ⟨hlt, Except.ok.inj (h.symm.trans (readByte_getD hlt))⟩

theorem unpackByte_returns {b : UInt8} {s : ℤ} {count : ℕ} (h : bits.length + (count - s).toNat ≤ cap)
    (hs : 0 ≤ s) : ∃ out, unpackByte cap b s count bits = .ok out ∧ out.length = bits.length + (count - s).toNat := by
  induction count generalizing bits with
  | zero => exact ⟨bits, rfl, by omega⟩
  | succ j ih =>
    rw [unpackByte]
    split
    case isTrue hj =>
      obtain ⟨out, hout, hlen⟩ := @ih (bits ++ [UInt8.ofNat (b.toNat >>> j &&& 1)]) (by
        rw [List.length_append, List.length_singleton]
        omega)
      refine ⟨out, by rw [put_ok (by rw [List.length_singleton]; omega), ok_bind, hout], ?_⟩
      rw [hlen, List.length_append, List.length_singleton]
      omega
    case isFalse hj => exact ⟨bits, rfl, by omega⟩

/-- The pattern's bytes are read, however many bits they hold: a negative length may leave one byte. -/
theorem unpackPattern_returns {count idx : ℕ} {remaining : ℤ} (h : idx + count ≤ content.length)
    (hcap : bits.length + remaining.toNat ≤ cap) :
    ∃ out, unpackPattern content cap count idx remaining bits = .ok (out, idx + count) := by
  induction count generalizing idx remaining bits with
  | zero => exact ⟨bits, rfl⟩
  | succ count ih =>
    obtain ⟨out, hout, hlen⟩ := @unpackByte_returns bits cap (content.getD idx 0)
      (if remaining ≥ 8 then 0 else 8 - remaining) 8 (by split <;> omega) (by split <;> omega)
    have hroom : out.length + (remaining - 8).toNat ≤ cap := by
      rw [hlen]
      split <;> omega
    obtain ⟨out', hrest⟩ := @ih out (idx + 1) (remaining - 8) (by omega) hroom
    refine ⟨out', ?_⟩
    rw [unpackPattern, readByte_getD (by omega), ok_bind]
    simp only [hout, ok_bind, hrest]
    congr 2
    omega

theorem unpackPattern_idx {count idx idx' : ℕ} {remaining : ℤ} {out : List UInt8}
    (h : unpackPattern content cap count idx remaining bits = .ok (out, idx')) : idx' = idx + count := by
  induction count generalizing idx remaining bits with
  | zero =>
    cases h
    rfl
  | succ count ih =>
    obtain ⟨byteTemp, -, h⟩ := bind_eq_ok.mp h
    obtain ⟨bits', -, h⟩ := bind_eq_ok.mp h
    rw [ih h]
    omega

theorem readVlcData_returns {count idx : ℕ} (entries : List VlcInformation)
    (h : idx + 2 * count ≤ content.length) : ∃ r, readVlcData content count idx entries = .ok r := by
  induction count generalizing idx entries with
  | zero => exact ⟨_, rfl⟩
  | succ count ih =>
    obtain ⟨r, hr⟩ := @ih (idx + 2) (entries ++ [entryAt content idx 0]) (by omega)
    refine ⟨r, ?_⟩
    rw [readVlcData, readByte_getD (by omega), ok_bind, readByte_getD (by omega), ok_bind]
    exact hr

theorem readVlcData_entries {count idx idx' : ℕ} {entries out : List VlcInformation} (hidx : idx ≤ content.length)
    (h : readVlcData content count idx entries = .ok (out, idx')) :
    idx + 2 * count ≤ content.length ∧ out = entries ++ (List.range count).map (entryAt content idx) := by
  induction count generalizing idx entries with
  | zero =>
    cases h
    exact ⟨hidx, by simp⟩
  | succ count ih =>
    obtain ⟨txId, hid, h⟩ := bind_eq_ok.mp h
    obtain ⟨quality, hquality, h⟩ := bind_eq_ok.mp h
    obtain ⟨-, rfl⟩ := readByte_eq_ok hid
    obtain ⟨hlt, rfl⟩ := readByte_eq_ok hquality
    obtain ⟨hle, rfl⟩ := ih (by omega) h
    refine ⟨by omega, ?_⟩
    have hnext : entryAt content (idx + 2) = fun k => entryAt content idx (k + 1) := by
      funext k
      simp only [entryAt]
      rw [show idx + 2 + 2 * k = idx + 2 * (k + 1) by omega]
    rw [List.range_succ_eq_map, List.map_cons, List.map_map, List.append_assoc]
    simp only [Function.comp_def, hnext, List.singleton_append, Nat.succ_eq_add_one]
    rfl

end

/-! ## The whole report -/

/-- What the decoder reads, as far as it reads inside its bytes. -/
structure DecodedFrom (content : List UInt8) (report : StatusReportPacket) : Prop where
  nodeId : report.nodeId = nodeField content
  ackNumber : report.ackNumber = ackField content
  patternLength : report.patternLength = lengthField content
  nVlc : report.nVlc = countField content
  vlcData : report.vlcData = (List.range (countField content)).map (entryAt content (countIndex content + 1))

theorem generateStatusReportFromString_fields {content : List UInt8} {report : StatusReportPacket} {idx : ℕ}
    (h : generateStatusReportFromString content = .ok (report, idx)) :
    EndsInside content ∧ DecodedFrom content report := by
  obtain ⟨nodeId, hnode, h⟩ := bind_eq_ok.mp h
  obtain ⟨ack, hack, h⟩ := bind_eq_ok.mp h
  obtain ⟨len, hlen, h⟩ := bind_eq_ok.mp h
  obtain ⟨⟨pattern, idx1⟩, hpattern, h⟩ := bind_eq_ok.mp h
  obtain ⟨nVlc, hcount, h⟩ := bind_eq_ok.mp h
  obtain ⟨⟨vlcData, idx2⟩, hvlc, h⟩ := bind_eq_ok.mp h
  cases h
  obtain ⟨-, rfl⟩ := readByte_eq_ok hnode
  cases readBytes_eq_ok hack
  cases readBytes_eq_ok hlen
  cases unpackPattern_idx hpattern
  obtain ⟨hlt, rfl⟩ := readByte_eq_ok hcount
  obtain ⟨hle, rfl⟩ := readVlcData_entries hlt hvlc
  exact ⟨hle, rfl, rfl, rfl, rfl, rfl⟩

theorem generateStatusReportFromString_returns_iff {content : List UInt8} (h9 : 9 ≤ content.length) :
    (∃ r, generateStatusReportFromString content = .ok r) ↔ EndsInside content := by
  constructor
  · rintro ⟨⟨report, idx⟩, h⟩
    exact (generateStatusReportFromString_fields h).1
  · intro h
    have hlt : countIndex content < content.length := by
      unfold EndsInside at h
      omega
    obtain ⟨ack, hack⟩ := readBytes_returns_iff.mpr (show 1 + 4 ≤ content.length by omega)
    obtain ⟨len, hlen⟩ := readBytes_returns_iff.mpr (show 5 + 4 ≤ content.length by omega)
    have hfield : int32 (ofLittleEndian len) = lengthField content := by rw [readBytes_eq_ok hlen, lengthField]
    obtain ⟨pattern, hpattern⟩ := @unpackPattern_returns content [] (lengthField content).toNat
      (patternBytes (lengthField content)).toNat 9 (lengthField content) hlt.le (by simp)
    obtain ⟨⟨vlcData, idx⟩, hvlc⟩ := @readVlcData_returns content (countField content) (countIndex content + 1) [] h
    rw [generateStatusReportFromString, readByte_getD (by omega), ok_bind, hack, ok_bind, hlen, ok_bind]
    simp only [hfield, hpattern, ok_bind]
    rw [← countIndex, readByte_getD hlt, ok_bind, ← countField, hvlc]
    exact ⟨_, rfl⟩

end CiotVlc.Report
