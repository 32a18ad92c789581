import CiotVlc.Foundations.BitPack
import CiotVlc.Report.Packet

/-! # The report format

`Contents` is what a report says, and `Contents.bytes` its wire format: the node id, two 32-bit
numbers, the pattern packed most significant bit first, and a counted list of byte pairs. Each loop
of the encoder appends the corresponding part of the wire format, each loop of the decoder reads it
back, and the round trip of the whole format follows.
-/
namespace CiotVlc.Report
open Foundations.Bytes Foundations.Checked Foundations.BitPack CiotVlc.Node
set_option autoImplicit false

/-- What a report says: the numbers fit their fields. -/
structure Contents where
  nodeId : UInt8
  ackNumber : ℤ
  ackFits : FitsInt32 ackNumber
  bits : List Bool
  vlc : List (UInt8 × UInt8)
  vlcFits : vlc.length ≤ 255

def vlcBytes (vlc : List (UInt8 × UInt8)) : List UInt8 := vlc.flatMap fun e => [e.1, e.2]

def Contents.bytes (c : Contents) : List UInt8 :=
  [c.nodeId] ++ intBytes c.ackNumber ++ intBytes c.bits.length ++
    packMsb (byteCount c.bits.length) c.bits ++ [UInt8.ofNat c.vlc.length] ++ vlcBytes c.vlc

/-- A bit as the decoder stores it. -/
def bitByte (b : Bool) : UInt8 := UInt8.ofNat b.toNat

/-- The packet that the decoder makes of the contents. -/
def Contents.packet (c : Contents) : StatusReportPacket where
  nodeId := c.nodeId.toNat
  ackNumber := c.ackNumber
  patternLength := c.bits.length
  ackBitPattern := c.bits.map bitByte
  nVlc := c.vlc.length
  vlcData := c.vlc.map fun e => { vlcTxId := e.1.toNat, vlcLinkQuality := e.2.toNat }

theorem vlcBytes_length (vlc : List (UInt8 × UInt8)) : (vlcBytes vlc).length = 2 * vlc.length := by
  induction vlc with
  | nil => rfl
  | cons e vlc ih =>
    rw [vlcBytes, List.flatMap_cons, List.length_append, ← vlcBytes, ih, List.length_cons, List.length_cons]
    simp only [List.length_cons, List.length_nil]
    omega

theorem Contents.bytes_length (c : Contents) :
    c.bytes.length = 10 + byteCount c.bits.length + 2 * c.vlc.length := by
  simp only [Contents.bytes, List.length_append, List.length_singleton, intBytes, littleEndian_length,
    packMsb_length, vlcBytes_length]
  omega

theorem patternBytes_natCast (n : ℕ) : patternBytes n = byteCount n := by
  unfold patternBytes byteCount
  rw [Int.tdiv_eq_ediv_of_nonneg (Int.natCast_nonneg n), Int.tmod_eq_emod_of_nonneg (Int.natCast_nonneg n)]
  split <;> omega

/-! ## The encoder's loops -/

/-- From index `j` on, the array read by the encoder has these bits in its lowest places. -/
def CellBits (cell : ℕ → Except Fault ℤ) (j : ℕ) (bits : List Bool) : Prop :=
  ∀ k (h : k < bits.length), ∃ x, cell (j + k) = .ok x ∧ x % 2 = bits[k].toNat

theorem CellBits.tail {cell : ℕ → Except Fault ℤ} {j : ℕ} {b : Bool} {bits : List Bool}
    (h : CellBits cell j (b :: bits)) : CellBits cell (j + 1) bits := by
  intro k hk
  obtain ⟨x, hx, hb⟩ := h (k + 1) (by simpa using hk)
  exact ⟨x, by rw [← hx]; congr 1; omega, by simpa using hb⟩

theorem CellBits.take {cell : ℕ → Except Fault ℤ} {j : ℕ} {bits : List Bool} (h : CellBits cell j bits)
    (n : ℕ) : CellBits cell j (bits.take n) := by
  intro k hk
  rw [List.length_take] at hk
  rw [List.getElem_take]
  exact h k (by omega)

theorem CellBits.drop {cell : ℕ → Except Fault ℤ} {j : ℕ} {bits : List Bool} (h : CellBits cell j bits)
    (n : ℕ) : CellBits cell (j + n) (bits.drop n) := by
  intro k hk
  rw [List.length_drop] at hk
  rw [List.getElem_drop, Nat.add_assoc]
  exact h (n + k) (by omega)

theorem packByte_ok {cell : ℕ → Except Fault ℤ} {bits : List Bool} {w j : ℕ} (a : ℕ)
    (hbits : CellBits cell j bits) (hw : bits.length ≤ w) :
    packByte cell bits.length j (w - 1) (UInt8.ofNat (a * 2 ^ w)) =
      .ok (UInt8.ofNat (a * 2 ^ w + msbValue w bits)) := by
  induction bits generalizing w j a with
  | nil => simp [packByte]
  | cons b bits ih =>
    obtain ⟨v, rfl⟩ : ∃ v, w = v + 1 := ⟨w - 1, by rw [List.length_cons] at hw; omega⟩
    obtain ⟨x, hx, hb⟩ := hbits 0 (Nat.succ_pos _)
    have hbit : (x % 2).toNat = b.toNat := by
      simp only [List.getElem_cons_zero] at hb
      omega
    have hih := ih (2 * a + b.toNat) hbits.tail (w := v) (by simpa using hw)
    rw [List.length_cons, packByte, show cell j = .ok x from hx, ok_bind, hbit, ← UInt8.ofNat_or,
      Nat.add_sub_cancel, or_shiftLeft, hih, msbValue, pow_succ]
    congr 2
    ring

theorem packPattern_ok {cap : ℕ} {cell : ℕ → Except Fault ℤ} {n i : ℕ} {remaining : ℤ}
    {bits : List Bool} {buff : List UInt8} (hn : n = byteCount bits.length)
    (hr : 0 < n → remaining = bits.length) (hbits : CellBits cell (i * 8) bits)
    (hfit : buff.length + n ≤ cap) :
    packPattern cap cell n i remaining buff = .ok (buff ++ packMsb n bits) := by
  induction n generalizing i remaining bits buff with
  | zero => rw [packPattern, packMsb, List.append_nil]
  | succ n ih =>
    have hrem := hr (Nat.succ_pos n)
    have hcount : (if remaining > 8 then (8 : ℤ) else remaining).toNat = (bits.take 8).length := by
      rw [hrem, List.length_take]
      split <;> omega
    have hbyte := packByte_ok (w := 8) 0 (hbits.take 8) (by rw [List.length_take]; omega)
    simp only [Nat.zero_mul, Nat.zero_add] at hbyte
    have hdrop : n = byteCount (bits.drop 8).length := by
      unfold byteCount at hn ⊢
      rw [List.length_drop]
      omega
    have hih := @ih (i + 1) (remaining - 8) (bits.drop 8)
      (buff ++ [UInt8.ofNat (msbValue 8 (bits.take 8))]) hdrop
      (fun hpos => by
        rw [List.length_drop]
        unfold byteCount at hn
        omega)
      (by rw [Nat.add_mul]; exact hbits.drop 8)
      (by rw [List.length_append, List.length_singleton]; omega)
    rw [packPattern]
    simp only [hcount]
    rw [show (7 : ℕ) = 8 - 1 from rfl, show (0 : UInt8) = UInt8.ofNat 0 from rfl, hbyte, ok_bind,
      put_ok (by rw [List.length_singleton]; omega), ok_bind, hih, packMsb, List.append_assoc]
    rfl

/-- The encoder's entries are these bytes, from index `i` on. -/
def EntryBytes (entry : ℕ → Except Fault VlcInformation) (i : ℕ) (vlc : List (UInt8 × UInt8)) : Prop :=
  ∀ k (h : k < vlc.length), ∃ info, entry (i + k) = .ok info ∧
    UInt8.ofInt info.vlcTxId = vlc[k].1 ∧ UInt8.ofInt info.vlcLinkQuality = vlc[k].2

theorem putVlcData_ok {cap : ℕ} {entry : ℕ → Except Fault VlcInformation} {i : ℕ}
    {vlc : List (UInt8 × UInt8)} {buff : List UInt8} (hentry : EntryBytes entry i vlc)
    (hfit : buff.length + 2 * vlc.length ≤ cap) :
    putVlcData cap entry vlc.length i buff = .ok (buff ++ vlcBytes vlc) := by
  induction vlc generalizing i buff with
  | nil => simp [putVlcData, vlcBytes]
  | cons e vlc ih =>
    obtain ⟨info, hinfo, hid, hq⟩ := hentry 0 (Nat.succ_pos _)
    have htail : EntryBytes entry (i + 1) vlc := by
      intro k hk
      obtain ⟨info', h1, h2⟩ := hentry (k + 1) (by simpa using hk)
      exact ⟨info', by rw [← h1]; congr 1; omega, by simpa using h2⟩
    rw [List.length_cons] at hfit
    have hih := @ih (i + 1) (buff ++ [e.1] ++ [e.2]) htail (by
      simp only [List.length_append, List.length_singleton]
      omega)
    rw [List.length_cons, putVlcData, show entry i = .ok info from hinfo, ok_bind, hid, hq,
      List.getElem_cons_zero, put_ok (by rw [List.length_singleton]; omega), ok_bind,
      put_ok (by simp only [List.length_append, List.length_singleton]; omega), ok_bind, hih]
    simp [vlcBytes]

/-- **The shared encoder writes the wire format.** -/
theorem encodeReport_ok {cap : ℕ} {c : Contents} {cell : ℕ → Except Fault ℤ}
    {entry : ℕ → Except Fault VlcInformation} {buff : List UInt8} {nodeId : ℤ}
    (hid : UInt8.ofInt nodeId = c.nodeId) (hcell : CellBits cell 0 c.bits)
    (hentry : EntryBytes entry 0 c.vlc) (hfit : buff.length + c.bytes.length ≤ cap) :
    encodeReport cap nodeId c.ackNumber c.bits.length cell c.vlc.length entry buff =
      .ok (buff ++ c.bytes) := by
  rw [c.bytes_length] at hfit
  have hint : ∀ x, (intBytes x).length = 4 := fun x => littleEndian_length 4 _
  have hpattern := @packPattern_ok cap cell (byteCount c.bits.length) 0 c.bits.length c.bits
    (buff ++ [c.nodeId] ++ intBytes c.ackNumber ++ intBytes c.bits.length) rfl (fun _ => rfl)
    (by rw [Nat.zero_mul]; exact hcell)
    (by simp only [List.length_append, List.length_singleton, hint]; omega)
  have hvlc := @putVlcData_ok cap entry 0 c.vlc
    (buff ++ [c.nodeId] ++ intBytes c.ackNumber ++ intBytes c.bits.length ++
      packMsb (byteCount c.bits.length) c.bits ++ [UInt8.ofNat c.vlc.length]) hentry
    (by simp only [List.length_append, List.length_singleton, hint, packMsb_length]; omega)
  have hn := uint8_ofInt_natCast c.vlc.length
  unfold encodeReport
  rw [hid, put_ok (by rw [List.length_singleton]; omega), ok_bind,
    put_ok (by simp only [List.length_append, List.length_singleton, hint]; omega), ok_bind,
    put_ok (by simp only [List.length_append, List.length_singleton, hint]; omega), ok_bind,
    patternBytes_natCast, Int.toNat_natCast, hpattern, ok_bind, hn,
    put_ok (by simp only [List.length_append, List.length_singleton, hint, packMsb_length]; omega),
    ok_bind, Int.toNat_natCast, hvlc]
  simp only [Contents.bytes, List.append_assoc]

/-! ## The decoder's loops -/

theorem bitByte_testBit (n j : ℕ) : UInt8.ofNat (n >>> j &&& 1) = bitByte (n.testBit j) := by
  rw [bitByte, Nat.toNat_testBit, Nat.and_one_is_mod, Nat.shiftRight_eq_div_pow]

theorem unpackByte_ok {cap : ℕ} {b : UInt8} {s n : ℕ} {bits : List UInt8}
    (hfit : bits.length + (n - s) ≤ cap) :
    unpackByte cap b s n bits = .ok (bits ++ ((msbBits n b.toNat).take (n - s)).map bitByte) := by
  induction n generalizing bits with
  | zero => simp [unpackByte]
  | succ n ih =>
    by_cases hs : s ≤ n
    · have htake : n + 1 - s = (n - s) + 1 := by omega
      have hih := @ih (bits ++ [bitByte (b.toNat.testBit n)]) (by
        rw [List.length_append, List.length_singleton]
        omega)
      rw [unpackByte, if_pos (by omega), bitByte_testBit, put_ok (by rw [List.length_singleton]; omega),
        ok_bind, hih, htake, msbBits, List.take_succ_cons, List.map_cons, List.append_assoc]
      rfl
    · rw [unpackByte, if_neg (by omega), show n + 1 - s = 0 by omega]
      simp

theorem unpackPattern_ok {cap r : ℕ} {remaining : ℤ} {pre bytes rest : List UInt8} {bits : List UInt8}
    (hn : bytes.length = byteCount r) (hr : 0 < bytes.length → remaining = r)
    (hfit : bits.length + r ≤ cap) :
    unpackPattern (pre ++ (bytes ++ rest)) cap bytes.length pre.length remaining bits =
      .ok (bits ++ (unpackMsb r bytes).map bitByte, pre.length + bytes.length) := by
  induction bytes generalizing r remaining pre bits with
  | nil => simp [unpackPattern, unpackMsb]
  | cons b bytes ih =>
    have hrem := hr (Nat.succ_pos _)
    rw [List.length_cons] at hn
    have hshift : (if remaining ≥ 8 then (0 : ℤ) else 8 - remaining) = ((8 - r : ℕ) : ℤ) := by
      rw [hrem]
      split <;> omega
    have htake : (msbBits 8 b.toNat).take (8 - (8 - r)) = (msbBits 8 b.toNat).take r := by
      by_cases h8 : r ≤ 8
      · rw [show 8 - (8 - r) = r by omega]
      · rw [List.take_of_length_le (by rw [msbBits_length]; omega),
          List.take_of_length_le (by rw [msbBits_length]; omega)]
    have hbyte := @unpackByte_ok cap b (8 - r) 8 bits (by omega)
    rw [htake] at hbyte
    have hih := @ih (r - 8) (remaining - 8) (pre ++ [b]) (bits ++ ((msbBits 8 b.toNat).take r).map bitByte)
      (by unfold byteCount at hn ⊢; omega)
      (fun hpos => by unfold byteCount at hn; omega)
      (by rw [List.length_append, List.length_map, List.length_take, msbBits_length]; omega)
    have hlist : pre ++ (b :: bytes ++ rest) = pre ++ [b] ++ (bytes ++ rest) := by simp
    rw [List.length_cons, unpackPattern, List.cons_append, readByte_append, ok_bind]
    simp only [hshift]
    rw [hbyte, ok_bind, ← List.cons_append, hlist,
      show pre.length + 1 = (pre ++ [b]).length by rw [List.length_append, List.length_singleton], hih,
      unpackMsb_cons, List.map_append, List.append_assoc, List.length_append, List.length_singleton]
    congr 2
    omega

theorem readVlcData_ok (vlc : List (UInt8 × UInt8)) (pre rest : List UInt8) (entries : List VlcInformation) :
    readVlcData (pre ++ (vlcBytes vlc ++ rest)) vlc.length pre.length entries =
      .ok (entries ++ vlc.map (fun e => { vlcTxId := e.1.toNat, vlcLinkQuality := e.2.toNat }),
        pre.length + (vlcBytes vlc).length) := by
  induction vlc generalizing pre entries with
  | nil => simp [readVlcData, vlcBytes]
  | cons e vlc ih =>
    have hlist : pre ++ (vlcBytes (e :: vlc) ++ rest) = pre ++ e.1 :: e.2 :: (vlcBytes vlc ++ rest) := rfl
    have hlist' : pre ++ e.1 :: e.2 :: (vlcBytes vlc ++ rest) =
        (pre ++ [e.1, e.2]) ++ (vlcBytes vlc ++ rest) := by simp
    have hlist'' : pre ++ e.1 :: e.2 :: (vlcBytes vlc ++ rest) =
        (pre ++ [e.1]) ++ e.2 :: (vlcBytes vlc ++ rest) := by simp
    have hsecond := readByte_append (pre ++ [e.1]) e.2 (vlcBytes vlc ++ rest)
    rw [List.length_append, List.length_singleton, ← hlist''] at hsecond
    have hih := ih (pre ++ [e.1, e.2]) (entries ++ [{ vlcTxId := e.1.toNat, vlcLinkQuality := e.2.toNat }])
    rw [List.length_cons, hlist, readVlcData, readByte_append, ok_bind, hsecond, ok_bind, hlist',
      show pre.length + 2 = (pre ++ [e.1, e.2]).length by simp, hih, List.map_cons, List.append_assoc,
      List.length_append, vlcBytes_length, vlcBytes_length, List.length_cons]
    simp only [List.length_cons, List.length_nil]
    congr 2
    omega

/-- **The decoder reads the wire format back**, and stops right behind it. -/
theorem generateStatusReportFromString_ok (c : Contents) (rest : List UInt8)
    (hbits : c.bits.length < 2 ^ 31) :
    generateStatusReportFromString (c.bytes ++ rest) = .ok (c.packet, c.bytes.length) := by
  have hint : ∀ x, (intBytes x).length = 4 := fun x => littleEndian_length 4 _
  set pattern := packMsb (byteCount c.bits.length) c.bits with hpattern
  have hplen : pattern.length = byteCount c.bits.length := packMsb_length _ _
  have hlen32 : int32 (ofLittleEndian (intBytes c.bits.length)) = c.bits.length := by
    rw [intBytes, ofLittleEndian_of_lt (ofInt32_lt _)]
    exact int32_ofInt32 ⟨by omega, by exact_mod_cast hbits⟩
  have hack32 : int32 (ofLittleEndian (intBytes c.ackNumber)) = c.ackNumber := by
    rw [intBytes, ofLittleEndian_of_lt (ofInt32_lt _), int32_ofInt32 c.ackFits]
  have hn : (UInt8.ofNat c.vlc.length).toNat = c.vlc.length := by
    rw [UInt8.toNat_ofNat']
    have := c.vlcFits
    omega
  -- the buffer, seen from each field in turn
  set header := [c.nodeId] ++ intBytes c.ackNumber ++ intBytes c.bits.length with hheader
  have hhlen : header.length = 9 := by simp [hheader, hint]
  have hnode : readByte (c.bytes ++ rest) 0 = .ok c.nodeId := by
    simp [readByte, Contents.bytes]
  have hack : readBytes (c.bytes ++ rest) 1 4 = .ok (intBytes c.ackNumber) := by
    have h := readBytes_append [c.nodeId] (intBytes c.ackNumber)
      (intBytes c.bits.length ++ (pattern ++ ([UInt8.ofNat c.vlc.length] ++ (vlcBytes c.vlc ++ rest))))
    rw [hint, List.length_singleton] at h
    rw [← h]
    simp only [Contents.bytes, hpattern, List.append_assoc]
  have hlen : readBytes (c.bytes ++ rest) 5 4 = .ok (intBytes c.bits.length) := by
    have h := readBytes_append ([c.nodeId] ++ intBytes c.ackNumber) (intBytes c.bits.length)
      (pattern ++ ([UInt8.ofNat c.vlc.length] ++ (vlcBytes c.vlc ++ rest)))
    rw [List.length_append, hint, hint, List.length_singleton] at h
    rw [← h]
    simp only [Contents.bytes, hpattern, List.append_assoc]
  have hbitsRead : unpackPattern (c.bytes ++ rest) c.bits.length (byteCount c.bits.length) 9
      c.bits.length [] = .ok (c.bits.map bitByte, 9 + pattern.length) := by
    have h := @unpackPattern_ok c.bits.length c.bits.length c.bits.length header pattern
      ([UInt8.ofNat c.vlc.length] ++ (vlcBytes c.vlc ++ rest)) [] hplen (fun _ => rfl) (by simp)
    rw [hhlen, hpattern, unpackMsb_packMsb _ _ (byteCount_spec _), List.nil_append, ← hpattern, hplen] at h
    rw [hplen, ← h]
    simp only [Contents.bytes, hheader, hpattern, List.append_assoc]
  have hcount : readByte (c.bytes ++ rest) (9 + pattern.length) = .ok (UInt8.ofNat c.vlc.length) := by
    have h := readByte_append (header ++ pattern) (UInt8.ofNat c.vlc.length) (vlcBytes c.vlc ++ rest)
    rw [List.length_append, hhlen] at h
    rw [← h]
    simp only [Contents.bytes, hheader, hpattern, List.append_assoc, List.cons_append, List.nil_append]
  have hvlc : readVlcData (c.bytes ++ rest) c.vlc.length (9 + pattern.length + 1) [] =
      .ok (c.packet.vlcData, c.bytes.length) := by
    have h := readVlcData_ok c.vlc (header ++ pattern ++ [UInt8.ofNat c.vlc.length]) rest []
    rw [List.length_append, List.length_append, hhlen, List.length_singleton, List.nil_append] at h
    have hend : c.bytes.length = 9 + pattern.length + 1 + (vlcBytes c.vlc).length := by
      rw [c.bytes_length, hplen, vlcBytes_length]
      omega
    rw [hend, Contents.packet, ← h]
    simp only [Contents.bytes, hheader, hpattern, List.append_assoc]
  unfold generateStatusReportFromString
  simp only [hnode, hack, hlen, hlen32, hack32, patternBytes_natCast, Int.toNat_natCast, hbitsRead, hcount,
    hn, hvlc, ok_bind, pure_eq_ok]
  rfl

/-! ## What the decoder accepts -/

/-- The decoder stores bits as the bytes 0 and 1. -/
def IsBit (b : UInt8) : Prop := b = 0 ∨ b = 1

theorem isBit_and_one (n : ℕ) : IsBit (UInt8.ofNat (n &&& 1)) := by
  rw [Nat.and_one_is_mod]
  rcases Nat.mod_two_eq_zero_or_one n with h | h
  · exact Or.inl (by rw [h]; rfl)
  · exact Or.inr (by rw [h]; rfl)

theorem unpackByte_bits {cap : ℕ} {b : UInt8} {s : ℤ} {n : ℕ} {bits out : List UInt8} (hs : 0 ≤ s)
    (h : unpackByte cap b s n bits = .ok out) (hbits : ∀ x ∈ bits, IsBit x) :
    (∀ x ∈ out, IsBit x) ∧ out.length = bits.length + (n - s).toNat := by
  induction n generalizing bits with
  | zero =>
    cases h
    exact ⟨hbits, by omega⟩
  | succ n ih =>
    unfold unpackByte at h
    split at h
    case isTrue hge =>
      obtain ⟨bits', hput, h⟩ := bind_eq_ok.mp h
      obtain ⟨rfl, _⟩ := put_eq_ok hput
      obtain ⟨hout, hlen⟩ := ih h fun x hx => by
        rcases List.mem_append.mp hx with hx | hx
        · exact hbits x hx
        · rw [List.mem_singleton.mp hx]
          exact isBit_and_one _
      refine ⟨hout, ?_⟩
      rw [hlen, List.length_append, List.length_singleton]
      omega
    case isFalse hlt =>
      cases h
      exact ⟨hbits, by omega⟩

theorem unpackPattern_bits {reportBytes : List UInt8} {cap count idx idx' : ℕ} {remaining : ℤ}
    {bits out : List UInt8} (h : unpackPattern reportBytes cap count idx remaining bits = .ok (out, idx'))
    (hle : remaining ≤ 8 * count) (hlt : 8 * (count : ℤ) < remaining + 8 ∨ remaining ≤ 0)
    (hbits : ∀ x ∈ bits, IsBit x) :
    (∀ x ∈ out, IsBit x) ∧ out.length = bits.length + remaining.toNat := by
  induction count generalizing idx remaining bits with
  | zero =>
    cases h
    exact ⟨hbits, by omega⟩
  | succ count ih =>
    rw [unpackPattern] at h
    obtain ⟨byteTemp, _, h⟩ := bind_eq_ok.mp h
    obtain ⟨bits', hbyte, h⟩ := bind_eq_ok.mp h
    push_cast at hle hlt
    have hshift : 0 ≤ if remaining ≥ 8 then (0 : ℤ) else 8 - remaining := by split <;> omega
    obtain ⟨hbits', hlen⟩ := unpackByte_bits hshift hbyte hbits
    obtain ⟨hout, hlen'⟩ := ih h (by omega) (by omega) hbits'
    refine ⟨hout, ?_⟩
    rw [hlen', hlen]
    split <;> omega

theorem le_patternBytes (n : ℤ) : n ≤ 8 * ((patternBytes n).toNat : ℤ) ∧
    (8 * ((patternBytes n).toNat : ℤ) < n + 8 ∨ n ≤ 0) := by
  rcases lt_or_ge n 0 with hneg | hpos
  · exact ⟨by omega, Or.inr hneg.le⟩
  · obtain ⟨m, rfl⟩ := Int.eq_ofNat_of_zero_le hpos
    rw [patternBytes_natCast, Int.toNat_natCast]
    unfold byteCount
    omega

/-- **A decoded pattern holds bits, as many as the report announces.** -/
theorem generateStatusReportFromString_bits {reportBytes : List UInt8} {report : StatusReportPacket} {idx : ℕ}
    (h : generateStatusReportFromString reportBytes = .ok (report, idx)) :
    (∀ b ∈ report.ackBitPattern, IsBit b) ∧ report.ackBitPattern.length = report.patternLength.toNat := by
  unfold generateStatusReportFromString at h
  obtain ⟨nodeId, _, h⟩ := bind_eq_ok.mp h
  obtain ⟨ack, _, h⟩ := bind_eq_ok.mp h
  obtain ⟨len, _, h⟩ := bind_eq_ok.mp h
  obtain ⟨⟨pattern, idx1⟩, hpattern, h⟩ := bind_eq_ok.mp h
  obtain ⟨nVlc, _, h⟩ := bind_eq_ok.mp h
  obtain ⟨⟨vlcData, idx2⟩, _, h⟩ := bind_eq_ok.mp h
  cases h
  obtain ⟨hle, hlt⟩ := le_patternBytes (int32 (ofLittleEndian len))
  obtain ⟨hbits, hlength⟩ := unpackPattern_bits hpattern hle hlt fun x hx => absurd hx List.not_mem_nil
  exact ⟨hbits, by simpa using hlength⟩

end CiotVlc.Report
