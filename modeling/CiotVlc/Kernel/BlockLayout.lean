import CiotVlc.Foundations.Checked
import CiotVlc.Kernel.RsLibrary

/-! # The layout of the Reed-Solomon blocks

Both drivers split a packet into blocks of `block_size` bytes, each with its own parity behind the packet, and
both count a single parity towards the length of what is stored. The definitions here take the block size as
a parameter and record every call of the library; at the default size they are those of `Transmit` and
`Receive`. The arrays of the drivers are bounded.
-/
namespace CiotVlc.Kernel
open Foundations.Bytes Foundations.BlockCode Foundations.Checked CiotVlc.Codec
set_option autoImplicit false

/-- The size of the array `data` of a `struct vlc_packet`. -/
def packetDataLen : ℕ := 2000 + 10

def rxDataLen : ℕ := 2000

def numOfBlocksOf (blockSize length : ℕ) : ℕ :=
  if length % blockSize ≠ 0 then length / blockSize + 1 else length / blockSize

def blockLengthOf (blockSize length indexBlock : ℕ) : ℕ :=
  if indexBlock + 1 < numOfBlocksOf blockSize length then blockSize else length % blockSize

/-- A call of `encode_rs8` or `decode_rs8`: the data bytes and where they lie, the parity bytes and where
they are stored. -/
structure CodecCall where
  offset : ℕ
  block : List UInt8
  parityAt : ℕ
  parity : List UInt8
  deriving DecidableEq, Repr

/-! ## The two drivers -/

/-- One pass of the block loop of `write_packet_to_pru_memory`. -/
def encodeBlockOf (rs : ReedSolomon) (blockSize length : ℕ) (state : PacketData × List CodecCall)
    (indexBlock : ℕ) : Except Fault (PacketData × List CodecCall) :=
  let (data, calls) := state
  let block := image data (indexBlock * blockSize) (blockLengthOf blockSize length indexBlock)
  let parityAt := length + indexBlock * eccLen
  if parityAt + eccLen ≤ packetDataLen then
    .ok (store data parityAt (rs.parity block),
      calls ++ [⟨indexBlock * blockSize, block, parityAt, rs.parity block⟩])
  else .error (.outOfBounds packetDataLen)

/-- The bytes that `write_packet_to_pru_memory` copies into the ring, and its calls. -/
def writePacketOf (rs : ReedSolomon) (blockSize : ℕ) (data : PacketData) :
    Except Fault (List UInt8 × List CodecCall) := do
  let length := packetLength (load data 0 2)
  let (data, calls) ← (List.range (numOfBlocksOf blockSize length)).foldlM
    (encodeBlockOf rs blockSize length) (data, [])
  return (image data 0 ((length + eccLen) % 2 ^ 16), calls)

/-- One pass of the block loop of `pru_phy_decoding`. -/
def decodeBlockOf (rs : ReedSolomon) (blockSize datalen : ℕ) (state : Memory × ℕ × List CodecCall)
    (indexBlock : ℕ) : Except Fault (Memory × ℕ × List CodecCall) :=
  let (rxData, totalNumErr, calls) := state
  let parityAt := datalen + indexBlock * eccLen
  if parityAt + eccLen ≤ rxDataLen then
    let parity := image rxData parityAt eccLen
    let block := image rxData (indexBlock * blockSize) (blockLengthOf blockSize datalen indexBlock)
    let (corrected, numErr) := rs.decoderAt (rxData (indexBlock * blockSize)) block parity
    .ok (store rxData (indexBlock * blockSize) corrected, (totalNumErr + ofInt32 numErr) % 2 ^ 32,
      calls ++ [⟨indexBlock * blockSize, block, parityAt, parity⟩])
  else .error (.outOfBounds rxDataLen)

/-- What `pru_phy_decoding` makes of the frame at `readIdx`, and its calls. -/
def readPacketOf (rs : ReedSolomon) (blockSize : ℕ) (pru : Memory) (readIdx : ℕ) :
    Except Fault (Option (List UInt8) × List CodecCall) := do
  if acceptLength (load pru readIdx 2) then
    let datalen := packetLength (load pru readIdx 2)
    let (rxData, totalNumErr, calls) ← (List.range (numOfBlocksOf blockSize datalen)).foldlM
      (decodeBlockOf rs blockSize datalen) (rxBuffer (image pru readIdx (datalen + eccLen)), 0, [])
    return (some (image (markErrors rxData totalNumErr) 0 datalen), calls)
  else return (none, [])

/-- A packet goes through the ring, which carries its bytes unchanged: the calls of both sides. -/
def throughRing (rs : ReedSolomon) (blockSize : ℕ) (data : PacketData) (pru : Memory) (idx : ℕ) :
    Except Fault (List CodecCall × List CodecCall) := do
  let (frame, encoded) ← writePacketOf rs blockSize data
  let (_, decoded) ← readPacketOf rs blockSize (store pru idx frame) idx
  return (encoded, decoded)

/-! ## What is to hold -/

/-- The encoded blocks partition the `n` data bytes, no parity is stored over them, and the decoder is called on
the same blocks with the same parity. -/
structure LayoutAgrees (n : ℕ) (encoded decoded : List CodecCall) : Prop where
  partition : encoded.flatMap (fun c => List.range' c.offset c.block.length) = List.range n
  outside : ∀ c ∈ encoded, n ≤ c.parityAt
  same : decoded = encoded

/-- The last block is not empty, the arrays hold the parity of all blocks, and the parity of every block but
the first is zero, as the receiver reads it. -/
structure LayoutFits (rs : ReedSolomon) (blockSize n : ℕ) (data : PacketData) : Prop where
  remainder : n % blockSize ≠ 0
  fits : n + numOfBlocksOf blockSize n * eccLen ≤ rxDataLen
  zeroParity : ∀ k, 1 ≤ k → k < numOfBlocksOf blockSize n →
    rs.parity (image data (k * blockSize) (blockLengthOf blockSize n k)) = List.replicate eccLen 0

/-! ## The blocks -/

section
variable {blockSize n : ℕ}

theorem numOfBlocksOf_pos (hbs : 0 < blockSize) (hn : 0 < n) : 0 < numOfBlocksOf blockSize n := by
  unfold numOfBlocksOf
  split
  · exact Nat.succ_pos _
  · next h => exact Nat.div_pos (Nat.le_of_dvd hn (Nat.dvd_of_mod_eq_zero (not_not.mp h))) hbs

theorem lastBlock (hbs : 0 < blockSize) (hn : 0 < n) :
    (numOfBlocksOf blockSize n - 1) * blockSize + n % blockSize ≤ n ∧
      ((numOfBlocksOf blockSize n - 1) * blockSize + n % blockSize = n ↔ n % blockSize ≠ 0) := by
  have hsplit := Nat.div_add_mod' n blockSize
  have hpos := numOfBlocksOf_pos hbs hn
  unfold numOfBlocksOf at hpos ⊢
  split
  · next hrem =>
    rw [Nat.add_sub_cancel, hsplit]
    exact ⟨le_rfl, iff_of_true rfl hrem⟩
  · next hrem =>
    rw [if_neg hrem] at hpos
    have hzero := not_not.mp hrem
    rw [hzero, Nat.add_zero] at hsplit
    have hlt : (n / blockSize - 1) * blockSize < n := by
      conv_rhs => rw [← hsplit]
      exact Nat.mul_lt_mul_of_pos_right (by omega) hbs
    rw [hzero, Nat.add_zero]
    exact ⟨hlt.le, iff_of_false hlt.ne (not_not.mpr rfl)⟩

theorem block_le (hbs : 0 < blockSize) (hn : 0 < n) {k : ℕ} (hk : k < numOfBlocksOf blockSize n) :
    k * blockSize + blockLengthOf blockSize n k ≤ n ∧ blockLengthOf blockSize n k ≤ blockSize := by
  have hlast := (lastBlock hbs hn).1
  unfold blockLengthOf
  split
  · next hlt =>
    have hle : (k + 1) * blockSize ≤ (numOfBlocksOf blockSize n - 1) * blockSize :=
      Nat.mul_le_mul_right _ (by omega)
    rw [Nat.add_one_mul] at hle
    exact ⟨by omega, le_rfl⟩
  · next hge =>
    obtain rfl : k = numOfBlocksOf blockSize n - 1 := by omega
    exact ⟨hlast, (Nat.mod_lt n hbs).le⟩


theorem fullBlocks {j : ℕ} (hj : j + 1 ≤ numOfBlocksOf blockSize n) :
    ((List.range j).flatMap fun k => List.range' (k * blockSize) (blockLengthOf blockSize n k)) =
      List.range' 0 (j * blockSize) := by
  induction j with
  | zero => simp
  | succ j ih =>
    have hfull : blockLengthOf blockSize n j = blockSize := if_pos (by omega)
    rw [List.range_succ, List.flatMap_append, ih (by omega), List.flatMap_singleton, hfull, Nat.add_one_mul,
      ← List.range'_append_1, Nat.zero_add]

/-- **The blocks partition the data exactly when the last one is not empty.** -/
theorem partition_iff (hbs : 0 < blockSize) (hn : 0 < n) :
    ((List.range (numOfBlocksOf blockSize n)).flatMap fun k =>
        List.range' (k * blockSize) (blockLengthOf blockSize n k)) = List.range n ↔ n % blockSize ≠ 0 := by
  obtain ⟨j, hj⟩ : ∃ j, numOfBlocksOf blockSize n = j + 1 :=
    ⟨numOfBlocksOf blockSize n - 1, by have := numOfBlocksOf_pos hbs hn; omega⟩
  have hlast : blockLengthOf blockSize n j = n % blockSize := if_neg (by omega)
  have hend := (lastBlock hbs hn).2
  rw [hj, Nat.add_sub_cancel] at hend
  have hall : ((List.range (numOfBlocksOf blockSize n)).flatMap fun k =>
      List.range' (k * blockSize) (blockLengthOf blockSize n k)) = List.range' 0 (j * blockSize + n % blockSize) := by
    rw [hj, List.range_succ, List.flatMap_append, fullBlocks (by omega), List.flatMap_singleton, hlast,
      ← List.range'_append_1, Nat.zero_add]
  rw [hall, List.range_eq_range', ← hend]
  constructor
  · intro heq
    have hlen := congrArg List.length heq
    rwa [List.length_range', List.length_range'] at hlen
  · intro heq
    rw [heq]

end

/-! ## The loops -/

section
variable {rs : ReedSolomon} {blockSize n : ℕ} {data : PacketData}

def encodeCall (rs : ReedSolomon) (blockSize n : ℕ) (data : PacketData) (k : ℕ) : CodecCall :=
  let block := image data (k * blockSize) (blockLengthOf blockSize n k)
  ⟨k * blockSize, block, n + k * eccLen, rs.parity block⟩

def decodeCall (blockSize n : ℕ) (rxData : Memory) (k : ℕ) : CodecCall :=
  ⟨k * blockSize, image rxData (k * blockSize) (blockLengthOf blockSize n k), n + k * eccLen,
    image rxData (n + k * eccLen) eccLen⟩

theorem parity_le {k num limit : ℕ} (hk : k < num) (hfits : n + num * eccLen ≤ limit) :
    n + k * eccLen + eccLen ≤ limit := by
  have hle := Nat.mul_le_mul_right eccLen (Nat.succ_le_of_lt hk)
  rw [Nat.succ_mul] at hle
  omega

/-- After `k` blocks: the data are as they were, and the parity of the first block is right behind them. -/
structure Encoding (rs : ReedSolomon) (blockSize n : ℕ) (data : PacketData) (k : ℕ)
    (state : PacketData × List CodecCall) : Prop where
  calls : state.2 = (List.range k).map (encodeCall rs blockSize n data)
  kept : image state.1 0 n = image data 0 n
  parity : 0 < k → image state.1 n eccLen = (encodeCall rs blockSize n data 0).parity

theorem Encoding.step (hbs : 0 < blockSize) (hn : 0 < n) {k : ℕ} {state : PacketData × List CodecCall}
    (h : Encoding rs blockSize n data k state) (hk : k < numOfBlocksOf blockSize n)
    (hroom : n + k * eccLen + eccLen ≤ packetDataLen) :
    ∃ state', encodeBlockOf rs blockSize n state k = .ok state' ∧ Encoding rs blockSize n data (k + 1) state' := by
  obtain ⟨d, calls⟩ := state
  have hin := (block_le hbs hn hk).1
  have hblock : image d (k * blockSize) (blockLengthOf blockSize n k) =
      image data (k * blockSize) (blockLengthOf blockSize n k) :=
    image_congr fun x _ hlt => image_eq_iff.mp h.kept x (Nat.zero_le x) (by omega)
  refine ⟨(store d (n + k * eccLen) (encodeCall rs blockSize n data k).parity,
    calls ++ [encodeCall rs blockSize n data k]), ?_, ?_, ?_, fun _ => ?_⟩
  · simp only [encodeBlockOf, if_pos hroom, hblock]
    rfl
  · rw [List.range_succ, List.map_append, ← h.calls]
    rfl
  · rw [image_store_disjoint _ _ _ _ _ (Or.inl (by omega))]
    exact h.kept
  · by_cases hzero : k = 0
    · subst hzero
      have hstore := image_store d n (encodeCall rs blockSize n data 0).parity
      rw [encodeCall, ReedSolomon.parity_length] at hstore
      rw [Nat.zero_mul, Nat.add_zero]
      exact hstore
    · have hfar : n + eccLen ≤ n + k * eccLen :=
        Nat.add_le_add_left (Nat.le_mul_of_pos_left _ (Nat.pos_of_ne_zero hzero)) n
      rw [image_store_disjoint _ _ _ _ _ (Or.inl hfar)]
      exact h.parity (Nat.pos_of_ne_zero hzero)

variable (rs data) in
theorem encodeBlocks_ok (hbs : 0 < blockSize) (hn : 0 < n)
    (hfits : n + numOfBlocksOf blockSize n * eccLen ≤ packetDataLen) :
    ∃ state, (List.range (numOfBlocksOf blockSize n)).foldlM (encodeBlockOf rs blockSize n) (data, []) = .ok state ∧
      Encoding rs blockSize n data (numOfBlocksOf blockSize n) state :=
  foldlM_range_returns ⟨rfl, rfl, fun h => absurd h (lt_irrefl 0)⟩ fun _ hk _ h =>
    h.step hbs hn hk (parity_le hk hfits)

/-- After `k` blocks: the buffer is as it was from block `k` on and behind the data. -/
structure Decoding (blockSize n : ℕ) (rxData : Memory) (k : ℕ) (state : Memory × ℕ × List CodecCall) : Prop where
  calls : state.2.2 = (List.range k).map (decodeCall blockSize n rxData)
  rest : ∀ x, k * blockSize ≤ x ∨ n ≤ x → state.1 x = rxData x

theorem Decoding.step {rxData : Memory} (hbs : 0 < blockSize) (hn : 0 < n)
    (hdecode : ∀ first block parity, (rs.decoderAt first block parity).1.length = block.length) {k : ℕ}
    {state : Memory × ℕ × List CodecCall} (h : Decoding blockSize n rxData k state)
    (hk : k < numOfBlocksOf blockSize n) (hroom : n + k * eccLen + eccLen ≤ rxDataLen) :
    ∃ state', decodeBlockOf rs blockSize n state k = .ok state' ∧ Decoding blockSize n rxData (k + 1) state' := by
  obtain ⟨d, totalNumErr, calls⟩ := state
  obtain ⟨hin, hle⟩ := block_le hbs hn hk
  have hblock : image d (k * blockSize) (blockLengthOf blockSize n k) = (decodeCall blockSize n rxData k).block :=
    image_congr fun x hx _ => h.rest x (Or.inl hx)
  have hparity : image d (n + k * eccLen) eccLen = (decodeCall blockSize n rxData k).parity :=
    image_congr fun x hx _ => h.rest x (Or.inr (by omega))
  have hlen := hdecode (d (k * blockSize)) (decodeCall blockSize n rxData k).block
    (decodeCall blockSize n rxData k).parity
  rcases hcall : rs.decoderAt (d (k * blockSize)) (decodeCall blockSize n rxData k).block
    (decodeCall blockSize n rxData k).parity with ⟨corrected, numErr⟩
  rw [hcall] at hlen
  have hlen' : corrected.length = blockLengthOf blockSize n k := hlen.trans (image_length _ _ _)
  refine ⟨(store d (k * blockSize) corrected, (totalNumErr + ofInt32 numErr) % 2 ^ 32,
    calls ++ [decodeCall blockSize n rxData k]), ?_, ?_, fun x hx => ?_⟩
  · simp only [decodeBlockOf, if_pos hroom, hblock, hparity, hcall]
    rfl
  · rw [List.range_succ, List.map_append, ← h.calls]
    rfl
  · rw [Nat.succ_mul] at hx
    have hbehind : k * blockSize + corrected.length ≤ x := by omega
    exact (store_outside d _ corrected x (Or.inr hbehind)).trans (h.rest x (Or.inl (by omega)))

variable (rs) in
theorem decodeBlocks_ok (rxData : Memory) (hbs : 0 < blockSize) (hn : 0 < n)
    (hdecode : ∀ first block parity, (rs.decoderAt first block parity).1.length = block.length)
    (hfits : n + numOfBlocksOf blockSize n * eccLen ≤ rxDataLen) :
    ∃ state, (List.range (numOfBlocksOf blockSize n)).foldlM (decodeBlockOf rs blockSize n) (rxData, 0, []) =
        .ok state ∧ Decoding blockSize n rxData (numOfBlocksOf blockSize n) state :=
  foldlM_range_returns ⟨rfl, fun _ _ => rfl⟩ fun _ hk _ h => h.step hbs hn hdecode hk (parity_le hk hfits)

theorem fits_of_decodeBlocks {rxData : Memory} (hbs : 0 < blockSize) (hn : 0 < n)
    {state : Memory × ℕ × List CodecCall}
    (h : (List.range (numOfBlocksOf blockSize n)).foldlM (decodeBlockOf rs blockSize n) (rxData, 0, []) = .ok state) :
    n + numOfBlocksOf blockSize n * eccLen ≤ rxDataLen := by
  obtain ⟨j, hj⟩ : ∃ j, numOfBlocksOf blockSize n = j + 1 :=
    ⟨numOfBlocksOf blockSize n - 1, by have := numOfBlocksOf_pos hbs hn; omega⟩
  obtain ⟨u, v, hstep⟩ := foldlM_each h j (List.mem_range.mpr (by omega))
  simp only [decodeBlockOf] at hstep
  split at hstep
  · next hroom =>
    rw [hj, Nat.succ_mul]
    omega
  · cases hstep

theorem fits_of_encodeBlocks (hbs : 0 < blockSize) (hn : 0 < n) {state : PacketData × List CodecCall}
    (h : (List.range (numOfBlocksOf blockSize n)).foldlM (encodeBlockOf rs blockSize n) (data, []) = .ok state) :
    n + numOfBlocksOf blockSize n * eccLen ≤ packetDataLen := by
  obtain ⟨j, hj⟩ : ∃ j, numOfBlocksOf blockSize n = j + 1 :=
    ⟨numOfBlocksOf blockSize n - 1, by have := numOfBlocksOf_pos hbs hn; omega⟩
  obtain ⟨u, v, hstep⟩ := foldlM_each h j (List.mem_range.mpr (by omega))
  simp only [encodeBlockOf] at hstep
  split at hstep
  · next hroom =>
    rw [hj, Nat.succ_mul]
    omega
  · cases hstep

/-! ## At the default block size -/

theorem encodeBlocks_default (hfits : n + numOfBlocks n * eccLen ≤ packetDataLen) :
    ∃ calls, (List.range (numOfBlocks n)).foldlM (encodeBlockOf rs Kernel.blockSize n) (data, []) =
      .ok ((List.range (numOfBlocks n)).foldl (encodeBlock rs n) data, calls) := by
  obtain ⟨⟨data', calls⟩, hrun, rfl⟩ := foldlM_range_returns (f := encodeBlockOf rs Kernel.blockSize n)
    (I := fun k state => state.1 = (List.range k).foldl (encodeBlock rs n) data) (n := numOfBlocks n)
    (s := (data, [])) rfl (by
      rintro k hk ⟨d, calls⟩ rfl
      simp only [encodeBlockOf, if_pos (parity_le hk hfits)]
      exact ⟨_, rfl, by rw [List.range_succ, List.foldl_append]; rfl⟩)
  exact ⟨calls, hrun⟩

theorem decodeBlocks_default {rxData : Memory} (hfits : n + numOfBlocks n * eccLen ≤ rxDataLen) :
    ∃ rxData' totalNumErr calls,
      (List.range (numOfBlocks n)).foldlM (decodeBlockOf rs Kernel.blockSize n) (rxData, 0, []) =
        .ok (rxData', totalNumErr, calls) ∧
      (List.range (numOfBlocks n)).foldl (decodeBlock rs n) (rxData, 0) = (rxData', totalNumErr) := by
  obtain ⟨⟨rxData', totalNumErr, calls⟩, hrun, hfold⟩ :=
    foldlM_range_returns (f := decodeBlockOf rs Kernel.blockSize n)
    (I := fun k state => (List.range k).foldl (decodeBlock rs n) (rxData, 0) = (state.1, state.2.1))
    (n := numOfBlocks n) (s := (rxData, 0, [])) rfl (by
      rintro k hk ⟨d, err, calls⟩ hfold
      simp only [decodeBlockOf, if_pos (parity_le hk hfits)]
      refine ⟨_, rfl, ?_⟩
      rw [List.range_succ, List.foldl_append, hfold]
      rfl)
  exact ⟨rxData', totalNumErr, calls, hrun, hfold⟩

/-! ## Through the ring -/

def storedFrame (rs : ReedSolomon) (blockSize n : ℕ) (data : PacketData) : List UInt8 :=
  image data 0 n ++ (encodeCall rs blockSize n data 0).parity

theorem storedFrame_length : (storedFrame rs blockSize n data).length = n + eccLen := by
  rw [storedFrame, List.length_append, image_length, encodeCall, ReedSolomon.parity_length]

variable (rs blockSize n data) in
theorem rxBuffer_storedFrame :
    image (rxBuffer (storedFrame rs blockSize n data)) 0 n = image data 0 n ∧
      image (rxBuffer (storedFrame rs blockSize n data)) n eccLen = (encodeCall rs blockSize n data 0).parity ∧
      ∀ x, n + eccLen ≤ x → rxBuffer (storedFrame rs blockSize n data) x = 0 := by
  have hall := image_store (fun _ => 0) 0 (storedFrame rs blockSize n data)
  rw [storedFrame_length, image_add, Nat.zero_add] at hall
  obtain ⟨hdata, hparity⟩ := List.append_inj hall (by rw [image_length, image_length])
  refine ⟨hdata, hparity, fun x hx => store_outside _ _ _ _ (Or.inr ?_)⟩
  rw [storedFrame_length]
  omega

/-- The decoder is called on the same blocks, with the first parity or with zeros. -/
theorem decodeCall_eq (hbs : 0 < blockSize) (hn : 0 < n) {k : ℕ} (hk : k < numOfBlocksOf blockSize n) :
    decodeCall blockSize n (rxBuffer (storedFrame rs blockSize n data)) k =
      { encodeCall rs blockSize n data k with
        parity := if k = 0 then (encodeCall rs blockSize n data k).parity else List.replicate eccLen 0 } := by
  obtain ⟨hdata, hparity, hzero⟩ := rxBuffer_storedFrame rs blockSize n data
  have hin := (block_le hbs hn hk).1
  have hblock : image (rxBuffer (storedFrame rs blockSize n data)) (k * blockSize) (blockLengthOf blockSize n k) =
      image data (k * blockSize) (blockLengthOf blockSize n k) :=
    image_congr fun x _ hlt => image_eq_iff.mp hdata x (Nat.zero_le x) (by omega)
  rw [decodeCall, hblock]
  split
  · next hk0 =>
    subst hk0
    rw [show n + 0 * eccLen = n by omega, hparity]
    simp [encodeCall]
  · next hk0 =>
    have hfar : n + eccLen ≤ n + k * eccLen :=
      Nat.add_le_add_left (Nat.le_mul_of_pos_left _ (Nat.pos_of_ne_zero hk0)) n
    have hnone : image (rxBuffer (storedFrame rs blockSize n data)) (n + k * eccLen) eccLen =
        List.replicate eccLen 0 :=
      List.eq_replicate_iff.mpr ⟨image_length _ _ _, fun b hb => by
        obtain ⟨i, _, rfl⟩ := List.mem_map.mp hb
        exact hzero _ (by omega)⟩
    rw [hnone]
    rfl

variable {len idx : ℕ} {pru : Memory}

theorem packetLength_of_accept (haccept : acceptLength len = true) :
    packetLength len = len + 10 ∧ len + 10 ≤ 160 := by
  rw [acceptLength, decide_eq_true_iff] at haccept
  simp only [mtuValue] at haccept
  have hother : otherPacketContentByte + 2 = 10 := rfl
  rw [packetLength, hother]
  omega

variable (rs) in
theorem writePacketOf_ok (hbs : 0 < blockSize) (haccept : acceptLength (load data 0 2) = true)
    (hn : load data 0 2 + 10 = n) (hfits : n + numOfBlocksOf blockSize n * eccLen ≤ packetDataLen) :
    writePacketOf rs blockSize data = .ok (storedFrame rs blockSize n data,
      (List.range (numOfBlocksOf blockSize n)).map (encodeCall rs blockSize n data)) := by
  obtain ⟨hlen, hle⟩ := packetLength_of_accept haccept
  rw [hn] at hlen hle
  have hpos : 0 < n := by omega
  obtain ⟨⟨data', calls⟩, hrun, henc⟩ := encodeBlocks_ok rs data hbs hpos hfits
  have hmod : (n + eccLen) % 2 ^ 16 = n + eccLen := Nat.mod_eq_of_lt (by simp only [eccLen]; omega)
  rw [writePacketOf]
  simp only [hlen, hrun, ok_bind, hmod, pure_eq_ok]
  rw [image_add, Nat.zero_add, henc.kept, henc.parity (numOfBlocksOf_pos hbs hpos), ← henc.calls]
  rfl

theorem readPacketOf_eq (haccept : acceptLength (load data 0 2) = true) (hn : load data 0 2 + 10 = n) :
    readPacketOf rs blockSize (store pru idx (storedFrame rs blockSize n data)) idx = (do
      let (rxData, totalNumErr, calls) ← (List.range (numOfBlocksOf blockSize n)).foldlM
        (decodeBlockOf rs blockSize n) (rxBuffer (storedFrame rs blockSize n data), 0, [])
      return (some (image (markErrors rxData totalNumErr) 0 n), calls)) := by
  obtain ⟨hlen, _⟩ := packetLength_of_accept haccept
  have hstored := image_store pru idx (storedFrame rs blockSize n data)
  rw [storedFrame_length] at hstored
  have hload : load (store pru idx (storedFrame rs blockSize n data)) idx 2 = load data 0 2 := by
    have hsplit := hstored
    rw [show n + eccLen = 2 + (n + eccLen - 2) by omega, image_add] at hsplit
    have hdata : image data 0 n = image data 0 2 ++ image data 2 (n - 2) := by
      rw [show n = 2 + (n - 2) by omega, image_add, Nat.zero_add, Nat.add_sub_cancel_left]
    rw [storedFrame, hdata, List.append_assoc] at hsplit
    have hfront := (List.append_inj hsplit (by rw [image_length, image_length])).1
    rw [load, load]
    congr 1
    rw [storedFrame, hdata, List.append_assoc]
    exact hfront
  rw [readPacketOf, hload, if_pos haccept]
  simp only [hlen, hn, hstored]

theorem throughRing_ok (hbs : 0 < blockSize)
    (hdecode : ∀ first block parity, (rs.decoderAt first block parity).1.length = block.length)
    (haccept : acceptLength (load data 0 2) = true) (hn : load data 0 2 + 10 = n)
    (hfits : n + numOfBlocksOf blockSize n * eccLen ≤ rxDataLen) :
    throughRing rs blockSize data pru idx =
      .ok ((List.range (numOfBlocksOf blockSize n)).map (encodeCall rs blockSize n data),
        (List.range (numOfBlocksOf blockSize n)).map
          (decodeCall blockSize n (rxBuffer (storedFrame rs blockSize n data)))) := by
  have hpos : 0 < n := by omega
  have hwrite := writePacketOf_ok rs hbs haccept hn
    (hfits.trans (show rxDataLen ≤ packetDataLen by decide))
  obtain ⟨⟨rxData, totalNumErr, calls⟩, hrun, hdec⟩ := decodeBlocks_ok rs
    (rxBuffer (storedFrame rs blockSize n data)) hbs hpos hdecode hfits
  rw [throughRing, hwrite, ok_bind]
  simp only [readPacketOf_eq haccept hn, hrun, ok_bind, pure_eq_ok]
  rw [← hdec.calls]

theorem fits_of_throughRing (hbs : 0 < blockSize) (haccept : acceptLength (load data 0 2) = true)
    (hn : load data 0 2 + 10 = n) {calls : List CodecCall × List CodecCall}
    (h : throughRing rs blockSize data pru idx = .ok calls) :
    n + numOfBlocksOf blockSize n * eccLen ≤ rxDataLen := by
  obtain ⟨hlen, _⟩ := packetLength_of_accept haccept
  rw [hn] at hlen
  have hpos : 0 < n := by omega
  have hwrites : n + numOfBlocksOf blockSize n * eccLen ≤ packetDataLen := by
    obtain ⟨written, hwrite, _⟩ := bind_eq_ok.mp h
    rw [writePacketOf] at hwrite
    simp only [hlen] at hwrite
    obtain ⟨state, hrun, _⟩ := bind_eq_ok.mp hwrite
    exact fits_of_encodeBlocks hbs hpos hrun
  rw [throughRing, writePacketOf_ok rs hbs haccept hn hwrites, ok_bind] at h
  simp only [readPacketOf_eq haccept hn] at h
  obtain ⟨read, hread, _⟩ := bind_eq_ok.mp h
  obtain ⟨state, hrun, _⟩ := bind_eq_ok.mp hread
  exact fits_of_decodeBlocks hbs hpos hrun

/-- The calls agree when the last block is not empty and the later parities are zero. -/
theorem layoutAgrees_calls_iff (hbs : 0 < blockSize) (hpos : 0 < n) :
    LayoutAgrees n ((List.range (numOfBlocksOf blockSize n)).map (encodeCall rs blockSize n data))
        ((List.range (numOfBlocksOf blockSize n)).map
          (decodeCall blockSize n (rxBuffer (storedFrame rs blockSize n data)))) ↔
      n % blockSize ≠ 0 ∧ ∀ k, 1 ≤ k → k < numOfBlocksOf blockSize n →
        rs.parity (image data (k * blockSize) (blockLengthOf blockSize n k)) = List.replicate eccLen 0 := by
  have hparts : ((List.range (numOfBlocksOf blockSize n)).map (encodeCall rs blockSize n data)).flatMap
      (fun c => List.range' c.offset c.block.length) = List.range n ↔ n % blockSize ≠ 0 := by
    rw [← partition_iff hbs hpos, List.flatMap_map]
    simp only [encodeCall, image_length]
  constructor
  · intro h
    refine ⟨hparts.mp h.partition, fun k hk hlt => ?_⟩
    have hsame := List.map_inj_left.mp h.same k (List.mem_range.mpr hlt)
    rw [decodeCall_eq hbs hpos hlt, if_neg (by omega)] at hsame
    exact (congrArg CodecCall.parity hsame).symm
  · rintro ⟨hrem, hzero⟩
    refine ⟨hparts.mpr hrem, fun c hc => ?_, List.map_inj_left.mpr fun k hk => ?_⟩
    · obtain ⟨k, _, rfl⟩ := List.mem_map.mp hc
      exact Nat.le_add_right n _
    · have hlt := List.mem_range.mp hk
      rw [decodeCall_eq hbs hpos hlt]
      split
      · rfl
      · next hk0 =>
        rw [← hzero k (by omega) hlt]
        rfl

end

/-- A packet of the gateway with `block_size` 84: the only block is handed over as empty. -/
theorem exact_multiple_leaves_data_out :
    let rs : ReedSolomon := ⟨fun _ par => par, fun _ block _ => (block, 0)⟩
    let data : PacketData := store (fun _ => 0) 0 (littleEndian 2 payloadLen)
    ¬ ∃ encoded decoded, throughRing rs 84 data (fun _ => 0) 4 = .ok (encoded, decoded) ∧
      LayoutAgrees (load data 0 2 + 10) encoded decoded := by
  intro rs data
  have hload : load data 0 2 = payloadLen := by decide
  have hdecode : ∀ first block parity, (rs.decoderAt first block parity).1.length = block.length := fun _ _ _ => rfl
  have hrun := @throughRing_ok rs 84 84 data 4 (fun _ => 0) (by decide)
    hdecode (by rw [hload]; decide) (by rw [hload]; rfl) (by decide)
  rintro ⟨encoded, decoded, heq, h⟩
  rw [hrun] at heq
  cases heq
  rw [hload] at h
  exact ((layoutAgrees_calls_iff (by decide) (by decide)).mp h).1 rfl

/-- **When both drivers agree on the blocks.** The last block is not empty, the parity of all blocks lies inside
the arrays, and every block but the first has the parity zero. -/
theorem layoutAgrees_iff (rs : ReedSolomon) (blockSize : ℕ) (data : PacketData) (pru : Memory) (idx : ℕ)
    (hbs : 0 < blockSize) (haccept : acceptLength (load data 0 2) = true)
    (hdecode : ∀ first block parity, (rs.decoderAt first block parity).1.length = block.length) :
    (∃ encoded decoded, throughRing rs blockSize data pru idx = .ok (encoded, decoded) ∧
      LayoutAgrees (load data 0 2 + 10) encoded decoded) ↔
      LayoutFits rs blockSize (load data 0 2 + 10) data := by
  have hpos : 0 < load data 0 2 + 10 := by omega
  constructor
  · rintro ⟨encoded, decoded, hrun, h⟩
    have hfits := fits_of_throughRing hbs haccept rfl hrun
    rw [throughRing_ok hbs hdecode haccept rfl hfits] at hrun
    cases hrun
    obtain ⟨hrem, hzero⟩ := (layoutAgrees_calls_iff hbs hpos).mp h
    exact ⟨hrem, hfits, hzero⟩
  · intro h
    exact ⟨_, _, throughRing_ok hbs hdecode haccept rfl h.fits,
      (layoutAgrees_calls_iff hbs hpos).mpr ⟨h.remainder, h.zeroParity⟩⟩

/-- A packet of the gateway in blocks of fifty bytes, with the library of the drivers: the second block is all zero, so
its parity is. -/
theorem layoutAgrees_iff_two_blocks :
    let data : PacketData := store (fun _ => 0) 0 (littleEndian 2 payloadLen)
    ∃ rs, initRs clearedMemory = .ok rs ∧ ∃ encoded decoded,
      throughRing (rsLibrary rs) 50 data (fun _ => 0) 4 = .ok (encoded, decoded) ∧
        LayoutAgrees (load data 0 2 + 10) encoded decoded := by
  intro data
  have hload : load data 0 2 = payloadLen := by decide
  obtain ⟨rs, hrs⟩ := initRs_ok clearedMemory_sized
  refine ⟨rs, hrs, (layoutAgrees_iff (rsLibrary rs) 50 data (fun _ => 0) 4 (by decide) (by rw [hload]; decide)
    (decoderAt_length rs)).mpr ?_⟩
  rw [hload]
  refine ⟨by decide, by decide, fun k h1 h2 => ?_⟩
  have htwo : numOfBlocksOf 50 (payloadLen + 10) = 2 := by decide
  obtain rfl : k = 1 := by omega
  have hblock : image data (1 * 50) (blockLengthOf 50 (payloadLen + 10) 1) = List.replicate 34 0 := by decide
  rw [hblock]
  exact parity_zeros clearedMemory_sized hrs (by decide)

end CiotVlc.Kernel
