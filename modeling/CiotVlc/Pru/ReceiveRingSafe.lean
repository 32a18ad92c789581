import CiotVlc.Foundations.LineCode
import CiotVlc.Pru.ReceiveRing

/-! # The receive ring is safe

Frames are numbered: the firmware writes frame `completed.length`, the thread reads frame `d`, and both
indices are the slots of these numbers. The ring holds fewer than 60 frames, so the slot that the
firmware writes is never one that the thread has still to read.
-/
namespace CiotVlc.Pru
open Foundations.Bytes Foundations.LineCode Foundations.Registers Foundations.FrameRing Foundations.Runs
open CiotVlc.Kernel (acceptLength packetLength nextReadIdx eccLen ReedSolomon decodeFrame pruPhyDecoding)
set_option autoImplicit false

/-- Sixty frames of a hundred bytes, up to `BUFFER_LIMIT`. -/
def frameRing : RingShape := ⟨4, 100, 60, by decide, by decide⟩

theorem onSlot_slot (k : ℕ) : OnSlot (frameRing.slot k) := by
  have hlt := Nat.mod_lt k (show 0 < 60 by decide)
  change 4 ≤ 4 + 100 * (k % 60) ∧ 4 + 100 * (k % 60) ≤ 5904 ∧ (4 + 100 * (k % 60)) % 100 = 4
  omega

theorem slot_lt (k : ℕ) : frameRing.slot k < 256 ^ 2 := by
  have := onSlot_slot k
  unfold OnSlot at this
  omega

theorem slot_add_le (k : ℕ) : frameRing.slot k + frameSize ≤ bufferLimit := frameRing.slot_add_size_le k

theorem wrapOffset_slot (k : ℕ) : wrapOffset (frameRing.slot k + frameSize) = frameRing.slot (k + 1) := by
  rw [RingShape.slot_succ, wrapOffset]
  change (if bufferLimit > frameRing.slot k + 100 then _ else 4) =
    if bufferLimit ≤ frameRing.slot k + 100 then 4 else frameRing.slot k + 100
  split <;> split <;> first | rfl | omega

theorem nextReadIdx_slot (k : ℕ) : nextReadIdx (frameRing.slot k) 84 = frameRing.slot (k + 1) := by
  have hle := slot_add_le k
  have hsum : (frameRing.slot k + (84 + eccLen)) % 2 ^ 16 = frameRing.slot k + 100 := by
    have hsize : frameSize = 100 := rfl
    have hlimit : bufferLimit = 6004 := rfl
    have hecc : eccLen = 16 := rfl
    omega
  rw [RingShape.slot_succ, nextReadIdx, hsum]
  rfl

/-! ## The invariant -/

/-- The thread at frame `d`. -/
def PollAt (completed copied : List Frame) (d : ℕ) : PollPc → Prop
  | .readRead => copied = completed.take d
  | .readWrite r => r = frameRing.slot d ∧ copied = completed.take d
  | .readLength r => r = frameRing.slot d ∧ d < completed.length ∧ copied = completed.take d
  | .copy r datalen bytes =>
    r = frameRing.slot d ∧ datalen = 84 ∧ copied = completed.take d ∧ d < completed.length ∧
      bytes.length ≤ 100 ∧ ∀ f ∈ completed[d]?, bytes = f.bytes.take bytes.length
  | .release r datalen =>
    r = frameRing.slot d ∧ datalen = 84 ∧ d < completed.length ∧ copied = completed.take (d + 1)

/-- The firmware at the frame behind the completed ones. -/
structure FrameInProgress (s : RxRing) (n : ℕ) : Prop where
  at_ : RxAt (frameRing.slot s.completed.length) n s.rx
  length : n ≠ 0 → s.current.length = n
  stored : n ≠ 0 → image s.mem (frameRing.slot s.completed.length) n = s.current
  header : n ≠ 0 → s.current.take 2 = littleEndian 2 payloadLen

structure RingInv (s : RxRing) (d n : ℕ) : Prop where
  le : d ≤ s.completed.length
  room : s.completed.length < d + 60
  readWord : load s.mem 2 2 = frameRing.slot d
  writeWord : load s.mem 0 2 = frameRing.slot s.completed.length
  starts : ∀ j (h : j < s.completed.length), s.completed[j].start = frameRing.slot j
  frames : ∀ f ∈ s.completed, f.bytes.length = 100 ∧ f.bytes.take 2 = littleEndian 2 payloadLen
  holds : HoldsFrom frameRing s.mem (s.completed.map Frame.bytes) d
  thread : PollAt s.completed s.copied d s.pc
  firmware : FrameInProgress s n

theorem ringInv_start (pru : Memory) : RingInv (rxRingStart pru) 0 0 := by
  have hwords := image_store pru 0 (littleEndian 2 4 ++ littleEndian 2 4)
  obtain ⟨hwrite, hread⟩ := image_append_iff.mp hwords
  exact
    { le := le_rfl
      room := Nat.zero_lt_succ _
      readWord := congrArg ofLittleEndian hread
      writeWord := congrArg ofLittleEndian hwrite
      starts := fun j h => absurd h (Nat.not_lt_zero j)
      frames := fun f hf => absurd hf List.not_mem_nil
      holds := fun j h _ => absurd h (Nat.not_lt_zero j)
      thread := rfl
      firmware := ⟨.search ⟨Nat.two_pow_pos 16, Nat.two_pow_pos 16⟩ ⟨rfl, Or.inl rfl⟩, fun h => absurd rfl h,
        fun h => absurd rfl h, fun h => absurd rfl h⟩ }

/-! ## Steps of the firmware -/

section
variable {s s' : RxRing} {d n : ℕ}

theorem load_index (m : Memory) (a k : ℕ) :
    load (store m a (littleEndian 2 (frameRing.slot k))) a 2 = frameRing.slot k := by
  rw [load_store, Nat.mod_eq_of_lt (slot_lt k)]

theorem RingInv.idle (h : RingInv s d n) {rx : RxState}
    (hat : RxAt (frameRing.slot s.completed.length) n rx) : RingInv { s with rx } d n :=
  { h with firmware := ⟨hat, h.firmware.length, h.firmware.stored, h.firmware.header⟩ }

theorem RingInv.record (h : RingInv s d n) {rx : RxState} {bs : List UInt8}
    (hat : RxAt (frameRing.slot s.completed.length) (n + bs.length) rx)
    (hbs : n = 0 ∧ s.rx.r14 = 1 ∧ bs = littleEndian 2 payloadLen ∨ n ≠ 0 ∧ s.rx.r14 = 2 ∧ bs.length = 1) :
    let st : Store := ⟨frameRing.slot s.completed.length + n, bs⟩
    RingInv { s with rx, mem := applyStore s.mem (some st), current := s.record (some st) } d
      (n + bs.length) := by
  intro st
  have hslot := onSlot_slot s.completed.length
  have hle : n + bs.length ≤ 100 := hat.le
  have hframes : (s.completed.map Frame.bytes).length = s.completed.length := List.length_map _
  have hword : ∀ a, a + 2 ≤ 4 → load (applyStore s.mem (some st)) a 2 = load s.mem a 2 := fun a ha =>
    load_store_disjoint _ _ _ _ _ (Or.inl (by
      change a + 2 ≤ frameRing.slot s.completed.length + n
      have := hslot.1
      omega))
  refine { h with
    readWord := by rw [hword 2 (by omega)]; exact h.readWord
    writeWord := by rw [hword 0 (by omega)]; exact h.writeWord
    holds := h.holds.store_next ?_ ?_ ?_
    firmware := ?_ }
  · rw [hframes]
    exact h.room
  · rw [hframes]
    exact Nat.le_add_right _ _
  · rw [hframes, Nat.add_assoc]
    exact Nat.add_le_add_left hle _
  · rcases hbs with ⟨rfl, h14, rfl⟩ | ⟨hn, h14, hlen⟩
    · have hcurrent : s.record (some st) = littleEndian 2 payloadLen := if_pos h14
      refine ⟨hat, fun _ => ?_, fun _ => ?_, fun _ => ?_⟩
      · rw [hcurrent, Nat.zero_add]
      · rw [hcurrent, Nat.zero_add]
        exact image_store _ _ _
      · rw [hcurrent]
        rfl
    · have hcurrent : s.record (some st) = s.current ++ bs := if_neg (by omega)
      have hstored := h.firmware.stored hn
      have hkeep : image (applyStore s.mem (some st)) (frameRing.slot s.completed.length) n = s.current := by
        rw [← hstored]
        exact image_store_disjoint _ _ _ _ _ (Or.inl le_rfl)
      refine ⟨hat, fun _ => ?_, fun _ => ?_, fun _ => ?_⟩
      · rw [hcurrent, List.length_append, h.firmware.length hn]
      · rw [hcurrent, image_add, hkeep]
        exact congrArg _ (image_store _ _ _)
      · have hlong : 2 ≤ s.current.length := by
          have := congrArg List.length (h.firmware.header hn)
          rw [List.length_take, littleEndian_length] at this
          omega
        rw [hcurrent, List.take_append_of_le_length hlong]
        exact h.firmware.header hn

theorem PollAt.push {completed copied : List Frame} {pc : PollPc} (h : PollAt completed copied d pc)
    (hd : d ≤ completed.length) (f : Frame) : PollAt (completed ++ [f]) copied d pc := by
  have htake : (completed ++ [f]).take d = completed.take d := List.take_append_of_le_length hd
  have hlt : ∀ {k}, k < completed.length → k < (completed ++ [f]).length := fun hk => by
    rw [List.length_append]
    omega
  cases pc with
  | readRead => exact Eq.trans h htake.symm
  | readWrite r => exact ⟨h.1, h.2.trans htake.symm⟩
  | readLength r => exact ⟨h.1, hlt h.2.1, h.2.2.trans htake.symm⟩
  | copy r datalen bytes =>
    obtain ⟨hr, hlen, hcopied, hlt', hle, hbytes⟩ := h
    refine ⟨hr, hlen, hcopied.trans htake.symm, hlt hlt', hle, ?_⟩
    rwa [List.getElem?_append_left hlt']
  | release r datalen =>
    obtain ⟨hr, hlen, hlt', hcopied⟩ := h
    refine ⟨hr, hlen, hlt hlt', ?_⟩
    rw [List.take_append_of_le_length (by omega)]
    exact hcopied

theorem RingInv.publish (h : RingInv s d frameSize) {rx : RxState}
    (hat : RxAt (frameRing.slot (s.completed.length + 1)) 0 rx)
    (hfree : load s.mem 2 2 ≠ frameRing.slot (s.completed.length + 1)) :
    RingInv { s with
      rx
      mem := store s.mem 0 (littleEndian 2 (frameRing.slot (s.completed.length + 1)))
      completed := s.completed ++ [⟨load s.mem 0 2, s.current⟩] } d 0 := by
  have hlen : (s.completed ++ [(⟨load s.mem 0 2, s.current⟩ : Frame)]).length =
      s.completed.length + 1 := by
    rw [List.length_append, List.length_singleton]
  have hn : frameSize ≠ 0 := by decide
  have hnext : s.completed.length + 1 ≠ d + 60 := by
    intro heq
    rw [heq, h.readWord] at hfree
    exact hfree (RingShape.slot_add_slots (R := frameRing) d).symm
  have hroom := h.room
  have hle := h.le
  have hmap : (s.completed ++ [(⟨load s.mem 0 2, s.current⟩ : Frame)]).map Frame.bytes =
      s.completed.map Frame.bytes ++ [s.current] := by simp
  refine ⟨?_, ?_, ?_, ?_, ?_, ?_, ?_, h.thread.push hle _, ?_⟩
  · rw [hlen]
    omega
  · rw [hlen]
    omega
  · rw [load_store_disjoint _ _ _ _ _ (Or.inr (by rw [littleEndian_length]))]
    exact h.readWord
  · rw [hlen]
    exact load_index _ _ _
  · intro j hj
    rw [hlen] at hj
    rcases Nat.lt_succ_iff_lt_or_eq.mp hj with hlt | rfl
    · rw [List.getElem_append_left hlt]
      exact h.starts j hlt
    · rw [List.getElem_concat_length rfl]
      exact h.writeWord
  · intro f hf
    rcases List.mem_append.mp hf with hmem | hmem
    · exact h.frames f hmem
    · rw [List.mem_singleton.mp hmem]
      exact ⟨h.firmware.length hn, h.firmware.header hn⟩
  · rw [hmap]
    refine HoldsFrom.store_front ?_ (by rw [littleEndian_length]; decide)
    refine h.holds.push ?_
    rw [List.length_map]
    exact h.firmware.stored hn
  · rw [← hlen] at hat
    exact ⟨hat, fun h0 => absurd rfl h0, fun h0 => absurd rfl h0, fun h0 => absurd rfl h0⟩

theorem ringInv_symbol (h : RingInv s d n) {high : Bool} (hs : ringStep s (.symbol high) = some s') :
    ∃ n', RingInv s' d n' := by
  simp only [ringStep, RxRing.pass] at hs
  split at hs
  · next hc =>
    cases hs
    have hspec := rxBit_advances (m := s.mem) h.firmware.at_ hc h.writeWord (slot_add_le _) high.toNat
    generalize rxBit s.rx s.mem high.toNat = pass at hspec ⊢
    obtain ⟨rx, st⟩ := pass
    rcases hspec with ⟨hnone, hat⟩ | ⟨bs, hsome, hat, hbs⟩
    · cases hnone
      exact ⟨n, h.idle hat⟩
    · cases hsome
      exact ⟨n + bs.length, h.record hat hbs⟩
  · cases hs

theorem ringInv_final (h : RingInv s d n) (hs : ringStep s .final = some s') : ∃ n', RingInv s' d n' := by
  simp only [ringStep, RxRing.pass] at hs
  split at hs
  · next hc =>
    cases hs
    obtain ⟨rfl, hspec⟩ := rxFinal_spec (m := s.mem) h.firmware.at_ hc
    rw [wrapOffset_slot] at hspec
    generalize rxFinal s.rx s.mem = pass at hspec ⊢
    obtain ⟨rx, st⟩ := pass
    rcases hspec with ⟨-, hnone, hat⟩ | ⟨hfree, hsome, hat⟩
    · cases hnone
      exact ⟨frameSize, h.idle hat⟩
    · cases hsome
      exact ⟨0, h.publish (hat _) hfree⟩
  · cases hs

/-! ## Steps of the thread -/

theorem RingInv.image_frame (h : RingInv s d n) (hd : d < s.completed.length) :
    image s.mem (frameRing.slot d) 100 = s.completed[d].bytes := by
  have hholds := h.holds d (by rwa [List.length_map]) le_rfl
  rwa [List.getElem_map] at hholds

/-- The thread never sees another length than the firmware's. -/
theorem RingInv.load_length (h : RingInv s d n) (hd : d < s.completed.length) :
    load s.mem (frameRing.slot d) 2 = payloadLen := by
  have himage := h.image_frame hd
  rw [show (100 : ℕ) = 2 + 98 by rfl, image_add] at himage
  have hheader := (h.frames _ (List.getElem_mem hd)).2
  rw [← himage, List.take_left' (image_length _ _ _)] at hheader
  rw [load, hheader]
  rfl

theorem RingInv.copy_byte (h : RingInv s d n) (hd : d < s.completed.length) {bytes : List UInt8}
    (hbytes : bytes = s.completed[d].bytes.take bytes.length) (hlt : bytes.length < 100) :
    bytes ++ [s.mem (frameRing.slot d + bytes.length)] = s.completed[d].bytes.take (bytes.length + 1) := by
  have himage := h.image_frame hd
  have hbyte : s.completed[d].bytes[bytes.length]? = some (s.mem (frameRing.slot d + bytes.length)) := by
    rw [← himage, image_getElem? _ _ _ _ hlt]
  obtain ⟨hlen, hget⟩ := List.getElem?_eq_some_iff.mp hbyte
  rw [List.take_succ_eq_append_getElem hlen, ← hbytes, hget]

theorem RingInv.copied_frame (h : RingInv s d n) (hd : d < s.completed.length) {bytes : List UInt8}
    (hbytes : bytes = s.completed[d].bytes.take bytes.length) (hlen : bytes.length = 100) :
    (⟨frameRing.slot d, bytes⟩ : Frame) = s.completed[d] := by
  have hfull : bytes = s.completed[d].bytes := by
    rw [hbytes, hlen, List.take_of_length_le (h.frames _ (List.getElem_mem hd)).1.le]
  rw [← h.starts d hd, hfull]

theorem FrameInProgress.polled (h : FrameInProgress s n) {p : Polled}
    (hmem : image p.mem (frameRing.slot s.completed.length) n =
      image s.mem (frameRing.slot s.completed.length) n) : FrameInProgress (s.polled p) n :=
  ⟨h.at_, h.length, fun hn => hmem.trans (h.stored hn), h.header⟩

theorem RingInv.move (h : RingInv s d n) {pc : PollPc} (hpc : PollAt s.completed s.copied d pc) :
    RingInv (s.polled ⟨pc, s.mem, none⟩) d n :=
  ⟨h.le, h.room, h.readWord, h.writeWord, h.starts, h.frames, h.holds,
    by simpa only [RxRing.polled, Option.toList_none, List.append_nil] using hpc, h.firmware.polled rfl⟩

theorem RingInv.release (h : RingInv s d n) (hd : d < s.completed.length)
    (hcopied : s.copied = s.completed.take (d + 1)) :
    RingInv (s.polled ⟨.readRead, store s.mem 2 (littleEndian 2 (frameRing.slot (d + 1))), none⟩) (d + 1) n := by
  have hroom := h.room
  have hslot := onSlot_slot s.completed.length
  refine ⟨hd, ?_, load_index _ _ _, ?_, h.starts, h.frames, ?_, ?_, ?_⟩
  · change s.completed.length < _
    omega
  · refine (load_store_disjoint s.mem 2 _ 0 2 (Or.inl le_rfl)).trans ?_
    exact h.writeWord
  · exact h.holds.succ.store_front (by rw [littleEndian_length]; decide)
  · exact (List.append_nil _).trans hcopied
  · refine h.firmware.polled (image_store_disjoint _ _ _ _ _ (Or.inr ?_))
    rw [littleEndian_length]
    exact hslot.1

theorem ringInv_poll (h : RingInv s d n) (hs : ringStep s .poll = some s') : ∃ d', RingInv s' d' n := by
  cases hs
  have hthread := h.thread
  cases hpc : s.pc with
  | readRead =>
    rw [hpc] at hthread
    exact ⟨d, h.move ⟨h.readWord, hthread⟩⟩
  | readWrite r =>
    rw [hpc] at hthread
    obtain ⟨rfl, hcopied⟩ := hthread
    refine ⟨d, h.move ?_⟩
    have hempty := RingShape.slot_eq_iff (R := frameRing) h.le h.room
    rw [h.writeWord]
    split
    · exact hcopied
    · next hne =>
      have hd : d ≠ s.completed.length := fun he => hne (hempty.mpr he)
      have hle := h.le
      exact ⟨rfl, by omega, hcopied⟩
  | readLength r =>
    rw [hpc] at hthread
    obtain ⟨rfl, hd, hcopied⟩ := hthread
    refine ⟨d, ?_⟩
    simp only [poll, h.load_length hd]
    refine h.move ⟨rfl, rfl, hcopied, hd, Nat.zero_le _, fun f _ => ?_⟩
    rfl
  | copy r datalen bytes =>
    rw [hpc] at hthread
    obtain ⟨rfl, rfl, hcopied, hd, hle, hbytes⟩ := hthread
    have hstart := hbytes _ (List.getElem?_eq_getElem hd)
    refine ⟨d, ?_⟩
    unfold poll
    dsimp only
    split
    · next hlt =>
      have hlt' : bytes.length < 100 := hlt
      refine h.move ⟨rfl, rfl, hcopied, hd, ?_, fun f hf => ?_⟩
      · rw [List.length_append, List.length_singleton]
        omega
      · rw [List.getElem?_eq_getElem hd] at hf
        cases hf
        rw [List.length_append, List.length_singleton]
        exact h.copy_byte hd hstart hlt'
    · next hge =>
      have hge' : ¬ bytes.length < 100 := hge
      have hframe := h.copied_frame hd hstart (by omega)
      refine { h with thread := ⟨rfl, rfl, hd, ?_⟩, firmware := h.firmware.polled rfl }
      change s.copied ++ [⟨frameRing.slot d, bytes⟩] = _
      rw [hframe, hcopied]
      exact (List.take_succ_eq_append_getElem hd).symm
  | release r datalen =>
    rw [hpc] at hthread
    obtain ⟨rfl, rfl, hd, hcopied⟩ := hthread
    refine ⟨d + 1, ?_⟩
    simp only [poll, nextReadIdx_slot]
    exact h.release hd hcopied

theorem ringInv_step (h : ∃ d n, RingInv s d n) {a : RingAction} (hs : ringStep s a = some s') :
    ∃ d n, RingInv s' d n := by
  obtain ⟨d, n, h⟩ := h
  cases a with
  | symbol high => exact ⟨d, ringInv_symbol h hs⟩
  | final => exact ⟨d, ringInv_final h hs⟩
  | poll =>
    obtain ⟨d', h'⟩ := ringInv_poll h hs
    exact ⟨d', n, h'⟩

/-! ## What the invariant gives -/

/-- The frames copied so far are the first ones, up to the frame that the thread is at. -/
theorem RingInv.copied_eq (h : RingInv s d n) :
    ∃ k, d ≤ k ∧ k ≤ s.completed.length ∧ s.copied = s.completed.take k := by
  have hthread := h.thread
  cases hpc : s.pc with
  | readRead =>
    rw [hpc] at hthread
    exact ⟨d, le_rfl, h.le, hthread⟩
  | readWrite r =>
    rw [hpc] at hthread
    exact ⟨d, le_rfl, h.le, hthread.2⟩
  | readLength r =>
    rw [hpc] at hthread
    exact ⟨d, le_rfl, h.le, hthread.2.2⟩
  | copy r datalen bytes =>
    rw [hpc] at hthread
    exact ⟨d, le_rfl, h.le, hthread.2.2.1⟩
  | release r datalen =>
    rw [hpc] at hthread
    exact ⟨d + 1, Nat.le_succ d, hthread.2.2.1, hthread.2.2.2⟩

theorem RingInv.published_slot (h : RingInv s d n) {f : Frame} (hf : f ∈ s.published) :
    ∃ j, d ≤ j ∧ j < s.completed.length ∧ f.start = frameRing.slot j := by
  obtain ⟨k, hdk, hk, hcopied⟩ := h.copied_eq
  have hlen : s.copied.length = k := by rw [hcopied, List.length_take, Nat.min_eq_left hk]
  obtain ⟨i, hi, hget⟩ := List.getElem_of_mem hf
  simp only [RxRing.published, hlen, List.length_drop, List.getElem_drop] at hi hget
  exact ⟨k + i, by omega, by omega, by rw [← hget, h.starts]⟩

/-- A store of the firmware goes into the free slot, or to the write index. -/
theorem RingInv.pass_store (h : RingInv s d n) {a : RingAction} {rx : RxState} {st : Store}
    (hp : s.pass a = some (rx, some st)) :
    st.addr + st.bytes.length ≤ 4 ∨
      frameRing.slot s.completed.length ≤ st.addr ∧
        st.addr + st.bytes.length ≤ frameRing.slot s.completed.length + frameSize := by
  cases a with
  | symbol high =>
    simp only [RxRing.pass] at hp
    split at hp
    · next hc =>
      have hspec := rxBit_advances (m := s.mem) h.firmware.at_ hc h.writeWord (slot_add_le _) high.toNat
      rw [Option.some.inj hp] at hspec
      rcases hspec with ⟨hnone, -⟩ | ⟨bs, hsome, hat, -⟩
      · cases hnone
      · cases hsome
        have hle := hat.le
        exact Or.inr ⟨Nat.le_add_right _ _, by dsimp only; omega⟩
    · cases hp
  | final =>
    simp only [RxRing.pass] at hp
    split at hp
    · next hc =>
      obtain ⟨-, hspec⟩ := rxFinal_spec (m := s.mem) h.firmware.at_ hc
      rw [Option.some.inj hp] at hspec
      rcases hspec with ⟨-, hnone, -⟩ | ⟨-, hsome, -⟩
      · cases hnone
      · cases hsome
        refine Or.inl ?_
        change 0 + _ ≤ 4
        rw [littleEndian_length]
        omega
    · cases hp
  | poll => cases hp

theorem RingInv.safe (h : RingInv s d n) : RingSafe s where
  readIdx := by
    rw [h.readWord]
    exact onSlot_slot d
  writeIdx := by
    rw [h.writeWord]
    exact onSlot_slot _
  inside := by
    intro f hf
    obtain ⟨j, hj, hget⟩ := List.getElem_of_mem hf
    have hstart : f.start = frameRing.slot j := by rw [← hget, h.starts]
    rw [hstart]
    exact ⟨(h.frames f hf).1, (onSlot_slot j).1, slot_add_le j⟩
  untouched := by
    intro a rx st hp f hf
    obtain ⟨j, hdj, hj, hstart⟩ := h.published_slot hf
    have hroom := h.room
    have hslot := onSlot_slot j
    rw [hstart]
    rcases h.pass_store hp with hfront | ⟨hlow, hhigh⟩
    · exact Or.inl (hfront.trans hslot.1)
    · have hapart := RingShape.slot_disjoint (R := frameRing) hj (by change _ < j + 60; omega)
      change frameRing.slot j + 100 ≤ _ ∨ frameRing.slot s.completed.length + 100 ≤ _ at hapart
      have hsize : frameSize = 100 := rfl
      omega
  accepted := by
    intro r hpc
    have hthread := h.thread
    rw [hpc] at hthread
    obtain ⟨rfl, hd, -⟩ := hthread
    rw [h.load_length hd]
    rfl
  delivered := by
    obtain ⟨k, -, -, hcopied⟩ := h.copied_eq
    rw [hcopied]
    exact List.take_prefix k _

/-! ## The thread empties the ring -/

/-- A bound on the steps of the thread in front of its next frame. -/
def todo : PollPc → ℕ
  | .release _ _ => 300
  | .readRead => 250
  | .readWrite _ => 240
  | .readLength _ => 230
  | .copy _ _ copied => 101 - copied.length

theorem RingInv.poll_progress {d n : ℕ} (h : RingInv s d n) (hlt : s.copied.length < s.completed.length) :
    let u := s.polled (poll s.pc s.mem)
    s.copied.length < u.copied.length ∨ u.copied = s.copied ∧ todo u.pc < todo s.pc := by
  have hthread := h.thread
  intro u
  cases hpc : s.pc with
  | readRead =>
    refine Or.inr ⟨?_, ?_⟩ <;> simp [u, RxRing.polled, poll, hpc, todo]
  | readWrite r =>
    rw [hpc] at hthread
    obtain ⟨rfl, hcopied⟩ := hthread
    have hle := h.le
    have hlen := congrArg List.length hcopied
    rw [List.length_take] at hlen
    have hempty := RingShape.slot_eq_iff (R := frameRing) h.le h.room
    have hne : frameRing.slot d ≠ load s.mem 0 2 := by
      rw [h.writeWord, Ne, hempty]
      omega
    refine Or.inr ⟨?_, ?_⟩ <;> simp [u, RxRing.polled, poll, hpc, todo, hne]
  | readLength r =>
    rw [hpc] at hthread
    obtain ⟨rfl, hd, -⟩ := hthread
    have haccept : acceptLength payloadLen = true := by decide
    refine Or.inr ⟨?_, ?_⟩ <;> simp [u, RxRing.polled, poll, hpc, todo, h.load_length hd, haccept]
  | copy r datalen bytes =>
    rw [hpc] at hthread
    obtain ⟨rfl, rfl, -, -, hle, -⟩ := hthread
    by_cases hmore : bytes.length < 84 + eccLen
    · refine Or.inr ⟨?_, ?_⟩
      · simp [u, RxRing.polled, poll, hpc, hmore]
      · simp only [u, RxRing.polled, poll, hpc, if_pos hmore, todo, List.length_append, List.length_singleton]
        omega
    · refine Or.inl ?_
      simp [u, RxRing.polled, poll, hpc, hmore]
  | release r datalen =>
    refine Or.inr ⟨?_, ?_⟩ <;> simp [u, RxRing.polled, poll, hpc, todo]

theorem RingInv.copied_length {d n : ℕ} (h : RingInv s d n) : s.copied.length ≤ d + 1 := by
  have hthread := h.thread
  have htake : ∀ k, s.copied = s.completed.take k → s.copied.length ≤ k := by
    intro k hk
    rw [hk, List.length_take]
    omega
  cases hpc : s.pc with
  | readRead =>
    rw [hpc] at hthread
    exact (htake _ hthread).trans (Nat.le_succ d)
  | readWrite r =>
    rw [hpc] at hthread
    exact (htake _ hthread.2).trans (Nat.le_succ d)
  | readLength r =>
    rw [hpc] at hthread
    exact (htake _ hthread.2.2).trans (Nat.le_succ d)
  | copy r datalen bytes =>
    rw [hpc] at hthread
    exact (htake _ hthread.2.2.1).trans (Nat.le_succ d)
  | release r datalen =>
    rw [hpc] at hthread
    exact htake _ hthread.2.2.2

/-- **The thread alone copies all that is completed.** -/
theorem copies_all (h : ∃ d n, RingInv s d n) :
    ∃ k u, Run ringStep s (List.replicate k .poll) u ∧ u.copied.length = u.completed.length ∧
      u.completed = s.completed ∧ u.rx = s.rx := by
  -- induction on the frames left, and on the steps in front of the next one
  induction hwork : 301 * (s.completed.length - s.copied.length) + todo s.pc using Nat.strongRecOn generalizing s with
  | _ work ih =>
    obtain ⟨d, n, hinv⟩ := h
    have hle := hinv.safe.delivered.length_le
    rcases Nat.eq_or_lt_of_le hle with heq | hlt
    · exact ⟨0, s, .refl, heq, rfl, rfl⟩
    · have hstep : ringStep s .poll = some (s.polled (poll s.pc s.mem)) := rfl
      have htodo : ∀ pc, todo pc ≤ 300 := by
        intro pc
        cases pc <;> simp only [todo] <;> omega
      have hnext := htodo (s.polled (poll s.pc s.mem)).pc
      have hsame : (s.polled (poll s.pc s.mem)).completed = s.completed := rfl
      obtain ⟨k, u, hrun, hall, hcompleted, hrx⟩ := ih _ (by
        rw [← hwork, hsame]
        rcases hinv.poll_progress hlt with hmore | ⟨hcopied, hless⟩
        · omega
        · rw [hcopied]
          omega) (ringInv_step ⟨d, n, hinv⟩ hstep) rfl
      refine ⟨1 + k, u, ?_, hall, hcompleted, hrx⟩
      rw [List.replicate_add]
      exact (Run.single hstep).append hrun

/-- A frame at `FINAL` is published once the thread has copied all others. -/
theorem RingInv.publishes {d n : ℕ} (h : RingInv s d n) (hc : s.rx.control = .final)
    (hall : s.copied.length = s.completed.length) :
    ∃ u, ringStep s .final = some u ∧ u.completed.length = s.completed.length + 1 := by
  obtain ⟨-, hspec⟩ := rxFinal_spec (m := s.mem) h.firmware.at_ hc
  have hle := h.le
  have hroom := h.room
  have hcopied := h.copied_length
  have hfree : frameRing.slot d ≠ frameRing.slot (s.completed.length + 1) :=
    RingShape.slot_ne (R := frameRing) (by omega) (show _ < d + 60 by omega)
  rw [wrapOffset_slot, h.readWord] at hspec
  rcases hspec with ⟨hfull, -, -⟩ | ⟨-, hsome, -⟩
  · exact absurd hfull hfree
  · refine ⟨s.finished (rxFinal s.rx s.mem), ?_, ?_⟩
    · simp only [ringStep, RxRing.pass, if_pos hc, Option.map_some]
    · simp only [RxRing.finished, hsome, Option.isSome_some, if_true, List.length_append, List.length_singleton]

end

theorem ringInv_run {pru : Memory} {as : List RingAction} {s : RxRing} (h : Run ringStep (rxRingStart pru) as s) :
    ∃ d n, RingInv s d n :=
  h.invariant ⟨0, 0, ringInv_start pru⟩ fun _ _ _ ht hs => ringInv_step ht hs

/-- Behind every run the thread alone delivers all that the firmware completed. -/
theorem ring_drains (pru : Memory) (as : List RingAction) (s : RxRing) (h : Run ringStep (rxRingStart pru) as s) :
    ∃ k t, Run ringStep s (List.replicate k .poll) t ∧ t.copied = s.completed := by
  obtain ⟨k, t, hrun, hall, hcompleted, -⟩ := copies_all (ringInv_run h)
  obtain ⟨d, n, ht⟩ := ringInv_run (h.append hrun)
  exact ⟨k, t, hrun, (ht.safe.delivered.eq_of_length hall).trans hcompleted⟩

/-- **The receive ring is safe.** Whatever is in the memory, whatever symbols arrive, and however the firmware and the
thread take turns, the frames that the thread copies are the frames that the firmware completed, in order, and
nothing is overwritten before it is copied. -/
theorem ring_safe (pru : Memory) (as : List RingAction) (s : RxRing) (h : Run ringStep (rxRingStart pru) as s) :
    RingSafe s := by
  obtain ⟨d, n, hs⟩ := ringInv_run h
  exact hs.safe

/-- What the air carries for a packet of zeros: preamble, SFD, length and body. -/
def zeroFrameSymbols : List Bool :=
  List.replicate 4 true ++ (List.range 24).map (fun i => i % 2 == 0) ++ encodeBytes ([0xA3, 0, 74] ++ List.replicate 98 0)

/-- Two frames, the first copied and the second completed; the firmware is about to store the length of a third one,
and the thread about to read that of the second. -/
def twoFrames : List RingAction :=
  zeroFrameSymbols.map .symbol ++ [.final] ++ List.replicate 105 .poll ++ zeroFrameSymbols.map .symbol ++ [.final] ++
    (zeroFrameSymbols.take 75).map .symbol ++ List.replicate 2 .poll

theorem ring_safe_two_frames : ∃ s, Run ringStep (rxRingStart fun a => UInt8.ofNat a) twoFrames s ∧
    s.completed.length = 2 ∧ s.copied.length = 1 ∧ RingSafe s := by
  have hexec : (exec ringStep (rxRingStart fun a => UInt8.ofNat a) twoFrames).map
      (fun s => (s.completed.length, s.copied.length)) = some (2, 1) := by decide +kernel
  obtain ⟨s, hs, hlengths⟩ := Option.map_eq_some_iff.mp hexec
  simp only [Prod.mk.injEq] at hlengths
  exact ⟨s, run_of_exec hs, hlengths.1, hlengths.2, ring_safe _ twoFrames s (run_of_exec hs)⟩

end CiotVlc.Pru
