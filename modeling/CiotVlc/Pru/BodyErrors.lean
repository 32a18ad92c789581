import Mathlib.Data.List.Nodup
import CiotVlc.Pru.RxDecode

/-! # Symbol errors in a frame body

Behind a valid length the firmware takes pairs of symbols until the frame is full, and makes a bit up
from an invalid pair. So an error changes the byte it falls into and nothing else: the frame is neither
given up nor shifted.
-/
namespace CiotVlc.Pru
open Foundations.Bytes Foundations.Registers Foundations.BitPack Foundations.LineCode Foundations.Runs
set_option autoImplicit false

/-- A symbol, and the memory that the firmware finds when it takes it. -/
structure Heard where
  symbol : Bool
  mem : Memory

/-- The firmware, with the stores it has made. -/
structure RxLog where
  state : RxState
  stores : List Store

def rxLogStep (o : RxLog) (a : Heard) : Option RxLog :=
  if o.state.control = .nextBit then
    let pass := rxBit o.state a.mem a.symbol.toNat
    some ⟨pass.1, o.stores ++ pass.2.toList⟩
  else none

/-! ## What the body is decoded to -/

/-- `RCV_ER_PKT`: the bit of a pair without an edge is the opposite of its symbols. -/
def decodePair : Bool → Bool → Bool
  | false, true => true
  | true, false => false
  | true, true => false
  | false, false => true

def decodeBits : List Bool → List Bool
  | first :: second :: rest => decodePair first second :: decodeBits rest
  | _ => []

def decodeByte (symbols : List Bool) : UInt8 := UInt8.ofNat (msbValue 8 (decodeBits symbols))

/-- The symbols of byte `k`. -/
def chunk (symbols : List Bool) (k : ℕ) : List Bool := (symbols.drop (16 * k)).take 16

/-- Where byte `k` of a body goes that begins at `a`. -/
def byteAddr (a k : ℕ) : ℕ := if a + k < bufferLimit then a + k else a + k - bufferLimit + 4

def bodyLen : ℕ := payloadLen + rxOtherPacketContentByte

/-- The stores of `n` bytes of a body, from its byte `k` on. -/
def bodyStores (a k n : ℕ) (symbols : List Bool) : List Store :=
  (List.range n).map fun i => ⟨byteAddr a (k + i), [decodeByte (chunk symbols i)]⟩

section
variable {a : ℕ}

theorem decodeBits_encode (bits : List Bool) : decodeBits (encode bits) = bits := by
  induction bits with
  | nil => rfl
  | cons b bits ih =>
    rw [encode_cons, manchester, List.cons_append, List.singleton_append, decodeBits, ih]
    cases b <;> rfl

theorem decodeByte_encode (b : UInt8) : decodeByte (encode (msbBits 8 b.toNat)) = b := by
  rw [decodeByte, decodeBits_encode, msbValue_msbBits, Nat.mod_eq_of_lt b.toNat_lt, UInt8.ofNat_toNat]

theorem chunk_succ (symbols : List Bool) (k : ℕ) : chunk symbols (k + 1) = chunk (symbols.drop 16) k := by
  rw [chunk, chunk, List.drop_drop, Nat.mul_succ, Nat.add_comm]

theorem bodyStores_zero (k : ℕ) (symbols : List Bool) : bodyStores a k 0 symbols = [] := rfl

theorem bodyStores_succ (k n : ℕ) (symbols : List Bool) :
    bodyStores a k (n + 1) symbols =
      ⟨byteAddr a k, [decodeByte (symbols.take 16)]⟩ :: bodyStores a (k + 1) n (symbols.drop 16) := by
  rw [bodyStores, List.range_succ_eq_map, List.map_cons, List.map_map]
  congr 1
  apply List.map_congr_left
  intro i _
  rw [Function.comp_apply, chunk_succ, Nat.succ_eq_add_one, Nat.add_assoc, Nat.add_comm 1]

theorem byteAddr_zero (ha : a < bufferLimit) : byteAddr a 0 = a := if_pos ha

theorem byteAddr_succ (ha : a < bufferLimit) {k : ℕ} (hk : k < bodyLen) :
    wrapOffset (add (byteAddr a k) 1) = byteAddr a (k + 1) := by
  have hlimit : bufferLimit = 6004 := rfl
  have hbody : bodyLen = 98 := rfl
  have hlt : byteAddr a k < bufferLimit := by
    unfold byteAddr
    split <;> omega
  rw [add_of_lt (by omega)]
  unfold wrapOffset byteAddr
  split_ifs <;> omega

/-- No byte of a body is stored over another one. -/
theorem byteAddr_injective (ha : a < bufferLimit) {i j : ℕ} (hi : i < bodyLen) (hj : j < bodyLen)
    (h : byteAddr a i = byteAddr a j) : i = j := by
  have hlimit : bufferLimit = 6004 := rfl
  have hbody : bodyLen = 98 := rfl
  unfold byteAddr at h
  split_ifs at h <;> omega

end

/-! ## One byte -/

/-- In a byte of the body, in front of its bit `j`: byte `k`, with `acc` collected. -/
structure BitAt (a k acc j : ℕ) (stores : List Store) (o : RxLog) : Prop where
  stores : o.stores = stores
  control : o.state.control = .nextBit
  r4 : o.state.r4 = 1
  r14 : o.state.r14 = 2
  r15 : o.state.r15 = j
  r16 : o.state.r16 = bodyLen
  r20 : o.state.r20 = byteAddr a k
  r21 : o.state.r21 = acc
  r23 : o.state.r23 = k

/-- `k` bytes of the body are stored. -/
def BodyAt (a k : ℕ) (stores : List Store) (o : RxLog) : Prop :=
  if k < bodyLen then BitAt a k 0 7 stores o else o.stores = stores ∧ o.state.control = .final

/-- Behind a pair of symbols, with its bit. -/
def paired (s : RxState) (first second : Bool) : RxState :=
  { s with r12 := first.toNat, r4 := 2, r13 := (decodePair first second).toNat }

/-- The bit at `j` is collected. -/
def collected (s : RxState) (b : Bool) (acc j : ℕ) : RxState :=
  { s with r13 := b.toNat * 2 ^ j, r21 := acc + b.toNat * 2 ^ j }

section
variable {a k acc j : ℕ} {stores : List Store}

/-- Whatever the second symbol of a pair is, a bit of the body is decoded. -/
theorem decodeOokSecond_body {s : RxState} (h14 : s.r14 = 2) (first second : Bool) (m : Memory) :
    decodeOokSecond { s with r12 := first.toNat, r4 := 2 } m second.toNat =
      body (paired s first second) := by
  cases first <;> cases second <;> simp [decodeOokSecond, checkPacketState, paired, decodePair, h14]

theorem takes_body_pair {P Q : RxLog → Prop} {x y : Heard}
    (hpair : ∀ o, P o → o.state.control = .nextBit ∧ o.state.r4 = 1 ∧ o.state.r14 = 2)
    (hstep : ∀ o, P o → ∀ pass, body (paired o.state x.symbol y.symbol) = pass →
      Q ⟨pass.1, o.stores ++ pass.2.toList⟩) : Takes rxLogStep P [x, y] Q := by
  intro o ho
  obtain ⟨hc, h4, h14⟩ := hpair o ho
  have hfirst : rxLogStep o x = some ⟨{ o.state with r12 := x.symbol.toNat, r4 := 2 }, o.stores⟩ := by
    simp only [rxLogStep, if_pos hc, rxBit_first h4, decodeOokFirst, Option.toList_none, List.append_nil]
  refine ⟨_, (Run.single hfirst).snoc (a := y) ?_, hstep o ho _ rfl⟩
  rw [← decodeOokSecond_body h14 x.symbol y.symbol y.mem]
  exact if_pos hc

theorem body_bit {s : RxState} (hj : j ≤ 7) (hacc : acc + 2 ^ (j + 1) ≤ 2 ^ 8) (h15 : s.r15 = j)
    (h21 : s.r21 = acc) (first second : Bool) :
    body (paired s first second) =
      if j = 0 then processPacketByte (collected (paired s first second) (decodePair first second) acc j)
      else ({ collected (paired s first second) (decodePair first second) acc j with r15 := j - 1, r4 := 1 },
        none) := by
  have hbit : (decodePair first second).toNat * 2 ^ j ≤ 1 * 2 ^ j := Nat.mul_le_mul_right _ (Bool.toNat_le _)
  have hpow : 2 ^ (j + 1) = 2 * 2 ^ j := by rw [pow_succ, Nat.mul_comm]
  have hshift : lsl (decodePair first second).toNat j = (decodePair first second).toNat * 2 ^ j :=
    lsl_eq (by omega) (by omega)
  have hadd : add acc ((decodePair first second).toNat * 2 ^ j) = acc + (decodePair first second).toNat * 2 ^ j :=
    add_of_lt (by omega)
  simp only [body, paired, collected, h15, h21, hshift, hadd]
  split
  · rfl
  · rw [sub_of_le (by omega) (by omega)]

theorem processPacketByte_body (ha : a < bufferLimit) (hk : k < bodyLen) {s : RxState} {stores : List Store}
    (hc : s.control = .nextBit) (h14 : s.r14 = 2) (h16 : s.r16 = bodyLen) (h20 : s.r20 = byteAddr a k)
    (h23 : s.r23 = k) :
    BodyAt a (k + 1) (stores ++ [⟨byteAddr a k, [UInt8.ofNat s.r21]⟩])
      ⟨(processPacketByte s).1, stores ++ (processPacketByte s).2.toList⟩ := by
  have hbody : bodyLen = 98 := rfl
  have h23' : add s.r23 1 = k + 1 := by rw [h23, add_of_lt (by omega)]
  have h20' : wrapOffset (add s.r20 1) = byteAddr a (k + 1) := by rw [h20, byteAddr_succ ha hk]
  have hst : storeReg s.r21 s.r20 1 = ⟨byteAddr a k, [UInt8.ofNat s.r21]⟩ := by
    simp [storeReg, littleEndian, h20]
  simp only [BodyAt, processPacketByte, h23', h20', hst, h16]
  by_cases hmore : k + 1 < bodyLen
  · rw [if_pos hmore, if_neg (by omega)]
    exact ⟨rfl, hc, rfl, h14, rfl, rfl, rfl, rfl, rfl⟩
  · rw [if_neg hmore, if_pos (by omega)]
    exact ⟨rfl, rfl⟩

/-- **The rest of a byte**, whatever its symbols are. -/
theorem takes_body_bits (ha : a < bufferLimit) (hk : k < bodyLen) (hj : j ≤ 7) (hacc : acc + 2 ^ (j + 1) ≤ 2 ^ 8)
    {xs : List Heard} (hlen : xs.length = 2 * (j + 1)) :
    Takes rxLogStep (BitAt a k acc j stores) xs (BodyAt a (k + 1)
      (stores ++ [⟨byteAddr a k, [UInt8.ofNat (acc + msbValue (j + 1) (decodeBits (xs.map Heard.symbol)))]⟩])) := by
  induction j generalizing acc xs with
  | zero =>
    match xs, hlen with
    | [x, y], _ =>
      refine takes_body_pair (fun o h => ⟨h.control, h.r4, h.r14⟩) ?_
      intro o h pass hpass
      rw [body_bit hj hacc h.r15 h.r21, if_pos rfl] at hpass
      rw [← hpass, h.stores]
      exact processPacketByte_body (s := collected (paired o.state x.symbol y.symbol) _ acc 0) ha hk h.control h.r14
        h.r16 h.r20 h.r23
  | succ j ih =>
    match xs, hlen with
    | x :: y :: rest, hlen =>
      have hpow : 2 ^ (j + 1 + 1) = 2 * 2 ^ (j + 1) := by rw [pow_succ, Nat.mul_comm]
      have hbit : (decodePair x.symbol y.symbol).toNat * 2 ^ (j + 1) ≤ 1 * 2 ^ (j + 1) :=
        Nat.mul_le_mul_right _ (Bool.toNat_le _)
      have hlast : rest.length = 2 * (j + 1) := by
        rw [List.length_cons, List.length_cons] at hlen
        omega
      have hacc' : acc + (decodePair x.symbol y.symbol).toNat * 2 ^ (j + 1) + 2 ^ (j + 1) ≤ 2 ^ 8 := by omega
      have hpair : Takes rxLogStep (BitAt a k acc (j + 1) stores) [x, y]
          (BitAt a k (acc + (decodePair x.symbol y.symbol).toNat * 2 ^ (j + 1)) j stores) := by
        refine takes_body_pair (fun o h => ⟨h.control, h.r4, h.r14⟩) ?_
        intro o h pass hpass
        rw [body_bit hj hacc h.r15 h.r21, if_neg (by omega)] at hpass
        rw [← hpass]
        exact ⟨by rw [Option.toList_none, List.append_nil, h.stores], h.control, rfl, h.r14, rfl, h.r16, h.r20, rfl,
          h.r23⟩
      rw [List.map_cons, List.map_cons, decodeBits, msbValue, ← Nat.add_assoc]
      exact hpair.trans (ih (by omega) hacc' hlast)

theorem takes_body_byte (ha : a < bufferLimit) (hk : k < bodyLen) {xs : List Heard} (hlen : xs.length = 16) :
    Takes rxLogStep (BodyAt a k stores) xs
      (BodyAt a (k + 1) (stores ++ [⟨byteAddr a k, [decodeByte (xs.map Heard.symbol)]⟩])) := by
  have hbits : Takes rxLogStep (BitAt a k 0 7 stores) xs (BodyAt a (k + 1) (stores ++ [⟨byteAddr a k,
      [UInt8.ofNat (0 + msbValue (7 + 1) (decodeBits (xs.map Heard.symbol)))]⟩])) :=
    takes_body_bits ha hk (le_refl 7) (Nat.le_of_eq (Nat.zero_add _)) hlen
  have hstart : BodyAt a k stores = BitAt a k 0 7 stores := by
    funext o
    exact if_pos hk
  rw [Nat.zero_add] at hbits
  rwa [hstart]

/-- **The rest of a body.** -/
theorem takes_body_bytes (ha : a < bufferLimit) (n : ℕ) (hk : k + n ≤ bodyLen) {xs : List Heard}
    (hlen : xs.length = 16 * n) :
    Takes rxLogStep (BodyAt a k stores) xs
      (BodyAt a (k + n) (stores ++ bodyStores a k n (xs.map Heard.symbol))) := by
  induction n generalizing k stores xs with
  | zero =>
    have hnil : xs = [] := List.length_eq_zero_iff.mp hlen
    rw [hnil, bodyStores_zero, List.append_nil]
    exact fun s hs => ⟨s, .refl, hs⟩
  | succ n ih =>
    have htake : (xs.take 16).length = 16 := by
      rw [List.length_take]
      omega
    have hdrop : (xs.drop 16).length = 16 * n := by
      rw [List.length_drop]
      omega
    have hfirst : Takes rxLogStep (BodyAt a k stores) (xs.take 16) (BodyAt a (k + 1)
        (stores ++ [⟨byteAddr a k, [decodeByte ((xs.take 16).map Heard.symbol)]⟩])) :=
      takes_body_byte ha (by omega) htake
    have hboth := hfirst.trans (ih (by omega) hdrop)
    rw [List.take_append_drop, List.append_assoc, List.singleton_append, Nat.add_right_comm, Nat.add_assoc k] at hboth
    rwa [bodyStores_succ, ← List.map_take, ← List.map_drop]

end

/-! ## The whole body -/

/-- In the body of a packet, or in the loop at `FINAL` behind it. -/
structure InBodyOrDone (o : RxLog) : Prop where
  r14 : o.state.r14 = 2
  r4 : o.state.r4 = 1 ∨ o.state.r4 = 2

section
variable {a : ℕ} {s : RxState} {m : Memory}

theorem processLength_inBody (h16 : s.r16 = payloadLen) : InBodyOrDone ⟨(processLength s m).1, []⟩ := by
  rw [processLength, if_neg (not_not.mpr h16)]
  exact ⟨rfl, Or.inl rfl⟩

theorem processLength_r20 (h16 : s.r16 = payloadLen) : (processLength s m).1.r20 < bufferLimit := by
  rw [processLength, if_neg (not_not.mpr h16)]
  dsimp only
  unfold wrapOffset
  split
  · assumption
  · decide

theorem processLength_bodyAt (hc : s.control = .nextBit) (h16 : s.r16 = payloadLen) :
    BodyAt (processLength s m).1.r20 0 [] ⟨(processLength s m).1, []⟩ := by
  have h20 := byteAddr_zero (processLength_r20 (m := m) h16)
  rw [BodyAt, if_pos (show 0 < bodyLen by decide)]
  rw [processLength, if_neg (not_not.mpr h16)] at h20 ⊢
  refine ⟨rfl, hc, rfl, rfl, rfl, ?_, h20.symm, rfl, rfl⟩
  rw [h16]
  rfl

theorem decodeOokSecond_inBody (h14 : s.r14 = 2) (r7 : ℕ) :
    ∃ b, decodeOokSecond s m r7 = body { s with r13 := b } := by
  unfold decodeOokSecond
  split_ifs
  · exact ⟨1, by simp only [checkPacketState, h14]⟩
  · exact ⟨0, by simp only [checkPacketState, h14]⟩
  · exact ⟨0, by simp only [checkPacketState, h14]⟩
  · exact ⟨1, by simp only [checkPacketState, h14]⟩
  · omega

theorem InBodyOrDone.step {o u : RxLog} {x : Heard} (h : InBodyOrDone o) (hstep : rxLogStep o x = some u) :
    InBodyOrDone u := by
  obtain ⟨-, hstep⟩ := Option.ite_none_right_eq_some.mp hstep
  rw [← Option.some.inj hstep]
  rcases h.r4 with h4 | h4
  · rw [rxBit_first h4]
    exact ⟨h.r14, Or.inr rfl⟩
  · obtain ⟨b, hb⟩ := decodeOokSecond_inBody (m := x.mem) h.r14 x.symbol.toNat
    rw [rxBit_second h4, hb]
    unfold body processPacketByte
    dsimp only
    split_ifs
    exacts [⟨h.r14, Or.inr h4⟩, ⟨h.r14, Or.inl rfl⟩, ⟨h.r14, Or.inl rfl⟩]

theorem bodyStores_getElem {symbols : List Bool} {k : ℕ} (hk : k < bodyLen) :
    (bodyStores a 0 bodyLen symbols)[k]? = some ⟨byteAddr a k, [decodeByte (chunk symbols k)]⟩ := by
  rw [bodyStores, List.getElem?_map, List.getElem?_range hk, Option.map_some, Nat.zero_add]

theorem bodyStores_nodup (ha : a < bufferLimit) (symbols : List Bool) :
    ((bodyStores a 0 bodyLen symbols).map Store.addr).Nodup := by
  rw [bodyStores, List.map_map]
  refine List.Nodup.map_on ?_ List.nodup_range
  intro i hi j hj h
  rw [Function.comp_apply, Function.comp_apply, Nat.zero_add, Nat.zero_add] at h
  exact byteAddr_injective ha (List.mem_range.mp hi) (List.mem_range.mp hj) h

theorem run_body (m : Memory) (hc : s.control = .nextBit) (h16 : s.r16 = payloadLen) {stream : List Heard}
    (hlen : stream.length = 16 * bodyLen) :
    ∃ t, Run rxLogStep ⟨(processLength s m).1, []⟩ stream t ∧ t.state.control = .final ∧
      t.stores = bodyStores (processLength s m).1.r20 0 bodyLen (stream.map Heard.symbol) := by
  obtain ⟨t, hrun, ht⟩ := takes_body_bytes (processLength_r20 h16) bodyLen (Nat.zero_add _).le hlen _
    (processLength_bodyAt (m := m) hc h16)
  rw [BodyAt, if_neg (by omega), List.nil_append] at ht
  exact ⟨t, hrun, ht.2, ht.1⟩

end

/-- **Errors in a body stay in their bytes.** From behind a valid length, whatever the symbols are and
whatever the memory holds: the firmware takes the symbols of a whole body and is then at `FINAL`, without
a visit to the search in between; it stores one byte for every 16 symbols, each decoded from its own
symbols only. -/
theorem body_errors_stay {s : RxState} (m : Memory) (hc : s.control = .nextBit) (h16 : s.r16 = payloadLen) :
    let start : RxLog := ⟨(processLength s m).1, []⟩
    let address := byteAddr start.state.r20
    (∀ stream : List Heard, stream.length = 16 * bodyLen →
      ∃ t, Run rxLogStep start stream t ∧ t.state.control = .final ∧
        Always rxLogStep start stream (fun u => u.state.r4 ≠ 0) ∧
        t.stores = (List.range bodyLen).map (fun k =>
          ⟨address k, [decodeByte (chunk (stream.map Heard.symbol) k)]⟩) ∧
        (t.stores.map Store.addr).Nodup ∧
        ∀ k < bodyLen, ∀ b : UInt8, chunk (stream.map Heard.symbol) k = encode (msbBits 8 b.toNat) →
          t.stores[k]? = some ⟨address k, [b]⟩) ∧
    ∀ (K : Set ℕ) (stream stream' : List Heard) (t t' : RxLog),
      stream.length = 16 * bodyLen → stream'.length = 16 * bodyLen →
      Run rxLogStep start stream t → Run rxLogStep start stream' t' →
      (∀ k ∉ K, chunk (stream.map Heard.symbol) k = chunk (stream'.map Heard.symbol) k) →
        ∀ k ∉ K, t.stores[k]? = t'.stores[k]? := by
  intro start address
  refine ⟨fun stream hlen => ?_, fun K stream stream' t t' hlen hlen' hrun hrun' hsame k hk => ?_⟩
  · obtain ⟨t, hrun, hfinal, hstores⟩ := run_body m hc h16 hlen
    refine ⟨t, hrun, hfinal, ?_, ?_, ?_, ?_⟩
    · intro pre u _ hu
      have hbody := hu.invariant (processLength_inBody h16) fun _ _ _ h hstep => h.step hstep
      rcases hbody.r4 with h | h <;> omega
    · rw [hstores]
      simp only [bodyStores, Nat.zero_add]
      rfl
    · rw [hstores]
      exact bodyStores_nodup (processLength_r20 h16) _
    · intro k hk b hb
      rw [hstores, bodyStores_getElem hk, hb, decodeByte_encode]
  · obtain ⟨u, hu, -, hstores⟩ := run_body m hc h16 hlen
    obtain ⟨u', hu', -, hstores'⟩ := run_body m hc h16 hlen'
    rw [hrun.unique hu, hrun'.unique hu', hstores, hstores']
    by_cases hlt : k < bodyLen
    · rw [bodyStores_getElem hlt, bodyStores_getElem hlt, hsame k hk]
    · rw [List.getElem?_eq_none (by simpa [bodyStores] using hlt),
        List.getElem?_eq_none (by simpa [bodyStores] using hlt)]

/-- A transmitter that keeps its light on: not one pair is valid. -/
theorem body_errors_stay_light_on :
    ∃ t, Run rxLogStep ⟨(processLength { rxStart with r16 := payloadLen } fun _ => 0).1, []⟩
        (List.replicate (16 * bodyLen) ⟨true, fun _ => 0⟩) t ∧
      t.state.control = .final ∧ t.stores.length = 98 := by
  obtain ⟨t, hrun, hfinal, -, hstores, -⟩ := (body_errors_stay (s := { rxStart with r16 := payloadLen })
    (fun _ => 0) rfl rfl).1 _ List.length_replicate
  refine ⟨t, hrun, hfinal, ?_⟩
  rw [hstores, List.length_map, List.length_range]
  rfl

end CiotVlc.Pru
