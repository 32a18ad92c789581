import CiotVlc.Pru.BodyErrors
import CiotVlc.Pru.Loopback

/-! # Damaged frames in the receive ring

The symbols of a packet arrive while the thread empties the ring, and some symbols of its body are wrong. In
every interleaving the firmware completes the frame with each byte decoded from its own symbols, the frame keeps
its place in the order, and the thread can always be run until it has copied it.
-/
namespace CiotVlc.Pru
open CiotVlc.Kernel (acceptLength eccLen)
open Foundations.Bytes Foundations.Registers Foundations.BitPack Foundations.LineCode Foundations.FrameRing
  Foundations.Runs
set_option autoImplicit false

/-! ## Memory that a symbol depends on -/

section
variable {s : RxState} {m m' : Memory}

/-- The firmware reads nothing but the write index, at the end of the length. -/
theorem rxBit_congr (h : load m 0 2 = load m' 0 2) (r7 : ℕ) : rxBit s m r7 = rxBit s m' r7 := by
  have hlength : ∀ t : RxState, length t m = length t m' := by
    intro t
    simp only [length, processLength, loadReg, h]
  have hstate : ∀ t : RxState, checkPacketState t m r7 = checkPacketState t m' r7 := by
    intro t
    unfold checkPacketState
    split <;> first | rfl | exact hlength t
  simp only [rxBit, decodeOokSecond, hstate]

end

/-! ## What the firmware stores, whatever the thread does -/

/-- The symbols among the actions. -/
def heard (as : List RingAction) : List Bool :=
  as.filterMap fun a => match a with
    | .symbol high => some high
    | _ => none

/-- The symbols, all heard with this memory. -/
def heardWith (m : Memory) (symbols : List Bool) : List Heard := symbols.map fun high => ⟨high, m⟩

/-- The firmware has made these stores since the ring was as in `s₀`, all for the frame in progress. -/
structure Logged (s₀ : RxRing) (log : List Store) (s : RxRing) (n : ℕ) : Prop where
  inv : ∃ d, RingInv s d n
  writeWord : load s.mem 0 2 = load s₀.mem 0 2
  completed : s.completed = s₀.completed
  current : (if n = 0 then [] else s.current) = log.flatMap Store.bytes

section
variable {s₀ s u : RxRing} {log : List Store} {n : ℕ} {m : Memory}

theorem Logged.start {d : ℕ} (h : RingInv s d 0) : Logged s [] s 0 := ⟨⟨d, h⟩, rfl, rfl, rfl⟩

theorem Logged.symbol (h : Logged s₀ log s n) (hm : load m 0 2 = load s₀.mem 0 2) {high : Bool}
    (hs : ringStep s (.symbol high) = some u) :
    ∃ n' log', Logged s₀ log' u n' ∧ rxLogStep ⟨s.rx, log⟩ ⟨high, m⟩ = some ⟨u.rx, log'⟩ := by
  obtain ⟨d, hinv⟩ := h.inv
  have hwrite := h.writeWord
  simp only [ringStep, RxRing.pass] at hs
  split at hs
  · next hc =>
    cases hs
    have hlog : rxLogStep ⟨s.rx, log⟩ ⟨high, m⟩ =
        some ⟨(rxBit s.rx s.mem high.toNat).1, log ++ (rxBit s.rx s.mem high.toNat).2.toList⟩ := by
      rw [rxLogStep, if_pos hc, rxBit_congr (hm.trans hwrite.symm)]
    have hspec := rxBit_advances (m := s.mem) hinv.firmware.at_ hc hinv.writeWord (slot_add_le _) high.toNat
    generalize rxBit s.rx s.mem high.toNat = pass at hspec hlog ⊢
    obtain ⟨rx, st⟩ := pass
    rcases hspec with ⟨hnone, hat⟩ | ⟨bs, hsome, hat, hbs⟩
    · cases hnone
      refine ⟨n, log, ⟨⟨d, hinv.idle hat⟩, hwrite, h.completed, h.current⟩, ?_⟩
      rw [hlog, Option.toList_none, List.append_nil]
      rfl
    · cases hsome
      have hrecord := hinv.record hat hbs
      refine ⟨n + bs.length, _, ⟨⟨d, hrecord⟩, ?_, h.completed, ?_⟩, hlog⟩
      · refine (load_store_disjoint _ _ _ _ _ (Or.inl ?_)).trans hwrite
        change 0 + 2 ≤ frameRing.slot s.completed.length + n
        have hslot := (onSlot_slot s.completed.length).1
        omega
      · rw [Option.toList_some, List.flatMap_append, List.flatMap_singleton, ← h.current]
        rcases hbs with ⟨rfl, h14, rfl⟩ | ⟨hn, h14, hlen⟩
        · rw [if_neg (by rw [littleEndian_length]; omega), if_pos rfl]
          exact if_pos h14
        · rw [if_neg (by omega), if_neg hn]
          exact if_neg (by omega)
  · cases hs

theorem Logged.poll (h : Logged s₀ log s n) (hs : ringStep s .poll = some u) :
    Logged s₀ log u n ∧ u.rx = s.rx := by
  obtain ⟨d, hinv⟩ := h.inv
  obtain ⟨d', hinv'⟩ := ringInv_poll hinv hs
  have hcompleted : u.completed = s.completed ∧ u.current = s.current ∧ u.rx = s.rx := by
    cases hs
    exact ⟨rfl, rfl, rfl⟩
  refine ⟨⟨⟨d', hinv'⟩, ?_, hcompleted.1.trans h.completed, ?_⟩, hcompleted.2.2⟩
  · rw [hinv'.writeWord, hcompleted.1, ← hinv.writeWord]
    exact h.writeWord
  · rw [hcompleted.2.1]
    exact h.current

/-- **The firmware does not notice the thread**: in front of `FINAL` its registers and stores are those of the
symbols alone. -/
theorem Logged.run (h : Logged s₀ log s n) (hm : load m 0 2 = load s₀.mem 0 2) {as : List RingAction}
    (hrun : Run ringStep s as u) (hfinal : .final ∉ as) :
    ∃ n' log', Logged s₀ log' u n' ∧ Run rxLogStep ⟨s.rx, log⟩ (heardWith m (heard as)) ⟨u.rx, log'⟩ := by
  induction hrun with
  | refl => exact ⟨n, log, h, .refl⟩
  | @snoc as t u a hrun hs ih =>
    obtain ⟨n₁, log₁, h₁, hrun₁⟩ := ih fun hmem => hfinal (List.mem_append_left _ hmem)
    cases a with
    | symbol high =>
      obtain ⟨n₂, log₂, h₂, hstep⟩ := h₁.symbol hm hs
      refine ⟨n₂, log₂, h₂, ?_⟩
      have hlist : heardWith m (heard (as ++ [.symbol high])) = heardWith m (heard as) ++ [⟨high, m⟩] := by
        simp [heardWith, heard]
      rw [hlist]
      exact hrun₁.snoc hstep
    | final => exact absurd (List.mem_append_right _ (List.mem_singleton_self _)) hfinal
    | poll =>
      obtain ⟨h₂, hrx⟩ := h₁.poll hs
      refine ⟨n₁, log₁, h₂, ?_⟩
      have hlist : heardWith m (heard (as ++ [.poll])) = heardWith m (heard as) := by
        simp [heardWith, heard]
      rw [hlist, hrx]
      exact hrun₁

end

/-! ## A packet with a damaged body -/

def decodedBody (symbols : List Bool) : List UInt8 := (List.range bodyLen).map fun k => decodeByte (chunk symbols k)

def decodedFrame (symbols : List Bool) : List UInt8 := littleEndian 2 payloadLen ++ decodedBody symbols

@[simp] theorem decodedBody_length (symbols : List Bool) : (decodedBody symbols).length = bodyLen := by
  simp [decodedBody]

section
variable {rxPru : Memory} {s u : RxRing}

theorem control_of_frameSize {w : ℕ} {rx : RxState} (h : RxAt w frameSize rx) : rx.control = .final := by
  generalize hn : frameSize = n at h
  cases h with
  | search => cases hn
  | body _ h => exact absurd h.lt (by omega)
  | final _ h => exact h.control

/-- The frame is in the loop at `FINAL`, or it is published in its place. -/
def InPlace (completed : List Frame) (f : Frame) (s : RxRing) : Prop :=
  s.rx.control = .final ∧ s.completed = completed ∧ (⟨load s.mem 0 2, s.current⟩ : Frame) = f ∨
    ∃ rest, s.completed = completed ++ f :: rest

theorem InPlace.step {completed : List Frame} {f : Frame} (hinv : ∃ d n, RingInv s d n)
    (h : InPlace completed f s) {a : RingAction} (hs : ringStep s a = some u) : InPlace completed f u := by
  obtain ⟨d, n, hinv⟩ := hinv
  rcases h with ⟨hc, hcompleted, hframe⟩ | ⟨rest, hcompleted⟩
  · cases a with
    | symbol high =>
      simp only [ringStep, RxRing.pass] at hs
      rw [if_neg (by simp [hc])] at hs
      cases hs
    | final =>
      obtain ⟨rfl, hspec⟩ := rxFinal_spec (m := s.mem) hinv.firmware.at_ hc
      simp only [ringStep, RxRing.pass, if_pos hc, Option.map_some] at hs
      cases hs
      rcases hspec with ⟨hfull, hnone, hat⟩ | ⟨-, hsome, -⟩
      · refine Or.inl ⟨?_, ?_, ?_⟩
        · exact control_of_frameSize hat
        · simp only [RxRing.finished, hnone, Option.isSome_none, Bool.false_eq_true, if_false]
          exact hcompleted
        · simp only [RxRing.finished, hnone, applyStore_none]
          exact hframe
      · refine Or.inr ⟨[], ?_⟩
        simp only [RxRing.finished, hsome, Option.isSome_some, if_true]
        rw [hcompleted, hframe]
    | poll =>
      obtain ⟨d', hinv'⟩ := ringInv_poll hinv hs
      have hword := hinv'.writeWord
      cases hs
      refine Or.inl ⟨hc, hcompleted, ?_⟩
      rw [← hframe, hword, hinv.writeWord]
      rfl
  · refine Or.inr ?_
    cases a with
    | symbol high =>
      simp only [ringStep, RxRing.pass] at hs
      split at hs
      · cases hs
        exact ⟨rest, hcompleted⟩
      · cases hs
    | final =>
      simp only [ringStep, RxRing.pass] at hs
      split at hs
      · cases hs
        simp only [RxRing.finished]
        split
        · exact ⟨rest ++ [⟨load s.mem 0 2, s.current⟩], by rw [hcompleted, List.append_assoc]; rfl⟩
        · exact ⟨rest, hcompleted⟩
      · cases hs
    | poll =>
      cases hs
      exact ⟨rest, hcompleted⟩

theorem InPlace.run {completed : List Frame} {f : Frame} {bs : List RingAction} (hinv : ∃ d n, RingInv s d n)
    (h : InPlace completed f s) (hrun : Run ringStep s bs u) : InPlace completed f u ∧ ∃ d n, RingInv u d n :=
  hrun.invariant (P := fun s => InPlace completed f s ∧ ∃ d n, RingInv s d n) ⟨h, hinv⟩
    fun _ _ _ h hs => ⟨h.1.step h.2 hs, ringInv_step h.2 hs⟩

/-! ## Delivery -/

theorem InPlace.delivered {completed : List Frame} {f : Frame} (h : InPlace completed f s) {d n : ℕ}
    (hinv : RingInv s d n) : (∀ g, s.copied[completed.length]? = some g → g = f) ∧
      ∃ cs u, (∀ c ∈ cs, c = .poll ∨ c = .final) ∧ Run ringStep s cs u ∧ u.copied[completed.length]? = some f := by
  have hget : ∀ {t : RxRing}, (∃ d n, RingInv t d n) → InPlace completed f t → ∀ g,
      t.copied[completed.length]? = some g → g = f := by
    intro t ⟨d, n, hinv⟩ hplace g hg
    obtain ⟨rest, hrest⟩ := hinv.safe.delivered
    have hfull : t.completed[completed.length]? = some g := by
      rw [← hrest, List.getElem?_append_left (List.getElem?_eq_some_iff.mp hg).1, hg]
    rcases hplace with ⟨-, hcompleted, -⟩ | ⟨more, hcompleted⟩
    · rw [hcompleted, List.getElem?_eq_none le_rfl] at hfull
      cases hfull
    · rw [hcompleted, List.getElem?_append_right le_rfl, Nat.sub_self] at hfull
      exact (Option.some.inj hfull).symm
  refine ⟨hget ⟨d, n, hinv⟩ h, ?_⟩
  -- Empty the ring, publish the frame if it waits, and empty the ring again.
  obtain ⟨k, t, hrun, hall, -, -⟩ := copies_all ⟨d, n, hinv⟩
  obtain ⟨hplace, d', n', hinv'⟩ := h.run ⟨d, n, hinv⟩ hrun
  obtain ⟨cs, v, hcs, hrun', hplaced⟩ : ∃ cs v, (∀ c ∈ cs, c = RingAction.poll ∨ c = .final) ∧ Run ringStep t cs v ∧
      completed.length < v.completed.length := by
    rcases hplace with ⟨hc, hcompleted, -⟩ | ⟨rest, hcompleted⟩
    · obtain ⟨v, hstep, hlen⟩ := hinv'.publishes hc hall
      exact ⟨[.final], v, fun c hc => Or.inr (List.mem_singleton.mp hc), .single hstep, by rw [hlen, hcompleted]; omega⟩
    · exact ⟨[], t, fun c hc => absurd hc List.not_mem_nil, .refl, by rw [hcompleted, List.length_append]; simp⟩
  obtain ⟨hplace', hinv''⟩ := hplace.run ⟨d', n', hinv'⟩ hrun'
  obtain ⟨k', w, hrun'', hall', hsame, -⟩ := copies_all hinv''
  obtain ⟨hplace'', hinvw⟩ := hplace'.run hinv'' hrun''
  refine ⟨List.replicate k .poll ++ cs ++ List.replicate k' .poll, w, ?_, (hrun.append hrun').append hrun'', ?_⟩
  · intro c hc
    rcases List.mem_append.mp hc with hc | hc
    · rcases List.mem_append.mp hc with hc | hc
      · exact Or.inl (List.eq_of_mem_replicate hc)
      · exact hcs c hc
    · exact Or.inl (List.eq_of_mem_replicate hc)
  · have hlt : completed.length < w.copied.length := by rw [hall', hsame]; exact hplaced
    rw [List.getElem?_eq_getElem hlt]
    exact congrArg some (hget hinvw hplace'' _ (List.getElem?_eq_getElem hlt))

end

end CiotVlc.Pru
