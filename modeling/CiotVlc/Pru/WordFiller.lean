import CiotVlc.Pru.TxPending

/-! # What the transmitter firmware puts on the line

The firmware with the words it has sent since its last reset, the packets it has read since then, and
what it last saw of the ring. The memory may change between any two steps, so every sequence of index
updates is among the runs. The words are a prefix of the packets' symbols, and the length of a packet is
loaded only behind a look at the indices that found them different.
-/
namespace CiotVlc.Pru
open Foundations.Bytes Foundations.Registers Foundations.BitPack Foundations.LineCode Foundations.Runs
set_option autoImplicit false

/-- A packet of the ring, as far as it is read. -/
structure TxFrame where
  addr : ℕ
  length : ℕ
  body : List UInt8
  deriving DecidableEq, Repr

/-- The firmware, with the words and packets since the last reset. `current` is the packet that is being
read, and `checked` what `CHECK_INDEX` last saw since the end of the packet in front of it: the write and
the read index. -/
structure TxLog where
  state : TxState
  words : List ℕ
  frames : List TxFrame
  current : Option TxFrame
  checked : Option (ℕ × ℕ)
  deriving DecidableEq, Repr

def TxFrame.readByte (f : TxFrame) (m : Memory) : TxFrame :=
  { f with body := f.body ++ [m (f.addr + 2 + f.body.length)] }

def TxLog.after (o : TxLog) (m : Memory) : TxEvent → TxLog
  | .none => o
  | .toLength => { o with current := some ⟨o.state.r9, load m o.state.r9 2, []⟩ }
  | .toBody => { o with current := o.current.map fun f => f.readByte m }
  | .nextByte => { o with current := o.current.map fun f => f.readByte m }
  | .packetDone => { o with frames := o.frames ++ o.current.toList, current := none, checked := none }

/-- The log of a `CHECK_INDEX` that leaves the registers `t`: at `RESET_STATE_TO_PREAMBLE` it starts anew. -/
def TxLog.look (o : TxLog) (m : Memory) (t : TxState) : TxLog :=
  let checked := some (load m 0 2, load m 2 2)
  if o.state.r27 = false ∧ t.r27 = true then ⟨t, [], [], none, checked⟩ else { o with state := t, checked }

def txLogStep (o : TxLog) (input : Memory × Bool) : Option TxLog :=
  let step := txStep o.state input.1 input.2
  match o.state.control with
  | .checkIndex => some (o.look input.1 step.state)
  | .getValue _ => some { o.after input.1 (passEvent o.state step.state) with
      state := step.state, words := o.words ++ step.word.toList }
  | _ => some { o with state := step.state }

def txLogStart : TxLog := ⟨txStart, [], [], none, none⟩

/-! ## The packets' symbols -/

/-- The symbols of what is read of a packet. -/
def TxFrame.content (f : TxFrame) : List Bool := encode (msbBits 16 f.length) ++ encodeBytes f.body

def TxFrame.symbols (f : TxFrame) : List Bool := syncField ++ f.content ++ List.replicate 4 true

/-- The symbols of the packets up to the first one that is not read yet. -/
def sequence (frames : List TxFrame) (current : Option TxFrame) : List Bool :=
  frames.flatMap TxFrame.symbols ++ syncField ++ current.elim [] TxFrame.content

/-- The symbols of the words, and of the filled part of the word that a call has begun. -/
def TxLog.symbols (o : TxLog) : List Bool :=
  o.words.flatMap (lsbBits 16) ++ lsbBits o.state.filled o.state.r3

theorem sequence_toLength (frames : List TxFrame) (addr length : ℕ) :
    sequence frames (some ⟨addr, length, []⟩) = sequence frames none ++ encode (msbBits 16 length) := by
  simp [sequence, TxFrame.content, encodeBytes]

theorem sequence_readByte (frames : List TxFrame) (f : TxFrame) (m : Memory) :
    sequence frames (some (f.readByte m)) =
      sequence frames (some f) ++ encode (msbBits 8 (m (f.addr + 2 + f.body.length)).toNat) := by
  simp [sequence, TxFrame.content, TxFrame.readByte, encodeBytes]

theorem sequence_done (frames : List TxFrame) (f : TxFrame) :
    sequence (frames ++ [f]) none = sequence frames (some f) ++ separatorField := by
  simp [sequence, TxFrame.symbols, separatorField]

/-! ## The packet that is read -/

/-- The registers between the length of a packet and the end of its body. -/
structure Reading (t : TxState) (f : TxFrame) : Prop where
  addr_lt : f.addr < 256 ^ 2
  length_lt : f.length < 256 ^ 2
  r9 : t.r9 = f.addr + 2 + f.body.length
  length : t.r2 = 2 → t.r10 = f.length ∧ f.body = []
  body : t.r2 = 3 → t.r12 = f.length + txOtherPacketContentByte ∧ t.r15 + 1 = f.body.length ∧
    f.body.length ≤ f.length + txOtherPacketContentByte

/-- The registers that say how far a packet is sent. -/
structure SameProgress (t u : TxState) : Prop where
  r2 : u.r2 = t.r2
  r7 : u.r7 = t.r7
  r10 : u.r10 = t.r10
  r12 : u.r12 = t.r12
  r15 : u.r15 = t.r15
  r16 : u.r16 = t.r16
  r18 : u.r18 = t.r18

/-- `sent` are the packets' symbols in front of the pending ones. -/
structure InStream (t : TxState) (frames : List TxFrame) (current : Option TxFrame) (sent : List Bool) : Prop where
  counting : Counting t
  symbols : sent ++ pending t = sequence frames current
  complete : ∀ f ∈ frames, f.body.length = f.length + txOtherPacketContentByte
  between : BetweenBodies t → current = none
  reading : ¬ BetweenBodies t → ∃ f, current = some f ∧ Reading t f

section
variable {t u : TxState} {m : Memory} {frames : List TxFrame} {current : Option TxFrame} {sent : List Bool}

theorem not_between (h : t.r2 = 2 ∨ t.r2 = 3) : ¬ BetweenBodies t := by
  unfold BetweenBodies
  omega

theorem Reading.keeps {f : TxFrame} (h : Reading t f) (hkeeps : Keeps t u) (h2 : u.r2 = t.r2) : Reading u f where
  addr_lt := h.addr_lt
  length_lt := h.length_lt
  r9 := hkeeps.r9.trans h.r9
  length := fun hu => by
    rw [hkeeps.r10]
    exact h.length (h2.symm.trans hu)
  body := fun hu => by
    rw [hkeeps.r12, hkeeps.r15]
    exact h.body (h2.symm.trans hu)

theorem InStream.congr {sent' : List Bool} (h : InStream t frames current sent) (hsent : sent' = sent)
    (hsame : SameProgress t u) (h9 : u.r9 = t.r9 ∨ BetweenBodies t) : InStream u frames current sent' := by
  obtain ⟨h2, h7, h10, h12, h15, h16, h18⟩ := hsame
  have hpending : pending u = pending t := by rw [pending, pending, h2, h7, h10, h16, h18]
  have hbetween : BetweenBodies u ↔ BetweenBodies t := by rw [BetweenBodies, BetweenBodies, h2]
  refine ⟨⟨?_, ?_⟩, ?_, h.complete, fun hu => h.between (hbetween.mp hu), fun hu => ?_⟩
  · rw [h2, h7, h18]
    exact h.counting.preamble
  · rw [h2, h7]
    exact h.counting.separator
  · rw [hsent, hpending, h.symbols]
  · have ht := fun ht => hu (hbetween.mpr ht)
    obtain ⟨f, hf, hr⟩ := h.reading ht
    refine ⟨f, hf, hr.addr_lt, hr.length_lt, (h9.resolve_right ht).trans hr.r9, ?_, ?_⟩
    · rw [h2, h10]
      exact hr.length
    · rw [h2, h12, h15]
      exact hr.body

/-- A pass sends symbols of the stream, whatever it reads. -/
theorem PassSends.stream {new : List Bool} (h : PassSends t u new) (hs : InStream t frames current sent)
    {frames' : List TxFrame} {current' : Option TxFrame}
    (hnew : sequence frames' current' = sequence frames current ++ new) :
    ∃ xs, xs ≠ [] ∧ Appends t u xs ∧ (sent ++ xs) ++ pending u = sequence frames' current' := by
  obtain ⟨xs, hne, happ, hpending⟩ := h.sends
  refine ⟨xs, hne, happ, ?_⟩
  rw [hnew, ← hs.symbols, List.append_assoc, List.append_assoc, hpending]

theorem InStream.keeps (hs : InStream t frames current sent) (hpass : PassSends t u []) (hkeeps : Keeps t u) :
    ∃ xs, xs ≠ [] ∧ Appends t u xs ∧ InStream u frames current (sent ++ xs) := by
  obtain ⟨xs, hne, happ, hsymbols⟩ := hpass.stream hs (List.append_nil _).symm
  refine ⟨xs, hne, happ, hpass.counting, hsymbols, hs.complete, ?_, ?_⟩
  · intro hu
    rcases hkeeps.r2 with h2 | ⟨ht, -⟩
    · exact hs.between (by rwa [BetweenBodies, ← h2])
    · exact hs.between ht
  · intro hu
    rcases hkeeps.r2 with h2 | ⟨-, hu'⟩
    · obtain ⟨f, hf, hreading⟩ := hs.reading (by rwa [BetweenBodies, ← h2])
      exact ⟨f, hf, hreading.keeps hkeeps h2⟩
    · exact absurd hu' hu

theorem InStream.toLength (hs : InStream t frames current sent) (hpass : PassSpec t m u .toLength)
    (h9 : t.r9 < 256 ^ 2) :
    ∃ xs, xs ≠ [] ∧ Appends t u xs ∧ InStream u frames (some ⟨t.r9, load m t.r9 2, []⟩) (sent ++ xs) := by
  obtain ⟨hpass, h2, -, h2', h9', h10', -⟩ := hpass
  rw [hs.between (Or.inr (Or.inl h2))] at hs
  obtain ⟨xs, hne, happ, hsymbols⟩ := hpass.stream hs (sequence_toLength frames t.r9 _)
  refine ⟨xs, hne, happ, hpass.counting, hsymbols, hs.complete, fun hu => absurd hu (not_between (Or.inl h2')),
    fun _ => ⟨_, rfl, h9, load_lt m t.r9 2, ?_, fun _ => ⟨h10', rfl⟩, fun h3 => ?_⟩⟩
  · rw [h9', add_of_lt (by omega)]
    rfl
  · omega

theorem InStream.toBody (hs : InStream t frames current sent) (hpass : PassSpec t m u .toBody) :
    ∃ xs, xs ≠ [] ∧ Appends t u xs ∧
      InStream u frames (current.map fun f => f.readByte m) (sent ++ xs) := by
  obtain ⟨hpass, h2, h2', h9', h12', h15', -⟩ := hpass
  obtain ⟨f, hf, hreading⟩ := hs.reading (not_between (Or.inl h2))
  obtain ⟨h10, hbody⟩ := hreading.length h2
  have haddr := hreading.addr_lt
  have hlength := hreading.length_lt
  have h9 := hreading.r9
  rw [hf] at hs
  rw [h9] at hpass
  obtain ⟨xs, hne, happ, hsymbols⟩ := hpass.stream hs (sequence_readByte frames f m)
  rw [hbody] at h9
  have h12 : u.r12 = f.length + txOtherPacketContentByte := by
    rw [h12', h10, add_of_lt (by rw [txOtherPacketContentByte]; omega)]
  refine ⟨xs, hne, happ, hpass.counting, by rw [hf]; exact hsymbols, hs.complete,
    fun hu => absurd hu (not_between (Or.inr h2')),
    fun _ => ⟨_, congrArg _ hf, haddr, hlength, ?_, fun h => absurd h (by omega), fun _ => ⟨h12, ?_, ?_⟩⟩⟩
  · rw [h9', h9, add_of_lt (by simp only [List.length_nil]; omega)]
    simp [TxFrame.readByte, hbody]
  · simp [TxFrame.readByte, hbody, h15']
  · simp [TxFrame.readByte, hbody, txOtherPacketContentByte]

theorem InStream.nextByte (hs : InStream t frames current sent) (hpass : PassSpec t m u .nextByte) :
    ∃ xs, xs ≠ [] ∧ Appends t u xs ∧
      InStream u frames (current.map fun f => f.readByte m) (sent ++ xs) := by
  obtain ⟨hpass, h2, h2', h9', h12', h15', hmore, -⟩ := hpass
  obtain ⟨f, hf, hreading⟩ := hs.reading (not_between (Or.inr h2))
  obtain ⟨h12, h15, hle⟩ := hreading.body h2
  have haddr := hreading.addr_lt
  have hlength := hreading.length_lt
  have h9 := hreading.r9
  have hother : txOtherPacketContentByte = 44 := rfl
  rw [hf] at hs
  rw [h9] at hpass
  obtain ⟨xs, hne, happ, hsymbols⟩ := hpass.stream hs (sequence_readByte frames f m)
  have hlen : (f.readByte m).body.length = f.body.length + 1 := by simp [TxFrame.readByte]
  rw [add_of_lt (by omega)] at h15' h9'
  refine ⟨xs, hne, happ, hpass.counting, by rw [hf]; exact hsymbols, hs.complete,
    fun hu => absurd hu (not_between (Or.inr h2')),
    fun _ => ⟨_, congrArg _ hf, haddr, hlength, ?_, fun h => absurd h (by omega), fun _ => ⟨h12'.trans h12, ?_, ?_⟩⟩⟩
  · rw [h9', h9, hlen, Nat.add_assoc]
    rfl
  · rw [h15', h15, hlen]
  · rw [hlen]
    change _ ≤ f.length + _
    omega

theorem InStream.packetDone (hs : InStream t frames current sent) (hpass : PassSpec t m u .packetDone) :
    ∃ xs, xs ≠ [] ∧ Appends t u xs ∧ InStream u (frames ++ current.toList) none (sent ++ xs) := by
  obtain ⟨hpass, h2, h2', -, -, hdone, -⟩ := hpass
  obtain ⟨f, hf, hreading⟩ := hs.reading (not_between (Or.inr h2))
  obtain ⟨h12, h15, hle⟩ := hreading.body h2
  have hlength := hreading.length_lt
  have hother : txOtherPacketContentByte = 44 := rfl
  rw [hf] at hs ⊢
  obtain ⟨xs, hne, happ, hsymbols⟩ := hpass.stream hs (sequence_done frames f)
  rw [add_of_lt (by omega)] at hdone
  refine ⟨xs, hne, happ, hpass.counting, hsymbols, ?_, fun _ => rfl, fun hu => absurd (Or.inr (Or.inr h2')) hu⟩
  intro g hg
  rcases List.mem_append.mp hg with hg | hg
  · exact hs.complete g hg
  · rw [List.mem_singleton.mp hg]
    omega

end

theorem TxLog.after_checked (o : TxLog) (m : Memory) (e : TxEvent) :
    (o.after m e).checked = if e = .packetDone then none else o.checked := by
  cases e <;> rfl

theorem InStream.pass {o : TxLog} {u : TxState} {m : Memory} {e : TxEvent} {sent : List Bool}
    (hs : InStream o.state o.frames o.current sent) (hpass : PassSpec o.state m u e)
    (h9 : e = .toLength → o.state.r9 < 256 ^ 2) :
    ∃ xs, xs ≠ [] ∧ Appends o.state u xs ∧ InStream u (o.after m e).frames (o.after m e).current (sent ++ xs) := by
  cases e with
  | none => exact hs.keeps hpass.1 hpass.2
  | toLength => exact hs.toLength hpass (h9 rfl)
  | toBody => exact hs.toBody hpass
  | nextByte => exact hs.nextByte hpass
  | packetDone => exact hs.packetDone hpass

/-! ## The check of the indices -/

/-- The symbols up to the end of the next word that is looked behind, while a packet is finished. -/
def untilCheck (t : TxState) : ℕ :=
  match t.control with
  | .getValue .sh0 => 16 - t.r1
  | .getValue .sh1 => 32 - t.r1
  | .shiftLoop => 16
  | _ => 0

/-- The look at the indices comes in front of the next packet's length, and the packet is there. The last
two pending symbols in front of a length are the pair that `TO_LENGTH` sends. -/
structure Checks (t : TxState) (checked : Option (ℕ × ℕ)) : Prop where
  r25_lt : t.r25 < 256 ^ 2
  r9_lt : t.r26 = true ∨ t.control = .checkIndex → t.r9 < 256 ^ 2
  atRest : t.control = .checkIndex → BetweenBodies t
  second : t.control = .getValue .sh1 → t.r5 = false
  first : t.control = .shiftLoop → t.r26 = true → t.r5 = false
  ahead : t.r26 = true → t.control ≠ .checkIndex → BetweenBodies t ∧ untilCheck t + 2 ≤ (pending t).length
  seen : t.r26 = false → t.control ≠ .checkIndex → BetweenBodies t →
    ∃ w r, checked = some (w, r) ∧ w ≠ r ∧ t.r9 = r ∧ r < 256 ^ 2

section
variable {t u : TxState} {m : Memory} {checked : Option (ℕ × ℕ)} {gpo : Gpo}

/-- No packet is finished while another one is read. -/
theorem Checks.unfinished (h : Checks t checked) (hc : t.control = .getValue gpo) (h2 : ¬ BetweenBodies t) :
    t.r26 = false := by
  by_contra h26
  rw [Bool.not_eq_false] at h26
  exact h2 (h.ahead h26 (by simp [hc])).1

theorem untilCheck_pos (hc : t.control = .getValue gpo) (hr1 : t.r1 < 16) : 0 < untilCheck t := by
  rw [untilCheck, hc]
  cases gpo <;> dsimp only <;> omega

/-- **At `TO_LENGTH` the indices have been looked at**, and were different. -/
theorem Checks.toLength (h : Checks t checked) (hc : t.control = .getValue gpo) (hr1 : t.r1 < 16) (h2 : t.r2 = 1)
    (h7 : t.r7 = 0) :
    t.r26 = false ∧ ∃ w r, checked = some (w, r) ∧ w ≠ r ∧ t.r9 = r ∧ r < 256 ^ 2 := by
  have hcontrol : t.control ≠ .checkIndex := by simp [hc]
  have h26 : t.r26 = false := by
    by_contra h26
    rw [Bool.not_eq_false] at h26
    obtain ⟨-, hle⟩ := h.ahead h26 hcontrol
    have hpos := untilCheck_pos hc hr1
    rw [pending_sfd h2 h7, encode_length, msbBits_length] at hle
    omega
  exact ⟨h26, h.seen h26 hcontrol (Or.inr (Or.inl h2))⟩

theorem untilCheck_appends {xs : List Bool} (happ : Appends t u xs) (hc : t.control = .getValue gpo)
    (hr1 : u.r1 ≤ 16) : untilCheck u + xs.length = untilCheck t := by
  have hr1' := happ.r1
  rw [untilCheck, untilCheck, happ.control, hc]
  cases gpo <;> dsimp only <;> omega

/-- Between the length and the end of the body nothing is asked of the indices. -/
theorem Checks.reading {checked' : Option (ℕ × ℕ)} (h : Checks t checked) (hc : t.control = .getValue gpo)
    (hcu : u.control = t.control) (h5 : u.r5 = t.r5) (h25 : u.r25 = t.r25) (h26 : u.r26 = false)
    (h2 : u.r2 = 2 ∨ u.r2 = 3) : Checks u checked' := by
  have hcontrol : u.control ≠ .checkIndex := by simp [hcu, hc]
  refine ⟨?_, ?_, fun hu => absurd hu hcontrol, ?_, ?_, ?_, fun _ _ hu => absurd hu (not_between h2)⟩
  · rw [h25]
    exact h.r25_lt
  · rintro (h | h)
    · rw [h26] at h
      cases h
    · exact absurd h hcontrol
  · rw [hcu, h5]
    exact h.second
  · intro _ h
    rw [h26] at h
    cases h
  · intro h
    rw [h26] at h
    cases h

/-- A pass that keeps the progress of the packet. -/
theorem Checks.keeps (h : Checks t checked) (hc : t.control = .getValue gpo)
    (hsends : PassSends t u []) (hkeeps : Keeps t u) (hcu : u.control = t.control) (hr1u : u.r1 ≤ 16) :
    Checks u checked := by
  have hcontrol : t.control ≠ .checkIndex := by simp [hc]
  obtain ⟨xs, -, happ, hpending⟩ := hsends.sends
  have hbetween : BetweenBodies u → BetweenBodies t := by
    intro hu
    rcases hkeeps.r2 with h2 | ⟨ht, -⟩
    · rwa [BetweenBodies, ← h2]
    · exact ht
  refine ⟨?_, ?_, ?_, ?_, ?_, ?_, ?_⟩
  · rw [hkeeps.r25]
    exact h.r25_lt
  · rw [hkeeps.r26, hkeeps.r9, hcu]
    exact h.r9_lt
  · exact fun hu => absurd (hcu.symm.trans hu) hcontrol
  · rw [hcu, hkeeps.r5]
    exact h.second
  · intro hu
    rw [hcu, hc] at hu
    cases hu
  · intro h26 _
    obtain ⟨hbetween, hle⟩ := h.ahead (hkeeps.r26.symm.trans h26) hcontrol
    have huntil := untilCheck_appends happ hc hr1u
    have hlength := congrArg List.length hpending
    rw [List.append_nil, List.length_append] at hlength
    refine ⟨?_, by omega⟩
    rcases hkeeps.r2 with h2 | ⟨-, hu⟩
    · rwa [BetweenBodies, h2]
    · exact hu
  · intro h26 _ hu
    rw [hkeeps.r9]
    exact h.seen (hkeeps.r26.symm.trans h26) hcontrol (hbetween hu)

/-- Behind the end of a packet a separator and a preamble are sent before the next length. -/
theorem Checks.packetDone (h : Checks t checked) (hc : t.control = .getValue gpo)
    (hpass : PassSpec t m u .packetDone) (hcu : u.control = t.control) : Checks u none := by
  have hcontrol : t.control ≠ .checkIndex := by simp [hc]
  obtain ⟨-, -, h2', h7', h9', -, h5, h25, h26⟩ := hpass
  have hsync : syncField.length = 40 := rfl
  have huntil : untilCheck u ≤ 32 := by
    rw [untilCheck, hcu, hc]
    cases gpo <;> dsimp only <;> omega
  refine ⟨?_, fun _ => h9', fun hu => absurd (hcu.symm.trans hu) hcontrol, ?_, ?_, fun _ _ => ⟨?_, ?_⟩, ?_⟩
  · rw [h25]
    exact h.r25_lt
  · rw [hcu, h5]
    exact h.second
  · intro hu
    rw [hcu, hc] at hu
    cases hu
  · exact Or.inr (Or.inr h2')
  · rw [pending_separator h2' h7', List.length_append, List.length_replicate, hsync]
    omega
  · intro h
    rw [h26] at h
    cases h

/-- Behind a pass the firmware is still in its call. -/
theorem Checks.pass {e : TxEvent} (h : Checks t checked) (hc : t.control = .getValue gpo) (hr1 : t.r1 < 16)
    (hpass : PassSpec t m u e) (hcu : u.control = t.control) (hr1u : u.r1 ≤ 16) :
    Checks u (if e = .packetDone then none else checked) := by
  cases e with
  | none => exact h.keeps hc hpass.1 hpass.2 hcu hr1u
  | toLength =>
    obtain ⟨-, h2, h7, h2', -, -, h5, h25, h26⟩ := hpass
    have hdone := h26.trans (h.toLength hc hr1 h2 h7).1
    exact h.reading hc hcu h5 h25 hdone (Or.inl h2')
  | toBody =>
    obtain ⟨-, h2, h2', -, -, -, h5, h25, h26⟩ := hpass
    have hdone := h26.trans (h.unfinished hc (not_between (Or.inl h2)))
    exact h.reading hc hcu h5 h25 hdone (Or.inr h2')
  | nextByte =>
    obtain ⟨-, h2, h2', -, -, -, -, h5, h25, h26⟩ := hpass
    have hdone := h26.trans (h.unfinished hc (not_between (Or.inr h2)))
    exact h.reading hc hcu h5 h25 hdone (Or.inr h2')
  | packetDone => exact h.packetDone hc hpass hcu

/-- A full word, and the return to the main loop. -/
theorem Checks.returns (h : Checks u checked) (hc : u.control = .getValue gpo) (hr1 : u.r1 = 16) :
    Checks { u with control := returnTo u gpo } checked := by
  have hcontrol : u.control ≠ .checkIndex := by simp [hc]
  cases gpo with
  | sh0 =>
    by_cases h26 : u.r26 = true
    · have hreturn : returnTo u .sh0 = .checkIndex := if_pos h26
      rw [hreturn]
      exact ⟨h.r25_lt, fun _ => h.r9_lt (Or.inl h26), fun _ => (h.ahead h26 hcontrol).1, nofun, nofun,
        fun _ hu => absurd rfl hu, fun _ hu => absurd rfl hu⟩
    · rw [Bool.not_eq_true] at h26
      have hreturn : returnTo u .sh0 = .shiftLoop := if_neg (by rw [h26]; exact Bool.false_ne_true)
      rw [hreturn]
      exact ⟨h.r25_lt, fun hu => h.r9_lt (hu.imp_right nofun), nofun, nofun,
        fun _ hu => absurd (h26.symm.trans hu) Bool.false_ne_true,
        fun hu => absurd (h26.symm.trans hu) Bool.false_ne_true, fun _ _ => h.seen h26 hcontrol⟩
  | sh1 =>
    have huntil : untilCheck u = 16 := by
      rw [untilCheck, hc]
      dsimp only
      omega
    refine ⟨h.r25_lt, fun hu => h.r9_lt (hu.imp_right nofun), nofun, nofun,
      fun _ _ => h.second hc, fun h26 _ => ?_, fun h26 _ => h.seen h26 hcontrol⟩
    obtain ⟨hbetween, hle⟩ := h.ahead h26 hcontrol
    rw [huntil] at hle
    exact ⟨hbetween, hle⟩

theorem Checks.shiftLoop (h : Checks t checked) (hc : t.control = .shiftLoop) (loadGpoSh : Bool) :
    Checks (shiftLoop t loadGpoSh) checked := by
  have hcontrol : t.control ≠ .checkIndex := by simp [hc]
  rcases h5 : t.r5 with _ | _ <;> rcases loadGpoSh with _ | _ <;> simp only [Pru.shiftLoop, h5]
  · exact h
  · refine ⟨h.r25_lt, fun hu => h.r9_lt (hu.imp_right nofun), nofun, nofun, nofun, fun h26 _ => ?_,
      fun h26 _ => h.seen h26 hcontrol⟩
    have hahead := h.ahead h26 hcontrol
    rw [untilCheck, hc] at hahead
    exact hahead
  · refine ⟨h.r25_lt, fun hu => h.r9_lt (hu.imp_right nofun), nofun, fun _ => rfl, nofun, fun h26 _ => ?_,
      fun h26 _ => h.seen h26 hcontrol⟩
    exact absurd ((h.first hc h26).symm.trans h5) Bool.false_ne_true
  · exact h

/-- **The firmware leaves `CHECK_INDEX` only when the indices differ.** -/
theorem Checks.look (h : Checks t checked) (hc : t.control = .checkIndex) (m : Memory) :
    Checks (checkIndex t m) (some (load m 0 2, load m 2 2)) := by
  have h9 : loadReg m t.r9 2 2 = load m 2 2 := loadReg_of_lt (h.r9_lt (Or.inr hc)) m 2
  have h25 : loadReg m t.r25 0 2 = load m 0 2 := loadReg_of_lt h.r25_lt m 0
  have hlt := load_lt m 2 2
  unfold checkIndex
  dsimp only
  rw [h9, h25]
  split
  · next hne =>
    exact ⟨load_lt m 0 2, fun _ => hlt, nofun, nofun, nofun,
      nofun, fun _ _ _ => ⟨_, _, rfl, hne.symm, rfl, hlt⟩⟩
  · split
    · exact ⟨load_lt m 0 2, fun _ => hlt, fun _ => Or.inl rfl, nofun, nofun,
        fun _ hu => absurd rfl hu, fun _ hu => absurd rfl hu⟩
    · exact ⟨load_lt m 0 2, fun _ => hlt, fun _ => h.atRest hc, fun hu => absurd (hc.symm.trans hu) (by simp),
        fun hu => absurd (hc.symm.trans hu) (by simp), fun _ hu => absurd hc hu, fun _ hu => absurd hc hu⟩

end

/-! ## Runs -/

structure LogInv (o : TxLog) : Prop where
  sound : TxSound o.state
  stream : InStream o.state o.frames o.current o.symbols
  checks : Checks o.state o.checked

theorem logInv_start : LogInv txLogStart where
  sound := txSound_start
  stream := ⟨⟨fun _ => ⟨by decide, by decide⟩, fun h => by cases h⟩, rfl, nofun, fun _ => rfl,
    fun h => absurd (Or.inl rfl) h⟩
  checks := ⟨by decide, fun _ => by decide, fun _ => Or.inl rfl, nofun, nofun, fun _ h => absurd rfl h,
    fun _ h => absurd rfl h⟩

section
variable {o u : TxLog} {input : Memory × Bool} {gpo : Gpo}

theorem filled_atRest {t : TxState} (hc : ∀ gpo, t.control ≠ .getValue gpo) : t.filled = 0 := by
  unfold TxState.filled
  split
  · next gpo h => exact absurd h (hc gpo)
  · rfl

theorem filled_inCall {t : TxState} (hc : t.control = .getValue gpo) : t.filled = t.r1 := by
  rw [TxState.filled, hc]

theorem getValuePass_eq {t u : TxState} {m : Memory} (hcheck : (checkState t m).1 = u)
    (hc : u.control = .getValue gpo) :
    getValuePass t m gpo =
      if u.r1 = 16 then ⟨{ u with control := returnTo u gpo }, (checkState t m).2, some (u.r3 % 2 ^ 16)⟩
      else ⟨u, (checkState t m).2, none⟩ := by
  rcases hpass : checkState t m with ⟨u', st⟩
  rw [hpass] at hcheck
  cases hcheck
  have hrun : u'.control ≠ .halted := by
    intro hhalted
    cases hhalted.symm.trans hc
  simp only [getValuePass, hpass, if_neg hrun]
  by_cases hfull : u'.r1 = 16
  · rw [if_neg (not_not.mpr hfull), if_pos hfull]
  · rw [if_pos hfull, if_neg hfull]

theorem txLogStep_state (hstep : txLogStep o input = some u) : u.state = (txStep o.state input.1 input.2).state := by
  unfold txLogStep TxLog.look at hstep
  dsimp only at hstep
  split at hstep
  · split at hstep <;> cases hstep <;> rfl
  · cases hstep
    rfl
  · cases hstep
    rfl

theorem returnTo_atRest (t : TxState) (gpo gpo' : Gpo) : returnTo t gpo ≠ .getValue gpo' := by
  unfold returnTo
  split
  · split <;> nofun
  · nofun

/-- One step from a call of `GETVALUE`: it goes on, or it returns a full word. -/
theorem LogInv.inCall (h : LogInv o) (hc : o.state.control = .getValue gpo) (hstep : txLogStep o input = some u) :
    LogInv u ∧ o.state.r1 < u.state.r1 ∧
      (u.state.control = .getValue gpo ∧ u.words = o.words ∨
        ∃ w, w < 2 ^ 16 ∧ u.words = o.words ++ [w] ∧ u.state.r1 = 16 ∧ u.state.control = returnTo u.state gpo) := by
  obtain ⟨hr1, hr3⟩ := h.sound.word gpo hc
  have hfilled := filled_inCall hc
  have hal : Aligned o.state o.state.r1 := by rw [← hfilled]; exact h.sound.aligned
  have hsound : TxSound u.state := by
    rw [txLogStep_state hstep]
    exact txStep_sound h.sound input.2
  have hspec := checkState_spec (m := input.1) h.sound h.stream.counting hr1 hr3 hal
  obtain ⟨n, hroom, hfill⟩ := checkState_filled (m := input.1) h.sound hr1 hr3 hal
  generalize hcheck : (checkState o.state input.1).1 = v at hspec hfill
  have hcv : v.control = .getValue gpo := hfill.control.trans hc
  have hr1v : v.r1 ≤ 16 := by rw [hfill.r1]; exact hroom
  have hchecks := h.checks.pass hc hr1 hspec hfill.control hr1v
  have h9 : passEvent o.state v = .toLength → o.state.r9 < 256 ^ 2 := by
    intro he
    rw [he] at hspec
    obtain ⟨-, w, r, -, -, h9, hlt⟩ := h.checks.toLength hc hr1 hspec.2.1 hspec.2.2.1
    omega
  obtain ⟨xs, hne, happ, hstream⟩ := h.stream.pass hspec h9
  obtain ⟨hword, hlt⟩ := happ.word hr3
  have hlen := List.length_pos_iff.mpr hne
  have hr1u := happ.r1
  have hsymbols : o.symbols = o.words.flatMap (lsbBits 16) ++ lsbBits o.state.r1 o.state.r3 := by
    rw [TxLog.symbols, hfilled]
  rw [← TxLog.after_checked o input.1] at hchecks
  simp only [txLogStep, hc, txStep, getValuePass_eq hcheck hcv] at hstep
  by_cases hfull : v.r1 = 16
  · rw [if_pos hfull] at hstep
    cases hstep
    have hrest := filled_atRest (t := { v with control := returnTo v gpo }) (returnTo_atRest v gpo)
    rw [hfull] at hword hlt
    refine ⟨⟨hsound, ?_, hchecks.returns hcv hfull⟩, ?_,
      Or.inr ⟨_, Nat.mod_lt _ (Nat.two_pow_pos 16), rfl, hfull, rfl⟩⟩
    · refine hstream.congr ?_ ⟨rfl, rfl, rfl, rfl, rfl, rfl, rfl⟩ (Or.inl rfl)
      change (o.words ++ [v.r3 % 2 ^ 16]).flatMap (lsbBits 16) ++
        lsbBits ({ v with control := returnTo v gpo } : TxState).filled v.r3 = _
      rw [hrest, lsbBits_zero, List.append_nil, List.flatMap_append, List.flatMap_singleton, Nat.mod_eq_of_lt hlt,
        hword, hsymbols, List.append_assoc]
    · change o.state.r1 < v.r1
      omega
  · rw [if_neg hfull] at hstep
    cases hstep
    refine ⟨⟨hsound, ?_, hchecks⟩, ?_, Or.inl ⟨hcv, List.append_nil _⟩⟩
    · refine hstream.congr ?_ ⟨rfl, rfl, rfl, rfl, rfl, rfl, rfl⟩ (Or.inl rfl)
      change (o.words ++ []).flatMap (lsbBits 16) ++ lsbBits v.filled v.r3 = _
      rw [List.append_nil, filled_inCall hcv, hword, hsymbols, List.append_assoc]
    · change o.state.r1 < v.r1
      omega

theorem symbols_atRest (hc : ∀ gpo, o.state.control ≠ .getValue gpo) : o.symbols = o.words.flatMap (lsbBits 16) := by
  rw [TxLog.symbols, filled_atRest hc, lsbBits_zero, List.append_nil]

/-- `CHECK_INDEX` resets the packet to its preamble, or leaves it alone. -/
theorem checkIndex_cases (t : TxState) (m : Memory) :
    t.r27 = false ∧ (checkIndex t m).r27 = true ∧
        (∃ v, checkIndex t m = resetToPreamble v) ∨
      ¬ (t.r27 = false ∧ (checkIndex t m).r27 = true) ∧ SameProgress t (checkIndex t m) := by
  unfold checkIndex
  dsimp only
  split_ifs with hne h27
  · exact Or.inr ⟨fun h => h.2.elim, ⟨rfl, rfl, rfl, rfl, rfl, rfl, rfl⟩⟩
  · exact Or.inl ⟨h27, rfl, _, rfl⟩
  · exact Or.inr ⟨fun h => h27 h.1, ⟨rfl, rfl, rfl, rfl, rfl, rfl, rfl⟩⟩

theorem checkIndex_atRest {t : TxState} (hc : t.control = .checkIndex) (m : Memory) (gpo : Gpo) :
    (checkIndex t m).control ≠ .getValue gpo := by
  unfold checkIndex
  dsimp only
  split_ifs
  · nofun
  · nofun
  · simp [hc]

theorem LogInv.look (h : LogInv o) (hc : o.state.control = .checkIndex) (m : Memory) :
    LogInv (o.look m (checkIndex o.state m)) := by
  have hsound := checkIndex_sound (m := m) h.sound hc
  have hchecks := h.checks.look hc m
  have hrest := checkIndex_atRest hc m
  have hsymbols := symbols_atRest (o := o) fun gpo => by simp [hc]
  rcases checkIndex_cases o.state m with ⟨h27, h27', v, hv⟩ | ⟨hkeep, hsame⟩
  · rw [TxLog.look, if_pos ⟨h27, h27'⟩]
    refine ⟨hsound, ?_, hchecks⟩
    rw [symbols_atRest hrest]
    change InStream (checkIndex o.state m) [] none []
    rw [hv]
    exact ⟨⟨fun _ => ⟨le_refl 7, Nat.zero_lt_succ 2⟩, nofun⟩, rfl, nofun, fun _ => rfl,
      fun hu => absurd (Or.inl rfl) hu⟩
  · rw [TxLog.look, if_neg hkeep]
    refine ⟨hsound, h.stream.congr ?_ hsame (Or.inr (h.checks.atRest hc)), hchecks⟩
    rw [symbols_atRest hrest, hsymbols]

theorem LogInv.wait (h : LogInv o) (hc : o.state.control = .shiftLoop) (loadGpoSh : Bool) :
    LogInv { o with state := shiftLoop o.state loadGpoSh } := by
  refine ⟨shiftLoop_sound h.sound hc loadGpoSh, h.stream.congr ?_ ?_ ?_, h.checks.shiftLoop hc loadGpoSh⟩
  · rw [symbols_atRest (o := o) fun gpo => by simp [hc]]
    unfold shiftLoop
    split
    · exact List.append_nil _
    · exact List.append_nil _
    · exact symbols_atRest (o := o) fun gpo => by simp [hc]
  · unfold shiftLoop
    split <;> exact ⟨rfl, rfl, rfl, rfl, rfl, rfl, rfl⟩
  · unfold shiftLoop
    split <;> exact Or.inl rfl

theorem LogInv.step (h : LogInv o) (hstep : txLogStep o input = some u) : LogInv u := by
  cases hc : o.state.control with
  | checkIndex =>
    simp only [txLogStep, hc, txStep] at hstep
    cases hstep
    exact h.look hc input.1
  | shiftLoop =>
    simp only [txLogStep, hc, txStep] at hstep
    cases hstep
    exact h.wait hc input.2
  | getValue gpo => exact (h.inCall hc hstep).1
  | halted =>
    simp only [txLogStep, hc, txStep] at hstep
    cases hstep
    exact h

theorem logInv_of_reachable (h : Reachable txLogStep txLogStart o) : LogInv o :=
  h.invariant logInv_start fun _ _ _ h hstep => h.step hstep

/-- **A call of `GETVALUE` returns**, whatever the memory holds, with a full word. -/
theorem LogInv.returns (h : LogInv o) (hc : o.state.control = .getValue gpo) (inputs : List (Memory × Bool))
    (hlen : 16 ≤ o.state.r1 + inputs.length) :
    ∃ n ≤ inputs.length, ∃ u w, Run txLogStep o (inputs.take n) u ∧ w < 2 ^ 16 ∧ u.words = o.words ++ [w] ∧
      u.state.r1 = 16 ∧ u.state.control = returnTo u.state gpo := by
  induction inputs generalizing o with
  | nil =>
    have hr1 := (h.sound.word gpo hc).1
    rw [List.length_nil] at hlen
    omega
  | cons input inputs ih =>
    obtain ⟨v, hv⟩ : ∃ v, txLogStep o input = some v := ⟨_, by simp only [txLogStep, hc]; rfl⟩
    obtain ⟨hinv, hlt, ⟨hcall, hsame⟩ | ⟨w, hw, hwords, hr1, hreturn⟩⟩ := h.inCall hc hv
    · rw [List.length_cons] at hlen
      obtain ⟨n, hn, u, w, hrun, hw, hwords, hr1, hreturn⟩ := ih hinv hcall (by omega)
      refine ⟨n + 1, Nat.succ_le_succ hn, u, w, ?_, hw, by rw [hwords, hsame], hr1, hreturn⟩
      rw [List.take_succ_cons, ← List.singleton_append]
      exact (Run.single hv).append hrun
    · exact ⟨1, by simp, v, w, .single hv, hw, hwords, hr1, hreturn⟩

end

/-- **The word filler.** In every run, whatever the memory holds at each step:
a call of `GETVALUE` is at an even position when it appends a pair, and returns with sixteen symbols;
the words since the last reset are a prefix of the symbols of the packets read since then;
a length is loaded, from the read index, only if the last look since the end of the packet in front of it
found the indices different. -/
theorem word_filler_sound {o : TxLog} (h : Reachable txLogStep txLogStart o) :
    (∀ gpo, o.state.control = .getValue gpo →
      o.state.r1 < 16 ∧ (o.state.r2 = 1 ∨ o.state.r2 = 2 ∨ o.state.r2 = 3 → o.state.r1 % 2 = 0) ∧
      ∀ inputs : List (Memory × Bool), 16 ≤ o.state.r1 + inputs.length →
        ∃ n ≤ inputs.length, ∃ u w, Run txLogStep o (inputs.take n) u ∧ w < 2 ^ 16 ∧ u.words = o.words ++ [w] ∧
          u.state.r1 = 16 ∧ u.state.control = returnTo u.state gpo) ∧
    (o.words.flatMap (lsbBits 16) <+: sequence o.frames o.current ∧
      ∀ f ∈ o.frames, f.body.length = f.length + txOtherPacketContentByte) ∧
    ∀ gpo, o.state.control = .getValue gpo → o.state.r2 = 1 → o.state.r7 = 0 →
      ∃ w r, o.checked = some (w, r) ∧ w ≠ r ∧ o.state.r9 = r := by
  have hinv := logInv_of_reachable h
  refine ⟨fun gpo hc => ⟨(hinv.sound.word gpo hc).1, ?_, hinv.returns hc⟩, ⟨?_, hinv.stream.complete⟩, ?_⟩
  · rw [← filled_inCall hc]
    exact hinv.sound.aligned.pair
  · rw [← hinv.stream.symbols, TxLog.symbols, List.append_assoc]
    exact List.prefix_append _ _
  · intro gpo hc h2 h7
    obtain ⟨-, w, r, hw, hne, h9, -⟩ := hinv.checks.toLength hc (hinv.sound.word gpo hc).1 h2 h7
    exact ⟨w, r, hw, hne, h9⟩

/-- A ring with one packet at offset 4. -/
def onePacket (a : ℕ) : UInt8 := if a = 0 then 104 else if a = 2 then 4 else 0

/-- The first two words, and the third one up to `TO_LENGTH`. -/
def firstLength : List (Memory × Bool) :=
  List.replicate 18 (onePacket, true) ++ List.replicate 13 (onePacket, false) ++ List.replicate 4 (onePacket, true)

theorem word_filler_sound_first_length :
    ∃ o, Run txLogStep txLogStart firstLength o ∧ o.words = [0x5555, 0x6655] ∧
      o.words.flatMap (lsbBits 16) <+: sequence o.frames o.current ∧
      ∃ w r, o.checked = some (w, r) ∧ w ≠ r ∧ o.state.r9 = r := by
  obtain ⟨o, ho⟩ : ∃ o, exec txLogStep txLogStart firstLength = some o := ⟨_, rfl⟩
  have hrun := run_of_exec ho
  obtain ⟨-, ⟨hstart, -⟩, hlength⟩ := word_filler_sound ⟨_, hrun⟩
  have hstate : o.words = [0x5555, 0x6655] ∧ o.state.control = .getValue .sh0 ∧ o.state.r2 = 1 ∧ o.state.r7 = 0 := by
    cases ho
    decide +kernel
  exact ⟨o, hrun, hstate.1, hstart, hlength .sh0 hstate.2.1 hstate.2.2.1 hstate.2.2.2⟩

end CiotVlc.Pru
