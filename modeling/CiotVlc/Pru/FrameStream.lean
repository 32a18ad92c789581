import CiotVlc.Pru.DamagedFrames

/-! # Packets one after another

Any number of packets is heard while the thread empties the ring at its own pace. Between two packets the firmware
waits at `FINAL` until the ring has room. Every frame comes in its turn, and the thread copies each one once.
-/
namespace CiotVlc.Pru
open Foundations.Bytes Foundations.Registers Foundations.FrameRing Foundations.Runs
set_option autoImplicit false

/-! ## Actions and symbols -/

theorem heard_append (as bs : List RingAction) : heard (as ++ bs) = heard as ++ heard bs := List.filterMap_append

section
variable {rxPru : Memory} {s t u : RxRing} {as : List RingAction} {body : List Bool}

end

/-! ## Between packets -/

/-- The frames heard so far: the last one still waits at `FINAL`, or all are published and the firmware searches. -/
def AtRest (frames : List (List UInt8)) (s : RxRing) : Prop :=
  s.rx.control = .final ∧ s.completed.map Frame.bytes ++ [s.current] = frames ∨
    s.rx.control = .nextBit ∧ s.rx.r4 = 0 ∧ s.completed.map Frame.bytes = frames

section
variable {rxPru : Memory} {s u : RxRing} {frames : List (List UInt8)}

theorem AtRest.poll (h : AtRest frames s) (hs : ringStep s .poll = some u) : AtRest frames u := by
  cases hs
  exact h

theorem AtRest.final (h : AtRest frames s) (hs : ringStep s .final = some u) : AtRest frames u := by
  simp only [ringStep, RxRing.pass] at hs
  split at hs
  case isFalse => cases hs
  case isTrue hc =>
    rw [Option.map_some] at hs
    cases hs
    rcases h with ⟨-, hframes⟩ | ⟨hnext, -, -⟩
    · simp only [rxFinal]
      split
      · exact Or.inl ⟨hc, hframes⟩
      · refine Or.inr ⟨rfl, rfl, ?_⟩
        simp only [RxRing.finished, Option.isSome_some, if_true, List.map_append, List.map_cons, List.map_nil]
        exact hframes
    · rw [hnext] at hc
      cases hc

theorem AtRest.quiet {as : List RingAction} (h : AtRest frames s) (hrun : Run ringStep s as u) (hquiet : heard as = []) :
    AtRest frames u := by
  induction hrun with
  | refl => exact h
  | @snoc as t u a hrun hs ih =>
    rw [heard_append] at hquiet
    obtain ⟨has, ha⟩ := List.append_eq_nil_iff.mp hquiet
    cases a with
    | symbol high => cases ha
    | final => exact (ih has).final hs
    | poll => exact (ih has).poll hs

/-! ## A stream of packets -/

/-- What the thread has copied, and what it will have copied once the ring has been emptied. -/
theorem AtRest.copied (h : AtRest frames s) (hinv : ∃ d n, RingInv s d n) :
    s.copied.map Frame.bytes <+: frames ∧
      ∃ cs v, (∀ c ∈ cs, c = .poll ∨ c = .final) ∧ Run ringStep s cs v ∧ v.copied.map Frame.bytes = frames := by
  have hpublished : ∀ {t : RxRing}, AtRest frames t → t.completed.map Frame.bytes <+: frames := by
    rintro t (⟨-, hframes⟩ | ⟨-, -, hframes⟩)
    · exact ⟨_, hframes⟩
    · exact ⟨[], by rw [List.append_nil, hframes]⟩
  have hemptied : ∀ {t : RxRing}, (∃ d n, RingInv t d n) → t.copied.length = t.completed.length →
      t.copied = t.completed := by
    rintro t ⟨d, n, hinv⟩ hlen
    exact hinv.safe.delivered.eq_of_length hlen
  have hkeep : ∀ {t u : RxRing} {as : List RingAction}, (∃ d n, RingInv t d n) → Run ringStep t as u →
      ∃ d n, RingInv u d n := fun hinv hrun =>
    hrun.invariant (P := fun s => ∃ d n, RingInv s d n) hinv fun _ _ _ h h' => ringInv_step h h'
  have hquiet : ∀ k, heard (List.replicate k .poll) = [] := by
    intro k
    induction k with
    | zero => rfl
    | succ k ih => exact ih
  constructor
  · obtain ⟨d, n, hinv⟩ := hinv
    exact (hinv.safe.delivered.map _).trans (hpublished h)
  · obtain ⟨k, t, hrun, hall, -, -⟩ := copies_all hinv
    have ht := h.quiet hrun (hquiet k)
    have hinvt := hkeep hinv hrun
    have hpolls : ∀ k, ∀ c ∈ List.replicate k RingAction.poll, c = .poll ∨ c = .final := fun k c hc =>
      Or.inl (List.eq_of_mem_replicate hc)
    rcases ht with ⟨hc, hframes⟩ | ⟨-, -, hframes⟩
    · -- the frame at `FINAL` is published now that there is room
      obtain ⟨d, n, hringt⟩ := hinvt
      obtain ⟨v, hstep, hlen⟩ := hringt.publishes hc hall
      have hv := AtRest.final (Or.inl ⟨hc, hframes⟩) hstep
      have hinvv := ringInv_step ⟨d, n, hringt⟩ hstep
      obtain ⟨k', w, hrun', hall', hsame, -⟩ := copies_all hinvv
      have hw := hv.quiet hrun' (hquiet k')
      have hinvw := hkeep hinvv hrun'
      refine ⟨List.replicate k .poll ++ [.final] ++ List.replicate k' .poll, w, ?_,
        (hrun.snoc hstep).append hrun', ?_⟩
      · intro c hc
        rcases List.mem_append.mp hc with hc | hc
        · rcases List.mem_append.mp hc with hc | hc
          · exact hpolls k c hc
          · exact Or.inr (List.mem_singleton.mp hc)
        · exact hpolls k' c hc
      · rw [hemptied hinvw hall']
        rcases hw with ⟨-, hwaits⟩ | ⟨-, -, hpublishedAll⟩
        · -- one frame was waiting, and it has been published
          have hlens := congrArg List.length (hwaits.trans hframes.symm)
          simp only [List.length_append, List.length_map, List.length_singleton, hsame] at hlens
          omega
        · exact hpublishedAll
    · refine ⟨List.replicate k .poll, t, hpolls k, hrun, ?_⟩
      rw [hemptied hinvt hall, hframes]

end

end CiotVlc.Pru
