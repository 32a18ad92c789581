import CiotVlc.Gateway.RfCounters

/-! # The token bucket

`add_token` and `tbf_transmit` test `n_token` in one step and change it in another. Only `add_token`
raises it and only `tbf_transmit` lowers it, so what a thread has tested still holds when it acts.
-/
namespace CiotVlc.Gateway
open Foundations.Runs
set_option autoImplicit false

/-- `tbf_transmit` is past its test of `n_token`, and has not taken its token yet. -/
def TbfPc.holdsToken : TbfPc → Bool
  | .pop => true
  | .send _ => true
  | .decToken => true
  | _ => false

/-- A packet sent whose token is not yet taken off `n_token`. -/
def TbfPc.owed : TbfPc → ℤ
  | .decToken => 1
  | _ => 0

/-- `n_token` between its bounds, with what the two threads rely on after their tests. -/
structure Bucket (cfg : Config) (s : RfSystem) : Prop where
  nonneg : 0 ≤ s.nToken
  le_burst : s.nToken ≤ cfg.burst
  room : s.token = .add → s.nToken + cfg.tokenRate ≤ cfg.burst
  available : s.tbf.holdsToken = true → 1 ≤ s.nToken

/-- The step is the addition of `add_token`. -/
def addsTokens (s : RfSystem) : RfAction → Bool
  | .token =>
    match s.token with
    | .add => true
    | .test => false
  | _ => false

/-- The tokens there are, less the one owed, and the packets sent: what the additions pay for. -/
def tokenBalance (s : RfSystem) : ℤ := s.nToken - s.tbf.owed + s.sent.length

section
variable {cfg : Config} {s t : RfSystem}

theorem TbfPc.owed_le {pc : TbfPc} {n : ℤ} (hn : 0 ≤ n) (h : pc.holdsToken = true → 1 ≤ n) : pc.owed ≤ n := by
  cases pc with
  | decToken => exact h rfl
  | testQueue | testToken | pop | send | decLength => exact hn

theorem TbfPc.owed_nonneg (pc : TbfPc) : 0 ≤ pc.owed := by
  cases pc <;> simp [TbfPc.owed]

/-! ## The bounds -/

theorem Bucket.congr (h : Bucket cfg s) (htoken : t.token = s.token) (htbf : t.tbf = s.tbf)
    (hn : t.nToken = s.nToken) : Bucket cfg t where
  nonneg := by rw [hn]; exact h.nonneg
  le_burst := by rw [hn]; exact h.le_burst
  room := by rw [htoken, hn]; exact h.room
  available := by rw [htbf, hn]; exact h.available

theorem Bucket.tokenStep (h : Bucket cfg s) (hrate : 1 ≤ cfg.tokenRate) (hstep : tokenStep cfg s = some t) :
    Bucket cfg t := by
  unfold Gateway.tokenStep at hstep
  generalize hpc : s.token = pc at hstep
  cases pc with
  | test =>
    cases hstep
    refine ⟨h.nonneg, h.le_burst, ?_, h.available⟩
    simp only
    split
    · next hroom => exact fun _ => by omega
    · exact fun h => by cases h
  | add =>
    cases hstep
    have hroom := h.room hpc
    have hnonneg := h.nonneg
    refine ⟨?_, hroom, (fun h => by cases h), fun hholds => ?_⟩
    · simp only
      omega
    · have := h.available hholds
      simp only
      omega

theorem Bucket.tbfStep {sendSucceeds : Bool} (h : Bucket cfg s) (hstep : tbfStep s sendSucceeds = some t) :
    Bucket cfg t := by
  have havailable := h.available
  unfold Gateway.tbfStep at hstep
  generalize hpc : s.tbf = pc at havailable hstep
  cases pc with
  | testQueue =>
    cases hstep
    refine ⟨h.nonneg, h.le_burst, h.room, ?_⟩
    simp only
    split <;> exact fun h => by cases h
  | testToken =>
    cases hstep
    refine ⟨h.nonneg, h.le_burst, h.room, ?_⟩
    simp only
    split
    · next hpos => exact fun _ => hpos
    · exact fun h => by cases h
  | pop =>
    dsimp only at hstep
    split at hstep
    · cases hstep
      exact ⟨h.nonneg, h.le_burst, h.room, fun h => by cases h⟩
    · cases hstep
      exact ⟨h.nonneg, h.le_burst, h.room, fun _ => havailable rfl⟩
  | send temp =>
    dsimp only at hstep
    split at hstep
    · cases hstep
      exact ⟨h.nonneg, h.le_burst, h.room, fun _ => havailable rfl⟩
    · cases hstep
      exact ⟨h.nonneg, h.le_burst, h.room, fun h => by cases h⟩
  | decToken =>
    cases hstep
    have hone := havailable rfl
    have hburst := h.le_burst
    -- the token that was tested is still there: only this thread takes tokens
    refine ⟨?_, ?_, fun hadd => ?_, fun h => by cases h⟩
    · simp only
      omega
    · simp only
      omega
    · have := h.room hadd
      simp only
      omega
  | decLength =>
    cases hstep
    exact ⟨h.nonneg, h.le_burst, h.room, fun h => by cases h⟩

theorem Bucket.step {a : RfAction} (h : Bucket cfg s) (hrate : 1 ≤ cfg.tokenRate)
    (hstep : rfPathStep cfg s a = some t) : Bucket cfg t := by
  cases a with
  | token => exact h.tokenStep hrate hstep
  | tbf sendSucceeds => exact h.tbfStep hstep
  | gen payload =>
    obtain ⟨gen, nodeQueues, arrSeq, gn, serial, generated, rfl⟩ := genStep_frame hstep
    exact h.congr rfl rfl rfl
  | sched =>
    obtain ⟨sched, nodeQueues, rfQueue, unschedSeq, pktState, gn, r, rfl⟩ := schedStep_frame hstep
    exact h.congr rfl rfl rfl
  | rf =>
    obtain ⟨rf, rfQueue, tbfQueue, r, tbfQueueLength, rfl⟩ := rfStep_frame hstep
    exact h.congr rfl rfl rfl

/-! ## The balance -/

theorem tbfStep_balance {sendSucceeds : Bool} (hstep : tbfStep s sendSucceeds = some t) :
    tokenBalance t = tokenBalance s := by
  unfold tokenBalance
  unfold Gateway.tbfStep at hstep
  generalize hpc : s.tbf = pc at hstep ⊢
  cases pc with
  | testQueue =>
    cases hstep
    simp only
    split <;> rfl
  | testToken =>
    cases hstep
    simp only
    split <;> rfl
  | pop =>
    dsimp only at hstep
    split at hstep <;> cases hstep <;> rfl
  | send temp =>
    dsimp only at hstep
    split at hstep
    · cases hstep
      simp only [TbfPc.owed, List.length_append, List.length_singleton]
      push_cast
      omega
    · cases hstep
      rfl
  | decToken =>
    cases hstep
    simp only [TbfPc.owed]
    omega
  | decLength =>
    cases hstep
    rfl

/-- Only the additions of `add_token` change the balance. -/
theorem rfPathStep_balance {a : RfAction} (hstep : rfPathStep cfg s a = some t) :
    tokenBalance t = tokenBalance s + if addsTokens s a then cfg.tokenRate else 0 := by
  cases a with
  | token =>
    simp only [rfPathStep, Gateway.tokenStep] at hstep
    generalize hpc : s.token = pc at hstep
    cases pc with
    | test =>
      cases hstep
      simp [addsTokens, hpc, tokenBalance]
    | add =>
      cases hstep
      simp only [addsTokens, hpc, if_true, tokenBalance]
      omega
  | tbf sendSucceeds =>
    rw [tbfStep_balance hstep]
    simp [addsTokens]
  | gen payload =>
    obtain ⟨gen, nodeQueues, arrSeq, gn, serial, generated, rfl⟩ := genStep_frame hstep
    simp [addsTokens, tokenBalance]
  | sched =>
    obtain ⟨sched, nodeQueues, rfQueue, unschedSeq, pktState, gn, r, rfl⟩ := schedStep_frame hstep
    simp [addsTokens, tokenBalance]
  | rf =>
    obtain ⟨rf, rfQueue, tbfQueue, r, tbfQueueLength, rfl⟩ := rfStep_frame hstep
    simp [addsTokens, tokenBalance]

/-- In a segment of a run the sends use the tokens at its start and those added in it. -/
theorem Bucket.sends_le {u : RfSystem} {bs : List RfAction} (hu : Bucket cfg u)
    (hseg : Run (rfPathStep cfg) t bs u) :
    (u.sent.length : ℤ) - t.sent.length ≤
      t.nToken + cfg.tokenRate * countSteps (rfPathStep cfg) addsTokens t bs := by
  have hbalance := hseg.potential addsTokens tokenBalance
    fun v a w hstep => (rfPathStep_balance hstep).le
  have howed := TbfPc.owed_le hu.nonneg hu.available
  have howed' := t.tbf.owed_nonneg
  unfold tokenBalance at hbalance
  omega

end

/-- The two threads at the top of their loops with no tokens; the queues may hold anything. -/
structure EmptyBucket (s : RfSystem) : Prop where
  nToken : s.nToken = 0
  token : s.token = .test
  tbf : s.tbf = .testQueue

/-- **RF transmission respects the token bucket.** `n_token` stays within `[0, BURST]`, and any segment of a
run sends at most what the bucket held at its start and what was added during it. -/
theorem token_bucket_respected (cfg : Config) (hburst : 0 ≤ cfg.burst) (hrate : 1 ≤ cfg.tokenRate)
    (s : RfSystem) (hs : EmptyBucket s) (as bs : List RfAction) (t u : RfSystem)
    (hrun : Run (rfPathStep cfg) s as t) (hseg : Run (rfPathStep cfg) t bs u) :
    (0 ≤ t.nToken ∧ t.nToken ≤ cfg.burst) ∧
      (u.sent.length : ℤ) - t.sent.length ≤
        t.nToken + cfg.tokenRate * countSteps (rfPathStep cfg) addsTokens t bs ∧
      (u.sent.length : ℤ) - t.sent.length ≤
        cfg.burst + cfg.tokenRate * countSteps (rfPathStep cfg) addsTokens t bs := by
  have h0 : Bucket cfg s := by
    refine ⟨by rw [hs.nToken], by rw [hs.nToken]; exact hburst, fun h => ?_, fun h => ?_⟩
    · rw [hs.token] at h
      cases h
    · rw [hs.tbf] at h
      cases h
  have ht : Bucket cfg t := hrun.invariant h0 fun _ _ _ hv hstep => hv.step hrate hstep
  have hu : Bucket cfg u := hseg.invariant ht fun _ _ _ hv hstep => hv.step hrate hstep
  have hsends := hu.sends_le hseg
  have hle := ht.le_burst
  exact ⟨⟨ht.nonneg, hle⟩, hsends, by omega⟩

/-- The segment of a run that generates a packet, adds a token and sends the packet. -/
theorem token_bucket_respected_one_parcel :
    ∃ u, EmptyBucket initialRf ∧ Run (rfPathStep shipped) initialRf (oneParcelRun true) u ∧
      u.sent.length = 1 ∧
      (u.sent.length : ℤ) - initialRf.sent.length ≤ shipped.burst +
        shipped.tokenRate * countSteps (rfPathStep shipped) addsTokens initialRf (oneParcelRun true) := by
  obtain ⟨u, hu⟩ : ∃ u, exec (rfPathStep shipped) initialRf (oneParcelRun true) = some u := ⟨_, rfl⟩
  have hsent : (exec (rfPathStep shipped) initialRf (oneParcelRun true)).map (fun s => s.sent.length) =
    some 1 := rfl
  rw [hu, Option.map_some, Option.some.injEq] at hsent
  have hempty : EmptyBucket initialRf := ⟨rfl, rfl, rfl⟩
  exact ⟨u, hempty, run_of_exec hu, hsent,
    (token_bucket_respected shipped (by decide) (by decide) initialRf hempty [] (oneParcelRun true) _ u .refl
      (run_of_exec hu)).2.2⟩

end CiotVlc.Gateway
