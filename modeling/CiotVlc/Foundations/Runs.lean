import Mathlib.Algebra.Ring.Int.Defs
import Mathlib.Order.Basic
import Mathlib.Data.List.Induction

/-! # Runs of a labelled step function

A system is a partial step function `step : σ → α → Option σ`: `none` says that the action is not
enabled. `Run step s as t` is the run that takes the actions `as`, in order, from `s` to `t`.

* `Run.invariant` is the induction rule: what one step preserves, a run preserves.
* `Always` quantifies over the states a run passes through, `EveryStep` over the steps it takes.
* `Run.tally` counts: an error that only grows is zero exactly as long as no step adds to it.
* `Run.potential` bounds what a run gains by the number of its steps that can gain.
* `always_iff_everyStep` is the rule for a property that holds exactly as long as every step is
  good: an invariant that good steps keep, and a bad step that breaks the property at once.
  `everyStep_congr` compares two conditions on steps.
-/
namespace Foundations.Runs
set_option autoImplicit false

variable {σ α : Type}

/-- The run of `step` from `s` along the actions, oldest first. -/
inductive Run (step : σ → α → Option σ) (s : σ) : List α → σ → Prop
  | refl : Run step s [] s
  | snoc {as : List α} {t u : σ} {a : α} :
      Run step s as t → step t a = some u → Run step s (as ++ [a]) u

def Reachable (step : σ → α → Option σ) (s t : σ) : Prop := ∃ as, Run step s as t

theorem Reachable.refl (step : σ → α → Option σ) (s : σ) : Reachable step s s := ⟨[], .refl⟩

/-! ## Splitting and joining runs -/

theorem run_nil {step : σ → α → Option σ} {s t : σ} (h : Run step s [] t) : t = s := by
  generalize hl : ([] : List α) = l at h
  cases h with
  | refl => rfl
  | snoc h' hs => simp at hl

theorem run_snoc {step : σ → α → Option σ} {s u : σ} {as : List α} {a : α}
    (h : Run step s (as ++ [a]) u) : ∃ t, Run step s as t ∧ step t a = some u := by
  generalize hl : as ++ [a] = l at h
  cases h with
  | refl => simp at hl
  | snoc h' hs =>
    obtain ⟨rfl, hb⟩ := List.append_inj' hl rfl
    cases hb
    exact ⟨_, h', hs⟩

theorem Run.append {step : σ → α → Option σ} {s t u : σ} {as bs : List α}
    (h : Run step s as t) (h' : Run step t bs u) : Run step s (as ++ bs) u := by
  induction h' with
  | refl => simpa using h
  | snoc _ hs ih =>
    rw [← List.append_assoc]
    exact ih.snoc hs

theorem Run.single {step : σ → α → Option σ} {s t : σ} {a : α} (h : step s a = some t) :
    Run step s [a] t := Run.refl.snoc h

theorem Run.split {step : σ → α → Option σ} {s u : σ} {as bs : List α}
    (h : Run step s (as ++ bs) u) : ∃ t, Run step s as t ∧ Run step t bs u := by
  induction bs using List.reverseRecOn generalizing u with
  | nil => exact ⟨u, by simpa using h, .refl⟩
  | append_singleton bs b ih =>
    rw [← List.append_assoc] at h
    obtain ⟨v, hv, hs⟩ := run_snoc h
    obtain ⟨t, ht, hr⟩ := ih hv
    exact ⟨t, ht, hr.snoc hs⟩

theorem run_cons {step : σ → α → Option σ} {s u : σ} {a : α} {as : List α}
    (h : Run step s (a :: as) u) : ∃ t, step s a = some t ∧ Run step t as u := by
  rw [← List.singleton_append] at h
  obtain ⟨t, ht, hr⟩ := h.split
  rw [← List.nil_append [a]] at ht
  obtain ⟨s', hs', hs⟩ := run_snoc ht
  rw [run_nil hs'] at hs
  exact ⟨t, hs, hr⟩

theorem Run.unique {step : σ → α → Option σ} {s t u : σ} {as : List α}
    (h : Run step s as t) (h' : Run step s as u) : t = u := by
  induction h generalizing u with
  | refl => exact (run_nil h').symm
  | snoc _ hs ih =>
    obtain ⟨v, hv, hs'⟩ := run_snoc h'
    rw [ih hv] at hs
    exact Option.some.inj (hs.symm.trans hs')

/-! ## Executing a list of actions -/

/-- The state after the actions, if each is enabled in turn. -/
def exec (step : σ → α → Option σ) (s : σ) (as : List α) : Option σ := as.foldlM step s

theorem run_of_exec {step : σ → α → Option σ} {s t : σ} {as : List α} (h : exec step s as = some t) :
    Run step s as t := by
  induction as using List.reverseRecOn generalizing t with
  | nil =>
    cases h
    exact .refl
  | append_singleton as a ih =>
    rw [exec, List.foldlM_append] at h
    obtain ⟨u, hu, ht⟩ := Option.bind_eq_some_iff.mp h
    refine (ih hu).snoc ?_
    simpa using ht

/-! ## Induction rules -/

theorem Run.invariant {step : σ → α → Option σ} {s t : σ} {as : List α} {P : σ → Prop}
    (h : Run step s as t) (h0 : P s) (keep : ∀ t a u, P t → step t a = some u → P u) : P t := by
  induction h with
  | refl => exact h0
  | snoc _ hs ih => exact keep _ _ _ ih hs

theorem Reachable.invariant {step : σ → α → Option σ} {s t : σ} {P : σ → Prop}
    (h : Reachable step s t) (h0 : P s) (keep : ∀ t a u, P t → step t a = some u → P u) : P t := by
  obtain ⟨as, hr⟩ := h
  exact hr.invariant h0 keep

/-! ## Properties of a whole run -/

/-- `P` holds in every state that the run along `as` passes through. -/
def Always (step : σ → α → Option σ) (s : σ) (as : List α) (P : σ → Prop) : Prop :=
  ∀ bs t, bs <+: as → Run step s bs t → P t

/-- `C` holds of every step that the run along `as` takes (the state before it, and its action). -/
def EveryStep (step : σ → α → Option σ) (s : σ) (as : List α) (C : σ → α → Prop) : Prop :=
  ∀ bs a t, bs ++ [a] <+: as → Run step s bs t → C t a

theorem EveryStep.mono {step : σ → α → Option σ} {s : σ} {as bs : List α} {C : σ → α → Prop}
    (h : EveryStep step s as C) (hb : bs <+: as) : EveryStep step s bs C :=
  fun cs a t hc hr => h cs a t (hc.trans hb) hr

theorem everyStep_snoc {step : σ → α → Option σ} {s t : σ} {as : List α} {a : α} {C : σ → α → Prop}
    (hr : Run step s as t) :
    EveryStep step s (as ++ [a]) C ↔ EveryStep step s as C ∧ C t a := by
  constructor
  · exact fun h => ⟨h.mono (List.prefix_append _ _), h as a t List.prefix_rfl hr⟩
  · rintro ⟨hc, ha⟩ bs b u hb hu
    rcases List.prefix_concat_iff.mp hb with heq | hpre
    · obtain ⟨rfl, hba⟩ := List.append_inj' heq rfl
      cases hba
      rw [hu.unique hr]
      exact ha
    · exact hc bs b u hpre hu

theorem everyStep_nil (step : σ → α → Option σ) (s : σ) (C : σ → α → Prop) : EveryStep step s [] C := by
  intro bs a t hb _
  have hlen := hb.length_le
  simp at hlen

theorem everyStep_cons {step : σ → α → Option σ} {s t : σ} {as : List α} {a : α} {C : σ → α → Prop}
    (hs : step s a = some t) : EveryStep step s (a :: as) C ↔ C s a ∧ EveryStep step t as C := by
  constructor
  · intro h
    refine ⟨h [] a s (List.prefix_append [a] as) .refl, ?_⟩
    intro bs b u hb hr
    exact h (a :: bs) b u ((List.prefix_cons_inj a).mpr hb) ((Run.single hs).append hr)
  · rintro ⟨ha, hc⟩ bs b u hb hr
    cases bs with
    | nil =>
      rw [run_nil hr]
      cases (List.cons_prefix_cons.mp hb).1
      exact ha
    | cons c bs =>
      obtain ⟨rfl, hbs⟩ := List.cons_prefix_cons.mp hb
      obtain ⟨v, hv, hvr⟩ := @Run.split σ α _ _ _ [c] bs hr
      rw [hv.unique (Run.single hs)] at hvr
      exact hc bs b u hbs hvr

/-- A condition holds of every step if it holds of every action in the state that each proper prefix ends in. -/
theorem everyStep_of_exec_take {step : σ → α → Option σ} {s : σ} {as : List α} {C : σ → α → Prop}
    (h : ∀ k < as.length, ∃ t, exec step s (as.take k) = some t ∧ ∀ a, C t a) : EveryStep step s as C := by
  intro bs a t hb hr
  have htake := List.prefix_iff_eq_take.mp ((List.prefix_append bs [a]).trans hb)
  have hlt : bs.length < as.length := by
    have hlen := hb.length_le
    rw [List.length_append] at hlen
    exact hlen
  obtain ⟨u, hu, hall⟩ := h bs.length hlt
  rw [← htake] at hu
  rw [hr.unique (run_of_exec hu)]
  exact hall a

theorem Run.invariant_of_everyStep {step : σ → α → Option σ} {s t : σ} {as : List α}
    {I : σ → Prop} {C : σ → α → Prop} (h : Run step s as t) (h0 : I s)
    (good : ∀ t a u, I t → C t a → step t a = some u → I u)
    (hc : EveryStep step s as C) : I t := by
  induction h with
  | refl => exact h0
  | snoc hr hs ih =>
    have hi := ih (hc.mono (List.prefix_append _ _))
    exact good _ _ _ hi (hc _ _ _ List.prefix_rfl hr) hs

/-- To show that every step is good, the state before a step may be taken to be in the invariant that good
steps keep. -/
theorem everyStep_of_invariant {step : σ → α → Option σ} {s : σ} {as : List α} {I : σ → Prop}
    {C : σ → α → Prop} (h0 : I s) (good : ∀ t a u, I t → C t a → step t a = some u → I u)
    (each : ∀ bs a t, bs ++ [a] <+: as → Run step s bs t → I t → C t a) : EveryStep step s as C := by
  intro bs
  -- induction on the length of the prefix: the steps before it are good, so it starts in `I`
  induction hn : bs.length using Nat.strongRecOn generalizing bs with
  | _ n ih =>
    intro a t hb ht
    have hgood : EveryStep step s bs C := by
      intro cs c v hc hv
      have hlen : cs.length < n := by
        have := hc.length_le
        rw [List.length_append, List.length_singleton] at this
        omega
      exact ih cs.length hlen cs rfl c v (hc.trans ((List.prefix_append bs [a]).trans hb)) hv
    exact each bs a t hb ht (ht.invariant_of_everyStep h0 good hgood)

/-- Two conditions that agree in the invariant that good steps keep hold of the same runs. -/
theorem everyStep_congr {step : σ → α → Option σ} {s : σ} {as : List α} {I : σ → Prop}
    {P C : σ → α → Prop} (h0 : I s) (good : ∀ t a u, I t → C t a → step t a = some u → I u)
    (agree : ∀ t a, I t → (P t a ↔ C t a)) : EveryStep step s as P ↔ EveryStep step s as C := by
  constructor
  · exact fun hp => everyStep_of_invariant h0 good fun bs a t hb ht hi => (agree t a hi).mp (hp bs a t hb ht)
  · intro hc bs a t hb ht
    have hi := ht.invariant_of_everyStep h0 good (hc.mono ((List.prefix_append bs [a]).trans hb))
    exact (agree t a hi).mpr (hc bs a t hb ht)

/-- **Exact condition of a run property.** If good steps keep an invariant that gives `P`, and a bad
step from the invariant breaks `P` at once, then `P` holds all along a run exactly when every step
of the run is good. -/
theorem always_iff_everyStep {step : σ → α → Option σ} {s t : σ} {as : List α}
    {I P : σ → Prop} {C : σ → α → Prop} (hr : Run step s as t) (h0 : I s)
    (sound : ∀ t, I t → P t)
    (good : ∀ t a u, I t → C t a → step t a = some u → I u)
    (bad : ∀ t a u, I t → ¬ C t a → step t a = some u → ¬ P u) :
    Always step s as P ↔ EveryStep step s as C := by
  constructor
  · intro hp
    refine everyStep_of_invariant h0 good fun bs a t hb ht hi => ?_
    by_contra hbad
    obtain ⟨rest, rfl⟩ := hb
    obtain ⟨u, hu, _⟩ := hr.split
    obtain ⟨t', ht', hs⟩ := run_snoc hu
    rw [ht'.unique ht] at hs
    exact bad t a u hi hbad hs (hp (bs ++ [a]) u (List.prefix_append _ _) hu)
  · intro hc bs t hb ht
    exact sound t (ht.invariant_of_everyStep h0 good (hc.mono hb))

/-- **An error that only grows.** If each step adds its own weight to the error that the invariant
speaks of, then the error of a run is zero exactly when every step weighs nothing. -/
theorem Run.tally {step : σ → α → Option σ} {s t : σ} {as : List α} {I : ℕ → σ → Prop} {w : σ → α → ℕ}
    (h : Run step s as t) (h0 : I 0 s)
    (keep : ∀ n t a u, I n t → step t a = some u → I (n + w t a) u) :
    ∃ n, I n t ∧ (n = 0 ↔ EveryStep step s as fun t a => w t a = 0) := by
  induction h with
  | refl =>
    refine ⟨0, h0, iff_of_true rfl fun bs a t hb _ => ?_⟩
    have hlen := hb.length_le
    simp at hlen
  | @snoc as t u a hr hs ih =>
    obtain ⟨n, hn, hiff⟩ := ih
    refine ⟨n + w t a, keep n t a u hn hs, ?_⟩
    rw [everyStep_snoc hr, ← hiff]
    exact Nat.add_eq_zero_iff

/-! ## Counting steps -/

/-- How many steps of the run along `as` are as `C` says. -/
def countSteps (step : σ → α → Option σ) (C : σ → α → Bool) : σ → List α → ℕ
  | _, [] => 0
  | s, a :: as =>
    (if C s a then 1 else 0) +
      match step s a with
      | some t => countSteps step C t as
      | none => 0

theorem countSteps_snoc {step : σ → α → Option σ} {C : σ → α → Bool} {s t : σ} {as : List α} {a : α}
    (hr : Run step s as t) :
    countSteps step C s (as ++ [a]) = countSteps step C s as + if C t a then 1 else 0 := by
  induction as generalizing s with
  | nil =>
    rw [run_nil hr, List.nil_append, countSteps, countSteps]
    cases step s a <;> simp [countSteps]
  | cons b as ih =>
    obtain ⟨u, hb, hu⟩ := run_cons hr
    rw [List.cons_append, countSteps, countSteps, hb]
    simp only
    rw [ih hu, Nat.add_assoc]

/-- **Potential argument.** If only counted steps raise the potential, and by `c` at most, then along a
run it rises by at most `c` for each of them. -/
theorem Run.potential {step : σ → α → Option σ} {s t : σ} {as : List α} {c : ℤ} (h : Run step s as t)
    (C : σ → α → Bool) (potential : σ → ℤ)
    (keep : ∀ t a u, step t a = some u → potential u ≤ potential t + if C t a then c else 0) :
    potential t ≤ potential s + c * countSteps step C s as := by
  induction h with
  | refl => simp [countSteps]
  | snoc hr hs ih =>
    have hstep := keep _ _ _ hs
    rw [countSteps_snoc hr]
    split at hstep
    · next hC =>
      rw [if_pos hC]
      push_cast
      rw [mul_add, mul_one]
      omega
    · next hC =>
      rw [if_neg hC, Nat.add_zero]
      omega

end Foundations.Runs
