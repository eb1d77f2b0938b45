import Mathlib.Data.Rat.Floor
import Mathlib.Tactic.Linarith
import Mathlib.Tactic.Positivity

/-!
# The speculation guard

While the pool is cold a verify batch replays the union of its tokens' experts. `kpi_step` keeps
an average of the steps that were replayed, and a latch on it: above a threshold no drafts are
scheduled, until the average falls below half of it. If the average has not fallen by
`minDrop` points after `probe` steps the latch gives up and backs off; if it has, the probe window
is extended, from the average it has come to.

* `kpiStep`: the step, and `Turn`, what it can do to the latch.
* `remaining`: how long the latch can still hold; every step while it holds lowers it.
* `suppression_ends`: every sequence of steps.
-/

namespace VllmMoet

namespace Delta

/-- The parameters of the guard. -/
structure GuardConfig where
  /-- `VLLM_MOE_W2_SPEC_GUARD`, in percent; the guard is off if it is not positive -/
  threshold : ℚ
  /-- `VLLM_MOE_W2_SPEC_GUARD_EMA`: the weight of the newest step in the average -/
  factor : ℚ
  factor_nonneg : 0 ≤ factor
  factor_le_one : factor ≤ 1
  /-- steps of a probe window -/
  probe : ℕ
  /-- percentage points that a probe window must bring -/
  minDrop : ℚ
  /-- steps without the latch after it has given up -/
  cooldown : ℕ

/-- The state of the guard. -/
structure SpecGuard where
  /-- `_kpi_c_steps` -/
  steps : ℕ
  /-- `_replay_ema` -/
  ema : ℚ
  /-- `_spec_suppressed` -/
  suppressed : Bool
  /-- the step the probe window began at, and the average there, in percent -/
  since : ℕ
  ema0 : ℚ
  cooldownUntil : ℕ

/-- The guard of a new tier. -/
def SpecGuard.init : SpecGuard where
  steps := 0
  ema := 0
  suppressed := false
  since := 0
  ema0 := 0
  cooldownUntil := 0

/-- `kpi_step`: one executed step, replayed or not. -/
def kpiStep (cfg : GuardConfig) (s : SpecGuard) (replayed : Bool) : SpecGuard :=
  let steps := s.steps + 1
  let ema := s.ema + cfg.factor * ((if replayed then 1 else 0) - s.ema)
  let pct := 100 * ema
  let s := { s with steps := steps, ema := ema }
  if 0 < cfg.threshold then
    if s.suppressed = false ∧ cfg.threshold < pct ∧ s.cooldownUntil ≤ steps then
      { s with suppressed := true, since := steps, ema0 := pct }
    else if s.suppressed then
      if pct < cfg.threshold / 2 then { s with suppressed := false }
      else if cfg.probe ≤ steps - s.since ∧ s.ema0 - pct < cfg.minDrop then
        { s with suppressed := false, cooldownUntil := steps + cfg.cooldown }
      else if cfg.probe ≤ steps - s.since then { s with since := steps, ema0 := pct }
      else s
    else s
  else s

/-- What a step can do to the latch. -/
inductive Turn (cfg : GuardConfig) (s t : SpecGuard) : Prop
  /-- it stays off -/
  | off (hs : s.suppressed = false) (ht : t.suppressed = false) (hsince : t.since = s.since)
      (hema0 : t.ema0 = s.ema0) (hcool : t.cooldownUntil = s.cooldownUntil)
  /-- it latches -/
  | latch (hon : 0 < cfg.threshold) (hs : s.suppressed = false) (ht : t.suppressed = true)
      (hsince : t.since = t.steps) (hema0 : t.ema0 = 100 * t.ema)
      (hcool : t.cooldownUntil = s.cooldownUntil) (hdue : s.cooldownUntil ≤ t.steps)
  /-- the pool is warm -/
  | warmed (hs : s.suppressed = true) (ht : t.suppressed = false) (hsince : t.since = s.since)
      (hema0 : t.ema0 = s.ema0) (hpct : 100 * t.ema < cfg.threshold / 2)
  /-- the probe brought too little -/
  | gaveUp (hs : s.suppressed = true) (ht : t.suppressed = false) (hsince : t.since = s.since)
      (hema0 : t.ema0 = s.ema0) (hcool : t.cooldownUntil = t.steps + cfg.cooldown)
  /-- the probe brought enough -/
  | extended (hs : s.suppressed = true) (ht : t.suppressed = true) (hsince : t.since = t.steps)
      (hema0 : t.ema0 = 100 * t.ema) (hover : cfg.probe ≤ t.steps - s.since)
      (hdrop : cfg.minDrop ≤ s.ema0 - t.ema0)
  /-- the probe window is not over -/
  | held (hs : s.suppressed = true) (ht : t.suppressed = true) (hsince : t.since = s.since)
      (hema0 : t.ema0 = s.ema0) (hin : t.steps - s.since < cfg.probe)

section Step

variable (cfg : GuardConfig) (s : SpecGuard) (replayed : Bool)

theorem kpiStep_steps : (kpiStep cfg s replayed).steps = s.steps + 1 := by
  dsimp only [kpiStep]
  split_ifs <;> rfl

theorem kpiStep_ema : (kpiStep cfg s replayed).ema =
    s.ema + cfg.factor * ((if replayed then 1 else 0) - s.ema) := by
  dsimp only [kpiStep]
  split_ifs <;> rfl

variable {cfg s} in
/-- The steps of the latch. A guard that is off only ever has its latch off. -/
theorem turn_kpiStep (h : 0 < cfg.threshold ∨ s.suppressed = false) :
    Turn cfg s (kpiStep cfg s replayed) := by
  dsimp only [kpiStep]
  generalize s.ema + cfg.factor * ((if replayed then 1 else 0) - s.ema) = ema
  split_ifs with hon hlatch hsupp hwarm hgive hover
  · exact .latch hon hlatch.1 rfl rfl rfl rfl hlatch.2.2
  · exact .warmed hsupp rfl rfl rfl hwarm
  · exact .gaveUp hsupp rfl rfl rfl rfl
  · exact .extended hsupp hsupp rfl rfl hover (not_lt.mp fun hlt => hgive ⟨hover, hlt⟩)
  · exact .held hsupp hsupp rfl rfl (not_le.mp hover)
  · exact .off (Bool.eq_false_iff.mpr hsupp) (Bool.eq_false_iff.mpr hsupp) rfl rfl rfl
  · exact .off (h.resolve_left hon) (h.resolve_left hon) rfl rfl rfl

end Step

/-! ### How long the latch can hold -/

/-- What holds of the guard after any steps. -/
structure SpecGuard.Ok (cfg : GuardConfig) (s : SpecGuard) : Prop where
  ema : 0 ≤ s.ema ∧ s.ema ≤ 1
  ema0 : s.ema0 ≤ 100
  since : s.since ≤ s.steps
  /-- a latch is inside its probe window -/
  window : s.suppressed = true → s.steps - s.since < cfg.probe
  /-- a guard that is off does not latch -/
  on : 0 < cfg.threshold ∨ s.suppressed = false

/-- A bound for the steps the latch can still hold: the rest of its probe window, and one window
for each time the average can fall by `minDrop` before it is negative. -/
def remaining (cfg : GuardConfig) (s : SpecGuard) : ℕ :=
  cfg.probe * (1 + ⌈s.ema0 / cfg.minDrop⌉₊) - (s.steps - s.since)

section Bound

variable {cfg : GuardConfig} {s t : SpecGuard} {replayed : Bool}

theorem SpecGuard.Ok.init (cfg : GuardConfig) : SpecGuard.init.Ok cfg where
  ema := ⟨le_rfl, zero_le_one⟩
  ema0 := by norm_num [SpecGuard.init]
  since := le_rfl
  window h := absurd h Bool.false_ne_true
  on := .inr rfl

/-- An average of numbers between `0` and `1` is between them. -/
theorem ema_mem (cfg : GuardConfig) (replayed : Bool) (h : 0 ≤ s.ema ∧ s.ema ≤ 1) :
    0 ≤ (kpiStep cfg s replayed).ema ∧ (kpiStep cfg s replayed).ema ≤ 1 := by
  have hreplayed : 0 ≤ (if replayed then (1 : ℚ) else 0) ∧ (if replayed then (1 : ℚ) else 0) ≤ 1 := by
    split <;> norm_num
  have hmix : (kpiStep cfg s replayed).ema =
      (1 - cfg.factor) * s.ema + cfg.factor * (if replayed then 1 else 0) := by
    rw [kpiStep_ema]
    ring
  have hfactor := cfg.factor_nonneg
  have hrest : 0 ≤ 1 - cfg.factor := sub_nonneg.mpr cfg.factor_le_one
  rw [hmix]
  constructor
  · exact add_nonneg (mul_nonneg hrest h.1) (mul_nonneg hfactor hreplayed.1)
  · calc (1 - cfg.factor) * s.ema + cfg.factor * (if replayed then 1 else 0)
        ≤ (1 - cfg.factor) * 1 + cfg.factor * 1 :=
          add_le_add (mul_le_mul_of_nonneg_left h.2 hrest)
            (mul_le_mul_of_nonneg_left hreplayed.2 hfactor)
      _ = 1 := by ring

theorem SpecGuard.Ok.kpiStep (h : s.Ok cfg) (hprobe : 0 < cfg.probe) :
    (kpiStep cfg s replayed).Ok cfg := by
  have hema := ema_mem cfg replayed h.ema
  have hsteps := kpiStep_steps cfg s replayed
  have hturn := turn_kpiStep replayed h.on
  have hsince := h.since
  generalize Delta.kpiStep cfg s replayed = t at *
  have hpct : 100 * t.ema ≤ 100 := by linarith [hema.2]
  cases hturn with
  | off hs ht hkept hema0 hcool =>
    exact ⟨hema, hema0 ▸ h.ema0, by omega, fun hl => absurd hl (Bool.eq_false_iff.mp ht), .inr ht⟩
  | latch hon hs ht hnow hema0 hcool hdue =>
    exact ⟨hema, hema0 ▸ hpct, hnow.le, fun _ => by omega, .inl hon⟩
  | warmed hs ht hkept hema0 hcold =>
    exact ⟨hema, hema0 ▸ h.ema0, by omega, fun hl => absurd hl (Bool.eq_false_iff.mp ht), .inr ht⟩
  | gaveUp hs ht hkept hema0 hcool =>
    exact ⟨hema, hema0 ▸ h.ema0, by omega, fun hl => absurd hl (Bool.eq_false_iff.mp ht), .inr ht⟩
  | extended hs ht hnow hema0 hover hdrop =>
    have hon := h.on.resolve_right (Bool.not_eq_false _ ▸ hs)
    exact ⟨hema, hema0 ▸ hpct, hnow.le, fun _ => by omega, .inl hon⟩
  | held hs ht hkept hema0 hin =>
    have hon := h.on.resolve_right (Bool.not_eq_false _ ▸ hs)
    exact ⟨hema, hema0 ▸ h.ema0, by omega, fun _ => hkept ▸ hin, .inl hon⟩

/-- While the latch holds there is a step left. -/
theorem remaining_pos (h : s.Ok cfg) (hs : s.suppressed = true) : 1 ≤ remaining cfg s := by
  have hwindow := h.window hs
  have hle : cfg.probe ≤ cfg.probe * (1 + ⌈s.ema0 / cfg.minDrop⌉₊) :=
    Nat.le_mul_of_pos_right _ (by omega)
  rw [remaining]
  omega

/-- The latch never has more than the windows of a fall from 100 percent to 0. -/
theorem remaining_le (h : s.Ok cfg) (hdrop : 0 < cfg.minDrop) :
    remaining cfg s ≤ cfg.probe * (1 + ⌈100 / cfg.minDrop⌉₊) := by
  have hceil : ⌈s.ema0 / cfg.minDrop⌉₊ ≤ ⌈100 / cfg.minDrop⌉₊ :=
    Nat.ceil_mono (div_le_div_of_nonneg_right h.ema0 hdrop.le)
  calc remaining cfg s ≤ cfg.probe * (1 + ⌈s.ema0 / cfg.minDrop⌉₊) := Nat.sub_le _ _
    _ ≤ cfg.probe * (1 + ⌈100 / cfg.minDrop⌉₊) := Nat.mul_le_mul_left _ (by omega)

/-- A window that is extended is one of those left. -/
theorem ceil_of_drop {a b m : ℚ} (hm : 0 < m) (hb : 0 ≤ b) (hdrop : m ≤ a - b) :
    ⌈b / m⌉₊ + 1 ≤ ⌈a / m⌉₊ := by
  have hle : b / m + 1 ≤ a / m := by
    rw [div_add_one hm.ne', div_le_div_iff_of_pos_right hm]
    linarith
  calc ⌈b / m⌉₊ + 1 = ⌈b / m + 1⌉₊ := (Nat.ceil_add_one (div_nonneg hb hm.le)).symm
    _ ≤ ⌈a / m⌉₊ := Nat.ceil_mono hle

/-- Every step the latch holds lowers what remains. -/
theorem remaining_kpiStep (h : s.Ok cfg) (hdrop : 0 < cfg.minDrop)
    (hs : s.suppressed = true) (ht : (kpiStep cfg s replayed).suppressed = true) :
    remaining cfg (kpiStep cfg s replayed) + 1 ≤ remaining cfg s := by
  have hema := ema_mem cfg replayed h.ema
  have hsteps := kpiStep_steps cfg s replayed
  have hturn := turn_kpiStep replayed h.on
  have hsince := h.since
  have hwindow := h.window hs
  have hpos := remaining_pos h hs
  generalize Delta.kpiStep cfg s replayed = t at *
  cases hturn with
  | off hs' => exact absurd hs (Bool.eq_false_iff.mp hs')
  | latch _ hs' => exact absurd hs (Bool.eq_false_iff.mp hs')
  | warmed _ ht' => exact absurd ht (Bool.eq_false_iff.mp ht')
  | gaveUp _ ht' => exact absurd ht (Bool.eq_false_iff.mp ht')
  | extended _ _ hnow hema0 hover hfall =>
    -- the window was full, and the average pays for the next one
    have hpaid : ⌈t.ema0 / cfg.minDrop⌉₊ + 1 ≤ ⌈s.ema0 / cfg.minDrop⌉₊ := by
      rw [hema0]
      rw [hema0] at hfall
      exact ceil_of_drop hdrop (by linarith [hema.1]) hfall
    have hmul := Nat.mul_le_mul_left cfg.probe hpaid
    rw [remaining, remaining, Nat.mul_add, Nat.mul_add]
    rw [Nat.mul_add] at hmul
    omega
  | held _ _ hkept hema0 hin =>
    rw [remaining] at hpos ⊢
    rw [remaining, hema0, hkept]
    omega

end Bound

/-! ### Runs -/

/-- The guard after the first `n` steps, of which `replayed` were replayed. -/
def guardAt (cfg : GuardConfig) (replayed : ℕ → Bool) : ℕ → SpecGuard
  | 0 => SpecGuard.init
  | n + 1 => kpiStep cfg (guardAt cfg replayed n) (replayed n)

section Runs

variable {cfg : GuardConfig} {replayed : ℕ → Bool} {n : ℕ}

theorem guardAt_steps (cfg : GuardConfig) (replayed : ℕ → Bool) (n : ℕ) :
    (guardAt cfg replayed n).steps = n := by
  induction n with
  | zero => rfl
  | succ n ih => rw [guardAt, kpiStep_steps, ih]

theorem guardAt_ok (hprobe : 0 < cfg.probe) (replayed : ℕ → Bool) (n : ℕ) :
    (guardAt cfg replayed n).Ok cfg := by
  induction n with
  | zero => exact .init cfg
  | succ n ih => exact ih.kpiStep hprobe

/-- The step from one state of a run to the next. -/
theorem turn_guardAt (hprobe : 0 < cfg.probe) (replayed : ℕ → Bool) (n : ℕ) :
    Turn cfg (guardAt cfg replayed n) (guardAt cfg replayed (n + 1)) :=
  turn_kpiStep _ (guardAt_ok hprobe replayed n).on

/-- As long as the latch holds, what remains is used up. -/
theorem remaining_guardAt (hprobe : 0 < cfg.probe) (hdrop : 0 < cfg.minDrop) {k : ℕ}
    (hlatched : ∀ j ≤ k, (guardAt cfg replayed (n + j)).suppressed = true) :
    remaining cfg (guardAt cfg replayed (n + k)) + k ≤ remaining cfg (guardAt cfg replayed n) := by
  induction k with
  | zero => exact le_rfl
  | succ k ih =>
    have hstep := remaining_kpiStep (guardAt_ok hprobe replayed (n + k)) hdrop
      (hlatched k (Nat.le_succ k)) (hlatched (k + 1) le_rfl)
    have hrest := ih fun j hj => hlatched j (Nat.le_succ_of_le hj)
    change remaining cfg (guardAt cfg replayed (n + (k + 1))) + 1 ≤ _ at hstep
    omega

/-- Until its cooldown has passed a guard that has given up does not latch. -/
theorem off_of_cooldown (hprobe : 0 < cfg.probe)
    (hoff : (guardAt cfg replayed n).suppressed = false)
    {k : ℕ} (hk : n + k < (guardAt cfg replayed n).cooldownUntil) :
    (guardAt cfg replayed (n + k)).suppressed = false ∧
      (guardAt cfg replayed (n + k)).cooldownUntil = (guardAt cfg replayed n).cooldownUntil := by
  induction k with
  | zero => exact ⟨hoff, rfl⟩
  | succ k ih =>
    obtain ⟨hprev, hcool⟩ := ih (by omega)
    have hsteps := guardAt_steps cfg replayed (n + k + 1)
    cases turn_guardAt hprobe replayed (n + k) with
    | off _ ht _ _ hkept => exact ⟨ht, hkept.trans hcool⟩
    | latch _ _ _ _ _ _ hdue => omega
    | warmed hs => exact absurd hs (Bool.eq_false_iff.mp hprev)
    | gaveUp hs => exact absurd hs (Bool.eq_false_iff.mp hprev)
    | extended hs => exact absurd hs (Bool.eq_false_iff.mp hprev)
    | held hs => exact absurd hs (Bool.eq_false_iff.mp hprev)

/-- **Draft suppression always ends.** Whatever steps are replayed: the average stays between 0
and 100 percent; among any `probe * (1 + ⌈100 / minDrop⌉) + 1` states in a row there is one where
the latch is off; a probe window that is extended has seen the average fall by `minDrop`, to the
average the next one begins with; and after the latch has given up with the pool still cold it is
off until the cooldown has passed. -/
theorem suppression_ends (cfg : GuardConfig) (hprobe : 0 < cfg.probe) (hdrop : 0 < cfg.minDrop)
    (replayed : ℕ → Bool) :
    (∀ n, 0 ≤ 100 * (guardAt cfg replayed n).ema ∧ 100 * (guardAt cfg replayed n).ema ≤ 100) ∧
    (∀ n, ∃ k ≤ cfg.probe * (1 + ⌈100 / cfg.minDrop⌉₊),
      (guardAt cfg replayed (n + k)).suppressed = false) ∧
    (∀ n, (guardAt cfg replayed n).suppressed = true →
      (guardAt cfg replayed (n + 1)).suppressed = true →
      (guardAt cfg replayed (n + 1)).since ≠ (guardAt cfg replayed n).since →
      (guardAt cfg replayed (n + 1)).ema0 = 100 * (guardAt cfg replayed (n + 1)).ema ∧
      (guardAt cfg replayed (n + 1)).ema0 + cfg.minDrop ≤ (guardAt cfg replayed n).ema0) ∧
    (∀ n, (guardAt cfg replayed n).suppressed = true →
      (guardAt cfg replayed (n + 1)).suppressed = false →
      cfg.threshold / 2 ≤ 100 * (guardAt cfg replayed (n + 1)).ema →
      ∀ k < cfg.cooldown, (guardAt cfg replayed (n + 1 + k)).suppressed = false) := by
  refine ⟨fun n => ?_, fun n => ?_, fun n hs ht hmoved => ?_, fun n hs ht hcold k hk => ?_⟩
  · have hema := (guardAt_ok hprobe replayed n).ema
    constructor <;> linarith
  · by_contra hnone
    have hlatched : ∀ j ≤ cfg.probe * (1 + ⌈100 / cfg.minDrop⌉₊),
        (guardAt cfg replayed (n + j)).suppressed = true := by
      intro j hj
      exact (Bool.not_eq_false _).mp fun hoff => hnone ⟨j, hj, hoff⟩
    have hused := remaining_guardAt hprobe hdrop hlatched
    have hleft := remaining_pos (guardAt_ok hprobe replayed _) (hlatched _ le_rfl)
    have hbound := remaining_le (guardAt_ok hprobe replayed n) hdrop
    omega
  · cases turn_guardAt hprobe replayed n with
    | off hs' => exact absurd hs (Bool.eq_false_iff.mp hs')
    | latch _ hs' => exact absurd hs (Bool.eq_false_iff.mp hs')
    | warmed _ ht' => exact absurd ht (Bool.eq_false_iff.mp ht')
    | gaveUp _ ht' => exact absurd ht (Bool.eq_false_iff.mp ht')
    | extended _ _ _ hema0 _ hfall => exact ⟨hema0, by linarith⟩
    | held _ _ hkept => exact absurd hkept hmoved
  · cases turn_guardAt hprobe replayed n with
    | off hs' => exact absurd hs (Bool.eq_false_iff.mp hs')
    | latch _ hs' => exact absurd hs (Bool.eq_false_iff.mp hs')
    | warmed _ _ _ _ hwarm => exact absurd hwarm (not_lt.mpr hcold)
    | gaveUp _ _ _ _ hcool =>
      rw [guardAt_steps] at hcool
      exact (off_of_cooldown hprobe ht (by omega)).1
    | extended _ ht' => exact absurd ht' (Bool.eq_false_iff.mp ht)
    | held _ ht' => exact absurd ht' (Bool.eq_false_iff.mp ht)

end Runs

/-- The guard as it is by default. -/
def defaultGuard : GuardConfig where
  threshold := 60
  factor := 1 / 50
  factor_nonneg := by norm_num
  factor_le_one := by norm_num
  probe := 500
  minDrop := 5
  cooldown := 25000

/-- By default drafts are back on after 10500 steps, however many are replayed. -/
theorem suppression_ends_default : ∃ k ≤ 10500,
    (guardAt defaultGuard (fun _ => true) (100 + k)).suppressed = false := by
  have hbound : defaultGuard.probe * (1 + ⌈100 / defaultGuard.minDrop⌉₊) = 10500 := by
    have hceil : ⌈(100 : ℚ) / 5⌉₊ = 20 := by
      rw [show (100 : ℚ) / 5 = (20 : ℕ) by norm_num, Nat.ceil_natCast]
    change 500 * (1 + ⌈(100 : ℚ) / 5⌉₊) = 10500
    rw [hceil]
  have hends := (suppression_ends defaultGuard (by norm_num [defaultGuard])
    (by norm_num [defaultGuard]) fun _ => true).2.1 100
  rwa [hbound] at hends

end Delta

end VllmMoet
