import Mathlib.Data.Finset.Lattice.Fold
import Mathlib.Data.Fintype.Basic
import Mathlib.Order.Lattice.Nat
import Mathlib.Tactic.Common
import VllmMoet.Lib.Spmd

/-!
# A step of the runner: base replay and confidence gate

After its forward pass a step is replayed while routed experts were missing from the base pool,
and then, when the confidence gate fires, again with cold experts promoted to FP4. Each tensor
parallel rank runs `step`; the ranks meet in all-reduces of one element, in replayed forwards
and, to compute logits, in gathers.

* `fpContinue`, `fpValidateComplete`, `gateRepairContinue`, `gateValidateBaseClean`: the replay
  policy. Each evaluation reads the tolerance file anew, on each rank at its own time.
* `baseLoop`, `baseReplay`: the mandatory replay. The V1 runner catches the exception of an
  exhausted loop, records it, and goes on.
* `repairLoop`, `gateLoop`, `gateReforward`: promote, replay and repair, up to `fireFpMax` times.

What the model does not compute a rank is given (`Rank`): its misses in every pass, what
`force_promote` returns or that it raises, and what the files hold whenever it reads them. The
pins that a promotion is asked for change nothing but later misses. With one rank the
all-reduces are skipped.
-/

namespace VllmMoet.Replay

/-- The two runners. -/
inductive Runner
  | v1
  | v2
  deriving DecidableEq

/-- How a server is set up, and whether the gate looks at this step. -/
structure Config where
  runner : Runner
  strict : Bool
  fpMax : ℕ
  fireFpMax : ℕ
  gate : Bool
  reforward : Bool

/-- What a rank finds when it reads the tuning files. -/
structure Reading where
  tol : ℤ
  thresh : ℤ

/-- What happens on one rank in a step: in the first forward and its `n`-th replay, and in the
`i`-th pass of the gate with its `k`-th repair. -/
structure Rank where
  baseMiss : ℕ → ℕ
  baseFault : ℕ → Bool
  baseRead : ℕ → Reading
  baseTol : ℤ
  /-- what `should_reforward` returns, unless it raises -/
  decision : Option Bool
  budget : Option ℕ
  /-- what the promotion of the `i`-th pass returns, unless it raises -/
  promote : ℕ → Option ℕ
  gateMiss : ℕ → ℕ → ℕ
  gateFault : ℕ → ℕ → Bool
  gateRead : ℕ → ℕ → Reading
  gateTol : ℕ → ℤ

/-- What the ranks of a group do together. -/
inductive Collective
  | minI32
  | minI64
  | maxI64
  | forward
  | logits
  deriving DecidableEq

/-- The value that every rank gets of the values they bring. -/
def combine {w : ℕ} : Collective → (Fin (w + 1) → ℕ) → ℕ
  | .minI32, x | .minI64, x => Finset.univ.inf' Finset.univ_nonempty x
  | .maxI64, x | .forward, x | .logits, x => Finset.univ.sup x

/-- The forward pass that hidden states come from. -/
inductive Pass
  | base (n : ℕ)
  | gate (i k : ℕ)
  deriving DecidableEq

/-- How a step ends on a rank: the sampler gets the hidden states of a pass, the step is recorded
as failed, or an exception leaves the runner. -/
inductive End
  | sampled (pass : Pass)
  | failedClosed
  | raised
  deriving DecidableEq

/-- The end of a step, with the passes it has run. -/
structure Outcome where
  replays : ℕ
  gatePasses : ℕ
  ended : End

/-- What a rank runs. -/
abbrev Prog := Spmd Collective ℕ Outcome

/-! ### The replay policy -/

/-- `fp_continue`: whether to run another replay pass. -/
def fpContinue (cfg : Config) (rd : Reading) (passes maxMiss : ℕ) : Bool :=
  if (maxMiss : ℤ) ≤ rd.tol then false
  else if cfg.fpMax ≤ passes then false
  else if cfg.strict then true
  else if passes = 0 then true
  else decide ((maxMiss : ℤ) ≤ rd.thresh)

/-- `fp_validate_complete` does not raise. -/
def fpValidateComplete (cfg : Config) (tol : ℤ) (maxMiss : ℕ) : Bool :=
  !(cfg.strict && decide (tol < maxMiss))

/-- `gate_repair_continue`: the policy of the base replay. -/
def gateRepairContinue (cfg : Config) (rd : Reading) (passes maxMiss : ℕ) : Bool :=
  fpContinue cfg rd passes maxMiss

/-- `gate_validate_base_clean` does not raise. -/
def gateValidateBaseClean (cfg : Config) (tol : ℤ) (maxMiss : ℕ) : Bool :=
  !(cfg.strict && decide (tol < maxMiss))

/-- At its bound the policy never goes on. -/
theorem fpContinue_eq_false {cfg : Config} {passes : ℕ} (h : cfg.fpMax ≤ passes) (rd : Reading)
    (maxMiss : ℕ) : fpContinue cfg rd passes maxMiss = false := by
  simp [fpContinue, h]

/-- What a strict rank validates is within its tolerance. -/
theorem fpValidateComplete_iff {cfg : Config} (hs : cfg.strict = true) {tol : ℤ} {maxMiss : ℕ} :
    fpValidateComplete cfg tol maxMiss = true ↔ (maxMiss : ℤ) ≤ tol := by
  simp [fpValidateComplete, hs]

theorem gateValidateBaseClean_iff {cfg : Config} (hs : cfg.strict = true) {tol : ℤ}
    {maxMiss : ℕ} : gateValidateBaseClean cfg tol maxMiss = true ↔ (maxMiss : ℤ) ≤ tol :=
  fpValidateComplete_iff hs

/-! ### Collectives -/

/-- An all-reduce of one element; a single rank keeps its own. -/
def allReduce (world : ℕ) (op : Collective) (x : ℕ) (k : ℕ → Prog) : Prog :=
  if world ≤ 1 then k x else .coll op x k

/-- `_and_tp` -/
def andTp (world : ℕ) (flag : Bool) (k : Bool → Prog) : Prog :=
  allReduce world .minI64 flag.toNat fun t => k (t != 0)

/-- `_or_tp` -/
def orTp (world : ℕ) (flag : Bool) (k : Bool → Prog) : Prog :=
  allReduce world .maxI64 flag.toNat fun t => k (t != 0)

/-- An exception leaves the runner. -/
def raise (replays gatePasses : ℕ) : Prog :=
  .done ⟨replays, gatePasses, .raised⟩

/-- The step goes on to the sampler; a recorded failure turns its output into an error. -/
def leave (recorded : Bool) (replays gatePasses : ℕ) (pass : Pass) : Prog :=
  .done ⟨replays, gatePasses, if recorded then .failedClosed else .sampled pass⟩

/-- `_moe_w2_promote_consensus`: the missing experts are fetched on this rank, and no rank goes on
before all have told that theirs are. -/
def promoteConsensus (world : ℕ) (localMiss : ℕ) (fault : Bool) (failed k : Prog) : Prog :=
  allReduce world .minI32 (!(decide (0 < localMiss) && fault)).toNat fun ok =>
    if ok != 0 then k else failed

/-- A replayed forward; the V1 runner computes its logits at once. -/
def replayForward (cfg : Config) (k : Prog) : Prog :=
  .coll .forward 0 fun _ =>
    match cfg.runner with
    | .v1 => .coll .logits 0 fun _ => k
    | .v2 => k

/-! ### The gate -/

section Programs

variable (cfg : Config) (world : ℕ) (r : Rank)

/-- The repair loop of the gate's pass `i`, after `k` repairs, with `fuel` more allowed. -/
def repairLoop (replays gatePasses i : ℕ) (exit : ℕ → ℕ → Prog) : ℕ → ℕ → ℕ → Prog
  -- at the bound the policy stops whatever it reads
  | 0, k, maxMiss => exit k maxMiss
  | fuel + 1, k, maxMiss =>
    .choose (gateRepairContinue cfg (r.gateRead i k) k maxMiss) fun go =>
      if go then
        promoteConsensus world (r.gateMiss i k) (r.gateFault i k)
          (raise replays (gatePasses + 1 + k)) <|
        replayForward cfg <|
        allReduce world .maxI64 (r.gateMiss i (k + 1)) fun maxMiss =>
        repairLoop replays gatePasses i exit fuel (k + 1) maxMiss
      else exit k maxMiss

/-- `force_promote_step`: an exhausted budget promotes nothing. -/
def forcePromoteStep (budget promoted : Option ℕ) : Option ℕ :=
  if budget = some 0 then some 0 else promoted

/-- The fixed-point loop of a fired step, at its pass `i`, with `fuel` more allowed. -/
def gateLoop (recorded : Bool) (replays : ℕ) : ℕ → ℕ → Option ℕ → Pass → ℕ → Prog
  | 0, _, _, pass, gatePasses => leave recorded replays gatePasses pass
  | fuel + 1, i, budget, pass, gatePasses =>
    andTp world (forcePromoteStep budget (r.promote i)).isSome fun ok =>
    if !ok then leave recorded replays gatePasses pass else
    orTp world (decide (0 < (forcePromoteStep budget (r.promote i)).getD 0)) fun promoted =>
    if !(promoted && cfg.reforward) then leave recorded replays gatePasses pass else
    replayForward cfg <|
    allReduce world .maxI64 (r.gateMiss i 0) fun maxMiss =>
    repairLoop cfg world r replays gatePasses i (fun k maxMiss =>
      .choose (gateValidateBaseClean cfg (r.gateTol i) maxMiss) fun clean =>
        if clean then
          gateLoop recorded replays fuel (i + 1)
            (budget.map (· - (forcePromoteStep budget (r.promote i)).getD 0)) (.gate i k)
            (gatePasses + 1 + k)
        else raise replays (gatePasses + 1 + k)) cfg.fpMax 0 maxMiss

/-- The gate's part of the step: V2 computes the logits first, and skips the vote on firing when
the decision has raised on some rank. -/
def gateReforward (recorded : Bool) (replays : ℕ) : Prog :=
  if !cfg.gate then leave recorded replays 0 (.base replays) else
  match cfg.runner with
  | .v1 =>
    andTp world r.decision.isSome fun ok =>
    orTp world (ok && r.decision == some true) fun fire =>
    if fire then
      gateLoop cfg world r recorded replays cfg.fireFpMax 0 r.budget (.base replays) 0
    else leave recorded replays 0 (.base replays)
  | .v2 =>
    .coll .logits 0 fun _ =>
    andTp world r.decision.isSome fun ok =>
    if !ok then leave recorded replays 0 (.base replays) else
    orTp world (r.decision == some true) fun fire =>
    if fire then
      gateLoop cfg world r recorded replays cfg.fireFpMax 0 r.budget (.base replays) 0
    else leave recorded replays 0 (.base replays)

/-! ### The base replay -/

/-- The replay loop after `n` replays, with `fuel` more allowed. -/
def baseLoop (exit : ℕ → ℕ → Prog) : ℕ → ℕ → ℕ → Prog
  | 0, n, maxMiss => exit n maxMiss
  | fuel + 1, n, maxMiss =>
    .choose (fpContinue cfg (r.baseRead n) n maxMiss) fun go =>
      if go then
        replayForward cfg <|
        allReduce world .maxI64 (r.baseMiss (n + 1)) fun maxMiss =>
        promoteConsensus world (r.baseMiss (n + 1)) (r.baseFault (n + 1)) (raise (n + 1) 0) <|
        baseLoop exit fuel (n + 1) maxMiss
      else exit n maxMiss

/-- After the loop: V2 lets the exception of `fp_validate_complete` end the step, V1 catches and
records it. -/
def baseExit (n maxMiss : ℕ) : Prog :=
  match cfg.runner with
  | .v1 => gateReforward cfg world r (!fpValidateComplete cfg r.baseTol maxMiss) n
  | .v2 =>
    .choose (fpValidateComplete cfg r.baseTol maxMiss) fun complete =>
      if complete then gateReforward cfg world r false n else raise n 0

/-- A step on one rank, from the end of its first forward. -/
def step : Prog :=
  allReduce world .maxI64 (r.baseMiss 0) fun maxMiss =>
  promoteConsensus world (r.baseMiss 0) (r.baseFault 0) (raise 0 0) <|
  baseLoop cfg world r (baseExit cfg world r) cfg.fpMax 0 maxMiss

end Programs

/-- The step of all ranks of a group. -/
def group {w : ℕ} (cfg : Config) (ranks : Fin (w + 1) → Rank) (i : Fin (w + 1)) : Prog :=
  step cfg (w + 1) (ranks i)

/-- The step has raised on the rank. -/
def Outcome.failed (o : Outcome) : Bool :=
  decide (o.ended = .raised)

end VllmMoet.Replay
