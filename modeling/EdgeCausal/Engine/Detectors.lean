import EdgeCausal.Collections.OrderStat
import EdgeCausal.Engine.Types

/-!
# `Engine.Detectors` — EWMA + CUSUM changepoints and shape classification

The residual of each sample against a one-step-ahead EWMA baseline is scaled by a robust sigma, and two
one-sided CUSUM accumulators raise an onset when either drifts past `h`. `classify` names the shape of
the signal after an onset.
-/

namespace EdgeCausal

open Lib

/-- Sample resolution, seconds. -/
def dtS : ℚ := 5

/-! ## Baseline and scale -/

/-- The EWMA recurrence, started from the previous value. -/
def ewmaFrom (alpha prev : ℚ) : Series → Series
  | [] => []
  | x :: xs => let y := alpha * x + (1 - alpha) * prev; y :: ewmaFrom alpha y xs

/-- Exponentially weighted moving average. -/
def ewma (alpha : ℚ) : Series → Series
  | [] => []
  | x :: xs => x :: ewmaFrom alpha x xs

/-- Median absolute deviation. -/
def mad (x : Series) : ℚ := median (x.map fun v => |v - median x|)

/-- MAD-based sigma, floored so a flat signal does not divide by zero. -/
def robustSigma (x : Series) : ℚ := max (14826 / 10000 * mad x) (1 / 1000000)

/-! ## CUSUM -/

inductive Direction where
  | up | down
deriving DecidableEq, Repr

/-- A changepoint: where it starts, which way, and the residual z-score at the alarm. -/
structure Onset where
  idx : ℕ
  direction : Direction
  zpeak : ℚ
deriving DecidableEq, Repr

structure CusumParams where
  k : ℚ
  h : ℚ
  warmup : ℕ

/-- The defaults every caller uses. -/
def cusumDefaults : CusumParams := ⟨1 / 2, 5, 12⟩

/-- Residual z-scores against the one-step-ahead baseline. -/
def residualZ (p : CusumParams) (x : Series) : Series :=
  let base := ewma (3 / 10) x
  let resid := List.zipWith (· - ·) x (base.take 1 ++ base.dropLast)
  let sigN := min (max (p.warmup * 2) (x.length / 3)) 60
  let sigma := robustSigma (resid.take sigN)
  resid.map fun v => v / sigma

/-- Walk back from the alarm to the first sample contributing to the shift. -/
def backtrack (z : Series) (sign : ℚ) : ℕ → ℕ
  | 0 => 0
  | i + 1 => if sign * z.getD i 0 > 1 / 2 then backtrack z sign i else i + 1

structure CusumState where
  gp : ℚ
  gn : ℚ
  armedAt : ℕ
  onsets : List Onset

/-- One sample of the CUSUM loop. -/
def cusumStep (p : CusumParams) (z : Series) (s : CusumState) (i : ℕ) : CusumState :=
  let zi := z.getD i 0
  let gp := max 0 (s.gp + zi - p.k)
  let gn := max 0 (s.gn - zi - p.k)
  if gp > p.h ∧ s.armedAt ≤ i then
    ⟨0, 0, i + 3, s.onsets ++ [⟨backtrack z 1 i, .up, zi⟩]⟩
  else if gn > p.h ∧ s.armedAt ≤ i then
    ⟨0, 0, i + 3, s.onsets ++ [⟨backtrack z (-1) i, .down, zi⟩]⟩
  else ⟨gp, gn, s.armedAt, s.onsets⟩

/-- Two-sided CUSUM; the first `warmup` samples never raise an alarm. -/
def cusumOnsetsWith (p : CusumParams) (x : Series) : List Onset :=
  if x.length < p.warmup + 4 then []
  else
    let z := residualZ p x
    ((List.range' p.warmup (z.length - p.warmup)).foldl (cusumStep p z) ⟨0, 0, p.warmup, []⟩).onsets

def cusumOnsets (x : Series) : List Onset := cusumOnsetsWith cusumDefaults x

theorem cusumOnsets_short {x : Series} (h : x.length < 16) : cusumOnsets x = [] := if_pos h

/-! ## Shape -/

/-- Arithmetic mean. -/
def mean (x : Series) : ℚ := x.sum / x.length

/-- Least-squares slope of the samples against `0, 1, 2, …`. -/
def polyfitSlope (y : Series) : ℚ :=
  let t : Series := (List.range y.length).map fun i => (i : ℚ)
  let num := (List.zipWith (fun a b => (a - mean t) * (b - mean y)) t y).sum
  let den := (t.map fun a => (a - mean t) ^ 2).sum
  num / den

/-- Greatest and least sample (0 when there is none). -/
def maxOf (x : Series) : ℚ := ((firstMax id x).getD 0)
def minOf (x : Series) : ℚ := ((firstMin id x).getD 0)

/-- `np.sign`. -/
def signOf (v : ℚ) : ℤ := if 0 < v then 1 else if v < 0 then -1 else 0

/-- The number of adjacent positions at which the sign changes. -/
def crossings (x : Series) : ℕ :=
  let s := x.map signOf
  (List.zipWith (fun a b => b - a) s s.tail).countP (· ≠ 0)

/-- Categorize the post-onset shape; the order of the tests matters. -/
def classify (x : Series) (onsetIdx : ℕ) (cap : Option ℚ) : Shape :=
  let seg := x.drop onsetIdx
  if seg.length < 6 then .shift
  else
    let pre := median (x.take (max onsetIdx 1))
    let sigmaPre := robustSigma (if 8 < onsetIdx then x.take onsetIdx else x)
    let tail := lastN (max 3 (seg.length / 4)) seg
    let slope := polyfitSlope seg
    let saturated := match cap with
      | some c => decide (92 / 100 * c ≤ median (lastN (max 3 (seg.length / 3)) seg))
      | none => false
    if saturated then .saturation
    else
      let excursion := maxOf (seg.map fun v => |v - pre|)
      let cameBack := |median tail - pre| < 3 / 2 * sigmaPre
      if cameBack ∧ excursion > 3 * sigmaPre then .burst
      else if 0 < slope ∧ seg.getLastD 0 - seg.headD 0 > 2 * sigmaPre then .leak
      else
        let mid := (maxOf seg + minOf seg) / 2
        if 4 ≤ crossings (seg.map (· - mid)) ∧ maxOf seg - minOf seg > 4 * sigmaPre then .flap
        else .shift

end EdgeCausal
