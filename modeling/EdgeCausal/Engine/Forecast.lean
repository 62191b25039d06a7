import EdgeCausal.Collections.Moments
import EdgeCausal.Engine.LagCorr

/-!
# `Engine.Forecast` — out-of-memory early warning

A working set that climbs is projected to the pod's memory limit by a straight line. The line is fitted from the
most recent upward onset on, but over no more than `tail` samples and no fewer than `minFitN`.
-/

namespace EdgeCausal

open Lib

/-- Only warn when the limit is within this window, seconds. -/
def defaultHorizonS : ℚ := 900
/-- Cap on the samples of the slope fit. -/
def defaultTail : ℕ := 24
/-- Never fit fewer samples than this. -/
def minFitN : ℕ := 6
/-- Only warn once the pod is past this fraction of its limit. -/
def defaultMinFrac : ℚ := 6 / 10

/-- The slice to fit the slope over; the offsets may be negative until the last clamp. -/
def fitSegment (x : Series) (tail minN : ℕ) : Series :=
  let n : ℤ := x.length
  let ups := ((cusumOnsets x).filter fun o => o.direction = .up).map Onset.idx
  let lo := match ups.getLast? with
    | some up => max (n - tail) (up : ℤ)
    | none => n - tail
  let lo := min lo (n - minN)
  x.drop (max 0 lo).toNat

/-- Seconds until the limit is hit by linear extrapolation; none when the samples are not truly trending. The
    coefficient of the fit is compared with one half without its square root. -/
def forecastToLimit (x : Series) (limit : ℚ) (tail : ℕ) : Option ℚ :=
  let seg := if tail ≤ x.length then alignTail tail x else x
  let t : Series := steps seg.length
  let slope := polyfitSlope seg
  if slope ≤ 1 / 1000000000 ∨ belowCorr (1 / 2) (coSum t seg) (coSum t t) (coSum seg seg) then none
  else
    let samplesLeft := (limit - seg.getLastD 0) / slope
    let etaS := samplesLeft * dtS
    if samplesLeft < 0 ∨ etaS > 3600 then none else some etaS

/-- One early warning. -/
structure Incipient where
  pod : Pod
  signal : Signal
  kind : String
  shape : Shape
  etaS : ℚ
  value : ℤ
  limit : ℤ
  headroomFrac : ℚ
deriving DecidableEq

/-- The warning of one pod, if any. -/
def incipientFinding (limits : Dict Pod ℚ) (horizonS : ℚ) (tail : ℕ) (minFrac : ℚ) (pod : Pod) (x : Series) :
    Option Incipient :=
  match limits.get? pod, x.getLast? with
  | some limit, some cur =>
      if limit ≤ 0 then none
      else if cur < minFrac * limit then none
      else
        let seg := fitSegment x tail minFitN
        match forecastToLimit seg limit seg.length with
        | some eta =>
            if eta > horizonS then none
            else some ⟨pod, "mem", "incipient", .leak, roundAt 1 eta, roundHalfEven cur, roundHalfEven limit,
              roundAt 3 (max 0 (1 - cur / limit))⟩
        | none => none
  | _, _ => none

/-- One warning per pod that is past `minFrac` of its limit and heads for it within `horizonS`, soonest first. -/
def incipientFindings (memVectors : Dict Pod Series) (limits : Dict Pod ℚ) (horizonS : ℚ) (tail : ℕ)
    (minFrac : ℚ) : List Incipient :=
  sortOn Incipient.etaS
    (memVectors.entries.filterMap fun kv => incipientFinding limits horizonS tail minFrac kv.1 kv.2)

end EdgeCausal
