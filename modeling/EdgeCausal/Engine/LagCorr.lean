import EdgeCausal.Engine.Detectors

/-!
# `Engine.LagCorr` — lagged cross-correlation between two signal vectors

Lags are non-negative: "src leads dst by `lagS`". The standard deviation, the skewness and the two
correlation coefficients are the statistics package's (`Estimators`); everything around them, the
normalisation, the alignment, the guards and both selections, is modelled here.
-/

namespace EdgeCausal

open Lib

/-- The statistics the engine takes from its numeric packages; `none` is a NaN coefficient. -/
structure Estimators where
  std : Series → ℚ
  skew : Series → ℚ
  pearsonr : Series → Series → Option ℚ
  spearmanr : Series → Series → Option ℚ

/-- The configured lags, seconds. -/
def lagsS : List ℕ := [0, 5, 15, 30, 60, 120]

/-- A lag in samples: `round(lag_s / DT_S)`. -/
def lagSamples (lagS : ℕ) : ℕ := (roundHalfEven ((lagS : ℚ) / dtS)).toNat

variable (est : Estimators)

def znorm (x : Series) : Series :=
  let sd := est.std x
  let m := mean x
  x.map fun v => (v - m) / (if sd > 1 / 1000000000 then sd else 1)

/-- Pearson r between `src[t]` and `dst[t + lag]`; Spearman for heavy tails. -/
def corrAtLag (src dst : Series) (lag : ℕ) : ℚ :=
  let a := if 0 < lag then src.take (src.length - lag) else src
  let b := if 0 < lag then dst.drop lag else dst
  if a.length < 12 ∨ est.std a < 1 / 1000000000 ∨ est.std b < 1 / 1000000000 then 0
  else if |est.skew a| > 2 ∨ |est.skew b| > 2 then (est.spearmanr a b).getD 0
  else (est.pearsonr a b).getD 0

/-- r at every configured lag that leaves enough overlap. -/
def lagProfile (src dst : Series) : Dict ℕ ℚ :=
  lagsS.foldl
    (fun out lagS =>
      let ls := lagSamples lagS
      if src.length ≤ ls + 12 then out
      else out.set lagS (corrAtLag est (znorm est src) (znorm est dst) ls))
    ∅

/-- The outcome of `bestDirected`; `forward` means the first argument leads. -/
structure Directed where
  forward : Bool
  r : ℚ
  lagS : ℕ
  profile : Dict ℕ ℚ

/-- `v[-n:]`, which is all of `v` for `n = 0`. -/
def alignTail (n : ℕ) (v : Series) : Series := if n = 0 then v else lastN n v

/-- The strongest entry of a profile by absolute value. -/
def profilePeak (p : Dict ℕ ℚ) : ℕ × ℚ := (firstMax (fun kv => |kv.2|) p.entries).getD (0, 0)

/-- Evaluate both directions; the stronger wins, with its peak lag and its profile. -/
def bestDirected (srcv dstv : Series) : Directed :=
  let n := min srcv.length dstv.length
  let a := alignTail n srcv
  let b := alignTail n dstv
  let fwd := lagProfile est a b
  let rev := lagProfile est b a
  let fbest := profilePeak fwd
  let rbest := profilePeak rev
  if |rbest.2| > |fbest.2| + 1 / 1000000000 then ⟨false, rbest.2, rbest.1, rev⟩
  else ⟨true, fbest.2, fbest.1, fwd⟩

/-- `|r|` stays at or above `floor` at an evaluated lag next to the peak. -/
def adjacentSupport (profile : Dict ℕ ℚ) (peakLag : ℕ) (floor : ℚ) : Bool :=
  let lags := sortOn id profile.keys
  if peakLag ∈ lags then
    let i := lags.idxOf peakLag
    let before := if i = 0 then none else lags[i - 1]?
    let neighbors := before.toList ++ lags[i + 1]?.toList
    neighbors.any fun n => decide (floor ≤ |(profile.get? n).getD 0|)
  else false

end EdgeCausal
