import OstreeExt.Packing

/-!
# The statistics in exact arithmetic

`statistics.rs` computes means, deviations and medians in floating point.  Here they are
rational numbers; a comparison with a limit that contains a square root is squared.
-/

namespace OstreeExt

/-- `f64::abs` -/
def absRat (x : Rat) : Rat := if x < 0 then -x else x

/-- `mean` -/
def mean (data : List Nat) : Option Rat :=
  if data.isEmpty then none else some ((data.sum : Rat) / data.length)

/-- The square of `std_deviation`. -/
def variance (data : List Nat) : Option Rat :=
  (mean data).map fun m => (data.map fun v => (m - (v : Rat)) * (m - (v : Rat))).sum / data.length

/-- The middle of a sorted list, or the mean of its two middle elements. -/
def middle (data : List Rat) : Rat :=
  if data.length % 2 = 1 then data.getD (data.length / 2) 0
  else (data.getD (data.length / 2 - 1) 0 + data.getD (data.length / 2) 0) / 2

/-- `median_absolute_deviation`, of data that is assumed to be sorted. -/
def medianAbsoluteDeviation (data : List Nat) : Option (Rat × Rat) :=
  if data.isEmpty then none
  else
    let medianData := middle (data.map (fun v => (v : Rat)))
    let absoluteDeviations := (data.map fun v => absRat ((v : Rat) - medianData)).mergeSort (· ≤ ·)
    some (medianData, middle absoluteDeviations)

/-- `v >= mean + threshold * stddev` -/
def atLeastHigh (threshold : Rat) (data : List Nat) (v : Nat) : Bool :=
  match mean data, variance data with
  | some m, some var => m ≤ (v : Rat) ∧ threshold * threshold * var ≤ ((v : Rat) - m) * ((v : Rat) - m)
  | _, _ => false

/-- `v <= 0.5 * abs(mean - threshold * stddev)` -/
def atMostLow (threshold : Rat) (data : List Nat) (v : Nat) : Bool :=
  match mean data, variance data with
  | some m, some var =>
      (2 * (v : Rat) ≤ m ∧ threshold * threshold * var ≤ (m - 2 * v) * (m - 2 * v)) ∨
        (2 * v + m) * (2 * v + m) ≤ threshold * threshold * var
  | _, _ => false

/-- The threshold of `basic_packing`. -/
def packingThreshold : Rat := 2

/-- What the statistics decide. -/
def exactStatistics : Statistics where
  highSize sizes size :=
    match medianAbsoluteDeviation sizes with
    | some (median, mad) => median + packingThreshold * mad ≤ (size : Rat)
    | none => false
  lowSize sizes size :=
    match medianAbsoluteDeviation sizes with
    | some (median, mad) => (size : Rat) ≤ absRat (median - packingThreshold * mad) / 2
    | none => false
  medHighSize := atLeastHigh packingThreshold
  medLowSize := atMostLow packingThreshold
  medHighFreq := atLeastHigh packingThreshold
  medLowFreq := atMostLow packingThreshold
  highSizeCutoff n := 3 * n / 5

end OstreeExt
