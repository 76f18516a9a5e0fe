import Disguise.Metric.Registry

/-!
Histograms with a bounded number of bins. A bin holds a value and how often it was met; when there
are too many bins the two that lie closest together become one at their weighted mean.
-/
namespace Disguise.Metric

structure Bin where
  value : Float
  count : Float

/-- Bins in increasing order of their values, and the number of samples. -/
structure Histogram where
  bins : List Bin := []
  samples : Nat := 0

namespace Histogram

def maxBins : Nat := 255

def insert (x : Float) : List Bin → List Bin
  | [] => [⟨x, 1⟩]
  | b :: rest =>
    if b.value == x then { b with count := b.count + 1 } :: rest
    else if x < b.value then ⟨x, 1⟩ :: b :: rest
    else b :: insert x rest

/-- The position of the first bin of the closest pair, the first such pair on ties. `best` is the
least distance met so far and where it was. -/
def closest (best : Float × Nat) (i : Nat) : List Bin → Nat
  | a :: b :: rest =>
    let delta := b.value - a.value
    closest (if delta < best.1 then (delta, i) else best) (i + 1) (b :: rest)
  | _ => best.2

def merge (a b : Bin) : Bin :=
  let count := a.count + b.count
  ⟨(a.value * a.count + b.value * b.count) / count, count⟩

def mergeAt : Nat → List Bin → List Bin
  | 0, a :: b :: rest => merge a b :: rest
  | n + 1, a :: rest => a :: mergeAt n rest
  | _, bins => bins

/-- Merges until the bins are few enough; a sample adds one bin at most. -/
def trim (bins : List Bin) : List Bin :=
  if maxBins < bins.length then mergeAt (closest (1e99, 0) 0 bins) bins else bins

def add (h : Histogram) (x : Float) : Histogram :=
  { bins := trim (insert x h.bins), samples := h.samples + 1 }

def total (h : Histogram) : Float := h.samples.toUInt64.toFloat

def mean (h : Histogram) : Float :=
  h.bins.foldl (fun sum b => sum + b.value * b.count) 0 / h.total

/-- The first value with enough samples up to it. -/
def reach (left : Float) : List Bin → Float
  | [] => -1
  | b :: rest =>
    let left := left - b.count
    if left ≤ 0 then b.value else reach left rest

def quantile (h : Histogram) (q : Float) : Float := reach (q * h.total) h.bins

/-- The histogram of some samples. -/
def ofSamples (samples : Array Float) : Histogram := samples.foldl add {}

end Histogram

instance : Digest where
  mean samples := (Histogram.ofSamples samples).mean
  quantile samples := (Histogram.ofSamples samples).quantile

end Disguise.Metric
