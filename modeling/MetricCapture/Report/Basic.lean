import MetricCapture.Number.Layout
import MetricCapture.Sketch.Quantile
import MetricCapture.Statistics.Snapshot
/-! Reports: a snapshot in figures, every fractional one of them rounded to four places. -/
namespace MetricCapture

open MetricCapture.Number

structure Summary where
  count : Nat
  least : Option Float
  greatest : Option Float
  sum : Option Float
  mean : Option Float
  /-- Estimates by the labels of their quantiles. -/
  quantiles : List (String × Option Float)

structure Report where
  aborted : Bool
  cause : Option String
  total : Nat
  valid : Nat
  failed : Nat
  byKind : List (String × Nat)
  byReason : List (String × Nat)
  multivalue : Nat
  fractional : Nat
  sampled : Nat
  tags : Int
  contexts : Int
  attributes : List (Attribute × Option Summary)

def Report.defaultQuantiles : List Float := [0.5, 0.9, 0.99]

namespace Summary

def figure (x : Float) : Option Float :=
  if isFinite x then some (roundPlaces 4 x) else none

def label (q : Float) : String :=
  "p" ++ compactText 6 (roundPlaces 6 (q * 100.0))

/-- Puts a figure under a label. One that is there already keeps its place. -/
def put (figures : List (String × Option Float)) (name : String) (figure : Option Float) :
    List (String × Option Float) :=
  if figures.any (·.1 == name) then
    figures.map fun f => if f.1 == name then (name, figure) else f
  else figures ++ [(name, figure)]

def estimates (s : Sketch) (quantiles : List Float) :
    Except Sketch.Failure (List (String × Option Float)) :=
  quantiles.foldlM (fun done q => do
    let estimate ← s.quantile q
    pure (put done (label q) (estimate.bind figure))) []

def ofSketch (s : Sketch) (quantiles : List Float) : Except Sketch.Failure (Option Summary) :=
  if s.count = 0 then .ok none
  else do
    let figures ← estimates s quantiles
    pure (some
      { count := s.count
        least := figure s.least
        greatest := figure s.greatest
        sum := figure s.sum
        mean := s.mean.bind figure
        quantiles := figures })

end Summary

def Report.ofSnapshot (snap : Snapshot) (quantiles : List Float) :
    Except Sketch.Failure Report := do
  let s := snap.statistics
  let attributes ← Attribute.all.mapM fun a => do
    let summary ← Summary.ofSketch (s.distributions.get a) quantiles
    pure (a, summary)
  pure
    { aborted := snap.aborted
      cause := snap.cause
      total := s.total
      valid := s.valid
      failed := s.failed
      byKind := Kind.all.map fun k => (k.name, s.byKind.count k)
      byReason := Reason.counted.map fun r => (r.name, s.byReason.count r)
      multivalue := s.multivalue
      fractional := s.fractional
      sampled := s.sampled
      tags := snap.tags
      contexts := snap.contexts
      attributes }

def Attribute.name : Attribute → String
  | .nameLength => "name_length"
  | .tagsPerMessage => "tags_per_message"
  | .valuesPerMessage => "values_per_message"
  | .value => "value"
  | .tagLength => "tag_length"
  | .unicodeTags => "unicode_tags_per_message"

def Attribute.title : Attribute → String
  | .nameLength => "Name length"
  | .tagsPerMessage => "Tags per message"
  | .valuesPerMessage => "Values per message"
  | .value => "Metric value"
  | .tagLength => "Tag length"
  | .unicodeTags => "Unicode tags per message"

end MetricCapture
