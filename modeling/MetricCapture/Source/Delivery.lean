import MetricCapture.Source.Failure
/-! Deliveries: what a sequence gave before it ended, and how it ended. -/
namespace MetricCapture

structure Delivery (α : Type) where
  items : List α
  error : Option StreamError := none

end MetricCapture
