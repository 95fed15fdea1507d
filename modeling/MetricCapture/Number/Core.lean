/-! Powers and sums of natural numbers are those of core, whatever instances there are beside them. -/
namespace MetricCapture

attribute [scoped instance (high)] instPowNat Zero.ofOfNat0

end MetricCapture
