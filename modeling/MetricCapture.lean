import MetricCapture.Main
import MetricCapture.Proofs.Replay.Fault
import MetricCapture.Proofs.Replay.RoundTrip
import MetricCapture.Proofs.Replay.Truncation
import MetricCapture.Proofs.Source.Chunks
import MetricCapture.Proofs.Source.Copy
import MetricCapture.Proofs.Source.Wrapped
import MetricCapture.Proofs.Statistics.MergeTree
import MetricCapture.Proofs.Source.Lookahead
import MetricCapture.Proofs.Message.Lengths
import MetricCapture.Proofs.Message.Boundary
import MetricCapture.Proofs.Message.Trouble
import MetricCapture.Proofs.Message.Metric
import MetricCapture.Proofs.Message.Integer
import MetricCapture.Proofs.Source.Passes
import MetricCapture.Proofs.Sketch.Counts
import MetricCapture.Proofs.Statistics.Figures
import MetricCapture.Proofs.Statistics.Conservation
import MetricCapture.Proofs.Packet.Fault
import MetricCapture.Proofs.Packet.Extension
import MetricCapture.Proofs.Report.Lines
import MetricCapture.Proofs.Source.Ending
import MetricCapture.Proofs.Command.Host
import MetricCapture.Proofs.Command.Exit
import MetricCapture.Proofs.Sketch.Room
import MetricCapture.Proofs.Statistics.Interrupted
import MetricCapture.Proofs.Message.Grammar
import MetricCapture.Proofs.Source.Datagrams
import MetricCapture.Proofs.Message.Size
import MetricCapture.Proofs.Sketch.Sound
import MetricCapture.Proofs.Statistics.Absorb
import MetricCapture.Proofs.Number.Monotone
import MetricCapture.Proofs.Sketch.Floor
import MetricCapture.Proofs.Sketch.Order
import MetricCapture.Proofs.Sketch.Ranking
import MetricCapture.Proofs.Message.ServiceCheck
import MetricCapture.Proofs.Message.Notice
import MetricCapture.Proofs.Source.Resolve
import MetricCapture.Proofs.Statistics.Cardinality
import MetricCapture.Proofs.Replay.Lines
import MetricCapture.Proofs.Number.Accuracy
import MetricCapture.Proofs.Number.Layout
import MetricCapture.Proofs.Number.Significant
import MetricCapture.Proofs.Report.Quantiles
