import InFlight.Main
import InFlight.Proofs.Time.Scale
import InFlight.Proofs.Window.Slice
import InFlight.Proofs.Window.Grid
import InFlight.Proofs.Window.Layout
import InFlight.Proofs.NameMap
import InFlight.Proofs.Counts.Balance
import InFlight.Proofs.Chart.Build
import InFlight.Proofs.Chart.PrefixCount
import InFlight.Proofs.Window.Sharing
import InFlight.Proofs.Window.Divisions
import InFlight.Proofs.Chart.EndpointCounts
import InFlight.Proofs.Summary
import InFlight.Proofs.Latency
import InFlight.Proofs.Chart.Concurrency
import InFlight.Proofs.Chart.Refusal
import InFlight.Proofs.Config.Acceptance
import InFlight.Proofs.Json.Reader
import InFlight.Proofs.Log.Line
import InFlight.Proofs.Log.Shapes
import InFlight.Proofs.Decimal
import InFlight.Proofs.Time.Calendar
import InFlight.Proofs.Time.Timestamp
import InFlight.Proofs.Cache.Layout
import InFlight.Proofs.Event.Json
import InFlight.Proofs.Log.Storable
import InFlight.Proofs.Log.Grammar
import InFlight.Proofs.Log.Concatenation
import InFlight.Proofs.Files.Path
import InFlight.Proofs.Files.Tree
import InFlight.Proofs.Cache.Transparency
import InFlight.Proofs.Chart.Shape
import InFlight.Proofs.Chart.EvenSplit
import InFlight.Proofs.Chart.LogOrder
import InFlight.Proofs.Chart.Shift
import InFlight.Proofs.Chart.UniformRate
import InFlight.Proofs.Chart.Relabel
import InFlight.Proofs.Window.Walk
import InFlight.Proofs.Window.Ending
import InFlight.Proofs.Chart.LaterTraffic
import InFlight.Proofs.Chart.Latencies
import InFlight.Proofs.Chart.Totals
import InFlight.Proofs.Json.RoundTrip
import InFlight.Proofs.Event.RoundTrip
import InFlight.Proofs.Event.Fields
import InFlight.Proofs.Log.RoundTrip
import InFlight.Proofs.Cache.RoundTrip
import InFlight.Proofs.Cache.Outcome
import InFlight.Proofs.Chart.RoundTrip
import InFlight.Proofs.Files.Extension
import InFlight.Proofs.Files.Component
import InFlight.Proofs.Config.Output
import InFlight.Proofs.Config.Override
import InFlight.Proofs.Run.Delivery
import InFlight.Proofs.Run.Names
import InFlight.Proofs.Run.Input
import InFlight.Proofs.Window.Boundaries
import InFlight.Proofs.Width
import InFlight.Proofs.Yaml.Record
import InFlight.Proofs.Config.UnknownKeys
import InFlight.Proofs.Counts.Batches
import InFlight.Proofs.Event.Arrangement
import InFlight.Proofs.Time.HumanDuration
