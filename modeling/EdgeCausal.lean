import EdgeCausal.Collections.Contest
import EdgeCausal.Collections.Extremum
import EdgeCausal.Collections.Inequality
import EdgeCausal.Collections.Moments
import EdgeCausal.Collections.OrderStat
import EdgeCausal.Collections.Runs
import EdgeCausal.Collections.Tally
import EdgeCausal.Collections.Pool
import EdgeCausal.Collections.Text
import EdgeCausal.Encoding.Sha1
import EdgeCausal.Encoding.Json
import EdgeCausal.Encoding.JsonRead
import EdgeCausal.Graph.BestWalk
import EdgeCausal.Graph.DiGraph
import EdgeCausal.Graph.Worklist
import EdgeCausal.Graph.FirstWalk
import EdgeCausal.Graph.Relabel
import EdgeCausal.Storage.Transaction
import EdgeCausal.Storage.Recovery
import EdgeCausal.Temporal.History
import EdgeCausal.Temporal.SampleHold
import EdgeCausal.Temporal.Cusum
import EdgeCausal.Clustering.Leader
import EdgeCausal.Concurrent.Dialogue
import EdgeCausal.Concurrent.Threads
import EdgeCausal.Engine.Types
import EdgeCausal.Engine.Detectors
import EdgeCausal.Engine.LagCorr
import EdgeCausal.Engine.Inputs
import EdgeCausal.Engine.Forecast
import EdgeCausal.Engine.Numeric
import EdgeCausal.Engine.Gate
import EdgeCausal.Engine.Ranking
import EdgeCausal.Engine.Pipeline
import EdgeCausal.Engine.State
import EdgeCausal.Engine.CaseId
import EdgeCausal.Engine.Columns
import EdgeCausal.Engine.Transaction
import EdgeCausal.Engine.Schema
import EdgeCausal.Engine.Merge
import EdgeCausal.Engine.Service
import EdgeCausal.Engine.Loop
import EdgeCausal.Api.Telemetry
import EdgeCausal.Api.Narrative
import EdgeCausal.Api.Pack
import EdgeCausal.Api.Aggregator
import EdgeCausal.Api.Server
import EdgeCausal.Api.Fairness
import EdgeCausal.Api.Resources
import EdgeCausal.Api.Console
import EdgeCausal.Api.Topology
import EdgeCausal.Api.Gateway
import EdgeCausal.Factory.Ingest
import EdgeCausal.Factory.Interlock
import EdgeCausal.Correctness.Admission
import EdgeCausal.Correctness.GateSound
import EdgeCausal.Correctness.Silence
import EdgeCausal.Correctness.EdgeMemory
import EdgeCausal.Correctness.RowHistory
import EdgeCausal.Correctness.Render
import EdgeCausal.Correctness.Projection
import EdgeCausal.Correctness.CaseLibrary
import EdgeCausal.Correctness.ForwardImpact
import EdgeCausal.Correctness.Backbone
import EdgeCausal.Correctness.Copressure
import EdgeCausal.Correctness.HeldRoot
import EdgeCausal.Correctness.Isolation
import EdgeCausal.Correctness.Recognition
import EdgeCausal.Correctness.Bookkeeping
import EdgeCausal.Correctness.Aggressor
import EdgeCausal.Correctness.FailedPass
import EdgeCausal.Correctness.StrongestWalk
import EdgeCausal.Correctness.MergedVerdict
import EdgeCausal.Correctness.RankerAgreement
import EdgeCausal.Correctness.SignalUnion
import EdgeCausal.Correctness.SurfacedCase
import EdgeCausal.Correctness.LiveStatus
import EdgeCausal.Correctness.NarrativeCache
import EdgeCausal.Correctness.DirectionSymmetry
import EdgeCausal.Correctness.IncidentBaseline
import EdgeCausal.Correctness.TemporalEvidence
import EdgeCausal.Correctness.SourceAttribution
import EdgeCausal.Correctness.BestReach
import EdgeCausal.Correctness.BlastWalk
import EdgeCausal.Correctness.BlastReach
import EdgeCausal.Correctness.RenderExact
import EdgeCausal.Correctness.LearnedDirection
import EdgeCausal.Correctness.ChainRoot
import EdgeCausal.Correctness.LagPeak
import EdgeCausal.Correctness.PlantedDelay
import EdgeCausal.Correctness.GridResample
import EdgeCausal.Correctness.Onsets
import EdgeCausal.Correctness.Forecast
import EdgeCausal.Correctness.OnsetEvents
import EdgeCausal.Correctness.Aggregation
import EdgeCausal.Correctness.Fairness
import EdgeCausal.Correctness.PackFormat
import EdgeCausal.Correctness.PodRestart
import EdgeCausal.Correctness.CrashSafety
import EdgeCausal.Correctness.Migration
import EdgeCausal.Correctness.LivePods
import EdgeCausal.Correctness.ServiceLoop
import EdgeCausal.Correctness.SignalIsolation
import EdgeCausal.Correctness.Replay
import EdgeCausal.Correctness.Hysteresis
import EdgeCausal.Correctness.Serving
import EdgeCausal.Correctness.Detection
import EdgeCausal.Correctness.Advice
import EdgeCausal.Correctness.StoredCases
import EdgeCausal.Correctness.Scenarios
import EdgeCausal.Correctness.ServiceMap
import EdgeCausal.Correctness.WindowRead
import EdgeCausal.Correctness.EndToEnd
import EdgeCausal.Correctness.Narratives
import EdgeCausal.Correctness.IngestLoss
import EdgeCausal.Correctness.SafeMode
