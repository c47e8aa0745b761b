import FreenetHarness.Lib.Run
import FreenetHarness.Lib.Text
import FreenetHarness.Lib.Number
import FreenetHarness.Lib.Binary64
import FreenetHarness.Lib.Bytes
import FreenetHarness.Lib.Count
import FreenetHarness.Lib.Rotation
import FreenetHarness.Lib.Tickets
import FreenetHarness.Lib.Inbox
import FreenetHarness.Lib.Ranks
import FreenetHarness.Lib.Table
import FreenetHarness.Lib.Rounds
import FreenetHarness.Lib.Framing
import FreenetHarness.Lib.Quota
import FreenetHarness.Lib.LeastSquares
import FreenetHarness.Lib.Calendar
import FreenetHarness.Lib.Programs
import FreenetHarness.Lib.Laps
import FreenetHarness.Lib.Cut
import FreenetHarness.Lib.Spread
import FreenetHarness.Stats
import FreenetHarness.Kill9
import FreenetHarness.Latency
import FreenetHarness.ValidateCost
import FreenetHarness.Endpoint
import FreenetHarness.Probe.Ledger
import FreenetHarness.Probe.Client
import FreenetHarness.Probe.Pairing
import FreenetHarness.Probe.Attribution
import FreenetHarness.Probe.Calls
import FreenetHarness.Probe.Accounts
import FreenetHarness.Probe.InOrder
import FreenetHarness.Probe.Spans
import FreenetHarness.Probe.Identity
import FreenetHarness.Parity.Format
import FreenetHarness.Parity.File
import FreenetHarness.Parity.Prefix
import FreenetHarness.Parity.Write
import FreenetHarness.Parity.Complete
import FreenetHarness.Mint
import FreenetHarness.Hedge
import FreenetHarness.XNode.Pair
import FreenetHarness.XNode.Files
import FreenetHarness.XNode.Read
import FreenetHarness.XNode.ReadPair
import FreenetHarness.XNode.Fates
import FreenetHarness.XNode.Minted
import FreenetHarness.Parity.Reput
import FreenetHarness.XNode.PutMinted
import FreenetHarness.XNode.Settle
import FreenetHarness.XNode.Clocks
import FreenetHarness.XNode.PutLine
import FreenetHarness.Delegate
import FreenetHarness.Fixture.Contract
import FreenetHarness.Fixture.Rows
import FreenetHarness.RoundTrip
import FreenetHarness.Upgrade
import FreenetHarness.Hex
import FreenetHarness.BatchBlock
import FreenetHarness.Parallel
import FreenetHarness.Parity.Order
import FreenetHarness.Parity.Score
import FreenetHarness.Percentile
import FreenetHarness.Stats.Table
import FreenetHarness.Parity.Agree
import FreenetHarness.Parity.Binomial
import FreenetHarness.Parity.Ready
import FreenetHarness.Parity.Bounds
import FreenetHarness.Parity.Again
import FreenetHarness.Parity.Read
import FreenetHarness.Pack
import FreenetHarness.Kill9.Pack
import FreenetHarness.PutShape
import FreenetHarness.OneGroup
import FreenetHarness.Latency.Series
import FreenetHarness.Latency.DelegatePut
import FreenetHarness.Parity.Balance
import FreenetHarness.ValidateCost.Report
import FreenetHarness.Latency.Chrono
import FreenetHarness.Kill9.Node
import FreenetHarness.Kill9.Life
import FreenetHarness.Hedge.Run
import FreenetHarness.PutShape.Run
import FreenetHarness.OneGroup.Run
import FreenetHarness.XNode.Write
import FreenetHarness.Artefact
import FreenetHarness.Latency.Kinds
import FreenetHarness.Latency.Run
import FreenetHarness.XNode.Once
import FreenetHarness.RoundTrip.Node
import FreenetHarness.RoundTrip.Bag
import FreenetHarness.RoundTrip.Register
import FreenetHarness.RoundTrip.Set
import FreenetHarness.Latency.Readable
import FreenetHarness.Upgrade.Register
import FreenetHarness.Upgrade.Cycle
import FreenetHarness.Pack.Run
