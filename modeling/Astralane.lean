import Astralane.ScheduleSpec
import Astralane.ScheduleDepth
import Astralane.BlockOrder
import Astralane.Ingest
import Astralane.Load
import Astralane.Reindexing
import Astralane.Summary
import Astralane.ChainContention
import Astralane.Friction
import Astralane.ChainTrades
import Astralane.TradeRule
import Astralane.Conservation
import Astralane.Grouping
import Astralane.Grammar
import Astralane.Visibility
import Astralane.Rollup
import Astralane.Aggregation
import Astralane.CandleTable
import Astralane.ExactlyOnce
import Astralane.Backpressure
import Astralane.Progress
import Astralane.Interruption
import Astralane.Startup
import Astralane.Api
import Astralane.Served
import Astralane.Requests
