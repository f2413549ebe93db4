import RedisGraph.Pattern.Graph
import RedisGraph.Filter.Tree
import RedisGraph.Plan.OpNode
import RedisGraph.Plan.Build
import RedisGraph.Plan.Wiring
import RedisGraph.Plan.BuildRun
import RedisGraph.Plan.Walks
import RedisGraph.Plan.Shape
import RedisGraph.Plan.Blocks
import RedisGraph.Exec.Execute
import RedisGraph.Exec.Cursors
import RedisGraph.Exec.Termination
import RedisGraph.Exec.Odometer
import RedisGraph.Plan.Filters
import RedisGraph.Plan.Print
import RedisGraph.Plan.Cycles
import RedisGraph.Plan.Parents
import RedisGraph.Plan.Stores
import RedisGraph.Plan.SelfLinks
import RedisGraph.Plan.Complete
import RedisGraph.Plan.Returns
import RedisGraph.Exec.Planned
