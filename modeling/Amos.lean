import Amos.AutoSchedule.Context
import Amos.AutoSchedule.TopK
import Amos.AutoSchedule.Feedback
import Amos.AutoSchedule.Round
import Amos.AutoSchedule.Run
import Amos.AutoSchedule.Interleaving
import Amos.AutoSchedule.ContextMap
import Amos.Graph.Expr
import Amos.Graph.ReMapper
import Amos.Graph.Tag
import Amos.Graph.Collision
import Amos.AutoSchedule.Scheduler
import Amos.Graph.Canonical
import Amos.Codegen.Rocm
import Amos.Graph.TagKind
