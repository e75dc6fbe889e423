import Apixis.Event.Capture
import Apixis.Event.ChainCache
import Apixis.Event.Ownership
import Apixis.Event.Registration
import Apixis.Event.Placement
import Apixis.Event.Reassignment
import Apixis.Event.Accounting
import Apixis.Event.Following
import Apixis.Event.Cleanup
import Apixis.Event.WaitOutcome
import Apixis.Event.PermitProgress
import Apixis.Graph.CommandFold
import Apixis.Graph.CommandOrder
import Apixis.Graph.Refinement
import Apixis.Graph.Termination
import Apixis.Graph.Replay
import Apixis.Graph.NamespaceOwnership
import Apixis.Graph.Claiming
import Apixis.Graph.Deciding
import Apixis.Graph.GraphManager
import Apixis.Utils.LogAccounting
import Apixis.Graph.Streaming
import Apixis.Graph.CopyState
import Apixis.Graph.Isolation
import Apixis.Graph.BatchRefinement
import Apixis.Graph.Routing
import Apixis.Graph.OwnContext
import Apixis.Utils.SnowFlake
import Apixis.Utils.LogHistory
