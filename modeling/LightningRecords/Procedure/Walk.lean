import LightningRecords.Procedure.Local
import LightningRecords.Procedure.Retry

namespace LightningRecords

-- What a walk over the graph visits, each series in the order of its visits.
structure Series where
  channels : List String
  nodes : List String
  peers : List String
  policies : List (String × String)
deriving DecidableEq, Repr

-- Everything that a graph and a list of peers name. A policy is named by its
-- author and its channel.
def Series.of (graph : GraphReport) (peers : List PeerReport) : Series where
  channels := graph.channels.map (·.id)
  nodes := graph.nodes
  peers := peers.map (·.publicKey)
  policies := graph.channels.flatMap fun channel =>
    channel.policies.map fun policy => (policy.publicKey, channel.id)

-- How many records of one kind came to which outcome.
structure Tally where
  created : Nat := 0
  updated : Nat := 0
  unchanged : Nat := 0
deriving DecidableEq, Repr

def Tally.count (tally : Tally) : Outcome → Tally
  | .created _ => { tally with created := tally.created + 1 }
  | .updated .. => { tally with updated := tally.updated + 1 }
  | .unchanged => { tally with unchanged := tally.unchanged + 1 }

def Tally.total (tally : Tally) : Nat := tally.created + tally.updated + tally.unchanged

structure Summary where
  nodes : Tally
  channels : Tally
  policies : Tally
  peers : Tally
deriving DecidableEq, Repr

namespace Procedure

-- Calls one procedure for each member of a series and counts the outcomes.
def tally {ι : Type} (visit : ι → Procedure Outcome) (series : List ι) : Procedure Tally :=
  series.foldlM (fun tally member => do return tally.count (← visit member)) {}

-- Brings everything that the local node knows of in line, in the order into
-- which `arrange` puts it. The first failure ends the walk.
def walk (policy : RetryPolicy) (draw : Nat → Nat) (arrange : Series → Series) :
    Procedure Summary := do
  let graph ← ask "graph" .graph
  let peers ← ask Schema.peer.kind .peers
  let series := arrange (Series.of graph peers)
  let channels ← tally (fun id => retried policy draw (channel id)) series.channels
  let nodes ← tally (fun publicKey => retried policy draw (node publicKey)) series.nodes
  let peers ← tally (fun publicKey => retried policy draw (peer publicKey)) series.peers
  let policies ← tally
    (fun (publicKey, channelId) => retried policy draw (Procedure.policy publicKey channelId))
    series.policies
  return { nodes, channels, policies, peers }

end Procedure

end LightningRecords
