import EdgeCausal.Api.Resources

/-!
# `Api.Topology` — who talks to whom

The service map observed on the network. There is a series for every role and kind of a link; the map has one
directed edge for a pair of workloads of the factory. Bytes that parse are finite numbers.
-/

namespace EdgeCausal.Api

open Lib

/-- A directed edge of the service map. -/
structure CarettaEdge where
  src : Workload
  dst : Workload
  srcNs : String
  dstNs : String
  port : Option String
  bytes : ℤ
deriving DecidableEq

/-- The bytes of a series, 0 where they do not parse. -/
def observed (s : PromSeries) : ℚ := s.value.getD 0

/-- The edge a series speaks of: between two workloads with a name, in namespaces that begin with `nsStart`. -/
def carettaEdge (nsStart : String) (s : PromSeries) : Option CarettaEdge :=
  let cn := (s.metric.get? "client_name").getD ""
  let sn := (s.metric.get? "server_name").getD ""
  let cns := (s.metric.get? "client_namespace").getD ""
  let sns := (s.metric.get? "server_namespace").getD ""
  if cn = "" ∨ sn = "" ∨ cn = sn then none
  else if nsStart.toList.isPrefixOf cns.toList ∧ nsStart.toList.isPrefixOf sns.toList then
    some ⟨cn, sn, cns, sns, s.metric.get? "server_port", roundHalfEven (observed s)⟩
  else none

def CarettaEdge.pair (e : CarettaEdge) : Workload × Workload := (e.src, e.dst)

/-- One series: a pair is new, or its bytes are more than the stored ones, which are rounded. -/
def keepLargest (nsStart : String) (best : Dict (Workload × Workload) CarettaEdge) (s : PromSeries) :
    Dict (Workload × Workload) CarettaEdge :=
  match carettaEdge nsStart s with
  | none => best
  | some e =>
      match best.get? e.pair with
      | none => best.set e.pair e
      | some old => if (old.bytes : ℚ) < observed s then best.set e.pair e else best

/-- The edges of the map, the busiest first. -/
def parseCaretta (nsStart : String) (result : List PromSeries) : List CarettaEdge :=
  sortOn (fun e => -e.bytes) (result.foldl (keepLargest nsStart) ∅).values

structure Topology where
  edges : List CarettaEdge
  source : String

/-- `GET /api/topology`. -/
def carettaTopology (reply : PromReply) : Topology :=
  match reply with
  | .error _ => ⟨[], "unavailable"⟩
  | .ok result => ⟨parseCaretta "factory" result, "caretta"⟩

end EdgeCausal.Api
