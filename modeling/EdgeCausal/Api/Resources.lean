import EdgeCausal.Api.Fairness
import EdgeCausal.Api.Narrative
import EdgeCausal.Api.Telemetry
import EdgeCausal.Collections.Pool

/-!
# `Api.Resources` — what pods ask for, may use and use

Two endpoints read the same instant queries: one pools them by workload and gives right-sizing advice, the other
lists them by pod. A failed query counts as an empty one.
-/

namespace EdgeCausal.Api

open Lib

/-! ## Instant queries -/

/-- One series of an answer: its labels and its value, `none` where it does not parse. A value that parses is a finite
    number here: what `NaN` and the infinities, which parse too, lead to is not said. -/
structure PromSeries where
  metric : Dict String String
  value : Option ℚ

/-- What comes back for a query; an error is a request that failed. -/
abbrev PromReply := Except String (List PromSeries)

/-- The namespace, the pod and the value of a series that has all three. -/
def labelled (s : PromSeries) : Option ((String × Pod) × ℚ) :=
  match s.metric.get? "namespace", s.metric.get? "pod", s.value with
  | some ns, some pod, some v => if ns = "" ∨ pod = "" then none else some ((ns, pod), v)
  | _, _, _ => none

/-- The values summed by a key made of namespace and pod. -/
def promSum {κ : Type} [DecidableEq κ] (key : String × Pod → κ) (reply : PromReply) : Dict κ ℚ :=
  match reply with
  | .error _ => ∅
  | .ok series => pool (fun e => key e.1) Prod.snd (series.filterMap labelled)

/-- A pod's namespace and workload. -/
def owner (k : String × Pod) : String × Workload := (k.1, workload k.2)

def promMap (reply : PromReply) : Dict (String × Workload) ℚ := promSum owner reply

def promPodMap (reply : PromReply) : Dict (String × Pod) ℚ := promSum id reply

/-! ## The queries -/

def selector (ns : String) : String := "namespace=~\"" ++ ns ++ "\""

/-- The namespaces of the factory. -/
def factory : String := selector "factory-.*"

def requestsQuery (sel resource : String) : String :=
  "sum by(namespace,pod)(kube_pod_container_resource_requests\x7b" ++ sel ++ ",resource=\"" ++ resource ++ "\"\x7d)"

def limitsQuery (sel resource : String) : String :=
  "sum by(namespace,pod)(kube_pod_container_resource_limits\x7b" ++ sel ++ ",resource=\"" ++ resource ++ "\"\x7d)"

def cpuP95Query : String :=
  "quantile_over_time(0.95, sum by(namespace,pod)(rate(container_cpu_usage_seconds_total\x7b" ++ factory
    ++ ",container!=\"\"\x7d[5m]))[1h:5m])"

def memP95Query : String :=
  "quantile_over_time(0.95, sum by(namespace,pod)(container_memory_working_set_bytes\x7b" ++ factory
    ++ ",container!=\"\"\x7d)[1h:5m])"

def cpuUseQuery (sel : String) : String :=
  "sum by(namespace,pod)(rate(container_cpu_usage_seconds_total\x7b" ++ sel ++ ",container!=\"\"\x7d[1m]))"

def memUseQuery (sel : String) : String :=
  "sum by(namespace,pod)(container_memory_working_set_bytes\x7b" ++ sel ++ ",container!=\"\"\x7d)"

def stallQuery (psi : String) : String :=
  "sum by(namespace,pod)(rate(container_pressure_" ++ psi ++ "_stalled_seconds_total\x7b" ++ factory ++ "\x7d[5m]))"

/-! ## Right-sizing -/

/-- What of a request makes it over-provisioned, and of a limit at risk. -/
structure AdviceConfig where
  reclaimFrac : ℚ
  resizeFrac : ℚ

def AdviceConfig.default : AdviceConfig := ⟨1 / 2, 85 / 100⟩

/-- A reclaimed request keeps this much above the use. -/
def headroom : ℚ := 13 / 10

inductive Verb where
  | reclaim | resize
deriving DecidableEq

inductive Resource where
  | cpu | memory
deriving DecidableEq

/-- Two decimals, as a float prints them: at least one, and no zero at the end of two. -/
def decimals (c : ℚ) : String :=
  let n := (roundHalfEven (c * 100)).toNat
  toString (n / 100) ++ "." ++
    (if n % 10 = 0 then toString (n / 10 % 10) else toString (n / 10 % 10) ++ toString (n % 10))

def fmtCpu (c : ℚ) : String :=
  if c < 1 then toString (roundHalfEven (c * 1000)) ++ "m" else decimals c ++ " CPU"

namespace Resource

def name : Resource → String
  | cpu => "cpu"
  | memory => "memory"

def fmt : Resource → ℚ → String
  | cpu => fmtCpu
  | memory => fmtMem

/-- What a reclaim must save to be worth it. -/
def minSave : Resource → ℚ
  | cpu => 5 / 100
  | memory => 64 * 1024 * 1024

end Resource

structure Card where
  verb : Verb
  workload : Workload
  resource : Resource
  detail : String
  request : Option ℚ
  limit : Option ℚ
  p95 : ℚ
  target : ℚ
deriving DecidableEq

/-- A number that is there and not 0. -/
def given (q : Option ℚ) : Option ℚ := q.filter (· ≠ 0)

section Rightsize
variable (cfg : AdviceConfig) (wl : Workload) (req lim p95 : Option ℚ) (resource : Resource)

/-- What a reclaimed request becomes: the use with its headroom, a tenth of the request at least. -/
def reclaimTarget (r u : ℚ) : ℚ := max (u * headroom) (r * (1 / 10))

/-- The request is far above the use. -/
def reclaimCard : Option Card :=
  match given req, p95 with
  | some r, some u =>
      if u < cfg.reclaimFrac * r then
        let target := reclaimTarget r u
        let save := r - target
        if resource.minSave < save then
          some ⟨.reclaim, wl, resource, "requests " ++ resource.fmt r ++ ", p95 " ++ resource.fmt u ++ " -> reclaim "
            ++ resource.fmt save, req, lim, u, roundAt 3 target⟩
        else none
      else none
  | _, _ => none

/-- The use is close to the limit. -/
def resizeCard : Option Card :=
  match given lim, p95 with
  | some l, some u =>
      if cfg.resizeFrac * l < u then
        some ⟨.resize, wl, resource, "p95 " ++ resource.fmt u ++ " near limit " ++ resource.fmt l
          ++ " -> resize up (throttle/OOM risk)", req, lim, u, roundAt 3 (l * (3 / 2))⟩
      else none
  | _, _ => none

/-- One workload and resource: a card, or none if it is right-sized. -/
def rightsize : Option Card :=
  (reclaimCard cfg wl req lim p95 resource).or (resizeCard cfg wl req lim p95 resource)

end Rightsize

/-! ## `GET /api/recommendations` -/

/-- The answers to the queries, by their text. -/
abbrev Prom := String → PromReply

/-- The maps of a resource: requests, limits and the use. -/
structure ResourceMaps (κ : Type) where
  request : Dict κ ℚ
  limit : Dict κ ℚ
  use : Dict κ ℚ

/-- The keys of the six maps, in order and once each. -/
def unionKeys {α β : Type} [LinearOrder α] [LinearOrder β] (maps : Resource → ResourceMaps (α × β)) :
    List (α × β) :=
  let keysOf := fun r => (maps r).request.keys ++ (maps r).limit.keys ++ (maps r).use.keys
  sortOn (fun k => (toLex k : α ×ₗ β)) (keysOf .cpu ++ keysOf .memory).dedup

structure Recommendations where
  rightSizing : List (String × Card)
  fairness : List FairnessRow
  source : String

section Recommend
variable (cfg : AdviceConfig) (prom : Prom)

def adviceMaps (r : Resource) : ResourceMaps (String × Workload) where
  request := promMap (prom (requestsQuery factory r.name))
  limit := promMap (prom (limitsQuery factory r.name))
  use := promMap (prom (match r with | .cpu => cpuP95Query | .memory => memP95Query))

/-- The card of a workload's resource. -/
def adviceFor (k : String × Workload) (resource : Resource) : Option Card :=
  let maps := adviceMaps prom resource
  rightsize cfg k.2 (maps.request.get? k) (maps.limit.get? k) (maps.use.get? k) resource

/-- Cards at risk first, the highest use first. -/
def cardOrder (c : String × Card) : ℕ ×ₗ ℚ := toLex (if c.2.verb = .resize then 0 else 1, -c.2.p95)

/-- The stall of each workload over the three resources. -/
def totalStall : Dict (String × Workload) ℚ :=
  pool Prod.fst Prod.snd (["io", "cpu", "memory"].flatMap fun psi => (promMap (prom (stallQuery psi))).entries)

/-- Right-sizing advice and the fairness of each namespace; nothing without any answer. -/
def recommendations : Recommendations :=
  if unionKeys (adviceMaps prom) = [] then ⟨[], [], "unavailable"⟩
  else
    let cards := (unionKeys (adviceMaps prom)).flatMap fun k =>
      [Resource.cpu, Resource.memory].filterMap fun resource =>
        (adviceFor cfg prom k resource).map fun c => (k.1, c)
    ⟨sortOn cardOrder cards, fairness (totalStall prom), "prometheus"⟩

end Recommend

/-! ## `GET /api/pod-resources` -/

structure Allocation where
  request : Option ℚ
  limit : Option ℚ
  usage : ℚ

structure PodResourceRow where
  ns : String
  pod : Pod
  workload : Workload
  cpu : Allocation
  mem : Allocation

structure PodResources where
  pods : List PodResourceRow
  source : String

section PodResources
variable (prom : Prom) (ns : String)

def podMaps (r : Resource) : ResourceMaps (String × Pod) where
  request := promPodMap (prom (requestsQuery (selector ns) r.name))
  limit := promPodMap (prom (limitsQuery (selector ns) r.name))
  use := promPodMap (prom (match r with | .cpu => cpuUseQuery (selector ns) | .memory => memUseQuery (selector ns)))

/-- What a pod is allocated and uses of a resource; the use is rounded, 0 when it is not known. -/
def allocation (resource : Resource) (k : String × Pod) : Allocation :=
  let maps := podMaps prom ns resource
  let used := (maps.use.get? k).getD 0
  ⟨maps.request.get? k, maps.limit.get? k,
    match resource with
    | .cpu => roundAt 4 used
    | .memory => roundHalfEven used⟩

/-- One row a pod; nothing without any answer. -/
def podResources : PodResources :=
  if unionKeys (podMaps prom ns) = [] then ⟨[], "unavailable"⟩
  else
    ⟨(unionKeys (podMaps prom ns)).map fun k =>
        ⟨k.1, k.2, workload k.2, allocation prom ns .cpu k, allocation prom ns .memory k⟩, "prometheus"⟩

end PodResources

end EdgeCausal.Api
