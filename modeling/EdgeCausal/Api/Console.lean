import EdgeCausal.Api.Telemetry
import EdgeCausal.Concurrent.Dialogue
import EdgeCausal.Encoding.JsonRead

/-!
# `Api.Console` — firing and resetting scenarios

The only endpoints that change anything: a request is a dialogue with the cluster, which may reply anything at any
time. Requests run in threads of their own.
-/

namespace EdgeCausal.Api

open Lib

/-! ## Calls -/

inductive Method where
  | get | post | delete | patch
deriving DecidableEq

/-- The path of an object, or of a collection when no name is given. -/
structure KubePath where
  group : String
  ns : String
  resource : String
  name : Option String
  query : String
deriving DecidableEq

def KubePath.text (p : KubePath) : String :=
  "/apis/" ++ p.group ++ "/v1/namespaces/" ++ p.ns ++ "/" ++ p.resource ++ (p.name.map ("/" ++ ·)).getD "" ++ p.query

inductive Body where
  /-- A Job of this name and specification. -/
  | job (name ns : String) (spec : Json.Value)
  /-- The strategic merge that sets `LEAK_ENABLED` in the container `vision-qc`. -/
  | leak (value : String)

inductive Call where
  /-- `POST /flush` of the cooling monitor. -/
  | flush
  | k8s (method : Method) (path : KubePath) (body : Option Body)

/-- What comes of a call: a document, an error status with its text, or a failure on the way. -/
inductive CallReply where
  | ok (body : Json.Value)
  | httpError (code : ℕ) (text : String)
  | failed (msg : String)

/-- The exceptions of a request. -/
inductive Raised where
  | http (code : ℕ) (text : String)
  | other (msg : String)

structure ScenarioStatus where
  scenario : String
  status : String
  job : Option String
deriving DecidableEq

/-- A request on its way to a result. -/
abbrev Talk := Dialogue Call CallReply (Except Raised ScenarioStatus)

/-- A call whose only good reply is a document. -/
def calling (c : Call) (next : Json.Value → Talk) : Talk :=
  .ask c fun
    | .ok body => next body
    | .httpError code text => .done (.error (.http code text))
    | .failed msg => .done (.error (.other msg))

/-- A call after which 404 is good, too. -/
def callingOr404 (c : Call) (next gone : Talk) : Talk :=
  .ask c fun
    | .ok _ => next
    | .httpError code text => if code = 404 then gone else .done (.error (.http code text))
    | .failed msg => .done (.error (.other msg))

/-! ## S2: the archiver -/

def jobsPath : KubePath := ⟨"batch", "factory-data", "jobs", none, ""⟩

def jobName : String := "log-archiver-s2"

def jobPath : KubePath := { jobsPath with name := some jobName }

def deleteJob : Call := .k8s .delete { jobPath with query := "?propagationPolicy=Background" } none

def getJob : Call := .k8s .get jobPath none

def getCronJob : Call := .k8s .get ⟨"batch", "factory-data", "cronjobs", some "log-archiver", ""⟩ none

def postJob (spec : Json.Value) : Call := .k8s .post jobsPath (some (.job jobName "factory-data" spec))

/-- `v[key]`, or the text of the exception. -/
def index (v : Json.Value) (key : String) : Except String Json.Value :=
  match v with
  | .object _ =>
      match v.get? key with
      | some x => .ok x
      | none => .error ("'" ++ key ++ "'")
  | .array _ => .error "list indices must be integers or slices, not str"
  | .string _ => .error "string indices must be integers, not 'str'"
  | .null => .error "'NoneType' object is not subscriptable"
  | .bool _ => .error "'bool' object is not subscriptable"
  | .number digits =>
      if '.' ∈ digits ∨ 'e' ∈ digits ∨ 'E' ∈ digits ∨ 'N' ∈ digits ∨ 'I' ∈ digits then
        .error "'float' object is not subscriptable"
      else .error "'int' object is not subscriptable"

/-- `cj["spec"]["jobTemplate"]["spec"]`. -/
def jobSpec (cj : Json.Value) : Except String Json.Value :=
  ((index cj "spec").bind fun spec => index spec "jobTemplate").bind fun template => index template "spec"

def fired : ScenarioStatus := ⟨"S2", "fired", some jobName⟩

/-- The Job is made from the CronJob's template. -/
def launch : Talk :=
  calling getCronJob fun cj =>
    match jobSpec cj with
    | .error msg => .done (.error (.other msg))
    | .ok spec => calling (postJob spec) fun _ => .done (.ok fired)

/-- Wait for the old Job to be gone; after so many looks it is not waited for any longer. -/
def awaitGone : ℕ → Talk
  | 0 => launch
  | n + 1 => callingOr404 getJob (awaitGone n) launch

/-- How often the old Job is looked for. -/
def polls : ℕ := 20

def triggerS2 : Talk := callingOr404 deleteJob (awaitGone polls) (awaitGone polls)

/-! ## S5: the leak -/

def patchLeak (value : String) : Call :=
  .k8s .patch ⟨"apps", "factory-edge", "deployments", some "vision-qc", ""⟩ (some (.leak value))

def leak (value : String) (st : ScenarioStatus) : Talk := calling (patchLeak value) fun _ => .done (.ok st)

/-! ## The endpoints -/

/-- A request as the client sees it. -/
abbrev Served := Dialogue Call CallReply (Except HTTPException ScenarioStatus)

/-- `text[:200]`. -/
def shown (text : String) : String := String.ofList (text.toList.take 200)

section Endpoints
variable (upper : String → String) (sid : String)

/-- The dialogue of `trigger`, by the id in upper case. -/
def triggerTalk (sid : String) : Option Talk :=
  if sid = "S1" then some (calling .flush fun _ => .done (.ok ⟨"S1", "armed", none⟩))
  else if sid = "S2" then some triggerS2
  else if sid = "S5" then some (leak "true" ⟨"S5", "fired", none⟩)
  else none

/-- How `trigger` answers. -/
def triggerAnswer (sid : String) : Except Raised ScenarioStatus → Except HTTPException ScenarioStatus
  | .ok st => .ok st
  | .error (.http code text) => .error ⟨code, "k8s: " ++ shown text⟩
  | .error (.other msg) => .error ⟨503, sid ++ " trigger failed: " ++ msg⟩

/-- `POST /api/scenarios/{sid}/trigger`. -/
def trigger : Served :=
  match triggerTalk (upper sid) with
  | none => .done (.error ⟨501, upper sid ++ " is not triggerable via the API"⟩)
  | some talk => talk.map (triggerAnswer (upper sid))

/-- The dialogue of `reset_scenario`, by the id in upper case. -/
def resetTalk (sid : String) : Option Talk :=
  if sid = "S2" then
    some (callingOr404 deleteJob (.done (.ok ⟨"S2", "reset", none⟩)) (.done (.ok ⟨"S2", "reset", none⟩)))
  else if sid = "S5" then some (leak "false" ⟨"S5", "reset", none⟩)
  else if sid = "S1" then some (.done (.ok ⟨"S1", "self-clears via recency gate", none⟩))
  else none

/-- How `reset_scenario` answers; what it does not catch is an internal error. -/
def resetAnswer : Except Raised ScenarioStatus → Except HTTPException ScenarioStatus
  | .ok st => .ok st
  | .error (.http code text) => .error ⟨code, "k8s: " ++ shown text⟩
  | .error (.other _) => .error ⟨500, "Internal Server Error"⟩

/-- `POST /api/scenarios/{sid}/reset`. -/
def resetScenario : Served :=
  match resetTalk (upper sid) with
  | none => .done (.error ⟨501, upper sid ++ " reset not wired"⟩)
  | some talk => talk.map resetAnswer

end Endpoints

/-! ## Many requests -/

/-- What happens to the gateway: a request comes in, or a reply to the call of one that is under way. -/
inductive ConsoleEvent where
  | trigger (sid : String)
  | reset (sid : String)
  | reply (i : ℕ) (r : CallReply)

def ConsoleEvent.move (upper : String → String) :
    ConsoleEvent → Move Call CallReply (Except HTTPException ScenarioStatus)
  | .trigger sid => .arrive (Api.trigger upper sid)
  | .reset sid => .arrive (resetScenario upper sid)
  | .reply i r => .reply i r

/-- The requests after some events, and the calls made, each with its request and its reply. -/
def console (upper : String → String) (events : List ConsoleEvent) : List Served × List (ℕ × Call × CallReply) :=
  interleaved (events.map (ConsoleEvent.move upper))

/-! ## What the console may do -/

/-- A rule of a Role. -/
structure Rule where
  group : String
  resource : String
  verbs : List String

/-- The Roles bound to the console, by namespace. -/
def roles : List (String × Rule) :=
  [("factory-data", ⟨"batch", "cronjobs", ["get"]⟩),
    ("factory-data", ⟨"batch", "jobs", ["get", "create", "delete"]⟩),
    ("factory-edge", ⟨"apps", "deployments", ["get", "patch"]⟩)]

/-- The verb a method asks for on one object or collection. -/
def Method.verb : Method → String
  | .get => "get"
  | .post => "create"
  | .delete => "delete"
  | .patch => "patch"

/-- A Role permits the call. -/
def Permitted (method : Method) (path : KubePath) : Prop :=
  ∃ r ∈ roles, r.1 = path.ns ∧ r.2.group = path.group ∧ r.2.resource = path.resource ∧ method.verb ∈ r.2.verbs

instance (method : Method) (path : KubePath) : Decidable (Permitted method path) := by
  unfold Permitted
  infer_instance

end EdgeCausal.Api
