import EdgeCausal.Api.Console

/-!
# `Correctness.Scenarios` — what the console does to the cluster

Any number of requests at once, every reply of the cluster possible: no call of the cluster goes beyond the console's
Roles and the objects it is for, and each endpoint tells of a failure in its own way (`console_bounded`); what is done
is what is answered, one for one (`effects_answered`). The archiver is fired by one conversation only (`fired_iff`).
-/

namespace EdgeCausal.Api

open Lib

/-! ## One call -/

section Calls
variable {P : Option (Call × CallReply) → Call → CallReply → Talk → Prop} {last : Option (Call × CallReply)} {c : Call}

theorem always_calling {next : Json.Value → Talk}
    (hok : ∀ body, P last c (.ok body) (next body) ∧ (next body).Always P (some (c, .ok body)))
    (hhttp : ∀ code text, P last c (.httpError code text) (.done (.error (.http code text))))
    (hfailed : ∀ msg, P last c (.failed msg) (.done (.error (.other msg)))) : (calling c next).Always P last := by
  rintro (body | ⟨code, text⟩ | msg)
  · exact hok body
  · exact ⟨hhttp code text, trivial⟩
  · exact ⟨hfailed msg, trivial⟩

theorem always_callingOr404 {next gone : Talk}
    (hok : ∀ body, P last c (.ok body) next ∧ next.Always P (some (c, .ok body)))
    (hgone : ∀ text, P last c (.httpError 404 text) gone ∧ gone.Always P (some (c, .httpError 404 text)))
    (hhttp : ∀ code text, P last c (.httpError code text) (.done (.error (.http code text))))
    (hfailed : ∀ msg, P last c (.failed msg) (.done (.error (.other msg)))) :
    (callingOr404 c next gone).Always P last := by
  rintro (body | ⟨code, text⟩ | msg)
  · exact hok body
  · by_cases hcode : code = 404
    · subst hcode
      exact hgone text
    · dsimp only
      rw [if_neg hcode]
      exact ⟨hhttp code text, trivial⟩
  · exact ⟨hfailed msg, trivial⟩

theorem within_calling {next : Json.Value → Talk} {n : ℕ} (h : ∀ body, (next body).Within n) :
    (calling c next).Within (n + 1) := by
  rintro (body | ⟨code, text⟩ | msg)
  · exact h body
  · exact Dialogue.within_done _ _
  · exact Dialogue.within_done _ _

theorem within_callingOr404 {next gone : Talk} {n : ℕ} (h : next.Within n) (hgone : gone.Within n) :
    (callingOr404 c next gone).Within (n + 1) := by
  rintro (body | ⟨code, text⟩ | msg)
  · exact h
  · dsimp only
    split
    · exact hgone
    · exact Dialogue.within_done _ _
  · exact Dialogue.within_done _ _

end Calls

/-! ## What a call may be -/

/-- The call is one a Role permits, and changes only what the console is for: it deletes the archiver's Job, creates
    it, and sets the leak flag. The flush does not go to the cluster, and no Role permits it. -/
def Call.Allowed : Call → Prop
  | .flush => False
  | .k8s method path body => Permitted method path ∧
      (method = .delete → path.ns = "factory-data" ∧ path.resource = "jobs" ∧ path.name = some jobName) ∧
      (method = .post → ∃ spec, body = some (.job jobName "factory-data" spec)) ∧
      (method = .patch → path.name = some "vision-qc" ∧ (body = some (.leak "true") ∨ body = some (.leak "false")))

/-- A Job that is created has the template of the CronJob that was read just before. -/
def Fresh (last : Option (Call × CallReply)) (q : Call) : Prop :=
  ∀ path name ns spec, q = .k8s .post path (some (.job name ns spec)) →
    ∃ cj, last = some (getCronJob, .ok cj) ∧ jobSpec cj = .ok spec

/-- What a request may do to the system. -/
inductive Change where
  | armed | fired | leaking | stopped

namespace Change

/-- The exchange has the effect. -/
def accepted (e : Change) (q : Call) (r : CallReply) : Bool :=
  match e, q, r with
  | .armed, .flush, .ok _ => true
  | .fired, .k8s .post _ _, .ok _ => true
  | .leaking, .k8s .patch _ (some (.leak "true")), .ok _ => true
  | .stopped, .k8s .patch _ (some (.leak "false")), .ok _ => true
  | _, _, _ => false

/-- How it is answered. -/
def status : Change → ScenarioStatus
  | .armed => ⟨"S1", "armed", none⟩
  | .fired => ⟨"S2", "fired", some jobName⟩
  | .leaking => ⟨"S5", "fired", none⟩
  | .stopped => ⟨"S5", "reset", none⟩

def reported {ε : Type} (e : Change) : Except ε ScenarioStatus → Bool
  | .ok st => st = e.status
  | .error _ => false

end Change

/-- The reply is to blame for the exception. -/
inductive Blames : Call → CallReply → Raised → Prop
  | http (q : Call) (code : ℕ) (text : String) : Blames q (.httpError code text) (.http code text)
  | failed (q : Call) (msg : String) : Blames q (.failed msg) (.other msg)
  | template {cj : Json.Value} {msg : String} (h : jobSpec cj = .error msg) : Blames getCronJob (.ok cj) (.other msg)

/-- What holds of every exchange of a request. -/
structure Careful (last : Option (Call × CallReply)) (q : Call) (r : CallReply) (d : Talk) : Prop where
  allowed : q = .flush ∨ q.Allowed
  fresh : Fresh last q
  settles : ∀ e : Change, e.accepted q r = d.answer?.any e.reported
  blames : ∀ x, d.answer? = some (.error x) → Blames q r x

/-! ## Requests -/

section Requests
variable {last : Option (Call × CallReply)} {c : Call}

theorem accepted_httpError (e : Change) (q : Call) (code : ℕ) (text : String) :
    e.accepted q (.httpError code text) = false := by
  unfold Change.accepted
  split <;> simp_all

theorem accepted_failed (e : Change) (q : Call) (msg : String) : e.accepted q (.failed msg) = false := by
  unfold Change.accepted
  split <;> simp_all

/-- A reply that ends the request is blamed, and has no effect. -/
theorem careful_httpError (hallowed : c = .flush ∨ c.Allowed) (hfresh : Fresh last c) (code : ℕ) (text : String) :
    Careful last c (.httpError code text) (.done (.error (.http code text))) := by
  refine ⟨hallowed, hfresh, fun e => accepted_httpError e c code text, ?_⟩
  rintro x ⟨⟩
  exact .http c code text

theorem careful_failed (hallowed : c = .flush ∨ c.Allowed) (hfresh : Fresh last c) (msg : String) :
    Careful last c (.failed msg) (.done (.error (.other msg))) := by
  refine ⟨hallowed, hfresh, fun e => accepted_failed e c msg, ?_⟩
  rintro x ⟨⟩
  exact .failed c msg

theorem careful_calling {next : Json.Value → Talk} (hallowed : c = .flush ∨ c.Allowed) (hfresh : Fresh last c)
    (hok : ∀ body, Careful last c (.ok body) (next body) ∧ (next body).Always Careful (some (c, .ok body))) :
    (calling c next).Always Careful last :=
  always_calling hok (careful_httpError hallowed hfresh) (careful_failed hallowed hfresh)

theorem careful_callingOr404 {next gone : Talk} (hallowed : c = .flush ∨ c.Allowed) (hfresh : Fresh last c)
    (hok : ∀ body, Careful last c (.ok body) next ∧ next.Always Careful (some (c, .ok body)))
    (hgone : ∀ text, Careful last c (.httpError 404 text) gone ∧
      gone.Always Careful (some (c, .httpError 404 text))) :
    (callingOr404 c next gone).Always Careful last :=
  always_callingOr404 hok hgone (careful_httpError hallowed hfresh) (careful_failed hallowed hfresh)

/-- A call that has no effect and is followed by another. -/
theorem careful_quiet {r : CallReply} {q : Call} {next : CallReply → Talk} (hallowed : c = .flush ∨ c.Allowed)
    (hfresh : Fresh last c) (hquiet : ∀ e : Change, e.accepted c r = false) : Careful last c r (.ask q next) :=
  ⟨hallowed, hfresh, hquiet, fun _ h => absurd h (by simp [Dialogue.answer?])⟩

/-- A call that is the last one, with its effect. -/
theorem careful_final {r : CallReply} {st : ScenarioStatus} (hallowed : c = .flush ∨ c.Allowed)
    (hfresh : Fresh last c)
    (heffect : ∀ e : Change, e.accepted c r = decide (st = e.status)) : Careful last c r (.done (.ok st)) :=
  ⟨hallowed, hfresh, heffect, fun _ h => absurd h (by simp [Dialogue.answer?])⟩

theorem fresh_of_ne_post {method : Method} {path : KubePath} {body : Option Body} (h : method ≠ .post) :
    Fresh last (.k8s method path body) := by
  intro path' name ns spec heq
  exact absurd (Call.k8s.inj heq).1 h

theorem deleteJob_allowed : deleteJob = .flush ∨ deleteJob.Allowed :=
  Or.inr ⟨by decide, fun _ => ⟨rfl, rfl, rfl⟩, fun h => absurd h (by decide), fun h => absurd h (by decide)⟩

theorem getJob_allowed : getJob = .flush ∨ getJob.Allowed :=
  Or.inr ⟨by decide, fun h => absurd h (by decide), fun h => absurd h (by decide), fun h => absurd h (by decide)⟩

theorem getCronJob_allowed : getCronJob = .flush ∨ getCronJob.Allowed :=
  Or.inr ⟨by decide, fun h => absurd h (by decide), fun h => absurd h (by decide), fun h => absurd h (by decide)⟩

theorem postJob_allowed (spec : Json.Value) : postJob spec = .flush ∨ (postJob spec).Allowed :=
  Or.inr ⟨by decide, fun h => absurd h (by decide), fun _ => ⟨spec, rfl⟩, fun h => absurd h (by decide)⟩

theorem patchLeak_allowed {value : String} (hvalue : value = "true" ∨ value = "false") :
    patchLeak value = .flush ∨ (patchLeak value).Allowed :=
  Or.inr ⟨by decide, fun h => absurd h (by decide), fun h => absurd h (by decide),
    fun _ => ⟨rfl, hvalue.imp (fun h => by rw [h]) fun h => by rw [h]⟩⟩

/-- Creating the Job from the template that was read. -/
theorem launch_careful : launch.Always Careful last := by
  have hfresh : Fresh last getCronJob := fresh_of_ne_post (by decide)
  refine careful_calling getCronJob_allowed hfresh ?_
  intro cj
  have hquiet : ∀ e : Change, e.accepted getCronJob (.ok cj) = false := fun e => by cases e <;> rfl
  cases hspec : jobSpec cj with
  | error msg =>
      dsimp only
      refine ⟨⟨getCronJob_allowed, hfresh, hquiet, ?_⟩, trivial⟩
      rintro x ⟨⟩
      exact .template hspec
  | ok spec =>
      dsimp only
      refine ⟨careful_quiet getCronJob_allowed hfresh hquiet, ?_⟩
      have hpost : Fresh (some (getCronJob, .ok cj)) (postJob spec) := by
        intro path name ns spec' heq
        obtain ⟨-, -, hbody⟩ := Call.k8s.inj heq
        obtain ⟨-, -, rfl⟩ := Body.job.inj (Option.some.inj hbody)
        exact ⟨cj, rfl, hspec⟩
      refine careful_calling (postJob_allowed spec) hpost fun body => ⟨?_, trivial⟩
      exact careful_final (postJob_allowed spec) hpost fun e => by cases e <;> rfl

theorem awaitGone_careful (n : ℕ) : (awaitGone n).Always Careful last := by
  induction n generalizing last with
  | zero => exact launch_careful
  | succ n ih =>
      have hfresh : Fresh last getJob := fresh_of_ne_post (by decide)
      refine careful_callingOr404 getJob_allowed hfresh (fun body => ⟨?_, ih⟩) fun text => ⟨?_, launch_careful⟩
      · have hquiet : ∀ e : Change, e.accepted getJob (.ok body) = false := fun e => by cases e <;> rfl
        cases n <;> exact careful_quiet getJob_allowed hfresh hquiet
      · exact careful_quiet getJob_allowed hfresh fun e => accepted_httpError e _ _ _

theorem triggerS2_careful : triggerS2.Always Careful none := by
  have hfresh : Fresh none deleteJob := fresh_of_ne_post (by decide)
  have hquiet : ∀ (e : Change) (body : Json.Value), e.accepted deleteJob (.ok body) = false :=
    fun e _ => by cases e <;> rfl
  refine careful_callingOr404 deleteJob_allowed hfresh (fun body => ⟨?_, awaitGone_careful _⟩)
    fun text => ⟨?_, awaitGone_careful _⟩
  · exact careful_quiet deleteJob_allowed hfresh fun e => hquiet e body
  · exact careful_quiet deleteJob_allowed hfresh fun e => accepted_httpError e _ _ _

theorem leak_careful {value : String} {st : ScenarioStatus}
    (h : (value = "true" ∧ st = ⟨"S5", "fired", none⟩) ∨ (value = "false" ∧ st = ⟨"S5", "reset", none⟩)) :
    (leak value st).Always Careful none := by
  have hallowed : patchLeak value = .flush ∨ (patchLeak value).Allowed := patchLeak_allowed (h.imp And.left And.left)
  have hfresh : Fresh none (patchLeak value) := fresh_of_ne_post (by decide)
  refine careful_calling hallowed hfresh fun body => ⟨careful_final hallowed hfresh ?_, trivial⟩
  rcases h with ⟨rfl, rfl⟩ | ⟨rfl, rfl⟩
  · exact fun e => by cases e <;> rfl
  · exact fun e => by cases e <;> rfl

end Requests

/-! ## All requests -/

/-- The calls of a request: the deletion, the looks, the template and the Job. -/
def callLimit : ℕ := polls + 3

theorem launch_within : launch.Within 2 := by
  refine within_calling fun cj => ?_
  cases jobSpec cj with
  | error msg => trivial
  | ok spec => exact within_calling fun _ => trivial

theorem awaitGone_within (n : ℕ) : (awaitGone n).Within (n + 2) := by
  induction n with
  | zero => exact launch_within
  | succ n ih => exact within_callingOr404 ih (launch_within.mono (by omega))

theorem triggerTalk_careful {sid : String} {talk : Talk} (h : triggerTalk sid = some talk) :
    talk.Always Careful none ∧ talk.Within callLimit := by
  have hfresh : Fresh none .flush := fun path name ns spec heq => absurd heq (by simp)
  unfold triggerTalk at h
  split at h
  · obtain rfl := Option.some.inj h
    refine ⟨careful_calling (Or.inl rfl) hfresh fun body => ⟨?_, trivial⟩, within_calling fun _ => trivial⟩
    exact careful_final (Or.inl rfl) hfresh fun e => by cases e <;> rfl
  split at h
  · obtain rfl := Option.some.inj h
    exact ⟨triggerS2_careful, within_callingOr404 (awaitGone_within polls) (awaitGone_within polls)⟩
  split at h
  · obtain rfl := Option.some.inj h
    exact ⟨leak_careful (Or.inl ⟨rfl, rfl⟩), within_calling fun _ => trivial⟩
  · exact absurd h (by simp)

theorem resetTalk_careful {sid : String} {talk : Talk} (h : resetTalk sid = some talk) :
    talk.Always Careful none ∧ talk.Within callLimit := by
  have hfresh : Fresh none deleteJob := fresh_of_ne_post (by decide)
  unfold resetTalk at h
  split at h
  · obtain rfl := Option.some.inj h
    refine ⟨careful_callingOr404 deleteJob_allowed hfresh (fun body => ⟨?_, trivial⟩) fun text => ⟨?_, trivial⟩,
      within_callingOr404 trivial trivial⟩
    · exact careful_final deleteJob_allowed hfresh fun e => by cases e <;> rfl
    · exact careful_final deleteJob_allowed hfresh fun e => by cases e <;> rfl
  split at h
  · obtain rfl := Option.some.inj h
    exact ⟨leak_careful (Or.inr ⟨rfl, rfl⟩), within_calling fun _ => trivial⟩
  split at h
  · obtain rfl := Option.some.inj h
    exact ⟨trivial, trivial⟩
  · exact absurd h (by simp)

section Clients
variable (upper : String → String)

/-- What the client of a request is told of an exception: the status and the text of an error, whichever the endpoint;
    of another failure the trigger passes the message on, the reset nothing. -/
def Tells (req : ConsoleEvent) (x : Raised) (ex : HTTPException) : Prop :=
  match req, x with
  | _, .http code text => ex = ⟨code, "k8s: " ++ shown text⟩
  | .trigger sid, .other msg => ex = ⟨503, upper sid ++ " trigger failed: " ++ msg⟩
  | .reset _, .other _ => ex = ⟨500, "Internal Server Error"⟩
  | .reply _ _, .other _ => False

/-- What the client is told when the scenario is not wired to the endpoint. -/
def Refuses (req : ConsoleEvent) (ex : HTTPException) : Prop :=
  match req with
  | .trigger sid => upper sid ∉ ["S1", "S2", "S5"] ∧ ex = ⟨501, upper sid ++ " is not triggerable via the API"⟩
  | .reset sid => upper sid ∉ ["S1", "S2", "S5"] ∧ ex = ⟨501, upper sid ++ " reset not wired"⟩
  | .reply _ _ => False

/-- What holds of every exchange of a request, as the client sees it. -/
structure Honest (req : ConsoleEvent) (last : Option (Call × CallReply)) (q : Call) (r : CallReply) (d : Served) :
    Prop where
  allowed : q = .flush ∨ q.Allowed
  fresh : Fresh last q
  settles : ∀ e : Change, Lib.Settles e.accepted e.reported last q r d
  tells : ∀ ex, d.answer? = some (.error ex) → ∃ x, Blames q r x ∧ Tells upper req x ex

/-- Where a request stands after its own exchanges. -/
structure UnderWay (req : ConsoleEvent) (l : List (Call × CallReply)) (d : Served) : Prop where
  ahead : d.Always (Honest upper req) l.getLast?
  within : ∃ k, d.Within k ∧ l.length + k ≤ callLimit
  told : ∀ ex, d.answer? = some (.error ex) → (l = [] ∧ Refuses upper req ex) ∨
    ∃ q r x, l.getLast? = some (q, r) ∧ Blames q r x ∧ Tells upper req x ex

variable {upper} {req : ConsoleEvent}

/-- An answer that passes results on and tells of exceptions is honest about a careful request. -/
theorem Careful.honest {answer : Except Raised ScenarioStatus → Except HTTPException ScenarioStatus}
    (hok : ∀ st, answer (.ok st) = .ok st)
    (herror : ∀ x, ∃ ex, answer (.error x) = .error ex ∧ Tells upper req x ex)
    {last : Option (Call × CallReply)} {q : Call} {r : CallReply} {d : Talk} (h : Careful last q r d) :
    Honest upper req last q r (d.map answer) := by
  refine ⟨h.allowed, h.fresh, ?_, ?_⟩
  · intro e
    show e.accepted q r = _
    rw [h.settles e, Dialogue.answer?_map, Option.any_map]
    congr 1
    funext out
    rcases out with x | st
    · obtain ⟨ex, hx, -⟩ := herror x
      show _ = e.reported (answer (.error x))
      rw [hx]
      rfl
    · show _ = e.reported (answer (.ok st))
      rw [hok]
      rfl
  · intro ex hex
    rw [Dialogue.answer?_map, Option.map_eq_some_iff] at hex
    obtain ⟨out, hout, heq⟩ := hex
    rcases out with x | st
    · obtain ⟨ex', hx, htells⟩ := herror x
      rw [hx] at heq
      obtain rfl := Except.error.inj heq
      exact ⟨x, h.blames x hout, htells⟩
    · rw [hok] at heq
      exact absurd heq (by simp)

theorem UnderWay.step {l : List (Call × CallReply)} {q : Call} {next : CallReply → Served}
    (h : UnderWay upper req l (.ask q next)) (r : CallReply) : UnderWay upper req (l ++ [(q, r)]) (next r) := by
  obtain ⟨hhonest, hahead⟩ := h.ahead.step r
  obtain ⟨k, hk, hle⟩ := h.within
  refine ⟨hahead, ?_, ?_⟩
  · cases k with
    | zero => exact hk.elim
    | succ k =>
        refine ⟨k, hk r, ?_⟩
        rw [List.length_append, List.length_singleton]
        omega
  · intro ex hex
    obtain ⟨x, hblames, htells⟩ := hhonest.tells ex hex
    exact Or.inr ⟨q, r, x, List.getLast?_concat, hblames, htells⟩

theorem underWay_map {answer : Except Raised ScenarioStatus → Except HTTPException ScenarioStatus}
    (hok : ∀ st, answer (.ok st) = .ok st)
    (herror : ∀ x, ∃ ex, answer (.error x) = .error ex ∧ Tells upper req x ex) {talk : Talk}
    (h : talk.Always Careful none ∧ talk.Within callLimit) (hnone : ∀ x, talk ≠ .done (.error x)) :
    UnderWay upper req [] (talk.map answer) := by
  refine ⟨?_, ⟨callLimit, Dialogue.within_map.mpr h.2, by simp⟩, ?_⟩
  · exact Dialogue.always_map.mpr (h.1.imp fun _ _ _ _ hcareful => hcareful.honest hok herror)
  · intro ex hex
    rw [Dialogue.answer?_map, Option.map_eq_some_iff] at hex
    obtain ⟨out, hout, heq⟩ := hex
    rcases out with x | st
    · cases talk with
      | done a => exact absurd (congrArg Dialogue.done (Option.some.inj hout)) (hnone x)
      | ask q next => exact absurd hout (by simp [Dialogue.answer?])
    · rw [hok] at heq
      exact absurd heq (by simp)

theorem trigger_underWay (upper : String → String) (sid : String) :
    UnderWay upper (.trigger sid) [] (trigger upper sid) := by
  unfold trigger
  split
  · rename_i hnone
    refine ⟨trivial, ⟨0, trivial, Nat.zero_le _⟩, ?_⟩
    rintro ex ⟨⟩
    refine Or.inl ⟨rfl, ?_, rfl⟩
    unfold triggerTalk at hnone
    split_ifs at hnone with h1 h2 h5
    simp [h1, h2, h5]
  · rename_i talk htalk
    refine underWay_map (fun _ => rfl) ?_ (triggerTalk_careful htalk) ?_
    · rintro (⟨code, text⟩ | msg)
      · exact ⟨_, rfl, rfl⟩
      · exact ⟨_, rfl, rfl⟩
    · rintro x rfl
      unfold triggerTalk at htalk
      split_ifs at htalk <;> exact absurd (Option.some.inj htalk) (by intro h; cases h)

theorem reset_underWay (upper : String → String) (sid : String) :
    UnderWay upper (.reset sid) [] (resetScenario upper sid) := by
  unfold resetScenario
  split
  · rename_i hnone
    refine ⟨trivial, ⟨0, trivial, Nat.zero_le _⟩, ?_⟩
    rintro ex ⟨⟩
    refine Or.inl ⟨rfl, ?_, rfl⟩
    unfold resetTalk at hnone
    split_ifs at hnone with h2 h5 h1
    simp [h1, h2, h5]
  · rename_i talk htalk
    refine underWay_map (fun _ => rfl) ?_ (resetTalk_careful htalk) ?_
    · rintro (⟨code, text⟩ | msg)
      · exact ⟨_, rfl, rfl⟩
      · exact ⟨_, rfl, rfl⟩
    · rintro x rfl
      unfold resetTalk at htalk
      split_ifs at htalk <;> exact absurd (Option.some.inj htalk) (by intro h; cases h)

end Clients

/-! ## The console -/

section Console
variable {upper : String → String} {events : List ConsoleEvent}

/-- The requests that came in, in order. -/
def requestsOf (events : List ConsoleEvent) : List ConsoleEvent :=
  events.filter fun
    | .reply _ _ => false
    | _ => true

theorem arrive_mem {d : Served} (h : .arrive d ∈ events.map (ConsoleEvent.move upper)) :
    ∃ sid, d = trigger upper sid ∨ d = resetScenario upper sid := by
  obtain ⟨event, -, hevent⟩ := List.mem_map.mp h
  cases event with
  | trigger sid => exact ⟨sid, Or.inl (Move.arrive.inj hevent).symm⟩
  | reset sid => exact ⟨sid, Or.inr (Move.arrive.inj hevent).symm⟩
  | reply i r => exact absurd hevent (by simp [ConsoleEvent.move])

theorem arrive_underWay {d : Served} (h : .arrive d ∈ events.map (ConsoleEvent.move upper)) :
    ∃ req, UnderWay upper req [] d := by
  obtain ⟨sid, rfl | rfl⟩ := arrive_mem h
  · exact ⟨.trigger sid, trigger_underWay upper sid⟩
  · exact ⟨.reset sid, reset_underWay upper sid⟩

/-- The dialogue that came in some place is that of the request that came in it. -/
theorem arrivals_underWay {i : ℕ} {d : Served} (h : (arrivals (events.map (ConsoleEvent.move upper)))[i]? = some d) :
    ∃ req, (requestsOf events)[i]? = some req ∧ UnderWay upper req [] d := by
  induction events generalizing i with
  | nil => exact absurd h (by simp [arrivals])
  | cons event events ih =>
      have hwired : ∀ {req d₀}, UnderWay upper req [] d₀ → (d₀ :: arrivals (events.map (ConsoleEvent.move upper)))[i]?
          = some d → ∃ req', (req :: requestsOf events)[i]? = some req' ∧ UnderWay upper req' [] d := by
        intro req d₀ hreq hi
        cases i with
        | zero => exact ⟨req, rfl, Option.some.inj hi ▸ hreq⟩
        | succ i => exact ih hi
      cases event with
      | trigger sid => exact hwired (trigger_underWay upper sid) h
      | reset sid => exact hwired (reset_underWay upper sid) h
      | reply j r => exact ih h

/-- Nothing is reported before a call is made. -/
theorem arrive_unreported {d : Served} (h : .arrive d ∈ events.map (ConsoleEvent.move upper)) (e : Change) :
    d.answer?.any e.reported = false := by
  obtain ⟨sid, rfl | rfl⟩ := arrive_mem h
  · unfold trigger
    split
    · rfl
    · rename_i talk htalk
      unfold triggerTalk at htalk
      split_ifs at htalk <;> obtain rfl := Option.some.inj htalk <;> rfl
  · unfold resetScenario
    split
    · rfl
    · rename_i talk htalk
      unfold resetTalk at htalk
      split_ifs at htalk <;> obtain rfl := Option.some.inj htalk
      · rfl
      · rfl
      · cases e <;> rfl

theorem console_standing : Standing (fun l d => ∃ req, UnderWay upper req l d) (console upper events).1
    (console upper events).2 :=
  interleaved_local (fun _ hd => arrive_underWay hd) fun _ _ _ r ⟨req, h⟩ => ⟨req, h.step r⟩

/-- Where the request in some place stands. -/
theorem console_underWay {i : ℕ} {d : Served} (h : (console upper events).1[i]? = some d) :
    ∃ req, (requestsOf events)[i]? = some req ∧ UnderWay upper req (own (console upper events).2 i) d := by
  obtain ⟨d₀, hd₀, hleaves⟩ := interleaved_origin _ h
  obtain ⟨req, hreq, hstart⟩ := arrivals_underWay hd₀
  exact ⟨req, hreq, hleaves.inv hstart fun _ _ _ r hl => hl.step r⟩

end Console

/-- **The console keeps to its Roles.** Whatever requests come in, in any order, at once or not, and whatever the
    cluster replies and when: every call but the flush of the cooling monitor is one a Role permits, and of these calls
    those that change something delete and create the archiver's Job and set the leak flag; a Job is created with the
    template that the same request read just before; no request makes more than 23 calls; and a request that fails
    either is of a scenario that is not wired and made no call, or tells, as its endpoint does, of the exception its
    last call is to blame for. -/
theorem console_bounded (upper : String → String) (events : List ConsoleEvent) :
    let requests := (console upper events).1
    let log := (console upper events).2
    (∀ e ∈ log, e.2.1 = .flush ∨ e.2.1.Allowed) ∧
    (∀ before e after, log = before ++ e :: after → Fresh (own before e.1).getLast? e.2.1) ∧
    (∀ i, (own log i).length ≤ 23) ∧
    ∀ i ex, requests[i]? = some (.done (.error ex)) → ∃ req, (requestsOf events)[i]? = some req ∧
      ((own log i = [] ∧ Refuses upper req ex) ∨
        ∃ q r x, (own log i).getLast? = some (q, r) ∧ Blames q r x ∧ Tells upper req x ex) := by
  intro requests log
  have hstanding : Standing (fun l d => ∃ req, UnderWay upper req l d) requests log := console_standing
  have hexchange : ∀ before e after, log = before ++ e :: after →
      (e.2.1 = .flush ∨ e.2.1.Allowed) ∧ Fresh (own before e.1).getLast? e.2.1 := by
    intro before e after hlog
    obtain ⟨next, req, hnext⟩ := hstanding.behind before e after hlog
    have hhonest := (hnext.ahead.step e.2.2).1
    exact ⟨hhonest.allowed, hhonest.fresh⟩
  refine ⟨?_, fun before e after hlog => (hexchange before e after hlog).2, ?_, ?_⟩
  · intro e he
    obtain ⟨before, after, hlog⟩ := List.append_of_mem he
    exact (hexchange before e after hlog).1
  · intro i
    cases hi : requests[i]? with
    | none =>
        have hlen : requests.length ≤ i := List.getElem?_eq_none_iff.mp hi
        rw [own_eq_nil fun e he => ((hstanding.known e he).trans_le hlen).ne]
        exact Nat.zero_le _
    | some d =>
        obtain ⟨req, hreq⟩ := hstanding.ahead i d hi
        obtain ⟨k, -, hle⟩ := hreq.within
        exact (Nat.le_add_right _ k).trans hle
  · intro i ex hi
    obtain ⟨req, hreq, hunderWay⟩ := console_underWay hi
    exact ⟨req, hreq, hunderWay.told ex rfl⟩

/-- **What is done is what is answered.** Over any run of the console, of each effect there were as many accepted calls
    as there are requests that were answered with it: none is reported that did not happen, and none happens twice for
    one request. A call whose reply is lost was not accepted as far as anyone here can tell, and is not counted. -/
theorem effects_answered (upper : String → String) (events : List ConsoleEvent) (e : Change) :
    ((console upper events).2.countP fun x => e.accepted x.2.1 x.2.2)
      = (console upper events).1.countP fun d => d.answer?.any e.reported := by
  refine interleaved_count fun d hd => ⟨?_, ?_⟩
  · obtain ⟨req, hreq⟩ := arrive_underWay hd
    exact hreq.ahead.imp fun _ _ _ _ h => h.settles e
  · exact arrive_unreported hd e

/-! ## The archiver's conversation -/

/-- The Job is gone, or will be. -/
def Deleted (r : CallReply) : Prop := (∃ body, r = .ok body) ∨ ∃ text, r = .httpError 404 text

/-- The old Job was looked for until it was gone, or as often as it is looked for. -/
def Cleared (n : ℕ) (seen : List Json.Value) (gone : List (Call × CallReply)) : Prop :=
  (seen.length = n ∧ gone = []) ∨ (seen.length < n ∧ ∃ text, gone = [(getJob, .httpError 404 text)])

section Conversation
variable {log : List (Call × CallReply)} {c : Call} {st : ScenarioStatus}

/-- A call that succeeds in the end came back with a document. -/
theorem run_calling_ok {next : Json.Value → Talk} : Dialogue.Run (calling c next) log (.ok st) ↔
    ∃ body rest, log = (c, .ok body) :: rest ∧ Dialogue.Run (next body) rest (.ok st) := by
  unfold calling
  rw [Dialogue.run_ask_iff]
  constructor
  · rintro ⟨body | ⟨code, text⟩ | msg, rest, rfl, h⟩
    · exact ⟨body, rest, rfl, h⟩
    · exact absurd (Dialogue.run_done_iff.mp h).2 (by simp)
    · exact absurd (Dialogue.run_done_iff.mp h).2 (by simp)
  · rintro ⟨body, rest, rfl, h⟩
    exact ⟨.ok body, rest, rfl, h⟩

theorem run_callingOr404_ok {next gone : Talk} : Dialogue.Run (callingOr404 c next gone) log (.ok st) ↔
    (∃ body rest, log = (c, .ok body) :: rest ∧ Dialogue.Run next rest (.ok st)) ∨
    ∃ text rest, log = (c, .httpError 404 text) :: rest ∧ Dialogue.Run gone rest (.ok st) := by
  unfold callingOr404
  rw [Dialogue.run_ask_iff]
  constructor
  · rintro ⟨body | ⟨code, text⟩ | msg, rest, rfl, h⟩
    · exact Or.inl ⟨body, rest, rfl, h⟩
    · dsimp only at h
      split at h
      · rename_i hcode
        subst hcode
        exact Or.inr ⟨text, rest, rfl, h⟩
      · exact absurd (Dialogue.run_done_iff.mp h).2 (by simp)
    · exact absurd (Dialogue.run_done_iff.mp h).2 (by simp)
  · rintro (⟨body, rest, rfl, h⟩ | ⟨text, rest, rfl, h⟩)
    · exact ⟨.ok body, rest, rfl, h⟩
    · exact ⟨.httpError 404 text, rest, rfl, h⟩

theorem run_launch_ok : Dialogue.Run launch log (.ok st) ↔ ∃ cj spec posted, jobSpec cj = .ok spec ∧
    log = [(getCronJob, .ok cj), (postJob spec, .ok posted)] ∧ st = fired := by
  unfold launch
  rw [run_calling_ok]
  constructor
  · rintro ⟨cj, rest, rfl, h⟩
    cases hspec : jobSpec cj with
    | error msg =>
        rw [hspec] at h
        exact absurd (Dialogue.run_done_iff.mp h).2 (by simp)
    | ok spec =>
        rw [hspec] at h
        obtain ⟨posted, rest, rfl, hdone⟩ := run_calling_ok.mp h
        obtain ⟨rfl, hst⟩ := Dialogue.run_done_iff.mp hdone
        exact ⟨cj, spec, posted, hspec, rfl, Except.ok.inj hst⟩
  · rintro ⟨cj, spec, posted, hspec, rfl, rfl⟩
    refine ⟨cj, _, rfl, ?_⟩
    rw [hspec]
    exact run_calling_ok.mpr ⟨posted, [], rfl, .done _⟩

/-- **Step.** Waiting is looking until the Job is gone, and then launching. -/
theorem run_awaitGone_ok (n : ℕ) : Dialogue.Run (awaitGone n) log (.ok st) ↔ ∃ seen gone rest,
    Cleared n seen gone ∧ log = seen.map (fun body => (getJob, .ok body)) ++ gone ++ rest ∧
      Dialogue.Run launch rest (.ok st) := by
  induction n generalizing log with
  | zero =>
      constructor
      · intro h
        exact ⟨[], [], log, Or.inl ⟨rfl, rfl⟩, rfl, h⟩
      · rintro ⟨seen, gone, rest, ⟨hseen, rfl⟩ | ⟨hseen, -⟩, rfl, h⟩
        · rw [List.length_eq_zero_iff.mp hseen]
          exact h
        · exact absurd hseen (Nat.not_lt_zero _)
  | succ n ih =>
      unfold awaitGone
      rw [run_callingOr404_ok]
      constructor
      · rintro (⟨body, rest, rfl, h⟩ | ⟨text, rest, rfl, h⟩)
        · obtain ⟨seen, gone, rest, hcleared, rfl, hlaunch⟩ := ih.mp h
          refine ⟨body :: seen, gone, rest, ?_, rfl, hlaunch⟩
          exact hcleared.imp (And.imp_left (by simp)) (And.imp_left (by simp))
        · exact ⟨[], _, rest, Or.inr ⟨Nat.succ_pos n, text, rfl⟩, rfl, h⟩
      · rintro ⟨seen, gone, rest, hcleared, rfl, h⟩
        cases seen with
        | nil =>
            obtain ⟨hseen, -⟩ | ⟨-, text, rfl⟩ := hcleared
            · exact absurd hseen (by simp)
            · exact Or.inr ⟨text, rest, rfl, h⟩
        | cons body seen =>
            refine Or.inl ⟨body, _, rfl, ih.mpr ⟨seen, gone, rest, ?_, rfl, h⟩⟩
            exact hcleared.imp (And.imp_left (by simp)) (And.imp_left (by simp))

theorem run_triggerS2_ok : Dialogue.Run triggerS2 log (.ok fired) ↔ ∃ deleted seen gone cj spec posted,
    Deleted deleted ∧ Cleared polls seen gone ∧ jobSpec cj = .ok spec ∧
      log = (deleteJob, deleted) :: (seen.map (fun body => (getJob, .ok body)) ++ gone ++
        [(getCronJob, .ok cj), (postJob spec, .ok posted)]) := by
  have hrest : ∀ rest, Dialogue.Run (awaitGone polls) rest (.ok fired) ↔ ∃ seen gone cj spec posted,
      Cleared polls seen gone ∧ jobSpec cj = .ok spec ∧
        rest = seen.map (fun body => (getJob, .ok body)) ++ gone ++
          [(getCronJob, .ok cj), (postJob spec, .ok posted)] := by
    intro rest
    rw [run_awaitGone_ok]
    constructor
    · rintro ⟨seen, gone, last, hcleared, rfl, hlaunch⟩
      obtain ⟨cj, spec, posted, hspec, rfl, -⟩ := run_launch_ok.mp hlaunch
      exact ⟨seen, gone, cj, spec, posted, hcleared, hspec, rfl⟩
    · rintro ⟨seen, gone, cj, spec, posted, hcleared, hspec, rfl⟩
      exact ⟨seen, gone, _, hcleared, rfl, run_launch_ok.mpr ⟨cj, spec, posted, hspec, rfl, rfl⟩⟩
  unfold triggerS2
  rw [run_callingOr404_ok]
  constructor
  · rintro (⟨body, rest, rfl, h⟩ | ⟨text, rest, rfl, h⟩)
    · obtain ⟨seen, gone, cj, spec, posted, hcleared, hspec, rfl⟩ := (hrest rest).mp h
      exact ⟨_, seen, gone, cj, spec, posted, Or.inl ⟨body, rfl⟩, hcleared, hspec, rfl⟩
    · obtain ⟨seen, gone, cj, spec, posted, hcleared, hspec, rfl⟩ := (hrest rest).mp h
      exact ⟨_, seen, gone, cj, spec, posted, Or.inr ⟨text, rfl⟩, hcleared, hspec, rfl⟩
  · rintro ⟨deleted, seen, gone, cj, spec, posted, ⟨body, rfl⟩ | ⟨text, rfl⟩, hcleared, hspec, rfl⟩
    · exact Or.inl ⟨body, _, rfl, (hrest _).mpr ⟨seen, gone, cj, spec, posted, hcleared, hspec, rfl⟩⟩
    · exact Or.inr ⟨text, _, rfl, (hrest _).mpr ⟨seen, gone, cj, spec, posted, hcleared, hspec, rfl⟩⟩

end Conversation

/-- The pods of the Job belong to the archiver. -/
theorem workload_job {hash : String} (h : '-' ∉ hash.toList) : workload (jobName ++ "-" ++ hash) = "log-archiver" := by
  have htext : (jobName ++ "-" ++ hash).toList
      = List.intercalate ['-'] ["log".toList, "archiver".toList, "s2".toList, hash.toList] := by
    simp [jobName, List.intercalate]
  have hparts : (jobName ++ "-" ++ hash).toList.splitOn '-'
      = ["log".toList, "archiver".toList, "s2".toList, hash.toList] := by
    rw [htext, List.splitOn_intercalate]
    · simp [h]
    · simp
  unfold workload stableWorkload
  rw [hparts]
  show String.ofList (List.intercalate ['-'] ["log".toList, "archiver".toList]) = "log-archiver"
  decide

/-- **The archiver is fired by one conversation only**: the old Job is deleted or was not there; it is seen until it
    is gone, or 20 times; the CronJob is read; and a Job with its template is created. Whatever hash its pods get, the
    archiver is their workload. -/
theorem fired_iff (upper : String → String) (sid : String) (log : List (Call × CallReply)) :
    (Dialogue.Run (trigger upper sid) log (.ok fired) ↔ upper sid = "S2" ∧ ∃ deleted seen gone cj spec posted,
      Deleted deleted ∧ Cleared 20 seen gone ∧ jobSpec cj = .ok spec ∧
      log = (deleteJob, deleted) :: (seen.map (fun body => (getJob, .ok body)) ++ gone ++
        [(getCronJob, .ok cj), (postJob spec, .ok posted)])) ∧
    ∀ hash : String, '-' ∉ hash.toList → workload (jobName ++ "-" ++ hash) = "log-archiver" := by
  refine ⟨?_, fun hash => workload_job⟩
  have hanswer : ∀ out, triggerAnswer (upper sid) out = .ok fired ↔ out = .ok fired := by
    rintro ((⟨code, text⟩ | msg) | st)
    · simp [triggerAnswer]
    · simp [triggerAnswer]
    · simp [triggerAnswer]
  have hother : ∀ {call st}, fired ≠ st → ¬ Dialogue.Run ((calling call fun _ => .done (.ok st)).map
      (triggerAnswer (upper sid))) log (.ok fired) := by
    intro call st hst h
    obtain ⟨out, hrun, hout⟩ := Dialogue.run_map_iff.mp h
    rw [(hanswer out).mp hout] at hrun
    obtain ⟨body, rest, -, hdone⟩ := run_calling_ok.mp hrun
    exact hst (Except.ok.inj (Dialogue.run_done_iff.mp hdone).2)
  unfold trigger triggerTalk
  by_cases h1 : upper sid = "S1"
  · rw [if_pos h1]
    exact iff_of_false (hother (by decide)) fun h => absurd (h1.symm.trans h.1) (by decide)
  by_cases h2 : upper sid = "S2"
  · rw [if_neg h1, if_pos h2]
    dsimp only
    rw [Dialogue.run_map_iff]
    simp only [hanswer, exists_eq_right, run_triggerS2_ok]
    exact (and_iff_right h2).symm
  by_cases h5 : upper sid = "S5"
  · rw [if_neg h1, if_neg h2, if_pos h5]
    exact iff_of_false (hother (by decide)) fun h => h2 h.1
  · rw [if_neg h1, if_neg h2, if_neg h5]
    exact iff_of_false (fun h => absurd (Dialogue.run_done_iff.mp h).2 (by simp)) fun h => h2 h.1

end EdgeCausal.Api
