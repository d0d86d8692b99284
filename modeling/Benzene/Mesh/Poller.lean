import Benzene.Data.JsonText
import Benzene.Data.Transition
import Benzene.Mesh.Graph

namespace Benzene.Mesh

open Benzene.Data

section Sources

-- What a GET ends with: an error of the fetch, or a status and a body.
abbrev HttpReply := Except PyError (Int × Str)

structure HttpServiceSource where
  name : Str
  base : Str
  pathPrefix : Str
  fetch : Str → HttpReply

-- What is done with an error of a sweep's own.
def pollError (message : Str) : PyError := ⟨.exception "PollError", message⟩

-- `base_url.rstrip("/")`.
def stripSlashes (url : Str) : Str := (url.reverse.dropWhile fun c => c = CodePoint.ofChar '/').reverse

namespace HttpServiceSource

def new (name baseUrl : Str) (fetch : Str → HttpReply) : HttpServiceSource :=
  ⟨name, stripSlashes baseUrl, "/benzene", fetch⟩

variable (source : HttpServiceSource)

def specUrl : Str := source.base ++ source.pathPrefix ++ ("/spec" : Str)

def healthUrl : Str := source.base ++ source.pathPrefix ++ ("/health" : Str)

-- The status is read by nothing but the error text.
def getJson (url : Str) : Except PyError Fields := do
  let (status, body) ← source.fetch url
  match if body = [] then some (.obj []) else Json.loads body with
  | none => .error (pollError (url ++ (" returned a non-JSON body (status " : Str) ++ Str.ofInt status ++
      (")" : Str)))
  | some (.obj fields) => .ok fields
  | some parsed => .error (pollError (url ++ (" returned " : Str) ++ parsed.typeName ++
      (", expected an object" : Str)))

def fetchSpec : Except PyError Fields := source.getJson source.specUrl

def fetchHealth : Except PyError Fields := source.getJson source.healthUrl

end HttpServiceSource

end Sources

section Polling

structure PollResult where
  service : Str
  ok : Bool
  error : Option Str
deriving DecidableEq

def Collector.post [UnicodeData] (post : Post) : Py CollectorError Collector Nat :=
  fun collector => collector.ingest post

namespace HttpServiceSource

variable (source : HttpServiceSource)

-- `except Exception`: a source that cannot be read is recorded.
def unread (error : PyError) : Except CollectorError PollResult :=
  if error.isException then .ok ⟨source.name, false, some error.message⟩ else .error (.raised error)

def heartbeat [UnicodeData] (service : Str) (spec health : Fields) : Fields :=
  [Json.field "service" (.str service), Json.field "instanceId" (.str source.name),
    Json.field "health" (.obj health)] ++
  Json.optionalField "registrationHash" (specRegistrationHash spec) ++
  Json.optionalField "serviceVersion" (specServiceVersion spec)

-- The document a service serves is the body it would register.
def ingestPolled [UnicodeData] (spec health : Fields) : Py CollectorError Collector PollResult := do
  let service := specService spec source.name
  let _ ← Collector.post ⟨.register, Entries.set ("service" : Str) (.str service) spec⟩
  let _ ← Collector.post ⟨.heartbeat, source.heartbeat service spec health⟩
  return ⟨service, true, none⟩

end HttpServiceSource

-- Where one `_poll` stands. It gives way at its two fetches only.
inductive Task
  | fetchingSpec
  | fetchingHealth (spec : Fields)
  | ended (outcome : Except CollectorError PollResult)

def Task.isEnded : Task → Bool
  | .ended _ => true
  | _ => false

variable [UnicodeData]

-- A task runs to its next fetch, or to its end.
def Task.resume (source : HttpServiceSource) (task : Task) (collector : Collector) :
    Option (Task × Collector) :=
  match task with
  | .fetchingSpec =>
      match source.fetchSpec with
      | .ok spec => some (.fetchingHealth spec, collector)
      | .error error => some (.ended (source.unread error), collector)
  | .fetchingHealth spec =>
      match source.fetchHealth with
      | .ok health =>
          let (outcome, collector') := source.ingestPolled spec health collector
          some (.ended outcome, collector')
      | .error error => some (.ended (source.unread error), collector)
  | .ended _ => none

-- One `poll_once`: the tasks stand in the order of their sources.
structure Sweep where
  collector : Collector
  tasks : List Task

def Sweep.start (sources : List HttpServiceSource) (collector : Collector) : Sweep :=
  ⟨collector, sources.map fun _ => .fetchingSpec⟩

-- The reply that task `i` waits for has come.
def Sweep.step (sources : List HttpServiceSource) (sweep : Sweep) (i : Nat) : Option Sweep := do
  let source ← sources[i]?
  let task ← sweep.tasks[i]?
  let (task', collector') ← task.resume source sweep.collector
  return ⟨collector', sweep.tasks.set i task'⟩

-- The sweeps any order of the replies leads to.
def Sweeps (sources : List HttpServiceSource) (collector : Collector) : Sweep → Prop :=
  Transition.Reaches (Sweep.step sources) (fun _ _ => True) (Sweep.start sources collector)

def Sweep.Finished (sweep : Sweep) : Prop := ∀ task ∈ sweep.tasks, task.isEnded = true

end Polling

section Specification

variable [UnicodeData]

namespace HttpServiceSource

variable (source : HttpServiceSource)

-- What the spec request answers with: a JSON object under no error status.
def document : Option Fields :=
  match source.fetch source.specUrl with
  | .ok (status, body) =>
      if status < 400 then
        match Json.loads body with
        | some (.obj fields) => some fields
        | _ => none
      else none
  | .error _ => none

def service : Str :=
  match source.document with
  | some document => specService document source.name
  | none => source.name

-- The source is read for what it is: its fetches raise nothing that `except
-- Exception` lets through, and what is ingested is a document that names a service.
def Reads : Prop :=
  (∀ error, source.fetchSpec = .error error → error.isException) ∧
    ∀ spec, source.fetchSpec = .ok spec →
      (∀ error, source.fetchHealth = .error error → error.isException) ∧
        ∀ health, source.fetchHealth = .ok health → source.document.isSome ∧ source.service ≠ []

end HttpServiceSource

-- Nothing the collector holds about the service has changed.
structure Unchanged (name : Str) (c c' : Catalog) : Prop where
  record : c'.services.get? name = c.services.get? name
  events : c'.events = c.events
  spanOwner : c'.spanOwner = c.spanOwner
  issues : c'.issues = c.issues

-- The service's registration and heartbeat are those of `alone`.
structure CollectedAs (name : Str) (alone c' : Catalog) : Prop where
  record : c'.services.get? name = alone.services.get? name
  topics : alone.topics ⊆ c'.topics
  everConsumed : alone.everConsumed ⊆ c'.everConsumed

-- What a sweep owes to one source.
structure Served (collector : Collector) (source : HttpServiceSource) (result : PollResult)
    (swept : Collector) : Prop where
  failed : source.document = none →
    result.ok = false ∧ Unchanged source.service collector.catalog swept.catalog
  collected : source.document.isSome → ∀ alone, Sweeps [source] collector alone → alone.Finished →
    CollectedAs source.service alone.collector.catalog swept.catalog

-- In whichever order the replies come, the sweep ends without an error and
-- with one result for each source, in order.
structure Undamaged (sources : List HttpServiceSource) (collector : Collector) : Prop where
  ends : ∀ sweep, Sweeps sources collector sweep →
    ∃ later, Transition.Reaches (Sweep.step sources) (fun _ _ => True) sweep later ∧ later.Finished
  bounded : ∀ replies sweep,
    Transition.run (Sweep.step sources) (Sweep.start sources collector) replies = some sweep →
      replies.length ≤ 2 * sources.length
  results : ∀ sweep, Sweeps sources collector sweep → sweep.Finished → ∃ results : List PollResult,
    sweep.tasks = results.map (fun result => .ended (.ok result)) ∧
      List.Forall₂ (fun source result => Served collector source result sweep.collector) sources results

end Specification

section Collecting

-- What a heartbeat with a health report leaves of its instance.
def reportedInstance [UnicodeData] (body health : Fields) : Instance :=
  let version := Json.getField body "serviceVersion"
  { healthy := (Json.getField health "isHealthy").truthy
    registrationHash := Json.getField body "registrationHash"
    serviceVersion := if version.truthy then some version.text else none
    healthChecks := asObject (Json.getField health "healthChecks") }

def Service.reporting [UnicodeData] (record : Service) (body health : Fields) : Service :=
  { record with
    instances := record.instances.set (textField body "instanceId") (reportedInstance body health) }

variable [UnicodeData]

theorem ingestHeartbeat_report {body health : Fields} {name : Str}
    (hname : require body "service" = .ok name) (hhealth : Json.getField body "health" = .obj health)
    (c : Catalog) :
    ∃ c', ingestHeartbeat body c = (.ok 1, c') ∧
      (∀ other, c'.services.get? other =
        if name = other then some ((c.serviceOrNew name).reporting body health)
        else c.services.get? other) ∧
      { c' with services := c.services } = c := by
  have hreport : Json.orElse (Json.getField body "health") (.obj []) = .obj health := by
    rw [hhealth]
    cases health <;> rfl
  unfold ingestHeartbeat service updateService
  rw [hname, Py.lift_ok_bind, Py.bind_ok (Py.modify_apply _ _), hreport]
  simp only [Json.get, raises, Except.mapError, Py.lift_ok_bind]
  rw [Py.bind_ok (Py.modify_apply _ _)]
  refine ⟨_, rfl, fun other => ?_, ?_⟩
  · simp only [Catalog.setService, Dict.get?_set]
    split
    · simp [Catalog.serviceOrNew, Service.reporting, reportedInstance]
    · rfl
  · rfl

variable (source : HttpServiceSource)

namespace HttpServiceSource

-- The registration body of a polled document.
def registration (spec : Fields) : Fields :=
  Entries.set ("service" : Str) (.str (specService spec source.name)) spec

-- The record of a polled service.
def polledRecord (spec health : Fields) (record : Service) : Service :=
  (record.registering (source.registration spec)).reporting
    (source.heartbeat (specService spec source.name) spec health) health

end HttpServiceSource

-- What polling a document leaves of the catalog.
structure Polled (spec health : Fields) (c c' : Catalog) : Prop where
  records : ∀ other, c'.services.get? other =
    if specService spec source.name = other
    then some (source.polledRecord spec health (c.serviceOrNew (specService spec source.name)))
    else c.services.get? other
  topics : c'.topics = c.topics ∪ (specTopicIds (source.registration spec) [.requests]).toFinset ∪
    (specTopicIds (source.registration spec) [.events, .sends]).toFinset
  everConsumed : c'.everConsumed =
    c.everConsumed ∪ (specTopicIds (source.registration spec) [.requests]).toFinset
  events : c'.events = c.events
  spanOwner : c'.spanOwner = c.spanOwner
  issues : c'.issues = c.issues

-- The refusal of a registration that names no service.
def unnamed : CollectorError := .badRequest (Str.repr "service" ++ (" is required" : Str))

theorem ingestPolled_unnamed {spec : Fields} (h : specService spec source.name = []) (health : Fields)
    (collector : Collector) :
    source.ingestPolled spec health collector = (.error unnamed, collector) := by
  have hrequire : require (source.registration spec) "service" = .error unnamed := by
    simp [require, HttpServiceSource.registration, h, Json.getField, Json.truthy, unnamed]
  have hpost : Collector.post ⟨.register, source.registration spec⟩ collector =
      (.error unnamed, collector) := by
    simp [Collector.post, Collector.ingest, Feed.ingest, ingestRegister_apply, hrequire]
  exact Py.bind_error hpost

theorem ingestPolled_named {spec : Fields} (h : specService spec source.name ≠ []) (health : Fields)
    (collector : Collector) :
    ∃ collector', source.ingestPolled spec health collector =
        (.ok ⟨specService spec source.name, true, none⟩, collector') ∧
      Polled source spec health collector.catalog collector'.catalog := by
  have hrequire : require (source.registration spec) "service" = .ok (specService spec source.name) := by
    simp [require, HttpServiceSource.registration, h, Json.getField, Json.truthy, Json.text]
  have hname : require (source.heartbeat (specService spec source.name) spec health) "service" =
      .ok (specService spec source.name) := by
    simp [require, HttpServiceSource.heartbeat, h, Json.getField, Json.field, Json.truthy, Json.text]
  have hhealth : Json.getField (source.heartbeat (specService spec source.name) spec health) "health" =
      .obj health := by
    simp [HttpServiceSource.heartbeat, Json.getField, Json.field]
  let registered := collector.catalog.register (specService spec source.name) (source.registration spec)
  obtain ⟨c', hbeat, hrecords, hkept⟩ := ingestHeartbeat_report hname hhealth registered
  have hregister : Collector.post ⟨.register, source.registration spec⟩ collector =
      (.ok 1, ⟨registered, some registered.snapshot⟩) := by
    simp [Collector.post, Collector.ingest, Feed.ingest, ingestRegister_apply, hrequire, registered]
  have hheartbeat : Collector.post
      ⟨.heartbeat, source.heartbeat (specService spec source.name) spec health⟩
        ⟨registered, some registered.snapshot⟩ = (.ok 1, ⟨c', some c'.snapshot⟩) := by
    simp [Collector.post, Collector.ingest, Feed.ingest, hbeat]
  have hrun : source.ingestPolled spec health collector =
      (.ok ⟨specService spec source.name, true, none⟩, ⟨c', some c'.snapshot⟩) := by
    show (Collector.post ⟨.register, source.registration spec⟩ >>= fun _ => _) collector = _
    rw [Py.bind_ok hregister, Py.bind_ok hheartbeat]
    rfl
  have hfields := congrArg (fun c : Catalog => (c.topics, c.everConsumed, c.events, c.spanOwner, c.issues)) hkept
  simp only [Prod.mk.injEq] at hfields
  obtain ⟨htopics, hever, hevents, howner, hissues⟩ := hfields
  refine ⟨_, hrun, ?_, htopics, hever, hevents, howner, hissues⟩
  intro other
  rw [hrecords, serviceOrNew_register, if_pos rfl]
  split
  · rfl
  · rename_i hother
    simp [registered, Catalog.register, Catalog.setService, Dict.get?_set, hother]

end Collecting

section Tasks

variable [UnicodeData]

namespace HttpServiceSource

variable (source : HttpServiceSource)

-- What the poll of a source ends with, and what it does to the collector.
def outcome : Except CollectorError PollResult :=
  match source.fetchSpec, source.fetchHealth with
  | .error error, _ => source.unread error
  | .ok _, .error error => source.unread error
  | .ok spec, .ok _ =>
      if specService spec source.name = [] then .error unnamed
      else .ok ⟨specService spec source.name, true, none⟩

def collect (collector : Collector) : Collector :=
  match source.fetchSpec, source.fetchHealth with
  | .ok spec, .ok health => (source.ingestPolled spec health collector).2
  | _, _ => collector

-- What a task has seen of its source.
def Runs : Task → Prop
  | .fetchingSpec => True
  | .fetchingHealth spec => source.fetchSpec = .ok spec
  | .ended outcome => outcome = source.outcome

end HttpServiceSource

def Task.work : Task → Nat
  | .fetchingSpec => 2
  | .fetchingHealth _ => 1
  | .ended _ => 0

-- All that one resumption does: the collector changes where the task ends.
theorem resume_spec {source : HttpServiceSource} {task : Task} (htask : source.Runs task)
    (hrunning : task.isEnded = false) (collector : Collector) :
    ∃ task', source.Runs task' ∧ task'.work + 1 ≤ task.work ∧
      task.resume source collector =
        some (task', if task'.isEnded then source.collect collector else collector) := by
  cases task with
  | ended outcome => cases hrunning
  | fetchingSpec =>
      cases hspec : source.fetchSpec with
      | ok spec =>
          refine ⟨.fetchingHealth spec, hspec, by simp [Task.work], ?_⟩
          simp [Task.resume, hspec, Task.isEnded]
      | error error =>
          refine ⟨.ended (source.unread error), ?_, by simp [Task.work], ?_⟩
          · simp [HttpServiceSource.Runs, HttpServiceSource.outcome, hspec]
          · simp [Task.resume, hspec, Task.isEnded, HttpServiceSource.collect]
  | fetchingHealth spec =>
      have hspec : source.fetchSpec = .ok spec := htask
      cases hhealth : source.fetchHealth with
      | error error =>
          refine ⟨.ended (source.unread error), ?_, by simp [Task.work], ?_⟩
          · simp [HttpServiceSource.Runs, HttpServiceSource.outcome, hspec, hhealth]
          · simp [Task.resume, hhealth, Task.isEnded, HttpServiceSource.collect, hspec]
      | ok health =>
          refine ⟨.ended source.outcome, rfl, by simp [Task.work], ?_⟩
          have hrun : source.ingestPolled spec health collector =
              (source.outcome, source.collect collector) := by
            refine Prod.ext ?_ (by simp [HttpServiceSource.collect, hspec, hhealth])
            by_cases hname : specService spec source.name = []
            · rw [ingestPolled_unnamed source hname]
              simp [HttpServiceSource.outcome, hspec, hhealth, hname]
            · obtain ⟨collector', hok, -⟩ := ingestPolled_named source hname health collector
              rw [hok]
              simp [HttpServiceSource.outcome, hspec, hhealth, hname]
          simp [Task.resume, hhealth, hrun, Task.isEnded]

-- The sources whose tasks have ended.
def endedSources : List HttpServiceSource → List Task → List HttpServiceSource
  | source :: sources, task :: tasks =>
      if task.isEnded then source :: endedSources sources tasks else endedSources sources tasks
  | _, _ => []

-- A sweep has collected the sources of its ended tasks, one after another.
structure Collecting (sources : List HttpServiceSource) (collector : Collector) (sweep : Sweep) :
    Prop where
  tasks : List.Forall₂ HttpServiceSource.Runs sources sweep.tasks
  order : ∃ order : List HttpServiceSource, order.Perm (endedSources sources sweep.tasks) ∧
    sweep.collector = order.foldl (fun collector source => source.collect collector) collector

-- One task of many runs on.
theorem resumed_set {sources : List HttpServiceSource} {tasks : List Task}
    (h : List.Forall₂ HttpServiceSource.Runs sources tasks) {i : Nat} {source : HttpServiceSource}
    {task task' : Task} (hsource : sources[i]? = some source) (htask : tasks[i]? = some task)
    (hrunning : task.isEnded = false) (hruns : source.Runs task') (hwork : task'.work + 1 ≤ task.work) :
    List.Forall₂ HttpServiceSource.Runs sources (tasks.set i task') ∧
      ((tasks.set i task').map Task.work).sum + 1 ≤ (tasks.map Task.work).sum ∧
      (endedSources sources (tasks.set i task')).Perm
        (endedSources sources tasks ++ if task'.isEnded then [source] else []) := by
  induction h generalizing i with
  | nil => simp at hsource
  | @cons s t ss ts hst hrest ih =>
      cases i with
      | zero =>
          cases hsource
          cases htask
          refine ⟨.cons hruns hrest, ?_, ?_⟩
          · simp only [List.set_cons_zero, List.map_cons, List.sum_cons]
            omega
          · simp only [List.set_cons_zero, endedSources, hrunning, Bool.false_eq_true, if_false]
            split
            · exact (List.perm_append_singleton source _).symm
            · rw [List.append_nil]
      | succ i =>
          obtain ⟨hall, hsum, hperm⟩ := ih hsource htask
          refine ⟨.cons hst hall, ?_, ?_⟩
          · simp only [List.set_cons_succ, List.map_cons, List.sum_cons]
            omega
          · simp only [List.set_cons_succ, endedSources]
            split
            · exact hperm.cons s
            · exact hperm

variable {sources : List HttpServiceSource} {collector : Collector} {sweep later : Sweep}

def Sweep.work (sweep : Sweep) : Nat := (sweep.tasks.map Task.work).sum

-- A reply is taken where a task waits for it, and moves the sweep on.
theorem step_of_running (h : Collecting sources collector sweep) {i : Nat} {source : HttpServiceSource}
    {task : Task} (hsource : sources[i]? = some source) (htask : sweep.tasks[i]? = some task)
    (hrunning : task.isEnded = false) :
    ∃ later, sweep.step sources i = some later ∧ later.work + 1 ≤ sweep.work ∧
      Collecting sources collector later := by
  have hruns : source.Runs task := by
    obtain ⟨hlength, hall⟩ := List.forall₂_iff_get.mp h.tasks
    obtain ⟨hi, rfl⟩ := List.getElem?_eq_some_iff.mp hsource
    obtain ⟨hi', rfl⟩ := List.getElem?_eq_some_iff.mp htask
    exact hall i hi hi'
  obtain ⟨task', hruns', hwork, hresume⟩ := resume_spec hruns hrunning sweep.collector
  obtain ⟨htasks, hsum, hended⟩ := resumed_set h.tasks hsource htask hrunning hruns' hwork
  obtain ⟨order, hperm, hcollector⟩ := h.order
  refine ⟨⟨if task'.isEnded then source.collect sweep.collector else sweep.collector,
    sweep.tasks.set i task'⟩, ?_, hsum, htasks, ?_⟩
  · simp only [Sweep.step, hsource, htask, hresume, bind, Option.bind, pure]
  · cases hend : task'.isEnded with
    | true =>
        rw [hend, if_pos rfl] at hended
        refine ⟨order ++ [source], (hperm.append_right [source]).trans hended.symm, ?_⟩
        simp [List.foldl_append, hcollector]
    | false =>
        rw [hend, if_neg Bool.false_ne_true, List.append_nil] at hended
        exact ⟨order, hperm.trans hended.symm, by simpa using hcollector⟩

theorem step_some {i : Nat} (h : sweep.step sources i = some later) :
    ∃ source task, sources[i]? = some source ∧ sweep.tasks[i]? = some task ∧ task.isEnded = false := by
  unfold Sweep.step at h
  cases hsource : sources[i]? with
  | none => simp [hsource] at h
  | some source =>
      cases htask : sweep.tasks[i]? with
      | none => simp [hsource, htask] at h
      | some task =>
          refine ⟨source, task, rfl, rfl, ?_⟩
          cases task with
          | ended outcome => simp [hsource, htask, Task.resume] at h
          | _ => rfl

theorem collecting_step (h : Collecting sources collector sweep) {i : Nat}
    (hstep : sweep.step sources i = some later) :
    Collecting sources collector later ∧ later.work + 1 ≤ sweep.work := by
  obtain ⟨source, task, hsource, htask, hrunning⟩ := step_some hstep
  obtain ⟨next, hnext, hwork, hcollecting⟩ := step_of_running h hsource htask hrunning
  rw [hstep] at hnext
  cases hnext
  exact ⟨hcollecting, hwork⟩

theorem collecting_start (sources : List HttpServiceSource) (collector : Collector) :
    Collecting sources collector (Sweep.start sources collector) where
  tasks := by
    unfold Sweep.start
    induction sources with
    | nil => exact .nil
    | cons source rest ih => exact .cons trivial ih
  order := by
    refine ⟨[], ?_, rfl⟩
    unfold Sweep.start
    induction sources with
    | nil => exact .nil
    | cons source rest ih => simpa [endedSources, Task.isEnded] using ih

theorem collecting_of_sweeps (h : Sweeps sources collector sweep) :
    Collecting sources collector sweep :=
  Transition.Reaches.invariant h (collecting_start sources collector) fun _ _ _ hinv _ hstep =>
    (collecting_step hinv hstep).1

-- Some reply is awaited until the sweep has finished.
theorem sweep_ends (h : Collecting sources collector sweep) :
    ∃ later, Transition.Reaches (Sweep.step sources) (fun _ _ => True) sweep later ∧ later.Finished := by
  induction hwork : sweep.work using Nat.strong_induction_on generalizing sweep with
  | h work ih =>
      by_cases hfinished : sweep.Finished
      · exact ⟨sweep, .refl, hfinished⟩
      · simp only [Sweep.Finished, not_forall] at hfinished
        obtain ⟨task, hmem, hrunning⟩ := hfinished
        obtain ⟨i, hi, htask⟩ := List.getElem_of_mem hmem
        have hlength := h.tasks.length_eq
        have hsource : sources[i]? = some sources[i] := List.getElem?_eq_getElem (by omega)
        obtain ⟨next, hstep, hless, hcollecting⟩ := step_of_running h hsource
          (List.getElem?_eq_some_iff.mpr ⟨hi, htask⟩) (by simpa using hrunning)
        obtain ⟨later, hreach, hlater⟩ := ih next.work (by omega) hcollecting rfl
        exact ⟨later, (Transition.Reaches.next .refl trivial hstep).trans hreach, hlater⟩

theorem replies_bounded (h : Collecting sources collector sweep) {replies : List Nat}
    (hrun : Transition.run (Sweep.step sources) sweep replies = some later) :
    later.work + replies.length ≤ sweep.work := by
  induction replies generalizing sweep with
  | nil =>
      cases hrun
      simp
  | cons i rest ih =>
      obtain ⟨next, hstep, hrest⟩ := Option.bind_eq_some_iff.mp hrun
      obtain ⟨hcollecting, hless⟩ := collecting_step h hstep
      have hmore := ih hcollecting hrest
      simp only [List.length_cons]
      omega

-- A finished sweep has collected each source once, in some order.
theorem finished_order (h : Sweeps sources collector sweep) (hfinished : sweep.Finished) :
    sweep.tasks = sources.map (fun source => .ended source.outcome) ∧
      ∃ order : List HttpServiceSource, order.Perm sources ∧
        sweep.collector = order.foldl (fun collector source => source.collect collector) collector := by
  obtain ⟨htasks, order, hperm, hcollector⟩ := collecting_of_sweeps h
  have hall : sweep.tasks = sources.map (fun source => .ended source.outcome) ∧
      endedSources sources sweep.tasks = sources := by
    unfold Sweep.Finished at hfinished
    clear hperm hcollector h
    generalize sweep.tasks = tasks at htasks hfinished ⊢
    induction htasks with
    | nil => exact ⟨rfl, rfl⟩
    | @cons source task sources tasks hruns _ ih =>
        obtain ⟨htasks, hended⟩ := ih fun other hother => hfinished other (List.mem_cons_of_mem _ hother)
        have htask := hfinished task List.mem_cons_self
        refine ⟨?_, by rw [endedSources, if_pos htask, hended]⟩
        cases task with
        | ended outcome => rw [List.map_cons, ← htasks, show outcome = source.outcome from hruns]
        | _ => cases htask
  exact ⟨hall.1, order, hall.2 ▸ hperm, hcollector⟩

end Tasks

section Sweeps

variable {source : HttpServiceSource}

theorem fetchSpec_of_document {document : Fields} (h : source.document = some document) :
    source.fetchSpec = .ok document := by
  unfold HttpServiceSource.document at h
  unfold HttpServiceSource.fetchSpec HttpServiceSource.getJson
  cases hreply : source.fetch source.specUrl with
  | error error => simp [hreply] at h
  | ok reply =>
      obtain ⟨status, body⟩ := reply
      simp only [hreply] at h
      split at h
      · have hbody : body ≠ [] := by
          rintro rfl
          cases h
        simp only [bind, Except.bind, if_neg hbody]
        cases hloads : Json.loads body with
        | none => simp [hloads] at h
        | some value =>
            cases value <;> simp_all
      · cases h

variable [UnicodeData]

-- What collecting a readable source can do.
theorem collect_cases (h : source.Reads) :
    (∀ collector, source.collect collector = collector) ∨
      (source.document.isSome ∧ ∃ spec health, specService spec source.name = source.service ∧
        ∀ collector, Polled source spec health collector.catalog (source.collect collector).catalog) := by
  cases hspec : source.fetchSpec with
  | error error => exact Or.inl fun collector => by simp [HttpServiceSource.collect, hspec]
  | ok spec =>
      cases hhealth : source.fetchHealth with
      | error error => exact Or.inl fun collector => by simp [HttpServiceSource.collect, hspec, hhealth]
      | ok health =>
          obtain ⟨hsome, hnamed⟩ := (h.2 spec hspec).2 health hhealth
          obtain ⟨document, hdocument⟩ := Option.isSome_iff_exists.mp hsome
          have hsame := fetchSpec_of_document hdocument
          rw [hspec] at hsame
          cases hsame
          have hservice : specService spec source.name = source.service := by
            simp [HttpServiceSource.service, hdocument]
          refine Or.inr ⟨hsome, spec, health, hservice, fun collector => ?_⟩
          obtain ⟨collector', hrun, hpolled⟩ :=
            ingestPolled_named source (hservice ▸ hnamed) health collector
          simpa [HttpServiceSource.collect, hspec, hhealth, hrun] using hpolled

-- What no poll touches, and what every poll keeps.
structure KeepsRest (name : Str → Prop) (c c' : Catalog) : Prop where
  records : ∀ other, ¬name other → c'.services.get? other = c.services.get? other
  topics : c.topics ⊆ c'.topics
  everConsumed : c.everConsumed ⊆ c'.everConsumed
  events : c'.events = c.events
  spanOwner : c'.spanOwner = c.spanOwner
  issues : c'.issues = c.issues

theorem collect_keepsRest (h : source.Reads) (collector : Collector) :
    KeepsRest (fun name => name = source.service) collector.catalog (source.collect collector).catalog := by
  obtain hnone | ⟨-, spec, health, hservice, hpolled⟩ := collect_cases h
  · rw [hnone]
    exact ⟨fun _ _ => rfl, Finset.Subset.refl _, Finset.Subset.refl _, rfl, rfl, rfl⟩
  · obtain ⟨hrecords, htopics, hever, hevents, howner, hissues⟩ := hpolled collector
    refine ⟨fun other hother => ?_, ?_, ?_, hevents, howner, hissues⟩
    · rw [hrecords, hservice, if_neg (Ne.symm hother)]
    · rw [htopics, Finset.union_assoc]
      exact Finset.subset_union_left
    · rw [hever]
      exact Finset.subset_union_left

-- A poll depends on nothing but what the collector holds about the service.
theorem collect_agrees (h : source.Reads) {c c' : Collector}
    (hsame : CollectedAs source.service c.catalog c'.catalog) :
    CollectedAs source.service (source.collect c).catalog (source.collect c').catalog := by
  obtain hnone | ⟨-, spec, health, hservice, hpolled⟩ := collect_cases h
  · rw [hnone, hnone]
    exact hsame
  · have hc := hpolled c
    have hc' := hpolled c'
    have hrecord : c'.catalog.serviceOrNew source.service = c.catalog.serviceOrNew source.service := by
      simp only [Catalog.serviceOrNew, hsame.record]
    refine ⟨?_, ?_, ?_⟩
    · rw [hc.records, hc'.records, hservice, if_pos rfl, if_pos rfl, hrecord]
    · rw [hc.topics, hc'.topics]
      exact Finset.union_subset_union_left (Finset.union_subset_union_left hsame.topics)
    · rw [hc.everConsumed, hc'.everConsumed]
      exact Finset.union_subset_union_left hsame.everConsumed

def HttpServiceSource.collectAll (order : List HttpServiceSource) (collector : Collector) : Collector :=
  order.foldl (fun collector source => source.collect collector) collector

-- Sources of distinct services, collected in any order, are each collected as
-- if alone.
theorem collectAll_spec {order : List HttpServiceSource} (hreads : ∀ source ∈ order, source.Reads)
    (hdistinct : (order.map HttpServiceSource.service).Nodup) (collector : Collector) :
    KeepsRest (· ∈ order.map HttpServiceSource.service) collector.catalog
        (HttpServiceSource.collectAll order collector).catalog ∧
      ∀ source ∈ order, CollectedAs source.service (source.collect collector).catalog
        (HttpServiceSource.collectAll order collector).catalog := by
  induction order generalizing collector with
  | nil =>
      refine ⟨⟨fun _ _ => rfl, Finset.Subset.refl _, Finset.Subset.refl _, rfl, rfl, rfl⟩, ?_⟩
      intro source hsource
      cases hsource
  | cons first rest ih =>
      rw [List.map_cons, List.nodup_cons] at hdistinct
      obtain ⟨hfresh, hrest⟩ := hdistinct
      have hfirst := collect_keepsRest (hreads first List.mem_cons_self) collector
      obtain ⟨hkeeps, hcollected⟩ := ih (fun other hother => hreads other (List.mem_cons_of_mem _ hother))
        hrest (first.collect collector)
      refine ⟨⟨fun other hother => ?_, hfirst.topics.trans hkeeps.topics,
        hfirst.everConsumed.trans hkeeps.everConsumed, hkeeps.events.trans hfirst.events,
        hkeeps.spanOwner.trans hfirst.spanOwner, hkeeps.issues.trans hfirst.issues⟩, ?_⟩
      · rw [List.map_cons, List.mem_cons, not_or] at hother
        exact (hkeeps.records other hother.2).trans (hfirst.records other hother.1)
      · intro source hsource
        rcases List.mem_cons.mp hsource with rfl | hmem
        · exact ⟨hkeeps.records _ hfresh, hkeeps.topics, hkeeps.everConsumed⟩
        · have hother : source.service ≠ first.service := by
            intro heq
            exact hfresh (heq ▸ List.mem_map_of_mem hmem)
          have hbefore : CollectedAs source.service collector.catalog (first.collect collector).catalog :=
            ⟨hfirst.records _ hother, hfirst.topics, hfirst.everConsumed⟩
          have halone := collect_agrees (hreads source hsource) hbefore
          have hlast := hcollected source hmem
          exact ⟨hlast.record.trans halone.record, halone.topics.trans hlast.topics,
            halone.everConsumed.trans hlast.everConsumed⟩

-- How a source's poll ends tells whether it was read for what it is.
theorem reads_iff : source.Reads ↔
    ∃ result, source.outcome = .ok result ∧ (source.document = none → result.ok = false) := by
  unfold HttpServiceSource.Reads HttpServiceSource.outcome HttpServiceSource.unread
  cases hspec : source.fetchSpec with
  | error error => by_cases herror : error.isException <;> simp [herror]
  | ok spec =>
      cases hhealth : source.fetchHealth with
      | error error => by_cases herror : error.isException <;> simp [herror]
      | ok health =>
          cases hdocument : source.document with
          | none =>
              by_cases hname : specService spec source.name = [] <;> simp [hname]
          | some document =>
              have hsame := fetchSpec_of_document hdocument
              rw [hspec] at hsame
              cases hsame
              by_cases hname : specService spec source.name = [] <;>
                simp [hname, HttpServiceSource.service, hdocument]

-- The results a finished sweep of readable sources returns.
theorem outcomes_of_reads {sources : List HttpServiceSource} (h : ∀ source ∈ sources, source.Reads) :
    ∃ results : List PollResult,
      sources.map (fun source => Task.ended source.outcome) =
          results.map (fun result => .ended (.ok result)) ∧
        List.Forall₂ (fun source result => source.outcome = .ok result ∧
          (source.document = none → result.ok = false)) sources results := by
  induction sources with
  | nil => exact ⟨[], rfl, .nil⟩
  | cons source rest ih =>
      obtain ⟨result, hresult, hfailed⟩ := reads_iff.mp (h source List.mem_cons_self)
      obtain ⟨results, htasks, hall⟩ := ih fun other hother => h other (List.mem_cons_of_mem _ hother)
      refine ⟨result :: results, ?_, .cons ⟨hresult, hfailed⟩ hall⟩
      rw [List.map_cons, List.map_cons, htasks, hresult]

theorem served_of_reads {sources : List HttpServiceSource} {collector : Collector}
    (hdistinct : (sources.map HttpServiceSource.service).Nodup) (h : ∀ source ∈ sources, source.Reads)
    {sweep : Sweep} (hsweep : Sweeps sources collector sweep) (hfinished : sweep.Finished)
    (hsource : source ∈ sources) {result : PollResult} (hfailed : source.document = none → result.ok = false) :
    Served collector source result sweep.collector := by
  obtain ⟨-, order, hperm, hcollector⟩ := finished_order hsweep hfinished
  obtain ⟨hkeeps, hcollected⟩ := collectAll_spec
    (fun other hother => h other (hperm.mem_iff.mp hother))
    ((hperm.map HttpServiceSource.service).nodup_iff.mpr hdistinct) collector
  have hswept : sweep.collector = HttpServiceSource.collectAll order collector := hcollector
  have hone := hcollected source (hperm.mem_iff.mpr hsource)
  refine ⟨fun hnone => ⟨hfailed hnone, ?_⟩, fun _ alone halone hended => ?_⟩
  · obtain hidle | ⟨hsome, -⟩ := collect_cases (h source hsource)
    · rw [hidle] at hone
      rw [hswept]
      exact ⟨hone.record, hkeeps.events, hkeeps.spanOwner, hkeeps.issues⟩
    · rw [hnone] at hsome
      cases hsome
  · obtain ⟨-, single, hsingle, halone⟩ := finished_order halone hended
    rw [List.perm_singleton.mp hsingle] at halone
    rw [hswept, halone]
    exact hone

-- Whatever the collector holds when the sweep starts.
theorem sweep_undamaged_iff (sources : List HttpServiceSource) (collector : Collector)
    (hdistinct : (sources.map HttpServiceSource.service).Nodup) :
    Undamaged sources collector ↔ ∀ source ∈ sources, source.Reads := by
  constructor
  · intro hsafe source hsource
    obtain ⟨sweep, hsweep, hfinished⟩ := hsafe.ends (Sweep.start sources collector) .refl
    obtain ⟨results, htasks, hserved⟩ := hsafe.results sweep hsweep hfinished
    rw [(finished_order hsweep hfinished).1] at htasks
    clear hdistinct hsafe hsweep
    induction hserved with
    | nil => cases hsource
    | @cons first result rest results hfirst _ ih =>
        rw [List.map_cons, List.map_cons] at htasks
        obtain ⟨hhead, htail⟩ := List.cons.inj htasks
        rcases List.mem_cons.mp hsource with rfl | hmem
        · exact reads_iff.mpr ⟨result, Task.ended.inj hhead, fun hnone => (hfirst.failed hnone).1⟩
        · exact ih hmem htail
  · intro hreads
    refine ⟨fun sweep hsweep => sweep_ends (collecting_of_sweeps hsweep), ?_, ?_⟩
    · intro replies sweep hrun
      have hbound := replies_bounded (collecting_start sources collector) hrun
      have hwork : (Sweep.start sources collector).work = 2 * sources.length := by
        simp [Sweep.work, Sweep.start, Task.work, Nat.mul_comm]
      omega
    · intro sweep hsweep hfinished
      obtain ⟨results, htasks, hall⟩ := outcomes_of_reads hreads
      refine ⟨results, (finished_order hsweep hfinished).1.trans htasks, ?_⟩
      rw [List.forall₂_iff_get] at hall ⊢
      refine ⟨hall.1, fun i hi hi' => ?_⟩
      exact served_of_reads hdistinct hreads hsweep hfinished (List.getElem_mem hi) (hall.2 i hi hi').2

end Sweeps

section Example

-- A service whose surfaces answer 503 with a JSON object.
def downSource : HttpServiceSource :=
  HttpServiceSource.new "orders" "https://orders.svc" fun _ => .ok (503, Json.dumps (.obj []))

def upSource : HttpServiceSource :=
  HttpServiceSource.new "inventory" "https://inventory.svc" fun _ => .ok (200, Json.dumps (.obj []))

theorem downSource_undamaged_iff :
    letI := UnicodeData.ascii
    Undamaged [downSource, upSource] Collector.empty ↔ ∀ source ∈ [downSource, upSource], source.Reads :=
  letI := UnicodeData.ascii
  sweep_undamaged_iff [downSource, upSource] Collector.empty (by decide +kernel)

theorem downSource_not_undamaged :
    letI := UnicodeData.ascii
    ¬Undamaged [downSource] Collector.empty := by
  let _ := UnicodeData.ascii
  intro h
  obtain ⟨sweep, hsweep, hfinished⟩ := h.ends (Sweep.start [downSource] Collector.empty) .refl
  obtain ⟨results, htasks, hserved⟩ := h.results sweep hsweep hfinished
  have houtcome : downSource.outcome = .ok ⟨"orders", true, none⟩ := by decide +kernel
  have hdocument : downSource.document = none := by decide +kernel
  rw [(finished_order hsweep hfinished).1] at htasks
  cases hserved with
  | @cons _ result _ results hfirst _ =>
      have hresult : downSource.outcome = .ok result := Task.ended.inj (List.cons.inj htasks).1
      rw [houtcome] at hresult
      cases hresult
      have hfailed := (hfirst.failed hdocument).1
      cases hfailed

end Example

end Benzene.Mesh
