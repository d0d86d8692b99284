import Benzene.Mesh.PublishedTexts
import Benzene.Mesh.Restore

namespace Benzene.Mesh

open Benzene.Data

section Reachable

variable [UnicodeData]

-- The catalogs a collector gets to, each with the posts it goes back to. A snapshot
-- of a catalog replaces whatever the collector had, and its posts with it; one of
-- another version is ignored. A collector over a store starts from the saved text,
-- where the bodies were read from JSON.
inductive Reachable : List Post → Catalog → Prop
  | empty : Reachable [] Catalog.empty
  | ingest {posts : List Post} {c : Catalog} (h : Reachable posts c) (post : Post) :
      Reachable (posts ++ [post]) (c.ingest post)
  | restore {posts : List Post} {c before after : Catalog} (h : Reachable posts c)
      (restored : before.restore c.snapshot = .ok after) : Reachable posts after
  | ignore {posts : List Post} {c after : Catalog} (h : Reachable posts c) {snapshot : Fields}
      (version : Json.same (Json.getField snapshot "version") (.int snapshotVersion) = false)
      (restored : c.restore snapshot = .ok after) : Reachable posts after
  | load {posts : List Post} {c after : Catalog} (h : Reachable posts c)
      (bodies : ∀ post ∈ posts, Json.WellFormedObject post.body)
      (loaded : Catalog.load c.saved = .ok after) : Reachable posts after

-- However it got there, the catalog is that of its posts.
theorem reachable_run {posts : List Post} {c : Catalog} (h : Reachable posts c) :
    c = Catalog.empty.run posts := by
  induction h with
  | empty => rfl
  | @ingest posts c _ post ih =>
      rw [ih, Catalog.run, Catalog.run, List.foldl_append]
      rfl
  | @restore posts c before after _ restored ih =>
      rw [ih, restore_snapshot (consistent_run posts)] at restored
      cases restored
      rfl
  | @ignore posts c after _ snapshot version restored ih =>
      rw [Catalog.restore, version] at restored
      cases restored
      exact ih
  | @load posts c after _ bodies loaded ih =>
      rw [ih, load_saved bodies] at loaded
      cases loaded
      rfl

variable {posts : List Post} {c : Catalog}

theorem Reachable.named (h : Reachable posts c) (name : Str) : (c.serviceOrNew name).name = name := by
  rw [reachable_run h]
  exact name_run (fun _ => rfl) posts name

theorem Reachable.known (h : Reachable posts c) : c.Known := by
  rw [reachable_run h]
  exact known_run known_empty posts

theorem Reachable.tracks (h : Reachable posts c) : Tracks (latestRegistrations posts) c := by
  rw [reachable_run h]
  exact tracks_run tracks_empty posts

end Reachable

section Retired

variable [UnicodeData]

-- A reserved topic is never declared: `spec_topic_ids` leaves it out.
def DeclaredOnce (posts : List Post) (topic : Str) : Prop :=
  ∃ post ∈ posts, post.registers.isSome ∧ topic ∈ specTopicIds post.body [.requests]

def DeclaredNow (posts : List Post) (topic : Str) : Prop :=
  ∃ name body, (latestRegistrations posts).get? name = some body ∧
    topic ∈ specTopicIds body [.requests]

-- Every catalogued topic is listed once, as active or as removed; the removed ones
-- are those that were declared and no longer are.
structure Retires (posts : List Post) (c : Catalog) (document : Fields) : Prop where
  once : ∀ topic ∈ c.topics,
    ((elements document "topics").map fun entry => member entry "topic").count topic +
      (texts document "removedTopics").count topic = 1
  active : ∀ entry ∈ elements document "topics", member entry "topic" ∈ c.topics
  removed : ∀ topic ∈ texts document "removedTopics", topic ∈ c.topics
  retired : ∀ topic, topic ∈ texts document "removedTopics" ↔
    DeclaredOnce posts topic ∧ ¬DeclaredNow posts topic

theorem everConsumed_ingest (c : Catalog) (post : Post) (topic : Str) :
    topic ∈ (c.ingest post).everConsumed ↔ topic ∈ c.everConsumed ∨
      post.registers.isSome ∧ topic ∈ specTopicIds post.body [.requests] := by
  cases hreg : post.registers with
  | none =>
      rw [(not_registers_apply hreg c).everConsumed]
      simp
  | some name =>
      rw [registers_apply hreg]
      simp [Catalog.register, Service.registering]

theorem mem_everConsumed_run (posts : List Post) (c : Catalog) (topic : Str) :
    topic ∈ (c.run posts).everConsumed ↔ topic ∈ c.everConsumed ∨ DeclaredOnce posts topic := by
  induction posts generalizing c with
  | nil => simp [Catalog.run, DeclaredOnce]
  | cons post posts ih =>
      have hrun : c.run (post :: posts) = (c.ingest post).run posts := rfl
      rw [hrun, ih, everConsumed_ingest, or_assoc]
      simp [DeclaredOnce]

theorem Reachable.everConsumed {posts : List Post} {c : Catalog} (h : Reachable posts c) (topic : Str) :
    topic ∈ c.everConsumed ↔ DeclaredOnce posts topic := by
  rw [reachable_run h, mem_everConsumed_run]
  simp [Catalog.empty]

-- What is handled now is what the latest registrations declare.
theorem Reachable.currentlyConsumed {posts : List Post} {c : Catalog} (h : Reachable posts c) (topic : Str) :
    topic ∈ currentlyConsumed c.services ↔ DeclaredNow posts topic := by
  have htracks := h.tracks
  rw [Benzene.Mesh.currentlyConsumed, List.mem_flatMap]
  constructor
  · rintro ⟨record, hrecord, htopic⟩
    obtain ⟨⟨name, held⟩, hentry, rfl⟩ := List.mem_map.mp hrecord
    have hget := (Dict.mem_entries_iff _ _ _).mp hentry
    have hconsumed := (htracks name).consumed
    rw [Catalog.serviceOrNew, hget] at hconsumed
    have hdeclared : topic ∈ ((latestRegistrations posts).get? name).elim []
        (specTopicIds · [.requests]) := hconsumed ▸ htopic
    cases hlatest : (latestRegistrations posts).get? name with
    | none =>
        rw [hlatest] at hdeclared
        cases hdeclared
    | some body =>
        rw [hlatest] at hdeclared
        exact ⟨name, body, hlatest, hdeclared⟩
  · rintro ⟨name, body, hlatest, htopic⟩
    have hconsumed := (htracks name).consumed
    rw [hlatest, Catalog.serviceOrNew] at hconsumed
    cases hget : c.services.get? name with
    | none =>
        rw [hget] at hconsumed
        have hnil : [] = specTopicIds body [.requests] := hconsumed
        rw [← hnil] at htopic
        cases htopic
    | some record =>
        rw [hget] at hconsumed
        have hall : record.consumed = specTopicIds body [.requests] := hconsumed
        exact ⟨record, Dict.mem_values_of_get? hget, hall ▸ htopic⟩

omit [UnicodeData] in
theorem mem_removedTopics {services : Dict Str Service} {everConsumed : Finset Str} {topic : Str} :
    topic ∈ removedTopics services everConsumed ↔
      topic ∈ everConsumed ∧ topic ∉ Benzene.Mesh.currentlyConsumed services := by
  rw [removedTopics, List.mem_filter, Finset.mem_sort, decide_eq_true_eq]

theorem topicEntry_topic {c : Catalog} {services : Dict Str Service} {entry : Fields} {out : Json}
    (h : topicEntry c services entry = .ok out) : member (asObject out) "topic" = member entry "topic" := by
  obtain ⟨detail, -, hout⟩ := Except.bind_eq_ok.mp h
  cases hout
  rfl

-- The names in the document: the catalogued topics without the removed ones.
theorem topics_names [Calendar] {c : Catalog} {fleet document : Fields} {services : Dict Str Service}
    {everConsumed : Finset Str} {generatedAt : Str} (hfleet : c.queryFleet = .ok fleet)
    (h : topics c fleet services everConsumed generatedAt = .ok document) :
    (elements document "topics").map (fun entry => member entry "topic") =
        (c.topics.sort (· ≤ ·)).filter (fun topic => topic ∉ removedTopics services everConsumed) ∧
      texts document "removedTopics" = removedTopics services everConsumed := by
  have hremoved : Json.getField document "removedTopics" =
      strings (removedTopics services everConsumed) := by
    obtain ⟨entries, -, hdocument⟩ := Except.bind_eq_ok.mp h
    cases hdocument
    rfl
  obtain ⟨entries, hfield, hentries⟩ := topics_active h
  refine ⟨?_, texts_field hremoved⟩
  have hsame : ((elements fleet "topics").filter
        fun entry => member entry "topic" ∉ removedTopics services everConsumed).map
          (fun entry => member entry "topic") =
      entries.map fun out => member (asObject out) "topic" := by
    rw [← List.forall₂_eq_eq_eq, List.forall₂_map_left_iff, List.forall₂_map_right_iff]
    exact hentries.imp fun _ _ hentry => (topicEntry_topic hentry).symm
  rw [elements_field hfield, List.map_map, Function.comp_def, ← hsame, ← fleet_topics hfleet,
    List.filter_map]
  rfl

theorem retires_of_projects [Calendar] [TrueDivision] {posts : List Post} {c : Catalog}
    (h : Reachable posts c) {fleet : Fields} (hfleet : c.queryFleet = .ok fleet)
    {sources : List ServiceEndpoint} {generatedAt : Str} {artifacts : Artifacts}
    (hprojects : Projects c fleet sources generatedAt artifacts) : Retires posts c artifacts.topics := by
  have hservices := snapshotServices_eq h.named
  obtain ⟨hnames, hremoved⟩ := topics_names hfleet (hservices ▸ hprojects.topics)
  have hcatalogued : ∀ topic ∈ removedTopics c.services c.everConsumed, topic ∈ c.topics := by
    intro topic htopic
    exact h.known.everConsumed (mem_removedTopics.mp htopic).1
  have hnodup : (removedTopics c.services c.everConsumed).Nodup :=
    (Finset.sort_nodup _ _).sublist List.filter_sublist
  refine ⟨fun topic htopic => ?_, fun entry hentry => ?_, fun topic htopic => ?_, fun topic => ?_⟩
  · rw [hnames, hremoved]
    have hsorted : topic ∈ c.topics.sort (· ≤ ·) := (Finset.mem_sort _).mpr htopic
    have hactive := (Finset.sort_nodup c.topics (· ≤ ·)).sublist
      (List.filter_sublist (p := fun topic => topic ∉ removedTopics c.services c.everConsumed))
    by_cases hgone : topic ∈ removedTopics c.services c.everConsumed
    · rw [List.count_eq_one_of_mem hnodup hgone, List.count_eq_zero_of_not_mem]
      simp [hgone]
    · rw [List.count_eq_zero_of_not_mem hgone, List.count_eq_one_of_mem hactive]
      simp [hsorted, hgone]
  · have hname := List.mem_map_of_mem (f := fun entry => member entry "topic") hentry
    rw [hnames] at hname
    exact (Finset.mem_sort _).mp (List.mem_filter.mp hname).1
  · rw [hremoved] at htopic
    exact hcatalogued topic htopic
  · rw [hremoved, mem_removedTopics, h.everConsumed, h.currentlyConsumed]

-- The removed topics are the retired ones, wherever the artifacts can be built.
theorem reachable_retires_iff [Calendar] [TrueDivision] {posts : List Post} {c : Catalog}
    (h : Reachable posts c) (sources : List ServiceEndpoint) (generatedAt : Str) :
    (∃ artifacts, buildArtifacts c sources generatedAt = .ok artifacts ∧
        Retires posts c artifacts.topics) ↔ c.Buildable := by
  rw [← @buildArtifacts_ok_iff _ _ _ c sources generatedAt h.named]
  constructor
  · rintro ⟨artifacts, hbuild, -⟩
    exact ⟨artifacts, hbuild⟩
  · rintro ⟨artifacts, hbuild⟩
    obtain ⟨fleet, hfleet, hprojects⟩ := buildArtifacts_eq_ok.mp hbuild
    exact ⟨artifacts, hbuild, retires_of_projects h hfleet hprojects⟩

end Retired

section Example

-- A service that handles a topic, the same without it, and a call on the topic that
-- names no service.
def paying : Post := ⟨.register, [Json.field "service" (.str "billing"),
  Json.field "requests" (.arr [.obj [Json.field "topic" (.str "refund")]])]⟩

def dropping : Post := ⟨.register, [Json.field "service" (.str "billing"),
  Json.field "requests" (.arr [])]⟩

def anonymous : Post := ⟨.traces, [Json.field "events" (.arr [.obj [Json.field "traceId" (.str "t"),
  Json.field "spanId" (.str "s"), Json.field "topic" (.str "refund")]])]⟩

-- A collector that took over the snapshot of another one.
theorem restored_retires :
    letI := UnicodeData.ascii
    letI := noCalendar
    letI := wholeDivision
    ∃ c, Reachable [paying, dropping] c ∧ ∃ artifacts, buildArtifacts c [] "now" = .ok artifacts ∧
      texts artifacts.topics "removedTopics" = [("refund" : Str)] ∧
      Retires [paying, dropping] c artifacts.topics := by
  let _ := UnicodeData.ascii
  let _ := noCalendar
  let _ := wholeDivision
  let c := Catalog.empty.run [paying, dropping]
  have hwritten : Reachable [paying, dropping] c := .ingest (.ingest .empty paying) dropping
  have hreachable : Reachable [paying, dropping] c :=
    .restore hwritten (restore_snapshot (consistent_run [paying, dropping]) Catalog.empty)
  have hok : (buildArtifacts c [] "now").isOk = true := by decide +kernel
  have hbuildable : c.Buildable := (buildArtifacts_ok_iff hreachable.named).mp (Except.isOk_iff.mp hok)
  obtain ⟨artifacts, hbuild, hretires⟩ := (reachable_retires_iff hreachable [] "now").mpr hbuildable
  refine ⟨c, hreachable, artifacts, hbuild, ?_, hretires⟩
  have hremoved : (buildArtifacts c [] "now").toOption.map
      (fun artifacts => texts artifacts.topics "removedTopics") = some [("refund" : Str)] := by
    decide +kernel
  rw [hbuild] at hremoved
  exact Option.some.inj hremoved

-- After a call that names no service there are no artifacts at all.
theorem anonymous_not_retires :
    letI := UnicodeData.ascii
    letI := noCalendar
    letI := wholeDivision
    let c := Catalog.empty.run [paying, dropping, anonymous]
    Reachable [paying, dropping, anonymous] c ∧
      ¬∃ artifacts, buildArtifacts c [] "now" = .ok artifacts ∧
        Retires [paying, dropping, anonymous] c artifacts.topics := by
  let _ := UnicodeData.ascii
  let _ := noCalendar
  let _ := wholeDivision
  refine ⟨.ingest (.ingest (.ingest .empty paying) dropping) anonymous, ?_⟩
  rintro ⟨artifacts, hbuild, -⟩
  have hfails : (buildArtifacts (Catalog.empty.run [paying, dropping, anonymous]) [] "now").toOption =
      none := by
    decide +kernel
  rw [hbuild] at hfails
  cases hfails

end Example

end Benzene.Mesh
