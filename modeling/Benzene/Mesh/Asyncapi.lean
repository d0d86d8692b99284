import Benzene.Core.Pointers
import Benzene.Mesh.Reachable

namespace Benzene.Mesh

open Benzene.Data
open Benzene.Core (HasPair Verbatim pointerSegments segments_self_iff slash tilde)

section Document

def channelsOf (document : Fields) : Fields := asObject (Json.getField document "channels")

def operationsOf (document : Fields) : Fields := asObject (Json.getField document "operations")

def messagesOf (document : Fields) : Fields :=
  asObject (Json.getField (asObject (Json.getField document "components")) "messages")

def address (channel : Json) : Str := member (asObject channel) "address"

def reference (value : Json) : Str := member (asObject value) "$ref"

inductive Role
  | receive
  | send
deriving DecidableEq

def Role.text : Role → Str
  | .receive => "receive"
  | .send => "send"

-- A consumer receives the topic, a provider sends it.
def Catalog.playing (c : Catalog) : Role → Str → List Str
  | .receive => c.consumersOf
  | .send => c.providersOf

def messageKey (topic : Str) : Str := channelKey topic ++ ("Message" : Str)

def operationKey (role : Role) (topic : Str) : Str :=
  match role with
  | .receive => channelKey topic ++ ("_receive" : Str)
  | .send => channelKey topic ++ ("_send" : Str)

def Catalog.domainTopics (c : Catalog) : List Str :=
  (c.topics.sort (· ≤ ·)).filter fun topic => !isReservedTopic topic

theorem mem_domainTopics {c : Catalog} {topic : Str} :
    topic ∈ c.domainTopics ↔ topic ∈ c.topics ∧ isReservedTopic topic = false := by
  rw [Catalog.domainTopics, List.mem_filter, Finset.mem_sort, Bool.not_eq_true']

variable [UnicodeData]

-- A reference is a JSON Pointer into its own document.
def RefersTo (ref : Str) (path : List Str) : Prop :=
  ∃ pointer, ref = CodePoint.ofChar '#' :: pointer ∧ pointerSegments pointer = .ok path

def RefersToChannel (document : Fields) (ref topic : Str) : Prop :=
  ∃ entry ∈ channelsOf document, address entry.2 = topic ∧ RefersTo ref ["channels", entry.1]

def RefersToMessage (document : Fields) (ref topic : Str) : Prop :=
  ∃ entry ∈ messagesOf document, member (asObject entry.2) "name" = topic ∧
    RefersTo ref ["components", "messages", entry.1]

def Performs (document : Fields) (role : Role) (topic : Str) (operation : Json) : Prop :=
  member (asObject operation) "action" = role.text ∧
    RefersToChannel document (reference (Json.getField (asObject operation) "channel")) topic

-- The document says of every topic of the domain what the catalog says.
structure Exports (c : Catalog) (document : Fields) : Prop where
  channels : ((channelsOf document).map fun entry => address entry.2).Perm c.domainTopics
  operations : ∀ entry ∈ operationsOf document, ∃ topic ∈ c.domainTopics, ∃ role,
    entry.1 = operationKey role topic ∧ Performs document role topic entry.2
  roles : ∀ topic ∈ c.domainTopics, ∀ role,
    (∃ entry ∈ operationsOf document, Performs document role topic entry.2) ↔ c.playing role topic ≠ []
  messages : ∀ entry ∈ channelsOf document, ∃ key value,
    asObject (Json.getField (asObject entry.2) "messages") = [(key, value)] ∧
      RefersToMessage document (reference value) (address entry.2)

end Document

section Keys

theorem operationKey_inj {role role' : Role} {topic topic' : Str}
    (h : operationKey role topic = operationKey role' topic') :
    role = role' ∧ channelKey topic = channelKey topic' := by
  -- The two suffixes end differently.
  have hreceive : ("_receive" : Str).getLast? = some (CodePoint.ofChar 'e') := by decide
  have hsend : ("_send" : Str).getLast? = some (CodePoint.ofChar 'd') := by decide
  have hlast := congrArg List.getLast? h
  cases role <;> cases role'
  · exact ⟨rfl, List.append_cancel_right h⟩
  · simp only [operationKey, List.getLast?_append, hreceive, hsend, Option.some_or] at hlast
    exact absurd hlast (by decide)
  · simp only [operationKey, List.getLast?_append, hreceive, hsend, Option.some_or] at hlast
    exact absurd hlast (by decide)
  · exact ⟨rfl, List.append_cancel_right h⟩

-- No pair arises where the suffix is put behind the text.
theorem hasPair_append_iff {a b : CodePoint} {suffix : Str} (hhead : suffix.head? ≠ some b)
    (hsuffix : ¬HasPair a b suffix) (text : Str) : HasPair a b (text ++ suffix) ↔ HasPair a b text := by
  induction text with
  | nil =>
      have hnil : ¬HasPair a b [] := fun h => by simpa using h.length_le
      rw [List.nil_append]
      exact iff_of_false hsuffix hnil
  | cons c rest ih =>
      unfold HasPair at ih ⊢
      rw [List.cons_append, List.infix_cons_iff, List.infix_cons_iff, ih, List.cons_prefix_cons,
        List.cons_prefix_cons]
      refine or_congr_left (and_congr_right fun _ => ?_)
      cases rest with
      | nil =>
          rw [List.nil_append]
          refine iff_of_false (fun hprefix => hhead ?_) (fun hprefix => ?_)
          · obtain ⟨tail, rfl⟩ := hprefix
            rfl
          · simpa using hprefix.length_le
      | cons d rest => rw [List.cons_append, List.cons_prefix_cons, List.cons_prefix_cons]; simp

-- Nor where characters are replaced by others.
theorem hasPair_map_iff {a b : CodePoint} {f : CodePoint → CodePoint} (ha : ∀ c, f c = a ↔ c = a)
    (hb : ∀ c, f c = b ↔ c = b) (text : Str) : HasPair a b (text.map f) ↔ HasPair a b text := by
  induction text with
  | nil => rfl
  | cons c rest ih =>
      unfold HasPair at ih ⊢
      rw [List.map_cons, List.infix_cons_iff, List.infix_cons_iff, ih, List.cons_prefix_cons,
        List.cons_prefix_cons, eq_comm, ha, eq_comm]
      refine or_congr_left (and_congr_right fun _ => ?_)
      cases rest with
      | nil => rfl
      | cons d rest =>
          rw [List.map_cons, List.cons_prefix_cons, List.cons_prefix_cons, eq_comm, hb, eq_comm]
          simp

-- A key can be put in a pointer exactly if its topic can.
theorem verbatim_channelKey {topic : Str} : Verbatim (channelKey topic) ↔ Verbatim topic := by
  have hkept {other : CodePoint} (hcolon : other ≠ CodePoint.ofChar ':')
      (hunder : other ≠ CodePoint.ofChar '_') (c : CodePoint) :
      (if c = CodePoint.ofChar ':' then CodePoint.ofChar '_' else c) = other ↔ c = other := by
    by_cases hc : c = CodePoint.ofChar ':'
    · rw [if_pos hc, hc]
      exact iff_of_false hunder.symm hcolon.symm
    · rw [if_neg hc]
  have htilde := @hkept tilde (by decide) (by decide)
  have hslash : slash ∈ channelKey topic ↔ slash ∈ topic := by
    rw [channelKey, List.mem_map]
    constructor
    · rintro ⟨c, hc, heq⟩
      exact (hkept (by decide) (by decide) c).mp heq ▸ hc
    · intro hmem
      exact ⟨slash, hmem, (hkept (by decide) (by decide) slash).mpr rfl⟩
  unfold Verbatim
  rw [hslash, channelKey, hasPair_map_iff htilde (hkept (by decide) (by decide)),
    hasPair_map_iff htilde (hkept (by decide) (by decide))]

theorem verbatim_messageKey {topic : Str} : Verbatim (messageKey topic) ↔ Verbatim topic := by
  rw [← @verbatim_channelKey topic]
  unfold Verbatim
  rw [messageKey, hasPair_append_iff (by decide) (by decide), hasPair_append_iff (by decide) (by decide),
    List.mem_append, or_iff_left (by decide)]

end Keys

section References

variable [UnicodeData]

theorem refersTo_iff {pointer : Str} {path : List Str} :
    RefersTo (CodePoint.ofChar '#' :: pointer) path ↔ pointerSegments pointer = .ok path := by
  constructor
  · rintro ⟨other, hother, hsegments⟩
    rwa [(List.cons.inj hother).2]
  · intro h
    exact ⟨pointer, rfl, h⟩

theorem pointerSegments_cons {name rest : Str} (h : Verbatim name) :
    pointerSegments (slash :: (name ++ slash :: rest)) =
      .ok (name :: (Core.splitAt slash rest).map Core.unescape) := by
  have hself := segments_self_iff.mpr h
  rw [Core.splitAt_of_notMem h.1, List.map_singleton] at hself
  rw [pointerSegments, if_pos rfl, Core.splitAt_append h.1, List.map_cons, (List.cons.inj hself).1]

theorem refersTo_channel {name other : Str} :
    RefersTo (("#/channels/" : Str) ++ name) ["channels", other] ↔
      (Core.splitAt slash name).map Core.unescape = [other] := by
  have hplace : ("#/channels/" : Str) = CodePoint.ofChar '#' :: slash :: (("channels" : Str) ++ [slash]) := by
    decide
  rw [hplace, List.cons_append, refersTo_iff, List.cons_append, List.append_assoc, List.singleton_append,
    pointerSegments_cons (by decide)]
  simp

theorem refersTo_message {name other : Str} :
    RefersTo (("#/components/messages/" : Str) ++ name) ["components", "messages", other] ↔
      (Core.splitAt slash name).map Core.unescape = [other] := by
  have hplace : ("#/components/messages/" : Str) = CodePoint.ofChar '#' :: slash ::
      (("components" : Str) ++ slash :: (("messages" : Str) ++ [slash])) := by
    decide
  have hmessages : Core.unescape ("messages" : Str) = "messages" := by decide
  rw [hplace, List.cons_append, refersTo_iff, List.cons_append, List.append_assoc, List.cons_append,
    List.append_assoc, List.singleton_append, pointerSegments_cons (by decide),
    Core.splitAt_append (by decide), List.map_cons, hmessages]
  simp

end References

section Entries

-- A member stays in a dictionary unless another one of its key is put over it.
theorem mem_update_nil {entries : Fields} {entry : Str × Json} (hmem : entry ∈ entries)
    (hsame : ∀ other ∈ entries, other.1 = entry.1 → other = entry) : entry ∈ Entries.update [] entries := by
  have hget : Entries.get? entry.1 (Entries.update [] entries) = some entry.2 := by
    rw [Entries.get?_update_reverse]
    cases hfirst : Entries.get? entry.1 entries.reverse with
    | none =>
        rw [Entries.get?_eq_none_iff] at hfirst
        exact absurd (List.mem_map_of_mem (List.mem_reverse.mpr hmem)) hfirst
    | some value =>
        have hother := hsame _ (List.mem_reverse.mp (Entries.mem_of_get? hfirst)) rfl
        rw [← hother]
        rfl
  exact Entries.mem_of_get? hget

theorem update_append (entries more rest : Fields) :
    Entries.update entries (more ++ rest) = Entries.update (Entries.update entries more) rest :=
  List.foldl_append

def channelEntry (topic : Str) : Str × Json :=
  (channelKey topic, .obj [Json.field "address" (.str topic),
    Json.field "messages" (.obj [(messageKey topic,
      .obj [Json.field "$ref" (.str (("#/components/messages/" : Str) ++ messageKey topic))])])])

def operationEntry (topic : Str) (role : Role) : Str × Json :=
  (operationKey role topic, operation role.text (channelKey topic))

def Catalog.operationEntries (c : Catalog) (topic : Str) : Fields :=
  ([Role.receive, Role.send].filter fun role => c.playing role topic ≠ []).map (operationEntry topic)

def Catalog.messageEntry (c : Catalog) (services : Dict Str Service) (topic : Str) : Str × Json :=
  let spec := (presentSpecs services topic (c.consumersOf topic)).head?.getD []
  (messageKey topic, .obj [Json.field "name" (.str topic),
    Json.field "payload" (Json.orElse (Json.orElse (Json.getField spec "requestSchema")
      (Json.getField spec "responseSchema")) (.obj [Json.field "type" (.str "object")]))])

theorem address_channelEntry (topic : Str) : address (channelEntry topic).2 = topic := rfl

theorem name_messageEntry (c : Catalog) (services : Dict Str Service) (topic : Str) :
    member (asObject (c.messageEntry services topic).2) "name" = topic := rfl

theorem action_operation (action key : Str) : member (asObject (operation action key)) "action" = action :=
  rfl

theorem channel_operation (action key : Str) :
    reference (Json.getField (asObject (operation action key)) "channel") = ("#/channels/" : Str) ++ key := rfl

theorem messages_channelEntry (topic : Str) :
    asObject (Json.getField (asObject (channelEntry topic).2) "messages") =
      [(messageKey topic,
        .obj [Json.field "$ref" (.str (("#/components/messages/" : Str) ++ messageKey topic))])] := rfl

theorem Role.text_injective : Function.Injective Role.text := by
  intro a b h
  cases a <;> cases b
  · rfl
  · exact absurd h (by decide)
  · exact absurd h (by decide)
  · rfl

-- The entries of some topics, put over what is there.
def Channels.with (acc : Channels) (c : Catalog) (services : Dict Str Service) (topics : List Str) :
    Channels where
  channels := Entries.update acc.channels (topics.map channelEntry)
  operations := Entries.update acc.operations (topics.flatMap c.operationEntries)
  messages := Entries.update acc.messages (topics.map (c.messageEntry services))

theorem Channels.with_cons (acc : Channels) (c : Catalog) (services : Dict Str Service) (topic : Str)
    (topics : List Str) :
    acc.with c services (topic :: topics) = (acc.with c services [topic]).with c services topics := by
  simp only [Channels.with, List.map_cons, List.map_nil, List.flatMap_cons, List.flatMap_nil,
    List.append_nil, update_append]
  rfl

theorem mem_operationEntries {c : Catalog} {topic : Str} {entry : Str × Json} :
    entry ∈ c.operationEntries topic ↔
      ∃ role, c.playing role topic ≠ [] ∧ operationEntry topic role = entry := by
  unfold Catalog.operationEntries
  rw [List.mem_map]
  refine exists_congr fun role => and_congr_left fun _ => ?_
  rw [List.mem_filter]
  cases role <;> simp

variable [UnicodeData] {c : Catalog} {services : Dict Str Service}

theorem addChannel_eq (acc : Channels) {entry : Fields} (h : Asks c entry) :
    addChannel c services acc entry =
      .ok (acc.with c services ([member entry "topic"].filter fun topic => !isReservedTopic topic)) := by
  obtain ⟨detail, hdetail⟩ := h
  obtain ⟨-, hproviders, hconsumers⟩ := detail_names hdetail
  unfold addChannel
  cases hreserved : isReservedTopic (member entry "topic") with
  | true => simp [hreserved, Channels.with, Entries.update, pure, Except.pure]
  | false =>
      simp only [hreserved, hdetail, hproviders, hconsumers, bind, Except.bind, pure, Except.pure,
        Bool.false_eq_true, if_false, List.filter_cons, Bool.not_false, if_true, List.filter_nil]
      congr 1
      rw [Channels.mk.injEq]
      refine ⟨rfl, ?_, rfl⟩
      by_cases hc : c.consumersOf (member entry "topic") = [] <;>
        by_cases hp : c.providersOf (member entry "topic") = [] <;>
        simp [Channels.with, Catalog.operationEntries, Catalog.playing, hc, hp, Entries.update,
          operationEntry, operationKey, Role.text]

theorem foldlM_addChannel (entries : List Fields) (hentries : ∀ entry ∈ entries, Asks c entry)
    (acc : Channels) :
    entries.foldlM (addChannel c services) acc =
      .ok (acc.with c services ((entries.map fun entry => member entry "topic").filter
        fun topic => !isReservedTopic topic)) := by
  induction entries generalizing acc with
  | nil => rfl
  | cons entry rest ih =>
      obtain ⟨hentry, hrest⟩ := List.forall_mem_cons.mp hentries
      rw [List.foldlM_cons, addChannel_eq acc hentry]
      show rest.foldlM (addChannel c services) _ = _
      rw [ih hrest, List.map_cons]
      congr 1
      cases hreserved : isReservedTopic (member entry "topic") with
      | true => simp [hreserved, Channels.with, Entries.update]
      | false =>
          simp only [List.filter_cons, hreserved, Bool.not_false, if_true, List.filter_nil]
          exact (Channels.with_cons acc c services _ _).symm

-- The three parts of the document.
theorem asyncapi_eq [Calendar] {fleet document : Fields} {generatedAt : Str}
    (hfleet : c.queryFleet = .ok fleet) (hasked : ∀ entry ∈ elements fleet "topics", Asks c entry)
    (h : asyncapi c fleet services generatedAt = .ok document) :
    channelsOf document = Entries.update [] (c.domainTopics.map channelEntry) ∧
      operationsOf document = Entries.update [] (c.domainTopics.flatMap c.operationEntries) ∧
      messagesOf document = Entries.update [] (c.domainTopics.map (c.messageEntry services)) := by
  obtain ⟨acc, hacc, hdocument⟩ := Except.bind_eq_ok.mp h
  rw [foldlM_addChannel _ hasked, fleet_topics hfleet] at hacc
  cases hacc
  cases hdocument
  exact ⟨rfl, rfl, rfl⟩

end Entries

section Export

variable [UnicodeData] {c : Catalog} {services : Dict Str Service} {document : Fields}

-- A document made of the entries of the topics of the domain.
structure Lists (c : Catalog) (services : Dict Str Service) (document : Fields) : Prop where
  channels : channelsOf document = Entries.update [] (c.domainTopics.map channelEntry)
  operations : operationsOf document = Entries.update [] (c.domainTopics.flatMap c.operationEntries)
  messages : messagesOf document = Entries.update [] (c.domainTopics.map (c.messageEntry services))

namespace Lists

variable (h : Lists c services document)

omit [UnicodeData]

include h in
theorem mem_channels {entry : Str × Json} (hentry : entry ∈ channelsOf document) :
    ∃ topic ∈ c.domainTopics, channelEntry topic = entry := by
  rw [h.channels] at hentry
  exact List.mem_map.mp ((Entries.mem_update hentry).resolve_left List.not_mem_nil)

include h in
theorem mem_messages {entry : Str × Json} (hentry : entry ∈ messagesOf document) :
    ∃ topic ∈ c.domainTopics, c.messageEntry services topic = entry := by
  rw [h.messages] at hentry
  exact List.mem_map.mp ((Entries.mem_update hentry).resolve_left List.not_mem_nil)

include h in
-- Two topics of one role under one key would have the same operation.
theorem mem_operations {entry : Str × Json} : entry ∈ operationsOf document ↔
    ∃ topic ∈ c.domainTopics, ∃ role, c.playing role topic ≠ [] ∧ operationEntry topic role = entry := by
  have hlisted : entry ∈ c.domainTopics.flatMap c.operationEntries ↔
      ∃ topic ∈ c.domainTopics, ∃ role, c.playing role topic ≠ [] ∧ operationEntry topic role = entry := by
    rw [List.mem_flatMap]
    exact exists_congr fun topic => and_congr_right fun _ => mem_operationEntries
  rw [← hlisted, h.operations]
  constructor
  · intro hentry
    exact (Entries.mem_update hentry).resolve_left List.not_mem_nil
  · intro hentry
    refine mem_update_nil hentry fun other hother hkey => ?_
    obtain ⟨topic, -, hentry⟩ := List.mem_flatMap.mp hentry
    obtain ⟨topic', -, hother⟩ := List.mem_flatMap.mp hother
    obtain ⟨role, -, rfl⟩ := mem_operationEntries.mp hentry
    obtain ⟨role', -, rfl⟩ := mem_operationEntries.mp hother
    obtain ⟨rfl, hsame⟩ := operationKey_inj hkey
    rw [operationEntry, operationEntry, operationKey.eq_def, operationKey.eq_def, hsame]

section Injective

variable (hkeys : ∀ a ∈ c.domainTopics, ∀ b ∈ c.domainTopics, channelKey a = channelKey b → a = b)

include h hkeys

theorem channels_eq : channelsOf document = c.domainTopics.map channelEntry := by
  rw [h.channels]
  apply Entries.update_nil_of_nodup
  have hnodup : c.domainTopics.Nodup := (Finset.sort_nodup _ _).sublist List.filter_sublist
  rw [Entries.keys, List.map_map]
  exact hnodup.map_on fun a ha b hb hsame => hkeys a ha b hb hsame

theorem channel_mem {topic : Str} (htopic : topic ∈ c.domainTopics) :
    channelEntry topic ∈ channelsOf document := by
  rw [h.channels_eq hkeys]
  exact List.mem_map_of_mem htopic

theorem message_mem {topic : Str} (htopic : topic ∈ c.domainTopics) :
    c.messageEntry services topic ∈ messagesOf document := by
  rw [h.messages]
  refine mem_update_nil (List.mem_map_of_mem htopic) fun other hother hkey => ?_
  obtain ⟨topic', htopic', rfl⟩ := List.mem_map.mp hother
  rw [hkeys topic' htopic' topic htopic (List.append_cancel_right hkey)]

end Injective

end Lists

-- With keys of their own that a reference can hold, the topics are told apart.
theorem exports_of_keys (h : Lists c services document)
    (hkeys : ∀ a ∈ c.domainTopics, ∀ b ∈ c.domainTopics, channelKey a = channelKey b → a = b)
    (hverbatim : ∀ topic ∈ c.domainTopics, Verbatim topic) : Exports c document := by
  have hperforms {topic : Str} (htopic : topic ∈ c.domainTopics) (role : Role) :
      Performs document role topic (operationEntry topic role).2 := by
    refine ⟨action_operation _ _, channelEntry topic, h.channel_mem hkeys htopic,
      address_channelEntry topic, ?_⟩
    rw [operationEntry, channel_operation]
    apply refersTo_channel.mpr
    exact segments_self_iff.mpr (verbatim_channelKey.mpr (hverbatim topic htopic))
  refine ⟨?_, fun entry hentry => ?_, fun topic htopic role => ⟨?_, fun hplaying => ?_⟩,
    fun entry hentry => ?_⟩
  · rw [h.channels_eq hkeys, List.map_map]
    exact List.Perm.of_eq (List.map_id _)
  · obtain ⟨topic, htopic, role, -, rfl⟩ := h.mem_operations.mp hentry
    exact ⟨topic, htopic, role, rfl, hperforms htopic role⟩
  · rintro ⟨entry, hentry, haction, channel, hchannel, haddress, hrefers⟩
    obtain ⟨topic', htopic', role', hplaying, rfl⟩ := h.mem_operations.mp hentry
    obtain ⟨other, hother, rfl⟩ := h.mem_channels hchannel
    rw [operationEntry, action_operation] at haction
    rw [address_channelEntry] at haddress
    rw [operationEntry, channel_operation, refersTo_channel,
      segments_self_iff.mpr (verbatim_channelKey.mpr (hverbatim topic' htopic'))] at hrefers
    have hsame : topic' = other := hkeys topic' htopic' other hother (List.cons.inj hrefers).1
    rw [← Role.text_injective haction, ← haddress, ← hsame]
    exact hplaying
  · exact ⟨operationEntry topic role, h.mem_operations.mpr ⟨topic, htopic, role, hplaying, rfl⟩,
      hperforms htopic role⟩
  · obtain ⟨topic, htopic, rfl⟩ := h.mem_channels hentry
    refine ⟨_, _, messages_channelEntry topic, c.messageEntry services topic, h.message_mem hkeys htopic,
      name_messageEntry c services topic, ?_⟩
    exact refersTo_message.mpr (segments_self_iff.mpr (verbatim_messageKey.mpr (hverbatim topic htopic)))

-- One channel a topic leaves no two topics under one key.
theorem keys_of_exports (h : Lists c services document) (hexports : Exports c document) :
    ∀ a ∈ c.domainTopics, ∀ b ∈ c.domainTopics, channelKey a = channelKey b → a = b := by
  have hkeys : Entries.keys (channelsOf document) =
      ((channelsOf document).map fun entry => address entry.2).map channelKey := by
    rw [Entries.keys, List.map_map]
    apply List.map_congr_left
    intro entry hentry
    obtain ⟨topic, -, rfl⟩ := h.mem_channels hentry
    rfl
  have hnodup : (Entries.keys (channelsOf document)).Nodup := by
    rw [h.channels]
    exact Entries.nodup_keys_update [] _ List.nodup_nil
  rw [hkeys] at hnodup
  have hdomain : (c.domainTopics.map channelKey).Nodup :=
    (hexports.channels.map channelKey).nodup_iff.mp hnodup
  exact fun a ha b hb hsame => List.inj_on_of_nodup_map hdomain ha hb hsame

-- A message that is found under its reference is found under its own key.
theorem verbatim_of_exports (h : Lists c services document) (hexports : Exports c document) :
    ∀ topic ∈ c.domainTopics, Verbatim topic := by
  intro topic htopic
  have hchannel := h.channel_mem (keys_of_exports h hexports) htopic
  obtain ⟨key, value, hmessages, message, hmessage, hname, hrefers⟩ :=
    hexports.messages _ hchannel
  rw [messages_channelEntry] at hmessages
  cases hmessages
  obtain ⟨other, -, rfl⟩ := h.mem_messages hmessage
  rw [name_messageEntry, address_channelEntry] at hname
  subst hname
  exact verbatim_messageKey.mp (segments_self_iff.mp (refersTo_message.mp hrefers))

-- When the AsyncAPI export is faithful.
theorem reachable_exports_iff [Calendar] [TrueDivision] {posts : List Post} {c : Catalog}
    (h : Reachable posts c) (sources : List ServiceEndpoint) (generatedAt : Str) :
    (∃ artifacts, buildArtifacts c sources generatedAt = .ok artifacts ∧ Exports c artifacts.asyncapi) ↔
      c.Buildable ∧
        (∀ a ∈ c.domainTopics, ∀ b ∈ c.domainTopics, channelKey a = channelKey b → a = b) ∧
        ∀ topic ∈ c.domainTopics, Verbatim topic := by
  have hok := @buildArtifacts_ok_iff _ _ _ c sources generatedAt h.named
  have hlists {artifacts : Artifacts} (hbuild : buildArtifacts c sources generatedAt = .ok artifacts) :
      Lists c c.snapshotServices artifacts.asyncapi := by
    obtain ⟨fleet, hfleet, hprojects⟩ := buildArtifacts_eq_ok.mp hbuild
    have hasked := (topology_ok_iff fleet generatedAt).mp ⟨_, hprojects.topology⟩
    obtain ⟨hchannels, hoperations, hmessages⟩ := asyncapi_eq hfleet hasked hprojects.asyncapi
    exact ⟨hchannels, hoperations, hmessages⟩
  constructor
  · rintro ⟨artifacts, hbuild, hexports⟩
    have hlisted := hlists hbuild
    exact ⟨hok.mp ⟨artifacts, hbuild⟩, keys_of_exports hlisted hexports,
      verbatim_of_exports hlisted hexports⟩
  · rintro ⟨hbuildable, hkeys, hverbatim⟩
    obtain ⟨artifacts, hbuild⟩ := hok.mpr hbuildable
    exact ⟨artifacts, hbuild, exports_of_keys (hlists hbuild) hkeys hverbatim⟩

end Export

section Example

-- One service that handles a topic and sends another.
def orderingBody : Fields :=
  [Json.field "service" (.str "shop"),
    Json.field "requests" (.arr [.obj [Json.field "topic" (.str "order:create")]]),
    Json.field "sends" (.arr [.obj [Json.field "topic" (.str "order:create")]])]

theorem ordering_exports :
    letI := UnicodeData.ascii
    letI := noCalendar
    letI := wholeDivision
    ∃ artifacts, buildArtifacts (Catalog.empty.run [⟨.register, orderingBody⟩]) [] "now" = .ok artifacts ∧
      Exports (Catalog.empty.run [⟨.register, orderingBody⟩]) artifacts.asyncapi := by
  let _ := UnicodeData.ascii
  let _ := noCalendar
  let _ := wholeDivision
  let c := Catalog.empty.run [⟨.register, orderingBody⟩]
  have hreachable : Reachable [⟨.register, orderingBody⟩] c := .ingest .empty _
  have hok : (buildArtifacts c [] "now").isOk = true := by decide +kernel
  have hbuildable : c.Buildable := (buildArtifacts_ok_iff hreachable.named).mp (Except.isOk_iff.mp hok)
  have hdomain : c.domainTopics = [("order:create" : Str)] := by decide +kernel
  refine (reachable_exports_iff hreachable [] "now").mpr ⟨hbuildable, ?_, ?_⟩ <;> rw [hdomain] <;>
    decide

-- Two topics that differ in what the key folds.
def foldedBody : Fields :=
  [Json.field "service" (.str "shop"),
    Json.field "requests" (.arr [.obj [Json.field "topic" (.str "order:create")],
      .obj [Json.field "topic" (.str "order_create")]])]

-- The artifacts are built, and one of the two topics has no channel in them.
theorem folded_not_exports :
    letI := UnicodeData.ascii
    letI := noCalendar
    letI := wholeDivision
    let c := Catalog.empty.run [⟨.register, foldedBody⟩]
    Reachable [⟨.register, foldedBody⟩] c ∧ c.Buildable ∧
      ("order:create" : Str) ∈ c.domainTopics ∧ ("order_create" : Str) ∈ c.domainTopics ∧
      channelKey "order:create" = channelKey "order_create" ∧
      ¬∃ artifacts, buildArtifacts c [] "now" = .ok artifacts ∧ Exports c artifacts.asyncapi := by
  let _ := UnicodeData.ascii
  let _ := noCalendar
  let _ := wholeDivision
  let c := Catalog.empty.run [⟨.register, foldedBody⟩]
  have hreachable : Reachable [⟨.register, foldedBody⟩] c := .ingest .empty _
  have hevents : c.events = [] := by decide +kernel
  have hcallers (topic : Str) : c.observedCallers topic = .ok Dict.empty := by
    rw [Catalog.observedCallers, hevents]
    rfl
  have hhandlers (topic : Str) : c.observedHandlers topic = .ok Dict.empty := by
    rw [Catalog.observedHandlers, hevents]
    rfl
  have hbuildable : c.Buildable :=
    ⟨by decide +kernel, by decide +kernel, fun topic _ _ => ⟨_, hcallers topic⟩,
      fun topic _ _ => ⟨_, hhandlers topic⟩⟩
  have hcolon : ("order:create" : Str) ∈ c.domainTopics :=
    mem_domainTopics.mpr ⟨by decide +kernel, by decide +kernel⟩
  have hunder : ("order_create" : Str) ∈ c.domainTopics :=
    mem_domainTopics.mpr ⟨by decide +kernel, by decide +kernel⟩
  refine ⟨hreachable, hbuildable, hcolon, hunder, by decide, fun hexports => ?_⟩
  obtain ⟨artifacts, hbuild, hexports⟩ := hexports
  obtain ⟨fleet, hfleet, hprojects⟩ := buildArtifacts_eq_ok.mp hbuild
  have hasked := (topology_ok_iff fleet "now").mp ⟨_, hprojects.topology⟩
  obtain ⟨hchannels, hoperations, hmessages⟩ := asyncapi_eq hfleet hasked hprojects.asyncapi
  have hsame := keys_of_exports ⟨hchannels, hoperations, hmessages⟩ hexports _ hcolon _ hunder (by decide)
  exact absurd hsame (by decide)

end Example

end Benzene.Mesh
