import Benzene.Contract.Served
import Benzene.Mesh.Topology

namespace Benzene.Mesh.Tracing

open Benzene.Data
open Benzene.Contract (HashFunction Program projection)
open Benzene.Contract.Derivation (Info Document Entry Registrations deriveDocument deriveDocument_listed
  deriveDocument_topics served getField_served getField_served_member)
open SpanTree (handedAll)

section Documents

variable [UnicodeData] {info : Info} {document : Document} {contractHash registrationHash : Str}

theorem mem_filed {raw : List Json} {fields : Fields} {member : Member} {payload : Fields}
    (hget : Json.getField payload member.key = .arr raw) : fields ∈ specEntries payload member ↔
      .obj fields ∈ raw ∧ (Json.getField fields "topic").truthy = true ∧
        isReservedTopic (entryTopic fields) = false := by
  unfold specEntries
  rw [hget]
  dsimp only
  rw [List.mem_filterMap]
  constructor
  · rintro ⟨value, hvalue, hfiled⟩
    cases value with
    | obj entry =>
        dsimp only at hfiled
        split at hfiled
        · rename_i hkept
          cases hfiled
          exact ⟨hvalue, by simpa using hkept⟩
        · cases hfiled
    | _ => cases hfiled
  · rintro ⟨hvalue, htruthy, hreserved⟩
    exact ⟨_, hvalue, by simp [htruthy, hreserved]⟩

omit [UnicodeData] in
theorem getField_listing (document : Document) (member : Member) : ∃ name,
    Json.getField document.body member.key = .arr ((document.listing member).map (Entry.toPayload name)) := by
  cases member with
  | requests => exact ⟨"request", rfl⟩
  | events => exact ⟨"message", rfl⟩
  | sends => exact ⟨"request", rfl⟩

-- The collector files the topics that a document lists.
theorem mem_specTopicIds_served {members : List Member} {topic : Str} :
    topic ∈ specTopicIds (served info document contractHash registrationHash) members ↔
      topic ≠ [] ∧ isReservedTopic topic = false ∧
        ∃ member ∈ members, ∃ entry ∈ document.listing member, entry.topic = topic := by
  rw [mem_specTopicIds]
  constructor
  · rintro ⟨member, hmember, fields, hfields, rfl⟩
    obtain ⟨name, hlisting⟩ := getField_listing document member
    obtain ⟨hentry, htruthy, hreserved⟩ := (mem_filed ((getField_served_member member).trans hlisting)).mp hfields
    obtain ⟨entry, hmem, hpayload⟩ := List.mem_map.mp hentry
    cases hpayload
    refine ⟨?_, hreserved, member, hmember, entry, hmem, rfl⟩
    change (Json.str entry.topic).truthy = true at htruthy
    show entry.topic ≠ []
    simpa [Json.truthy] using htruthy
  · rintro ⟨hnonempty, hreserved, member, hmember, entry, hmem, rfl⟩
    obtain ⟨name, hlisting⟩ := getField_listing document member
    refine ⟨member, hmember, entry.fields name, (mem_filed ((getField_served_member member).trans hlisting)).mpr ?_,
      rfl⟩
    refine ⟨List.mem_map_of_mem hmem, ?_, hreserved⟩
    show (Json.str entry.topic).truthy = true
    simpa [Json.truthy] using hnonempty

end Documents

section Participants

variable [UnicodeData] {hash : HashFunction}

-- A service that derives its document and registers with it.
structure Participant (hash : HashFunction) where
  program : Program
  fuel : Nat
  mappings : Str × Str → List (Str × Str)
  registrations : Registrations
  info : Info
  document : Document
  payload : Fields
  named : info.service ≠ []
  derived : deriveDocument program fuel mappings registrations = .ok document
  served : document.toPayload hash info = .ok payload

namespace Participant

-- What a service does under a topic, it declares; what is reserved it need not.
def Declares (participant : Participant hash) (members : List Member) (topic : Str) : Prop :=
  isReservedTopic topic = true ∨
    topic ≠ [] ∧ ∃ member ∈ members, ∃ declared ∈ participant.registrations.declared member, declared.topic = topic

theorem payload_eq (participant : Participant hash) : ∃ contractHash registrationHash,
    participant.payload =
      Contract.Derivation.served participant.info participant.document contractHash registrationHash := by
  have hserved := participant.served
  obtain ⟨contractHash, -, hserved⟩ := Except.bind_eq_ok.mp hserved
  obtain ⟨registrationHash, -, hserved⟩ := Except.bind_eq_ok.mp hserved
  exact ⟨contractHash, registrationHash, (Except.ok.inj hserved).symm⟩

theorem registers (participant : Participant hash) :
    (⟨.register, participant.payload⟩ : Post).registers = some participant.info.service := by
  obtain ⟨contractHash, registrationHash, hpayload⟩ := participant.payload_eq
  have hservice : Json.getField participant.payload "service" = .str participant.info.service := by
    rw [hpayload]
    exact getField_served.2.1
  have htruthy : (Json.str participant.info.service).truthy = true := by simpa [Json.truthy] using participant.named
  have hrequire : require participant.payload "service" = .ok participant.info.service := by
    unfold require
    rw [hservice]
    exact if_pos htruthy
  unfold Post.registers
  dsimp only
  rw [hrequire]
  rfl

theorem Declares.filed {participant : Participant hash} {members : List Member} {topic : Str}
    (h : participant.Declares members topic) :
    isReservedTopic topic = true ∨ topic ∈ specTopicIds participant.payload members := by
  obtain ⟨contractHash, registrationHash, hpayload⟩ := participant.payload_eq
  rcases hreserved : isReservedTopic topic with _ | _
  · right
    rcases h with habsurd | ⟨hnonempty, member, hmember, hdeclared⟩
    · rw [hreserved] at habsurd
      cases habsurd
    · rw [hpayload, mem_specTopicIds_served]
      exact ⟨hnonempty, hreserved, member, hmember,
        (deriveDocument_topics participant.derived member topic).mpr hdeclared⟩
  · exact .inl rfl

-- The registration of its service that the collector goes by: the last.
def Latest (participants : List (Participant hash)) (participant : Participant hash) : Prop :=
  ∃ before after, participants = before ++ participant :: after ∧
    ∀ later ∈ after, later.info.service ≠ participant.info.service

theorem latest_of_get? {participants : List (Participant hash)} {name : Str} {body : Fields}
    (h : (latestRegistrations
      (participants.map fun participant => ⟨.register, participant.payload⟩)).get? name = some body) :
    ∃ participant, Latest participants participant ∧ participant.info.service = name ∧ participant.payload = body := by
  induction participants using List.reverseRecOn with
  | nil => cases h
  | append_singleton before last ih =>
      rw [List.map_append, latestRegistrations, List.foldl_append] at h
      have hnote (latest : Dict Str Fields) : noteRegistration latest ⟨.register, last.payload⟩ =
          latest.set last.info.service last.payload := by
        unfold noteRegistration
        rw [last.registers]
      rw [List.map_singleton, List.foldl_cons, List.foldl_nil, hnote, Dict.get?_set] at h
      split at h
      · rename_i hname
        exact ⟨last, ⟨before, [], rfl, fun later hlater => absurd hlater List.not_mem_nil⟩, hname, Option.some.inj h⟩
      · rename_i hname
        obtain ⟨participant, ⟨earlier, after, rfl, hafter⟩, rfl, rfl⟩ := ih h
        refine ⟨participant, ⟨earlier, after ++ [last], by simp, ?_⟩, rfl, rfl⟩
        intro later hlater
        rcases List.mem_append.mp hlater with hlater | hlater
        · exact hafter later hlater
        · rw [List.mem_singleton.mp hlater]
          exact hname

end Participant

section Fleets

variable {ρ : Type} {process : Process ρ} {deliveries : List (Delivery ρ)}

-- A record says what the last participant of its name declares.
theorem Participant.recorded {participants : List (Participant hash)} {name : Str}
    (h : ((Catalog.empty.run
      ((participants.map Participant.payload).map (Post.mk .register))).serviceOrNew name).registered = true) :
    ∃ participant, Latest participants participant ∧ participant.info.service = name ∧
      ((Catalog.empty.run
        ((participants.map Participant.payload).map (Post.mk .register))).serviceOrNew name).consumed =
          specTopicIds participant.payload [.requests] ∧
      ((Catalog.empty.run
        ((participants.map Participant.payload).map (Post.mk .register))).serviceOrNew name).produced =
          specTopicIds participant.payload [.events, .sends] := by
  have htracks := tracks_run tracks_empty ((participants.map Participant.payload).map (Post.mk .register)) name
  rw [htracks.registered] at h
  obtain ⟨body, hbody⟩ := Option.isSome_iff_exists.mp h
  have hlatest :
      (latestRegistrations (participants.map fun participant => ⟨.register, participant.payload⟩)).get? name =
        some body := by
    rw [List.map_map] at hbody
    exact hbody
  obtain ⟨participant, hlast, hname, rfl⟩ := Participant.latest_of_get? hlatest
  refine ⟨participant, hlast, hname, ?_, ?_⟩
  · rw [htracks.consumed, hbody]
    rfl
  · rw [htracks.produced, hbody]
    rfl

-- A fleet that does what it declares shows no drift, in whatever order its spans arrive.
theorem enrolled_undrifting (hlower : ∀ text, Str.lower (Str.lower text) = Str.lower text) (hsound : process.Sound)
    (htraceable : ∀ delivery ∈ deliveries, Traceable delivery) (start : ρ)
    (hdistinct : Distinct deliveries (deliver process deliveries ⟨{}, [], start⟩).handed)
    (participants : List (Participant hash)) (batches : List (List Span))
    (hperm : batches.flatten.Perm (deliver process deliveries ⟨{}, [], start⟩).handed)
    (hhandles : ∀ participant, Participant.Latest participants participant → ∀ topic,
      (participant.info.service, .str topic) ∈ handledBy deliveries → participant.Declares [.requests] topic)
    (hsends : ∀ participant, Participant.Latest participants participant → ∀ topic callee,
      participant.info.service ≠ callee → (participant.info.service, .str topic, callee) ∈ edgesOf deliveries →
      participant.Declares [.events, .sends] topic)
    (edge : Edge) : ¬(observing (participants.map Participant.payload) batches).HoldsDrift edge := by
  intro hheld
  obtain ⟨trees, hhanded, hrecording⟩ := deliver_recording hlower hsound htraceable ⟨{}, [], start⟩
  rw [List.nil_append] at hhanded
  rw [hhanded] at hdistinct hperm
  have hshows := hrecording.showsDrift hdistinct _ hperm hheld
  unfold ShowsDrift at hshows
  rw [(collected_observing hrecording _ hperm).records] at hshows
  rcases hshows with ⟨hdrift, hhandled⟩ | ⟨hdrift, callee, hforeign, hedge⟩
  · unfold consumerDrift isUndeclared at hdrift
    simp only [Bool.and_eq_true, decide_eq_true_eq, Bool.not_eq_true'] at hdrift
    obtain ⟨-, ⟨hregistered, hundeclared⟩, hreserved⟩ := hdrift
    obtain ⟨participant, hlast, hname, hconsumed, -⟩ := Participant.recorded hregistered
    rcases (hhandles participant hlast edge.2 (hname ▸ hhandled)).filed with hexempt | hfiled
    · rw [hreserved] at hexempt
      cases hexempt
    · exact hundeclared (hconsumed ▸ hfiled)
  · unfold providerDrift isUndeclared at hdrift
    simp only [Bool.and_eq_true, decide_eq_true_eq, Bool.not_eq_true'] at hdrift
    obtain ⟨-, ⟨hregistered, hundeclared⟩, hreserved⟩ := hdrift
    obtain ⟨participant, hlast, hname, -, hproduced⟩ := Participant.recorded hregistered
    rcases (hsends participant hlast edge.2 callee (hname ▸ hforeign) (hname ▸ hedge)).filed with hexempt | hfiled
    · rw [hreserved] at hexempt
      cases hexempt
    · exact hundeclared (hproduced ▸ hfiled)

end Fleets

end Participants

section Sample

def textExchange (topic : Str) : Contract.Derivation.Exchange := ⟨topic, [], .atom (.primitive .str), .noPayload⟩

def textEntry (topic : Str) : Entry := ⟨topic, [], .obj (Contract.Derivation.typed "string"), none, []⟩

-- A digest that tells documents apart.
def written [UnicodeData] : HashFunction := fun value => .ok value.repr

-- The order service and the payment service, with contracts that say what they do.
def ordersRegistrations : Registrations := ⟨[textExchange "order:place"], [], [textExchange "payment:take"]⟩

def ordersDocument : Document := ⟨[textEntry "order:place"], [], [textEntry "payment:take"], []⟩

def paymentsRegistrations : Registrations := ⟨[textExchange "payment:take"], [], []⟩

def paymentsDocument : Document := ⟨[textEntry "payment:take"], [], [], []⟩

def servedAs [UnicodeData] (service : Str) (document : Document) : Fields :=
  (document.toPayload written { service := service }).toOption.getD []

theorem deriveDocument_orders : letI := UnicodeData.ascii
    deriveDocument ⟨[], fun _ => []⟩ 1 (fun _ => []) ordersRegistrations = .ok ordersDocument := rfl

theorem deriveDocument_payments : letI := UnicodeData.ascii
    deriveDocument ⟨[], fun _ => []⟩ 1 (fun _ => []) paymentsRegistrations = .ok paymentsDocument := rfl

theorem served_orders : letI := UnicodeData.ascii
    ordersDocument.toPayload written { service := "orders" } = .ok (servedAs "orders" ordersDocument) := rfl

theorem served_payments : letI := UnicodeData.ascii
    paymentsDocument.toPayload written { service := "payments" } = .ok (servedAs "payments" paymentsDocument) := rfl

theorem orders_named : ("orders" : Str) ≠ [] := by decide

theorem payments_named : ("payments" : Str) ≠ [] := by decide

def enrolled : List (@Participant UnicodeData.ascii (@written UnicodeData.ascii)) :=
  [@Participant.mk UnicodeData.ascii (@written UnicodeData.ascii) ⟨[], fun _ => []⟩ 1 (fun _ => [])
      ordersRegistrations { service := "orders" } ordersDocument
      (@servedAs UnicodeData.ascii "orders" ordersDocument) orders_named deriveDocument_orders served_orders,
    @Participant.mk UnicodeData.ascii (@written UnicodeData.ascii) ⟨[], fun _ => []⟩ 1 (fun _ => [])
      paymentsRegistrations { service := "payments" } paymentsDocument
      (@servedAs UnicodeData.ascii "payments" paymentsDocument) payments_named deriveDocument_payments
      served_payments]

theorem enrolled_undrifting_order : letI := UnicodeData.ascii
    ¬(observing (enrolled.map Participant.payload) [(deliver counting [(orderCall, [])] ⟨{}, [], 0⟩).handed]).HoldsDrift
      ("payments", "payment:take") := by
  let _ := UnicodeData.ascii
  have hmem {participant : Participant written} (h : Participant.Latest enrolled participant) :
      participant ∈ enrolled := by
    obtain ⟨before, after, heq, -⟩ := h
    rw [heq]
    exact List.mem_append_right _ List.mem_cons_self
  apply enrolled_undrifting Transport.Aws.lower_lower_ascii sound_counting traceable_orderCall 0 distinct_orderCall
    enrolled [(deliver counting [(orderCall, [])] ⟨{}, [], 0⟩).handed] (.of_eq (List.append_nil _))
  · intro participant hlatest topic hhandled
    right
    rcases List.mem_pair.mp (hmem hlatest) with rfl | rfl
    · rcases List.mem_pair.mp hhandled with heq | heq
      · cases heq
      · cases heq
        exact ⟨by decide, .requests, List.mem_cons_self, _, List.mem_cons_self, rfl⟩
    · rcases List.mem_pair.mp hhandled with heq | heq
      · cases heq
        exact ⟨by decide, .requests, List.mem_cons_self, _, List.mem_cons_self, rfl⟩
      · cases heq
  · intro participant hlatest topic callee hforeign hedge
    right
    rcases List.mem_pair.mp (hmem hlatest) with rfl | rfl
    · cases List.mem_singleton.mp hedge
      exact ⟨by decide, .sends, List.mem_cons_of_mem _ List.mem_cons_self, _, List.mem_cons_self, rfl⟩
    · cases List.mem_singleton.mp hedge

end Sample

end Benzene.Mesh.Tracing
