import Benzene.Codegen.Names
import Benzene.Codegen.Types
import Benzene.Contract.Closure

namespace Benzene.Codegen

open Benzene.Data
open Benzene.Core (underscore)
open Benzene.Contract (ContractDocument RequestResponse HashFunction applyTopicScope contractHash toRawDocument)

section Methods

structure Method where
  name : Str
  topic : Str
  requestType : Str
  responseType : Str

-- `topic.split`.
def topicText : Json → Except PyError Str
  | .str topic => .ok topic
  | _ => .error ⟨.attributeError, []⟩

variable [IdentifierData]

-- The name of a method whose default one is in use.
def secondMethodName (topic : Str) : Str := defaultMethodName topic ++ underscore :: topicIdentifier topic

def methodName (used : List Str) (topic : Str) : Str :=
  if defaultMethodName topic ∈ used then secondMethodName topic else defaultMethodName topic

-- A handler without a response returns no payload.
def renderMethod (request : RequestResponse) (topic name : Str) : Method where
  name := name
  topic := topic
  requestType := getTypeName request.request
  responseType := if request.response = .null then "None" else getTypeName request.response

def renderMethods (used : List Str) : List RequestResponse → Except PyError (List Method)
  | [] => .ok []
  | request :: rest => do
      let topic ← topicText request.topic
      let name := methodName used topic
      return renderMethod request topic name :: (← renderMethods (name :: used) rest)

end Methods

section Modules

-- A generated module: the source of each component, the client's class with its methods,
-- its factory and two constants.
structure GeneratedClient where
  schemas : List SchemaSource
  methods : List Method
  requiredTopics : List Json
  contractHash : Str
  className : Str
  factoryName : Str

-- What every module imports and defines, the optional imports among it.
def fixedNames : List Str :=
  ["annotations", "dataclass", "field", "Any", "Union", "cast", "MessageSender", "Result", "REQUIRED_TOPICS",
    "CONTRACT_HASH"]

def GeneratedClient.moduleNames (client : GeneratedClient) : List Str :=
  fixedNames ++ [client.className, client.factoryName]

variable [UnicodeData] [IdentifierData]

def clientName (serviceName : Str) : Str := className serviceName ++ ("Client" : Str)

def generateServiceClient (hash : HashFunction) (document : ContractDocument) (serviceName : Str)
    (topics : List Str) : Except PyError GeneratedClient := do
  let narrowed ← applyTopicScope document topics
  let contractHash ← contractHash hash (toRawDocument narrowed)
  let schemas ← renderSchemas narrowed.schemas
  let methods ← renderMethods [] narrowed.requests
  return {
    schemas := schemas
    methods := methods
    requiredTopics := narrowed.requests.map RequestResponse.topic
    contractHash := contractHash
    className := clientName serviceName
    factoryName := ("create_" : Str) ++ orDefault (topicIdentifier serviceName) "service" ++ ("_client" : Str) }

end Modules

section Taking

variable [IdentifierData]

-- A topic before these has the name for its method: its default name, or its second one
-- where an earlier topic has its default name.
inductive Taken : List Str → Str → Prop
  | first {topics front back : List Str} {topic : Str} (h : topics = front ++ topic :: back) :
      Taken topics (defaultMethodName topic)
  | second {topics front back : List Str} {topic : Str} (h : topics = front ++ topic :: back)
      (hfirst : Taken front (defaultMethodName topic)) : Taken topics (secondMethodName topic)

-- The names in use after some topics.
def usedAfter (topics : List Str) : List Str := topics.foldl (fun used topic => methodName used topic :: used) []

theorem usedAfter_append (topics : List Str) (topic : Str) :
    usedAfter (topics ++ [topic]) = methodName (usedAfter topics) topic :: usedAfter topics := by
  unfold usedAfter
  rw [List.foldl_append]
  rfl

theorem Taken.append {topics : List Str} {name : Str} (h : Taken topics name) (more : List Str) :
    Taken (topics ++ more) name := by
  cases h with
  | first h => exact .first (h ▸ List.append_assoc _ _ _)
  | second h hfirst => exact .second (h ▸ List.append_assoc _ _ _) hfirst

theorem taken_append_iff {topics : List Str} {topic name : Str} :
    Taken (topics ++ [topic]) name ↔ Taken topics name ∨ name = defaultMethodName topic ∨
      name = secondMethodName topic ∧ Taken topics (defaultMethodName topic) := by
  constructor
  · intro h
    -- the topic that has the name is the last one, or one before it
    have hsplit : ∀ {front back : List Str} {other : Str}, topics ++ [topic] = front ++ other :: back →
        (front = topics ∧ other = topic) ∨ ∃ middle, topics = front ++ other :: middle := by
      intro front back other heq
      rcases List.eq_nil_or_concat back with rfl | ⟨middle, last, rfl⟩
      · obtain ⟨hfront, hother⟩ := List.append_inj' heq rfl
        exact .inl ⟨hfront.symm, (List.cons.inj hother).1.symm⟩
      · rw [List.concat_eq_append, ← List.cons_append, ← List.append_assoc] at heq
        exact .inr ⟨middle, (List.append_inj' heq rfl).1⟩
    cases h with
    | first h =>
        rcases hsplit h with ⟨-, rfl⟩ | ⟨middle, hmiddle⟩
        · exact .inr (.inl rfl)
        · exact .inl (.first hmiddle)
    | second h hfirst =>
        rcases hsplit h with ⟨rfl, rfl⟩ | ⟨middle, hmiddle⟩
        · exact .inr (.inr ⟨rfl, hfirst⟩)
        · exact .inl (.second hmiddle hfirst)
  · rintro (h | rfl | ⟨rfl, h⟩)
    · exact h.append [topic]
    · exact .first rfl
    · exact .second rfl h

theorem mem_usedAfter {topics : List Str} {name : Str} : name ∈ usedAfter topics ↔ Taken topics name := by
  induction topics using List.reverseRecOn generalizing name with
  | nil =>
      constructor
      · intro h
        cases h
      · intro h
        cases h with
        | first h => simp at h
        | second h _ => simp at h
  | append_singleton topics topic ih =>
      rw [usedAfter_append, List.mem_cons, taken_append_iff, ← ih, ← ih]
      unfold methodName
      by_cases hused : defaultMethodName topic ∈ usedAfter topics
      · rw [if_pos hused]
        constructor
        · rintro (rfl | h)
          · exact .inr (.inr ⟨rfl, hused⟩)
          · exact .inl h
        · rintro (h | rfl | ⟨rfl, -⟩)
          · exact .inr h
          · exact .inr hused
          · exact .inl rfl
      · rw [if_neg hused]
        constructor
        · rintro (rfl | h)
          · exact .inr (.inl rfl)
          · exact .inl h
        · rintro (h | rfl | ⟨-, h⟩)
          · exact .inr h
          · exact .inl rfl
          · exact absurd h hused

-- No topic finds both of its names taken.
def FindsAName (topics : List Str) : Prop :=
  ∀ front topic back, topics = front ++ topic :: back →
    Taken front (defaultMethodName topic) → ¬Taken front (secondMethodName topic)

theorem findsAName_append_iff {topics : List Str} {topic : Str} :
    FindsAName (topics ++ [topic]) ↔ FindsAName topics ∧
      (Taken topics (defaultMethodName topic) → ¬Taken topics (secondMethodName topic)) := by
  constructor
  · intro h
    refine ⟨?_, h topics topic [] rfl⟩
    intro front other back heq
    apply h front other (back ++ [topic])
    rw [heq, List.append_assoc, List.cons_append]
  · rintro ⟨hrest, hlast⟩ front other back heq
    rcases List.eq_nil_or_concat back with rfl | ⟨middle, last, rfl⟩
    · obtain ⟨hfront, hother⟩ := List.append_inj' heq rfl
      rw [← hfront, ← (List.cons.inj hother).1]
      exact hlast
    · rw [List.concat_eq_append, ← List.cons_append, ← List.append_assoc] at heq
      exact hrest front other middle (List.append_inj' heq rfl).1

theorem nodup_usedAfter_iff {topics : List Str} : (usedAfter topics).Nodup ↔ FindsAName topics := by
  induction topics using List.reverseRecOn with
  | nil =>
      refine iff_of_true List.nodup_nil ?_
      intro front topic back heq
      simp at heq
  | append_singleton topics topic ih =>
      rw [usedAfter_append, List.nodup_cons, ih, findsAName_append_iff, ← mem_usedAfter, ← mem_usedAfter, and_comm]
      apply and_congr_right'
      unfold methodName
      by_cases hused : defaultMethodName topic ∈ usedAfter topics
      · simp [hused]
      · simp [hused]

end Taking

section Naming

-- The letters of a component's class.
def spelling (name : Str) : Str := orDefault (spelled name) "Schema"

-- The topics of the entries in scope.
def topicsInScope [UnicodeData] (document : ContractDocument) (topics : List Str) : List Str :=
  (document.requests.filter fun r => Contract.isInScope topics r.topic).map fun r => r.topic.text

-- Of the names a class could have, those of the module and the keywords.
def capitalImports : List Str := ["Any", "Union", "MessageSender", "Result"]

def reservedSpellings : List Str := capitalKeywords ++ capitalImports

structure ComponentsApart (serviceName : Str) (components : List Str) : Prop where
  apart : ∀ a ∈ components, ∀ b ∈ components, spelling a = spelling b → a = b
  unreserved : ∀ name ∈ components, spelling name ∉ reservedSpellings ∧
    spelling name ≠ spelling serviceName ++ ("Client" : Str)

theorem spelling_eq (name : Str) : spelling name = pascal name := (pascal_eq name).symm

variable [IdentifierData]

-- A class for each component and a method for each topic, each under a name of its own.
structure GeneratedClient.NamesEverything (client : GeneratedClient) (components topics : List Str) : Prop where
  components : (client.schemas.map SchemaSource.name).Perm ((distinct components).map Codegen.className)
  classes : (client.schemas.map SchemaSource.name).Nodup
  classNames : ∀ source ∈ client.schemas, Str.IsName source.name ∧ source.name ∉ client.moduleNames
  topics : client.methods.map Method.topic = topics
  methods : (client.methods.map Method.name).Nodup
  methodNames : ∀ method ∈ client.methods, Str.IsName method.name

theorem buildSchemaSource_name {name : Str} {schema : Json} {source : SchemaSource}
    (h : buildSchemaSource name schema = .ok source) : source.name = className name := by
  unfold buildSchemaSource at h
  split at h
  · split at h
    · cases h
      rfl
    · obtain ⟨_, -, h⟩ := Except.bind_eq_ok.mp h
      obtain ⟨_, -, h⟩ := Except.bind_eq_ok.mp h
      cases h
      rfl
  · cases h

-- Each component is written once.
theorem renderSchemas_perm {schemas : Fields} {sources : List SchemaSource} (h : renderSchemas schemas = .ok sources) :
    (sources.map SchemaSource.name).Perm ((distinct (Entries.keys schemas)).map className) := by
  obtain ⟨order, horder, hsources⟩ := Except.bind_eq_ok.mp h
  have hnames : sources.map SchemaSource.name = order.map className := by
    have hall := Except.mapM_eq_ok.mp hsources
    clear h horder hsources
    induction hall with
    | nil => rfl
    | cons hsource _ ih =>
        obtain ⟨schema, -, hsource⟩ := Except.bind_eq_ok.mp hsource
        rw [List.map_cons, List.map_cons, ih, buildSchemaSource_name hsource]
  rw [hnames]
  apply List.Perm.map
  apply (List.perm_ext_iff_of_nodup (PostOrder.visited_postOrder horder).settled.nodup (nodup_distinct _)).mpr
  intro name
  rw [PostOrder.mem_postOrder horder, mem_distinct]

theorem renderMethods_names {used : List Str} {requests : List RequestResponse} {methods : List Method}
    (h : renderMethods used requests = .ok methods) :
    requests.map RequestResponse.topic = methods.map (fun method => Json.str method.topic) ∧
      (methods.map Method.name).reverse ++ used =
        (methods.map Method.topic).foldl (fun used topic => methodName used topic :: used) used := by
  induction requests generalizing used methods with
  | nil =>
      cases h
      exact ⟨rfl, rfl⟩
  | cons request rest ih =>
      obtain ⟨topic, htopic, h⟩ := Except.bind_eq_ok.mp h
      obtain ⟨more, hmore, h⟩ := Except.bind_eq_ok.mp h
      cases h
      obtain ⟨htopics, hnames⟩ := ih hmore
      refine ⟨?_, ?_⟩
      · rw [List.map_cons, List.map_cons, htopics]
        unfold topicText at htopic
        split at htopic
        · rename_i heq
          cases htopic
          rw [heq]
          rfl
        · cases htopic
      · rw [List.map_cons, List.reverse_cons, List.append_assoc]
        exact hnames

theorem isName_secondMethodName (topic : Str) : Str.IsName (secondMethodName topic) := by
  constructor
  · apply Str.isIdentifier_of_asciiName
    apply Str.isAsciiName_append (isAsciiName_defaultMethodName topic)
    intro c hc
    rcases List.mem_cons.mp hc with rfl | hc
    · decide
    · exact Str.isNamePart_of_asciiName (isAsciiName_topicIdentifier topic) c hc
  · have hall : ∀ word ∈ Str.keywords, underscore ∉ word := by decide
    intro hkeyword
    exact hall _ hkeyword (List.mem_append_right _ List.mem_cons_self)

theorem isName_methodName (used : List Str) (topic : Str) : Str.IsName (methodName used topic) := by
  unfold methodName
  split
  · exact isName_secondMethodName topic
  · exact isName_defaultMethodName topic

theorem isName_of_mem_renderMethods {used : List Str} {requests : List RequestResponse} {methods : List Method}
    (h : renderMethods used requests = .ok methods) : ∀ method ∈ methods, Str.IsName method.name := by
  induction requests generalizing used methods with
  | nil =>
      cases h
      exact List.forall_mem_nil _
  | cons request rest ih =>
      obtain ⟨topic, -, h⟩ := Except.bind_eq_ok.mp h
      obtain ⟨more, hmore, h⟩ := Except.bind_eq_ok.mp h
      cases h
      exact List.forall_mem_cons.mpr ⟨isName_methodName used topic, ih hmore⟩

theorem className_eq_clientName_iff {name serviceName : Str} :
    className name = clientName serviceName ↔ spelling name = spelling serviceName ++ ("Client" : Str) := by
  rw [spelling_eq, spelling_eq]
  unfold clientName
  obtain ⟨c, rest, hpascal, -, hc⟩ := className_cases name
  obtain ⟨d, others, hother, -, hd⟩ := className_cases serviceName
  rcases hc with ⟨hdecimal, hc⟩ | ⟨hupper, hc⟩
  · rcases hd with ⟨-, hd⟩ | ⟨hupper, hd⟩
    · rw [hc, hd, List.cons_append, List.cons.injEq]
      exact and_iff_right rfl
    · rw [hc, hd]
      constructor
      · intro h
        exact absurd h.symm (pascal_append_ne serviceName _ _)
      · intro h
        rw [hpascal, hother] at h
        rw [← (List.cons.inj h).1, isUpperLetter_of_decimal hdecimal] at hupper
        cases hupper
  · rcases hd with ⟨hdecimal, hd⟩ | ⟨-, hd⟩
    · rw [hc, hd]
      constructor
      · intro h
        rw [← List.append_nil (pascal name)] at h
        exact absurd h (pascal_append_ne name _ _)
      · intro h
        rw [hpascal, hother] at h
        rw [(List.cons.inj h).1, isUpperLetter_of_decimal hdecimal] at hupper
        cases hupper
    · rw [hc, hd]

-- A name of a function or a constant.
def isOtherName (word : Str) : Bool := word.head?.any Str.isLowerLetter || underscore ∈ word.tail

theorem className_ne {name word : Str} (h : isOtherName word = true) : className name ≠ word := by
  rintro rfl
  obtain ⟨c, rest, hpascal, hall, hc⟩ := className_cases name
  have hrest : underscore ∉ pascal name := by
    intro hmem
    rw [hpascal] at hmem
    exact absurd (hall underscore hmem) (by decide)
  unfold isOtherName at h
  rcases hc with ⟨-, hc⟩ | ⟨hupper, hc⟩
  · rw [hc] at h
    rcases Bool.or_eq_true_iff.mp h with hlower | htail
    · have hlower : Str.isLowerLetter underscore = true := hlower
      exact absurd hlower (by decide)
    · exact hrest (of_decide_eq_true htail)
  · rw [hc] at h
    rcases Bool.or_eq_true_iff.mp h with hlower | htail
    · rw [hpascal] at hlower
      have hlower : Str.isLowerLetter c = true := hlower
      rw [isLowerLetter_of_upper hupper] at hlower
      cases hlower
    · exact hrest (List.mem_of_mem_tail (of_decide_eq_true htail))

theorem className_mem_fixedNames_iff {name : Str} : className name ∈ fixedNames ↔ pascal name ∈ capitalImports := by
  have hcapital : ∀ word ∈ capitalImports, word ∈ fixedNames ∧ word.head?.any Str.isUpperLetter = true := by decide
  have hother : ∀ word ∈ fixedNames, word ∈ capitalImports ∨ isOtherName word = true := by decide
  constructor
  · intro h
    rcases hother _ h with h | h
    · rwa [(className_eq_iff (hcapital _ h).2).mp rfl]
    · exact absurd rfl (className_ne h)
  · intro h
    rw [(className_eq_iff (hcapital _ h).2).mpr rfl]
    exact (hcapital _ h).1

-- A class has a name of its own where the component's letters are no others'.
theorem className_unreserved_iff {client : GeneratedClient} {name serviceName : Str}
    (hclass : client.className = clientName serviceName) (hfactory : isOtherName client.factoryName = true) :
    (Str.IsName (className name) ∧ className name ∉ client.moduleNames) ↔
      spelling name ∉ reservedSpellings ∧ spelling name ≠ spelling serviceName ++ ("Client" : Str) := by
  have hmodule : className name ∈ client.moduleNames ↔
      spelling name ∈ capitalImports ∨ spelling name = spelling serviceName ++ ("Client" : Str) := by
    rw [GeneratedClient.moduleNames, List.mem_append, className_mem_fixedNames_iff, ← spelling_eq,
      List.mem_cons, List.mem_singleton, hclass, className_eq_clientName_iff]
    have hne : className name ≠ client.factoryName := className_ne hfactory
    rw [or_iff_left hne]
  have hreserved : spelling name ∈ reservedSpellings ↔
      spelling name ∈ capitalKeywords ∨ spelling name ∈ capitalImports := List.mem_append
  rw [isName_className_iff, ← spelling_eq, hmodule, hreserved]
  tauto

variable [UnicodeData] {hash : HashFunction} {document : ContractDocument} {serviceName : Str} {topics : List Str}
  {client : GeneratedClient}

omit [IdentifierData] [UnicodeData] in
theorem applyTopicScope_eq_ok {narrowed : ContractDocument} (h : applyTopicScope document topics = .ok narrowed) :
    narrowed.requests = document.requests.filter (fun r => Contract.isInScope topics r.topic) ∧
      narrowed.schemas = document.schemas := by
  unfold applyTopicScope at h
  dsimp only at h
  split at h
  · cases h
    exact ⟨rfl, rfl⟩
  · split at h
    · cases h
    · split at h
      · cases h
      · cases h
        exact ⟨rfl, rfl⟩

-- What a client that is generated is made of.
theorem generateServiceClient_eq_ok (h : generateServiceClient hash document serviceName topics = .ok client) :
    renderSchemas document.schemas = .ok client.schemas ∧
      renderMethods [] (document.requests.filter fun r => Contract.isInScope topics r.topic) = .ok client.methods ∧
      client.className = clientName serviceName ∧ isOtherName client.factoryName = true := by
  obtain ⟨narrowed, hnarrowed, h⟩ := Except.bind_eq_ok.mp h
  obtain ⟨contractHash, -, h⟩ := Except.bind_eq_ok.mp h
  obtain ⟨schemas, hschemas, h⟩ := Except.bind_eq_ok.mp h
  obtain ⟨methods, hmethods, h⟩ := Except.bind_eq_ok.mp h
  obtain ⟨hrequests, hcomponents⟩ := applyTopicScope_eq_ok hnarrowed
  rw [hrequests] at hmethods
  rw [hcomponents] at hschemas
  cases h
  exact ⟨hschemas, hmethods, rfl, rfl⟩

-- Each entry in scope has its method.
theorem methods_topics (h : generateServiceClient hash document serviceName topics = .ok client) :
    client.methods.map Method.topic = topicsInScope document topics := by
  obtain ⟨-, hmethods, -, -⟩ := generateServiceClient_eq_ok h
  have htexts := congrArg (List.map Json.text) (renderMethods_names hmethods).1
  rw [List.map_map, List.map_map] at htexts
  exact htexts.symm

theorem nodup_methods_iff (h : generateServiceClient hash document serviceName topics = .ok client) :
    (client.methods.map Method.name).Nodup ↔ FindsAName (topicsInScope document topics) := by
  obtain ⟨-, hmethods, -, -⟩ := generateServiceClient_eq_ok h
  have hnames := (renderMethods_names hmethods).2
  rw [methods_topics h, List.append_nil] at hnames
  rw [← List.nodup_reverse, hnames]
  exact nodup_usedAfter_iff

-- Every class and every method has a name of its own where the components are spelled
-- apart and no topic finds both of its names taken.
theorem generateServiceClient_names_iff (h : generateServiceClient hash document serviceName topics = .ok client) :
    client.NamesEverything (Entries.keys document.schemas) (topicsInScope document topics) ↔
      ComponentsApart serviceName (Entries.keys document.schemas) ∧ FindsAName (topicsInScope document topics) := by
  obtain ⟨hschemas, hmethods, hclass, hfactory⟩ := generateServiceClient_eq_ok h
  have hperm := renderSchemas_perm hschemas
  have hclasses : (∀ source ∈ client.schemas, Str.IsName source.name ∧ source.name ∉ client.moduleNames) ↔
      ∀ name ∈ Entries.keys document.schemas, spelling name ∉ reservedSpellings ∧
        spelling name ≠ spelling serviceName ++ ("Client" : Str) := by
    constructor
    · intro h name hname
      have hmem := hperm.mem_iff.mpr (List.mem_map_of_mem (mem_distinct.mpr hname))
      obtain ⟨source, hsource, heq⟩ := List.mem_map.mp hmem
      have hnamed := h source hsource
      rw [heq] at hnamed
      exact (className_unreserved_iff hclass hfactory).mp hnamed
    · intro h source hsource
      obtain ⟨name, hname, heq⟩ := List.mem_map.mp (hperm.mem_iff.mp (List.mem_map_of_mem hsource))
      rw [← heq]
      exact (className_unreserved_iff hclass hfactory).mpr (h name (mem_distinct.mp hname))
  have hapart : (client.schemas.map SchemaSource.name).Nodup ↔
      ∀ a ∈ Entries.keys document.schemas, ∀ b ∈ Entries.keys document.schemas, spelling a = spelling b → a = b := by
    rw [hperm.nodup_iff, List.nodup_map_iff_inj_on (nodup_distinct _)]
    simp only [mem_distinct, className_inj, spelling_eq]
  constructor
  · intro hclient
    exact ⟨⟨hapart.mp hclient.classes, hclasses.mp hclient.classNames⟩, (nodup_methods_iff h).mp hclient.methods⟩
  · rintro ⟨hcomponents, hfinds⟩
    exact {
      components := hperm
      classes := hapart.mpr hcomponents.apart
      classNames := hclasses.mpr hcomponents.unreserved
      topics := methods_topics h
      methods := (nodup_methods_iff h).mpr hfinds
      methodNames := isName_of_mem_renderMethods hmethods }

end Naming

section Orders

-- A service of orders with a component for each name and one topic at each version.
def orderService (components versions : List Str) : ContractDocument where
  schemaDialect := "openapi-3.0"
  service := "orders"
  serviceVersion := .null
  versionScheme := .null
  description := .null
  requests := versions.map fun version => ⟨.str "order:get", .obj [], .null, .str version, []⟩
  events := []
  sends := []
  schemas := components.map fun name => (name, .obj [])
  messageEndpoint := .null
  transports := []
  contractHash := .null
  registrationHash := .null

def orderClient (components versions : List Str) : Except PyError GeneratedClient :=
  letI := UnicodeData.ascii
  letI := IdentifierData.ascii
  generateServiceClient (fun _ => .ok "hash") (orderService components versions) "orders" []

-- Two components and two versions of a topic are told apart.
theorem orderClient_named :
    letI := UnicodeData.ascii
    letI := IdentifierData.ascii
    ∃ client, orderClient ["Order", "order_item"] ["1", "2"] = .ok client ∧
      client.NamesEverything ["Order", "order_item"] ["order:get", "order:get"] := by
  let _ := UnicodeData.ascii
  let _ := IdentifierData.ascii
  obtain ⟨client, hclient⟩ : ∃ client, orderClient ["Order", "order_item"] ["1", "2"] = .ok client :=
    Except.isOk_iff.mp (by decide +kernel)
  refine ⟨client, hclient, (generateServiceClient_names_iff hclient).mpr ⟨?_, ?_⟩⟩
  · exact {
      apart := by decide +kernel
      unreserved := by decide +kernel }
  · exact nodup_usedAfter_iff.mp (by decide +kernel)

-- Two spellings of one name are one class, three versions of one topic have two names.
theorem orderClient_unnamed :
    letI := UnicodeData.ascii
    letI := IdentifierData.ascii
    ∃ client, orderClient ["OrderItem", "order_item"] ["1", "2", "3"] = .ok client ∧
      ¬(client.schemas.map SchemaSource.name).Nodup ∧ ¬(client.methods.map Method.name).Nodup := by
  let _ := UnicodeData.ascii
  let _ := IdentifierData.ascii
  obtain ⟨client, hclient⟩ : ∃ client, orderClient ["OrderItem", "order_item"] ["1", "2", "3"] = .ok client :=
    Except.isOk_iff.mp (by decide +kernel)
  obtain ⟨hschemas, -, -, -⟩ := generateServiceClient_eq_ok hclient
  refine ⟨client, hclient, ?_, ?_⟩
  · rw [(renderSchemas_perm hschemas).nodup_iff]
    decide +kernel
  · rw [nodup_methods_iff hclient, ← nodup_usedAfter_iff]
    decide +kernel

end Orders

end Benzene.Codegen
