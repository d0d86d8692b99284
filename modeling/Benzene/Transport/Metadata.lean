import Benzene.Core.Settlement
import Benzene.Data.Utf8

namespace Benzene.Transport

open Benzene.Data Benzene.Results Benzene.Core

section Metadata

-- The reserved names of a message's own metadata.
structure MetadataKeys where
  topic : Str := "topic"
  version : Str := "benzene-version"
  headers : Str := "benzene-headers"

-- What a broker's client hands over: nothing, bytes, or an object that is read by `str`.
inductive Native
  | none
  | bytes (content : List UInt8)
  | other (text : Str)
deriving DecidableEq

namespace Native

-- A name or a header is always read.
def replaced : Native → Str
  | .none => []
  | .bytes content => Str.utf8Replace content
  | .other text => text

-- A body is read strictly.
def decoded : Native → Except PyError Str
  | .none => .ok []
  | .bytes content =>
      match Str.utf8Decode content with
      | some text => .ok text
      | Option.none => .error ⟨.unicodeDecodeError, []⟩
  | .other text => .ok text

-- Bytes that are no UTF-8 cannot be read.
def Readable : Native → Prop
  | .bytes content => (Str.utf8Decode content).isSome = true
  | _ => True

theorem decoded_ok_iff (native : Native) : (∃ text, native.decoded = .ok text) ↔ native.Readable := by
  cases native with
  | none | other => exact ⟨fun _ => trivial, fun _ => ⟨_, rfl⟩⟩
  | bytes content =>
      cases hread : Str.utf8Decode content with
      | none => simp [decoded, Readable, hread]
      | some text => simp [decoded, Readable, hread]

theorem decoded_error {native : Native} {error : PyError} (h : native.decoded = .error error) :
    error = ⟨.unicodeDecodeError, []⟩ := by
  cases native with
  | none | other => cases h
  | bytes content =>
      unfold decoded at h
      cases hread : Str.utf8Decode content with
      | none =>
          simp only [hread] at h
          cases h
          rfl
      | some text =>
          simp only [hread] at h
          cases h

end Native

abbrev Attributes := List (Str × Str)

-- A later header takes the place of an earlier one of its name.
def decodeHeaders (raw : List (Str × Native)) : Attributes :=
  Entries.update [] (raw.map fun header => (header.1, header.2.replaced))

variable [UnicodeData]

-- The topic and the headers; a message without the topic's key has the empty topic.
def readMessageMetadata (metadata : Attributes) (keys : MetadataKeys) : Str × Attributes :=
  let headers := Entries.update [] (metadata.map fun entry => (Str.lower entry.1, entry.2))
  ((Entries.get? (Str.lower keys.topic) headers).getD [], Entries.erase (Str.lower keys.topic) headers)

def envelope (topic : Str) (headers : Attributes) (body : Str) : Fields :=
  [Json.field "topic" (.str topic), Json.field "headers" (.obj (Entries.mapValues Json.str headers)),
    Json.field "body" (.str body)]

-- The topic its metadata states, else the one it came by, and a body of text.
def decodeMessage (keys : MetadataKeys) (headers : List (Str × Native)) (cameBy body : Native) :
    Except PyError Fields := do
  let (topic, headers) := readMessageMetadata (decodeHeaders headers) keys
  let topic := if topic = [] then cameBy.replaced else topic
  let body ← body.decoded
  return envelope topic headers body

-- Only its body keeps a message from being decoded.
theorem decodeMessage_ok_iff {keys : MetadataKeys} {headers : List (Str × Native)} {cameBy body : Native} :
    (∃ fields, decodeMessage keys headers cameBy body = .ok fields) ↔ body.Readable := by
  rw [← Native.decoded_ok_iff]
  unfold decodeMessage
  cases body.decoded with
  | error error =>
      constructor
      · rintro ⟨fields, h⟩
        cases h
      · rintro ⟨text, h⟩
        cases h
  | ok text => exact ⟨fun _ => ⟨text, rfl⟩, fun _ => ⟨_, rfl⟩⟩

theorem decodeMessage_error {keys : MetadataKeys} {headers : List (Str × Native)} {cameBy body : Native}
    {error : PyError} (h : decodeMessage keys headers cameBy body = .error error) :
    error = ⟨.unicodeDecodeError, []⟩ := by
  unfold decodeMessage at h
  cases hbody : body.decoded with
  | error other =>
      rw [hbody] at h
      cases h
      exact Native.decoded_error hbody
  | ok text =>
      rw [hbody] at h
      cases h

-- A failure on a transport that has no response to send.
def messageHandlingError (topic status detail : Str) : PyError :=
  let message := ("Handler for topic " : Str) ++ Str.repr topic ++ (" failed with status " : Str) ++ Str.repr status
  ⟨.exception "MessageHandlingError", if detail = [] then message else message ++ (": " : Str) ++ detail⟩

theorem decodeMessage_envelope {keys : MetadataKeys} {headers : List (Str × Native)} {cameBy body : Native}
    {fields : Fields} (h : decodeMessage keys headers cameBy body = .ok fields) :
    ∃ topic attributes text, fields = envelope topic attributes text := by
  obtain ⟨text, -, hfields⟩ := Except.bind_eq_ok.mp h
  cases hfields
  exact ⟨_, _, text, rfl⟩

end Metadata

end Benzene.Transport
