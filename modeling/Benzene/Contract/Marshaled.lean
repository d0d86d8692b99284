import Benzene.Contract.Shared
import Benzene.Contract.Validated

namespace Benzene.Contract.Derivation

open Benzene.Data Benzene.Data.JsonSchema
open Benzene.Core (Value)
open Benzene.Contract.Payload (Declarations Entered jsonSchema admitted)
open Benzene.Mesh (Member)

section Documents

variable [UnicodeData] {program : Program} {fuel : Nat} {mappings : Str × Str → List (Str × Str)}
  {registrations : Registrations} {document : Document} {components : List Component}
  {outlined : Member → List Outlined} {asWritten : ClassId → Str → PyType}

theorem Standard.apart (h : Standard program) (start : Context → PyType → Prop) : Apart program start :=
  apart_of_noRootModels fun definition hmem => (h definition hmem).2

theorem Catalogued.resolves (h : Catalogued program registrations components outlined)
    (hstandard : Standard program) :
    Resolves program registrations.starts (resolveIn (byToken components)) (tokenOf components) := by
  intro key hkey
  have hapart := hstandard.apart registrations.starts
  obtain ⟨component, hmem, rfl⟩ := mem_keysOf.mp ((h.hoists_iff hapart).mp hkey)
  obtain ⟨⟨-, -, context, pyType, blueprint, hmet, hrule, hdescribes, hderived, hkeys⟩, -⟩ := h.adds.settled hmem
  rw [hapart.content_iff hmet hrule] at hdescribes
  have hschema : component.schema = (blueprint.derived (tokenOf components)).1 := by rw [← hderived]
  refine ⟨blueprint, hdescribes, fun other hother => (h.hoists_iff hapart).mpr (hkeys other hother), ?_⟩
  rw [tokenOf_of_mem h.adds.ordered.nodup hmem, resolveIn_of_get? (get?_byToken h.adds.ordered hmem), hschema]

def Document.listed (document : Document) : Member → List Entry
  | .requests => document.requests
  | .events => document.events
  | .sends => document.sends

-- An entry is listed with the schemas of its types.
theorem Catalogued.listed (h : Catalogued program registrations components outlined)
    (hlists : ∀ member, ∃ listed, document.listed member =
      sortEntries ((outlined member).map (Outlined.entry (componentName program) listed)))
    {member : Member} {entry : Declared} (hentry : entry ∈ registrations.declared member) :
    ∃ published ∈ document.listed member, published.topic = entry.topic ∧ published.version = entry.version ∧
      (∃ outline, Describes program topLevel entry.payload outline ∧
        (∀ key ∈ outline.ending.keys, key ∈ keysOf components) ∧
        published.payload = .obj (outline.write (componentName program))) ∧
      ∀ responseType, entry.response = some responseType → ∃ outline, Describes program topLevel responseType outline ∧
        (∀ key ∈ outline.ending.keys, key ∈ keysOf components) ∧
        published.response = some (.obj (outline.write (componentName program))) := by
  obtain ⟨outlinedEntry, houtlined, hdescribes⟩ := exists_of_mem_left (h.entries member) hentry
  have hkeys : ∀ key ∈ outlinedEntry.keys, key ∈ keysOf components :=
    fun key hkey => h.keys member key (List.mem_flatMap.mpr ⟨outlinedEntry, houtlined, hkey⟩)
  unfold Outlined.keys at hkeys
  obtain ⟨listed, hlisted⟩ := hlists member
  refine ⟨outlinedEntry.entry (componentName program) listed, ?_, ?_, ?_, ?_, ?_⟩
  · rw [hlisted, sortEntries, (sortOn_perm _ _).mem_iff]
    exact List.mem_map_of_mem houtlined
  · show outlinedEntry.declared.topic = _
    rw [hdescribes.same]
  · show outlinedEntry.declared.version = _
    rw [hdescribes.same]
  · exact ⟨outlinedEntry.payload, hdescribes.payload, fun key hkey => hkeys key (List.mem_append_left _ hkey), rfl⟩
  · intro responseType hresponse
    have hrelated := hdescribes.response
    rw [hresponse] at hrelated
    unfold Outlined.entry
    cases houtline : outlinedEntry.response with
    | none =>
        rw [houtline] at hrelated
        cases hrelated
    | some outline =>
        rw [houtline] at hrelated hkeys
        cases hrelated with
        | some hdescribed =>
            exact ⟨outline, hdescribed, fun key hkey => hkeys key (List.mem_append_right _ hkey), rfl⟩

-- What is written of a value of a type is accepted by the type's schema.
theorem Catalogued.accepts (h : Catalogued program registrations components outlined) {entryRefs : EntryRefs}
    (hfinish : finish components entryRefs = .ok document.schemas)
    (hregular : Regular program asWritten registrations.starts) (hshapes : SharesShapes components) {pyType : PyType}
    (hstarts : registrations.starts topLevel pyType) {outline : Outline}
    (hdescribes : Describes program topLevel pyType outline)
    (hkeys : ∀ key ∈ outline.ending.keys, key ∈ keysOf components) {value : Value} {json : Json}
    (htyped : HasType program asWritten [] pyType value) (hwrites : Writes value json) :
    Accepts (resolveIn document.schemas) (outline.write (componentName program)) json := by
  have hpublishing := h.publishing hfinish fun a ha b hb hname => .inl (hshapes a ha b hb hname)
  rw [hpublishing.alike json outline hdescribes.plain hkeys]
  apply htyped.fits hregular (fun context pyType hstart => (starts_types context pyType hstart).1)
    (h.resolves hregular.standard) hwrites ⟨pyType, .start hstarts, rfl⟩ (fun _ _ => rfl) outline hdescribes
  exact fun key hkey => (h.hoists_iff (hregular.standard.apart _)).mpr (hkeys key hkey)

-- Where generic classes are applied to simple types, the derivation ends: with a document or a refusal.
theorem Applied.ends (h : Applied program registrations.starts) :
    ∃ enough, ∀ fuel ≥ enough, (∃ document, deriveDocument program fuel mappings registrations = .ok document) ∨
      ∃ error, deriveDocument program fuel mappings registrations = .error error ∧ Refused error := by
  have hgrounded := h.grounded starts_types
  obtain ⟨enough, components, outlined, -, hsettles⟩ := Derives.document (hgrounded.derives starts_types) mappings
  refine ⟨enough, fun fuel hfuel => ?_⟩
  rw [hsettles fuel hfuel]
  cases hfinish : finish components ((outlined .requests ++ outlined .events ++ outlined .sends).map Outlined.refs) with
  | ok schemas => exact .inl ⟨_, rfl⟩
  | error error => exact .inr ⟨error, rfl, finish_refused hfinish⟩

end Documents

section Sample

-- What an annotation that does not resolve is read as.
def unresolved (_ : ClassId) (_ : Str) : PyType := .atom .any

end Sample

end Benzene.Contract.Derivation
