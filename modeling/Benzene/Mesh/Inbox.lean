import Benzene.Data.JsonRoundTrip
import Benzene.Data.Transition

namespace Benzene.Mesh

open Benzene.Data

section Bucket

-- The objects under a prefix, each with its text.
abbrev Bucket := Dict Str Str

-- One page of a listing in key order. `isTruncated` says that keys follow.
structure Listing where
  contents : List Str
  isTruncated : Bool
  nextContinuationToken : Option Str

def isAfter (continuation : Option Str) (key : Str) : Bool :=
  match continuation with
  | none => true
  | some last => last < key

-- The keys that a listing has still to yield.
def Bucket.remaining (bucket : Bucket) (pfx : Str) (continuation : Option Str) : List Str :=
  (Str.sorted bucket.keys).filter fun key => Str.startsWith key pfx && isAfter continuation key

-- `list_objects_v2`, where the service puts `count` keys on the page.
def Bucket.listObjects (bucket : Bucket) (pfx : Str) (continuation : Option Str) (count : Nat) :
    Listing :=
  let keys := bucket.remaining pfx continuation
  let isTruncated := decide (count < keys.length)
  ⟨keys.take count, isTruncated, if isTruncated then (keys.take count).getLast? else none⟩

-- What one `DeleteObjects` request accepts, and one page of a listing holds.
def maxKeys : Nat := 1000

-- `delete_objects`: a request for too many keys is rejected and deletes none.
def Bucket.deleteObjects (bucket : Bucket) (keys : List Str) : Except PyError Bucket :=
  if keys.length ≤ maxKeys then .ok (bucket.without keys)
  else .error ⟨.exception "ClientError", []⟩

end Bucket

section Drain

-- Where a drain stands: before the next page, within a page, or after the last.
inductive Phase
  | listing
  | reading (pending : List Str) (isTruncated : Bool) (token : Option Str)
  | deleting

-- The local variables of a drain. A body stands beside the key it was read at,
-- and `before` records which pushes had succeeded when the drain started.
structure Drain where
  before : List (Str × Json)
  keys : List Str := []
  bodies : List (Str × Fields) := []
  continuation : Option Str := none
  phase : Phase := .listing

-- A body that is no JSON object is skipped.
def parsed (text : Str) : Option Fields :=
  match Json.loads text with
  | some (.obj fields) => some fields
  | _ => none

def bodiesAt (bucket : Bucket) (key : Str) : List (Str × Fields) :=
  match (bucket.get? key).bind parsed with
  | some fields => [(key, fields)]
  | none => []

def Drain.page (drain : Drain) (bucket : Bucket) (pfx : Str) (count : Nat) : Drain :=
  let response := bucket.listObjects pfx drain.continuation count
  { drain with
    phase := .reading response.contents response.isTruncated response.nextContinuationToken }

-- The next object of the page, and the end of the page.
def Drain.read (drain : Drain) (bucket : Bucket) : Option Drain :=
  match drain.phase with
  | .reading (key :: pending) isTruncated token =>
      some { drain with
        keys := drain.keys ++ [key]
        bodies := drain.bodies ++ bodiesAt bucket key
        phase := .reading pending isTruncated token }
  | .reading [] true token => some { drain with continuation := token, phase := .listing }
  | .reading [] false _ => some { drain with phase := .deleting }
  | _ => none

-- The delete request and the return.
def Drain.finish (drain : Drain) (bucket : Bucket) : Except PyError Bucket :=
  if drain.keys = [] then .ok bucket else bucket.deleteObjects drain.keys

end Drain

section Inbox

-- A drain that has returned its bodies or raised.
structure Drained where
  before : List (Str × Json)
  outcome : Except PyError (List (Str × Fields))

def Drained.bodies (drained : Drained) : List (Str × Fields) :=
  match drained.outcome with
  | .ok bodies => bodies
  | .error _ => []

-- The bucket, the reader and the history: what was written at which key, the
-- pushes that succeeded and the drains that ended, in order.
structure Inbox where
  bucket : Bucket
  drain : Option Drain
  written : List (Str × Str)
  pushed : List (Str × Json)
  drained : List Drained

def Inbox.empty : Inbox := ⟨Dict.empty, none, [], [], []⟩

-- A push succeeds, or fails and leaves some text or nothing behind; the reader
-- starts a drain or goes on with it.
inductive InboxStep
  | push (uuid : Nat) (message : Json)
  | failedPush (uuid : Nat) (left : Option Str)
  | start
  | page (count : Nat)
  | read
  | finish

-- `<prefix>/<uuid4>.json`.
def objectKey (pfx : Str) (uuid : Nat) : Str := pfx ++ ("/" : Str) ++ Str.hexFixed 32 uuid ++ (".json" : Str)

def messageText (message : Json) : Str := Json.dumpsWith .spaced message

def Inbox.put (inbox : Inbox) (key text : Str) : Inbox :=
  { inbox with bucket := inbox.bucket.set key text, written := inbox.written ++ [(key, text)] }

-- One step. A key that was ever written is not drawn again, and there is one
-- reader.
def Inbox.step (pfx : Str) (inbox : Inbox) : InboxStep → Option Inbox
  | .push uuid message =>
      let key := objectKey pfx uuid
      if key ∈ Entries.keys inbox.written then none
      else
        let put := inbox.put key (messageText message)
        some { put with pushed := put.pushed ++ [(key, message)] }
  | .failedPush uuid left =>
      let key := objectKey pfx uuid
      if key ∈ Entries.keys inbox.written then none
      else
        match left with
        | some text => some (inbox.put key text)
        | none => some inbox
  | .start =>
      match inbox.drain with
      | none => some { inbox with drain := some { before := inbox.pushed } }
      | some _ => none
  | .page count =>
      match inbox.drain with
      | some drain =>
          match drain.phase with
          | .listing =>
              if 0 < count ∧ count ≤ maxKeys then
                some { inbox with drain := some (drain.page inbox.bucket (pfx ++ ("/" : Str)) count) }
              else none
          | _ => none
      | none => none
  | .read =>
      match inbox.drain with
      | some drain => (drain.read inbox.bucket).map fun drain => { inbox with drain := some drain }
      | none => none
  | .finish =>
      match inbox.drain with
      | some drain =>
          match drain.phase with
          | .deleting =>
              match drain.finish inbox.bucket with
              | .ok bucket =>
                  some { inbox with
                    bucket := bucket
                    drain := none
                    drained := inbox.drained ++ [⟨drain.before, .ok drain.bodies⟩] }
              | .error error =>
                  some { inbox with
                    drain := none
                    drained := inbox.drained ++ [⟨drain.before, .error error⟩] }
          | _ => none
      | none => none

-- The delete request of a drain names no more keys than the service accepts.
def WithinLimit (inbox : Inbox) : InboxStep → Prop
  | .finish => ∀ drain, inbox.drain = some drain → drain.keys.length ≤ maxKeys
  | _ => True

end Inbox

section Delivery

-- What the drains have returned so far.
def deliveries (drained : List Drained) : List (Str × Fields) := drained.flatMap Drained.bodies

-- Every drain has returned, and every successful push of an object is returned
-- by one drain, at the latest by the first that starts after it. Until then
-- its object stays in the bucket. A body comes back as JSON text brings it.
structure ExactlyOnce (inbox : Inbox) : Prop where
  returned : ∀ drained ∈ inbox.drained, ∃ bodies, drained.outcome = .ok bodies
  distinct : (Entries.keys inbox.pushed).Nodup
  once : (Entries.keys (deliveries inbox.drained)).Nodup
  genuine : ∀ delivery ∈ deliveries inbox.drained,
    ∃ text, (delivery.1, text) ∈ inbox.written ∧ parsed text = some delivery.2
  kept : ∀ push ∈ inbox.pushed, ∀ body, push.2.reread = .obj body →
    (push.1, body) ∈ deliveries inbox.drained ∨
      inbox.bucket.get? push.1 = some (messageText push.2)
  prompt : ∀ earlier last later, inbox.drained = earlier ++ last :: later →
    ∀ push ∈ last.before, ∀ body, push.2.reread = .obj body →
      (push.1, body) ∈ deliveries (earlier ++ [last])

theorem parsed_messageText {message : Json} {body : Fields} :
    parsed (messageText message) = some body ↔ message.reread = .obj body := by
  unfold parsed messageText
  rw [Json.loads_dumpsWith]
  cases message.reread <;> simp

theorem deliveries_append (a b : List Drained) : deliveries (a ++ b) = deliveries a ++ deliveries b := by
  simp [deliveries]

theorem deliveries_singleton (drained : Drained) : deliveries [drained] = drained.bodies := by
  simp [deliveries]

end Delivery

section Pages

-- In a list in order, what follows the last of the first `n` is the rest.
theorem filter_lt_last {keys : List Str} (h : keys.Pairwise (· < ·)) {n : Nat} {last : Str}
    (hlast : (keys.take n).getLast? = some last) :
    keys.filter (fun key => decide (last < key)) = keys.drop n := by
  have hsplit := List.take_append_drop n keys
  obtain ⟨init, hinit⟩ : ∃ init, keys.take n = init ++ [last] := by
    rw [List.getLast?_eq_some_iff] at hlast
    exact hlast
  rw [← hsplit, List.pairwise_append] at h
  obtain ⟨hfirst, -, hacross⟩ := h
  have hmem : last ∈ keys.take n := by
    rw [hinit]
    simp
  have hnone : (keys.take n).filter (fun key => decide (last < key)) = [] := by
    rw [List.filter_eq_nil_iff]
    intro key hkey
    rw [hinit] at hfirst hkey
    rw [List.pairwise_append] at hfirst
    have hle : key ≤ last := by
      rcases List.mem_append.mp hkey with hbefore | heq
      · exact le_of_lt (hfirst.2.2 key hbefore last (List.mem_singleton.mpr rfl))
      · exact le_of_eq (List.mem_singleton.mp heq)
    simpa using hle
  have hall : (keys.drop n).filter (fun key => decide (last < key)) = keys.drop n := by
    rw [List.filter_eq_self]
    intro key hkey
    simpa using hacross last hmem key hkey
  conv_lhs => rw [← hsplit]
  rw [List.filter_append, hnone, hall, List.nil_append]

variable {bucket : Bucket} {pfx : Str}

theorem remaining_strict (continuation : Option Str) :
    (bucket.remaining pfx continuation).Pairwise (· < ·) :=
  (Str.sorted_strict bucket.nodup).sublist List.filter_sublist

theorem mem_remaining {continuation : Option Str} {key : Str} :
    key ∈ bucket.remaining pfx continuation ↔
      key ∈ bucket.keys ∧ Str.startsWith key pfx = true ∧ isAfter continuation key = true := by
  simp [Bucket.remaining]

theorem isAfter_trans {continuation : Option Str} {last key : Str}
    (hlast : isAfter continuation last = true) (h : last < key) : isAfter continuation key = true := by
  cases continuation with
  | none => rfl
  | some start =>
      have hstart : start < last := by simpa [isAfter] using hlast
      simpa [isAfter] using lt_trans hstart h

-- After the last key of a page come the keys that were not on it.
theorem remaining_token {continuation : Option Str} {count : Nat} {last : Str}
    (h : ((bucket.remaining pfx continuation).take count).getLast? = some last) :
    bucket.remaining pfx (some last) = (bucket.remaining pfx continuation).drop count := by
  have hmem : last ∈ bucket.remaining pfx continuation :=
    List.mem_of_mem_take (List.mem_of_getLast? h)
  have hafter := (mem_remaining.mp hmem).2.2
  rw [← filter_lt_last (remaining_strict continuation) h]
  unfold Bucket.remaining
  rw [List.filter_filter]
  apply List.filter_congr
  intro key _
  by_cases hkey : last < key
  · have hstart := isAfter_trans hafter hkey
    have hlater : isAfter (some last) key = true := by simpa [isAfter] using hkey
    simp [hkey, hstart, hlater]
  · simp [isAfter, hkey]

end Pages

section Reader

def Drain.pending (drain : Drain) : List Str :=
  match drain.phase with
  | .reading pending _ _ => pending
  | _ => []

-- The drain will ask for a page from `continuation` on.
def Drain.Ahead (drain : Drain) (key : Str) : Prop :=
  match drain.phase with
  | .listing => isAfter drain.continuation key = true
  | .reading _ true token => isAfter token key = true
  | _ => False

def Drain.listed (drain : Drain) : List Str := drain.keys ++ drain.pending

-- A drain holds each key once, has read what it holds, and misses no object
-- that was there when it started.
structure Drain.Sound (drain : Drain) (bucket : Bucket) : Prop where
  nodup : drain.listed.Nodup
  present : ∀ key ∈ drain.listed, key ∈ bucket.keys
  bodies : drain.bodies = drain.keys.flatMap (bodiesAt bucket)
  behind : ∀ key ∈ drain.listed, ¬drain.Ahead key
  seen : ∀ key ∈ bucket.keys, key ∈ Entries.keys drain.before → key ∈ drain.listed ∨ drain.Ahead key

theorem sound_start (before : List (Str × Json)) (bucket : Bucket) :
    ({ before := before } : Drain).Sound bucket where
  nodup := List.nodup_nil
  present := by simp [Drain.listed, Drain.pending]
  bodies := rfl
  behind := by simp [Drain.listed, Drain.pending]
  seen := by
    intro key _ _
    exact Or.inr rfl

theorem sound_page {drain : Drain} {bucket : Bucket} (h : drain.Sound bucket) {pfx : Str}
    (hunder : ∀ key ∈ bucket.keys, Str.startsWith key pfx = true) (hphase : drain.phase = .listing)
    {count : Nat} (hcount : 0 < count) : (drain.page bucket pfx count).Sound bucket := by
  have hlisted : drain.listed = drain.keys := by simp [Drain.listed, Drain.pending, hphase]
  have hahead (key : Str) : drain.Ahead key ↔ isAfter drain.continuation key = true := by
    simp [Drain.Ahead, hphase]
  generalize hkeys : bucket.remaining pfx drain.continuation = keys
  have hstrict : keys.Pairwise (· < ·) := hkeys ▸ remaining_strict drain.continuation
  have hmem (key : Str) : key ∈ keys ↔ key ∈ bucket.keys ∧ isAfter drain.continuation key = true := by
    rw [← hkeys, mem_remaining]
    constructor
    · rintro ⟨hkey, -, hafter⟩
      exact ⟨hkey, hafter⟩
    · rintro ⟨hkey, hafter⟩
      exact ⟨hkey, hunder key hkey, hafter⟩
  have hpage : (drain.page bucket pfx count).listed = drain.keys ++ keys.take count := by
    simp [Drain.page, Drain.listed, Drain.pending, Bucket.listObjects, hkeys]
  have hnext (key : Str) : (drain.page bucket pfx count).Ahead key ↔
      count < keys.length ∧ isAfter (keys.take count).getLast? key = true := by
    by_cases htruncated : count < keys.length <;>
      simp [Drain.page, Drain.Ahead, Bucket.listObjects, hkeys, htruncated]
  refine ⟨?_, ?_, h.bodies, ?_, ?_⟩
  · rw [hpage, List.nodup_append]
    refine ⟨hlisted ▸ h.nodup, (hstrict.imp ne_of_lt).sublist (List.take_sublist _ _), ?_⟩
    rintro a ha b hb rfl
    exact h.behind a (hlisted ▸ ha) ((hahead a).mpr ((hmem a).mp (List.mem_of_mem_take hb)).2)
  · rw [hpage]
    intro key hkey
    rcases List.mem_append.mp hkey with hold | hnew
    · exact h.present key (hlisted ▸ hold)
    · exact ((hmem key).mp (List.mem_of_mem_take hnew)).1
  · rw [hpage]
    intro key hkey hnow
    obtain ⟨htruncated, hafter⟩ := (hnext key).mp hnow
    cases hlast : (keys.take count).getLast? with
    | none =>
        have hempty := List.getLast?_eq_none_iff.mp hlast
        rw [List.take_eq_nil_iff] at hempty
        rcases hempty with hzero | hnil
        · omega
        · simp [hnil] at htruncated
    | some last =>
        have hlastMem : last ∈ keys.take count := List.mem_of_getLast? hlast
        have hlt : last < key := by simpa [hlast, isAfter] using hafter
        rcases List.mem_append.mp hkey with hold | hnew
        · have hstart := ((hmem last).mp (List.mem_of_mem_take hlastMem)).2
          exact h.behind key (hlisted ▸ hold) ((hahead key).mpr (isAfter_trans hstart hlt))
        · have hrest : key ∈ keys.drop count := by
            rw [← filter_lt_last hstrict hlast]
            exact List.mem_filter.mpr ⟨List.mem_of_mem_take hnew, by simpa using hlt⟩
          have hnodup : (keys.take count ++ keys.drop count).Nodup := by
            rw [List.take_append_drop]
            exact hstrict.imp ne_of_lt
          exact (List.nodup_append.mp hnodup).2.2 key hnew key hrest rfl
  · rw [hpage]
    intro key hkey hbefore
    rcases h.seen key hkey hbefore with hold | hcoming
    · exact Or.inl (List.mem_append_left _ (hlisted ▸ hold))
    · have hlistedKey : key ∈ keys := (hmem key).mpr ⟨hkey, (hahead key).mp hcoming⟩
      rw [← List.take_append_drop count keys] at hlistedKey
      rcases List.mem_append.mp hlistedKey with hnow | hlater
      · exact Or.inl (List.mem_append_right _ hnow)
      · right
        have htruncated : count < keys.length := by
          have hpos := List.length_pos_of_mem hlater
          rw [List.length_drop] at hpos
          omega
        refine (hnext key).mpr ⟨htruncated, ?_⟩
        cases hlast : (keys.take count).getLast? with
        | none => rfl
        | some last =>
            rw [← filter_lt_last hstrict hlast] at hlater
            simpa [isAfter] using (List.mem_filter.mp hlater).2

theorem sound_read {drain next : Drain} {bucket : Bucket} (h : drain.Sound bucket)
    (hread : drain.read bucket = some next) : next.Sound bucket := by
  obtain ⟨before, keys, bodies, continuation, phase⟩ := drain
  cases phase with
  | listing => cases hread
  | deleting => cases hread
  | reading pending isTruncated token =>
      cases pending with
      | cons key pending =>
          cases hread
          have hlisted : (keys ++ [key]) ++ pending = keys ++ key :: pending := by simp
          have hahead (other : Str) :
              (Drain.mk before (keys ++ [key]) (bodies ++ bodiesAt bucket key) continuation
                (.reading pending isTruncated token)).Ahead other ↔
              (Drain.mk before keys bodies continuation
                (.reading (key :: pending) isTruncated token)).Ahead other := by
            cases isTruncated <;> exact Iff.rfl
          refine ⟨?_, ?_, ?_, ?_, ?_⟩
          · simpa [Drain.listed, Drain.pending] using h.nodup
          · simpa [Drain.listed, Drain.pending] using h.present
          · have hbodies : bodies = keys.flatMap (bodiesAt bucket) := h.bodies
            simp [hbodies]
          · intro other hother
            rw [Drain.listed, Drain.pending, hlisted] at hother
            exact mt (hahead other).mp (h.behind other hother)
          · intro other hother hbefore
            rw [Drain.listed, Drain.pending, hlisted]
            exact (h.seen other hother hbefore).imp id (hahead other).mpr
      | nil =>
          cases isTruncated with
          | true =>
              cases hread
              exact ⟨h.nodup, h.present, h.bodies, h.behind, h.seen⟩
          | false =>
              cases hread
              exact ⟨h.nodup, h.present, h.bodies, h.behind, h.seen⟩

theorem read_before {drain next : Drain} {bucket : Bucket} (hread : drain.read bucket = some next) :
    next.before = drain.before := by
  unfold Drain.read at hread
  split at hread <;> cases hread <;> rfl

-- A new object changes nothing for a drain that is under way.
theorem sound_put {drain : Drain} {bucket : Bucket} (h : drain.Sound bucket) {key : Str}
    (hnew : key ∉ bucket.keys) (hbefore : key ∉ Entries.keys drain.before) (text : Str) :
    drain.Sound (bucket.set key text) := by
  have hkeys (other : Str) : other ∈ (bucket.set key text).keys ↔ other = key ∨ other ∈ bucket.keys :=
    Entries.mem_keys_set
  refine ⟨h.nodup, fun other hother => (hkeys other).mpr (Or.inr (h.present other hother)), ?_, h.behind,
    fun other hother hthere => ?_⟩
  · rw [h.bodies]
    apply List.flatMap_congr
    intro other hother
    have hpresent := h.present other (List.mem_append_left _ hother)
    have hne : key ≠ other := by
      rintro rfl
      exact hnew hpresent
    unfold bodiesAt
    rw [Dict.get?_set_of_ne bucket text hne]
  · rcases (hkeys other).mp hother with rfl | hold
    · exact absurd hthere hbefore
    · exact h.seen other hold hthere

end Reader

section Invariant

-- What every state of the inbox keeps.
structure Inbox.Sound (pfx : Str) (inbox : Inbox) : Prop extends ExactlyOnce inbox where
  stored : ∀ key text, inbox.bucket.get? key = some text → (key, text) ∈ inbox.written
  wroteOnce : (Entries.keys inbox.written).Nodup
  wrote : ∀ push ∈ inbox.pushed, (push.1, messageText push.2) ∈ inbox.written
  prefixed : ∀ key ∈ inbox.bucket.keys, Str.startsWith key (pfx ++ ("/" : Str)) = true
  gone : ∀ key ∈ Entries.keys (deliveries inbox.drained), key ∉ inbox.bucket.keys
  reader : ∀ drain, inbox.drain = some drain →
    drain.Sound inbox.bucket ∧ ∀ push ∈ drain.before, push ∈ inbox.pushed

variable {pfx : Str}

theorem soundInbox_empty : Inbox.empty.Sound pfx where
  returned := by simp [Inbox.empty]
  distinct := List.nodup_nil
  once := List.nodup_nil
  genuine := by simp [Inbox.empty, deliveries]
  kept := by simp [Inbox.empty]
  prompt := by simp [Inbox.empty]
  stored := by simp [Inbox.empty]
  wroteOnce := List.nodup_nil
  wrote := by simp [Inbox.empty]
  prefixed := by simp [Inbox.empty, Dict.keys]
  gone := by simp [Inbox.empty, deliveries]
  reader := by simp [Inbox.empty]

theorem startsWith_objectKey (uuid : Nat) :
    Str.startsWith (objectKey pfx uuid) (pfx ++ ("/" : Str)) = true := by
  unfold Str.startsWith objectKey
  rw [List.isPrefixOf_iff_prefix, List.append_assoc (pfx ++ ("/" : Str))]
  exact List.prefix_append _ _

theorem mem_keys_of_get? {bucket : Bucket} {key text : Str} (h : bucket.get? key = some text) :
    key ∈ bucket.keys := by
  rw [Dict.mem_keys_iff, h]
  rfl

theorem notMem_keys {inbox : Inbox} (h : inbox.Sound pfx) {key : Str}
    (hfresh : key ∉ Entries.keys inbox.written) : key ∉ inbox.bucket.keys := by
  intro hkey
  obtain ⟨text, htext⟩ := Option.isSome_iff_exists.mp ((Dict.mem_keys_iff _ _).mp hkey)
  exact hfresh (List.mem_map.mpr ⟨_, h.stored key text htext, rfl⟩)

theorem notMem_pushed {inbox : Inbox} (h : inbox.Sound pfx) {key : Str}
    (hfresh : key ∉ Entries.keys inbox.written) : key ∉ Entries.keys inbox.pushed := by
  intro hkey
  obtain ⟨push, hpush, rfl⟩ := List.mem_map.mp hkey
  exact hfresh (List.mem_map.mpr ⟨_, h.wrote push hpush, rfl⟩)

theorem sound_inbox_put {inbox : Inbox} (h : inbox.Sound pfx) {uuid : Nat}
    (hfresh : objectKey pfx uuid ∉ Entries.keys inbox.written) (text : Str) :
    (inbox.put (objectKey pfx uuid) text).Sound pfx := by
  have hnew := notMem_keys h hfresh
  have hget (key : Str) : (inbox.bucket.set (objectKey pfx uuid) text).get? key =
      if objectKey pfx uuid = key then some text else inbox.bucket.get? key := Dict.get?_set _ _ _ _
  have hkeys (key : Str) : key ∈ (inbox.bucket.set (objectKey pfx uuid) text).keys ↔
      key = objectKey pfx uuid ∨ key ∈ inbox.bucket.keys := Entries.mem_keys_set
  refine ⟨⟨h.returned, h.distinct, h.once, ?_, ?_, h.prompt⟩, ?_, ?_, ?_, ?_, ?_, ?_⟩
  · intro delivery hdelivery
    obtain ⟨written, hwritten, hparsed⟩ := h.genuine delivery hdelivery
    exact ⟨written, List.mem_append_left _ hwritten, hparsed⟩
  · intro push hpush body hbody
    refine (h.kept push hpush body hbody).imp id fun hheld => ?_
    have hne : objectKey pfx uuid ≠ push.1 := by
      intro heq
      exact hnew (heq ▸ mem_keys_of_get? hheld)
    exact (hget push.1).trans (by rw [if_neg hne, hheld])
  · intro key stored hstored
    rw [Inbox.put, hget] at hstored
    split at hstored
    · rename_i heq
      cases hstored
      exact List.mem_append_right _ (List.mem_singleton.mpr (by rw [heq]))
    · exact List.mem_append_left _ (h.stored key stored hstored)
  · have hnodup := List.Nodup.concat hfresh h.wroteOnce
    simpa [Inbox.put, Entries.keys] using hnodup
  · intro push hpush
    exact List.mem_append_left _ (h.wrote push hpush)
  · intro key hkey
    rcases (hkeys key).mp hkey with rfl | hold
    · exact startsWith_objectKey uuid
    · exact h.prefixed key hold
  · intro key hkey hthere
    rcases (hkeys key).mp hthere with rfl | hold
    · obtain ⟨delivery, hdelivery, heq⟩ := List.mem_map.mp hkey
      obtain ⟨written, hwritten, -⟩ := h.genuine delivery hdelivery
      exact hfresh (List.mem_map.mpr ⟨_, hwritten, heq⟩)
    · exact h.gone key hkey hold
  · intro drain hdrain
    obtain ⟨hsound, hbefore⟩ := h.reader drain hdrain
    refine ⟨sound_put hsound hnew (fun hmem => ?_) text, hbefore⟩
    obtain ⟨push, hpush, heq⟩ := List.mem_map.mp hmem
    exact notMem_pushed h hfresh (List.mem_map.mpr ⟨push, hbefore push hpush, heq⟩)

theorem sound_push {inbox : Inbox} (h : inbox.Sound pfx) {uuid : Nat}
    (hfresh : objectKey pfx uuid ∉ Entries.keys inbox.written) (message : Json) :
    Inbox.Sound pfx { inbox.put (objectKey pfx uuid) (messageText message) with
      pushed := inbox.pushed ++ [(objectKey pfx uuid, message)] } := by
  have hput := sound_inbox_put h hfresh (messageText message)
  have hnodup := List.Nodup.concat (notMem_pushed h hfresh) h.distinct
  refine ⟨⟨hput.returned, by simpa [Entries.keys] using hnodup, hput.once, hput.genuine, ?_, hput.prompt⟩,
    hput.stored, hput.wroteOnce, ?_, hput.prefixed, hput.gone, ?_⟩
  · intro push hpush body hbody
    rcases List.mem_append.mp hpush with hold | hnew
    · exact hput.kept push hold body hbody
    · cases List.mem_singleton.mp hnew
      exact Or.inr (Dict.get?_set_self _ _ _)
  · intro push hpush
    rcases List.mem_append.mp hpush with hold | hnew
    · exact hput.wrote push hold
    · cases List.mem_singleton.mp hnew
      exact List.mem_append_right _ (List.mem_singleton.mpr rfl)
  · intro drain hdrain
    obtain ⟨hsound, hbefore⟩ := hput.reader drain hdrain
    exact ⟨hsound, fun push hpush => List.mem_append_left _ (hbefore push hpush)⟩

-- What a drain returns, once it has listed everything.
theorem mem_bodies {drain : Drain} {bucket : Bucket} (h : drain.Sound bucket) {delivery : Str × Fields} :
    delivery ∈ drain.bodies ↔ delivery.1 ∈ drain.keys ∧
      ∃ text, bucket.get? delivery.1 = some text ∧ parsed text = some delivery.2 := by
  rw [h.bodies, List.mem_flatMap]
  have hone (key : Str) : delivery ∈ bodiesAt bucket key ↔ delivery.1 = key ∧
      ∃ text, bucket.get? key = some text ∧ parsed text = some delivery.2 := by
    obtain ⟨k, body⟩ := delivery
    unfold bodiesAt
    cases hget : bucket.get? key with
    | none => simp
    | some text =>
        cases hparsed : parsed text with
        | none => simp [hparsed]
        | some fields => simp [hparsed, eq_comm]
  constructor
  · rintro ⟨key, hkey, hmem⟩
    obtain ⟨heq, hbody⟩ := (hone key).mp hmem
    exact ⟨heq ▸ hkey, heq ▸ hbody⟩
  · rintro ⟨hkey, hbody⟩
    exact ⟨delivery.1, hkey, (hone _).mpr ⟨rfl, hbody⟩⟩

theorem keys_bodies_sublist {drain : Drain} {bucket : Bucket} (h : drain.Sound bucket) :
    (Entries.keys drain.bodies).Sublist drain.keys := by
  rw [h.bodies]
  induction drain.keys with
  | nil => exact List.Sublist.slnil
  | cons key rest ih =>
      rw [List.flatMap_cons, Entries.keys, List.map_append]
      unfold bodiesAt
      split
      · exact List.Sublist.cons_cons key ih
      · exact List.Sublist.cons key ih

theorem finish_ok {drain : Drain} (bucket : Bucket) (hlimit : drain.keys.length ≤ maxKeys) :
    ∃ left, drain.finish bucket = .ok left ∧
      ∀ key, left.get? key = if key ∈ drain.keys then none else bucket.get? key := by
  unfold Drain.finish
  by_cases hempty : drain.keys = []
  · exact ⟨bucket, if_pos hempty, by simp [hempty]⟩
  · refine ⟨bucket.without drain.keys, ?_, fun key => ?_⟩
    · rw [if_neg hempty, Bucket.deleteObjects, if_pos hlimit]
    · by_cases hkey : key ∈ drain.keys <;> simp [Dict.get?_without, hkey]

theorem finish_error {drain : Drain} (bucket : Bucket) (hlimit : maxKeys < drain.keys.length) :
    drain.finish bucket = .error ⟨.exception "ClientError", []⟩ := by
  have hne : drain.keys ≠ [] := by
    intro hnil
    simp [hnil] at hlimit
  rw [Drain.finish, if_neg hne, Bucket.deleteObjects, if_neg (by omega)]

-- The drain that ends returns every object it has listed, and only those go.
theorem sound_finish {inbox : Inbox} (h : inbox.Sound pfx) {drain : Drain}
    (hdrain : inbox.drain = some drain) (hphase : drain.phase = .deleting) {left : Bucket}
    (hleft : ∀ key, left.get? key = if key ∈ drain.keys then none else inbox.bucket.get? key) :
    Inbox.Sound pfx { inbox with
      bucket := left
      drain := none
      drained := inbox.drained ++ [⟨drain.before, .ok drain.bodies⟩] } := by
  obtain ⟨hsound, hbefore⟩ := h.reader drain hdrain
  have hlisted : drain.listed = drain.keys := by simp [Drain.listed, Drain.pending, hphase]
  have hdeliveries : deliveries (inbox.drained ++ [⟨drain.before, .ok drain.bodies⟩]) =
      deliveries inbox.drained ++ drain.bodies := by
    rw [deliveries_append, deliveries_singleton, Drained.bodies]
  have hleftKeys (key : Str) : key ∈ left.keys ↔ key ∉ drain.keys ∧ key ∈ inbox.bucket.keys := by
    rw [Dict.mem_keys_iff, hleft, Dict.mem_keys_iff]
    by_cases hkey : key ∈ drain.keys <;> simp [hkey]
  have hdelivered {push : Str × Json} (hpush : push ∈ inbox.pushed) {body : Fields}
      (hbody : push.2.reread = .obj body) (hkey : push.1 ∈ inbox.bucket.keys → push.1 ∈ drain.keys) :
      (push.1, body) ∈ deliveries inbox.drained ++ drain.bodies := by
    rcases h.kept push hpush body hbody with hearlier | hheld
    · exact List.mem_append_left _ hearlier
    · refine List.mem_append_right _ ((mem_bodies hsound).mpr ⟨hkey (mem_keys_of_get? hheld), ?_⟩)
      exact ⟨_, hheld, parsed_messageText.mpr hbody⟩
  refine ⟨⟨?_, h.distinct, ?_, ?_, ?_, ?_⟩, ?_, h.wroteOnce, h.wrote, ?_, ?_, ?_⟩
  · intro drained hdrained
    rcases List.mem_append.mp hdrained with hold | hnew
    · exact h.returned drained hold
    · cases List.mem_singleton.mp hnew
      exact ⟨drain.bodies, rfl⟩
  · dsimp only
    rw [hdeliveries, Entries.keys, List.map_append, List.nodup_append]
    refine ⟨h.once, (hlisted ▸ hsound.nodup).sublist (keys_bodies_sublist hsound), ?_⟩
    rintro a ha b hb rfl
    have hkey := (keys_bodies_sublist hsound).subset hb
    exact h.gone a ha (hsound.present a (hlisted ▸ hkey))
  · dsimp only
    rw [hdeliveries]
    intro delivery hdelivery
    rcases List.mem_append.mp hdelivery with hold | hnew
    · exact h.genuine delivery hold
    · obtain ⟨-, text, htext, hparsed⟩ := (mem_bodies hsound).mp hnew
      exact ⟨text, h.stored _ _ htext, hparsed⟩
  · dsimp only
    rw [hdeliveries]
    intro push hpush body hbody
    by_cases hkey : push.1 ∈ drain.keys
    · exact Or.inl (hdelivered hpush hbody fun _ => hkey)
    · refine (h.kept push hpush body hbody).imp (List.mem_append_left _) fun hheld => ?_
      rw [hleft, if_neg hkey, hheld]
  · intro earlier last later hsplit push hpush body hbody
    dsimp only at hsplit
    rcases List.eq_nil_or_concat later with rfl | ⟨init, final, rfl⟩
    · have hsame := List.append_inj' hsplit rfl
      have hlast : last = ⟨drain.before, .ok drain.bodies⟩ := (List.cons.inj hsame.2).1.symm
      rw [← hsame.1, hlast, hdeliveries]
      rw [hlast] at hpush
      refine hdelivered (hbefore push hpush) hbody fun hkey => ?_
      have hthere : push.1 ∈ Entries.keys drain.before := List.mem_map.mpr ⟨push, hpush, rfl⟩
      rcases hsound.seen push.1 hkey hthere with hseen | hahead
      · exact hlisted ▸ hseen
      · simp [Drain.Ahead, hphase] at hahead
    · have hsplit' : inbox.drained ++ [⟨drain.before, .ok drain.bodies⟩] =
          (earlier ++ last :: init) ++ [final] := by
        rw [hsplit]
        simp
      have hsame := List.append_inj' hsplit' rfl
      exact h.prompt earlier last init hsame.1 push hpush body hbody
  · intro key text htext
    rw [hleft] at htext
    split at htext
    · cases htext
    · exact h.stored key text htext
  · intro key hkey
    exact h.prefixed key ((hleftKeys key).mp hkey).2
  · dsimp only
    rw [hdeliveries]
    intro key hkey hthere
    obtain ⟨hnot, hold⟩ := (hleftKeys key).mp hthere
    rw [Entries.keys, List.map_append] at hkey
    rcases List.mem_append.mp hkey with hearlier | hnow
    · exact h.gone key hearlier hold
    · exact hnot ((keys_bodies_sublist hsound).subset hnow)
  · intro other hother
    cases hother

theorem sound_withDrain {inbox : Inbox} (h : inbox.Sound pfx) {drain : Drain}
    (hsound : drain.Sound inbox.bucket) (hbefore : ∀ push ∈ drain.before, push ∈ inbox.pushed) :
    Inbox.Sound pfx { inbox with drain := some drain } := by
  refine ⟨⟨h.returned, h.distinct, h.once, h.genuine, h.kept, h.prompt⟩, h.stored, h.wroteOnce, h.wrote,
    h.prefixed, h.gone, ?_⟩
  rintro _ ⟨⟩
  exact ⟨hsound, hbefore⟩

theorem sound_step {inbox next : Inbox} (h : inbox.Sound pfx) {action : InboxStep}
    (hlimit : WithinLimit inbox action) (hstep : inbox.step pfx action = some next) :
    next.Sound pfx := by
  cases action with
  | push uuid message =>
      simp only [Inbox.step] at hstep
      split at hstep
      · cases hstep
      · rename_i hfresh
        cases hstep
        exact sound_push h hfresh message
  | failedPush uuid left =>
      simp only [Inbox.step] at hstep
      split at hstep
      · cases hstep
      · rename_i hfresh
        cases left with
        | some text =>
            cases hstep
            exact sound_inbox_put h hfresh text
        | none =>
            cases hstep
            exact h
  | start =>
      simp only [Inbox.step] at hstep
      split at hstep
      · cases hstep
        exact sound_withDrain h (sound_start _ _) fun _ hpush => hpush
      · cases hstep
  | page count =>
      simp only [Inbox.step] at hstep
      split at hstep
      · rename_i drain hdrain
        split at hstep
        · rename_i hphase
          split at hstep
          · rename_i hcount
            cases hstep
            obtain ⟨hsound, hbefore⟩ := h.reader drain hdrain
            exact sound_withDrain h (sound_page hsound h.prefixed hphase hcount.1) hbefore
          · cases hstep
        · cases hstep
      · cases hstep
  | read =>
      simp only [Inbox.step] at hstep
      split at hstep
      · rename_i drain hdrain
        cases hread : drain.read inbox.bucket with
        | none =>
            rw [hread] at hstep
            cases hstep
        | some after =>
            rw [hread] at hstep
            cases hstep
            obtain ⟨hsound, hbefore⟩ := h.reader drain hdrain
            exact sound_withDrain h (sound_read hsound hread) (read_before hread ▸ hbefore)
      · cases hstep
  | finish =>
      simp only [Inbox.step] at hstep
      split at hstep
      · rename_i drain hdrain
        split at hstep
        · rename_i hphase
          obtain ⟨left, hfinish, hleft⟩ := finish_ok inbox.bucket (hlimit drain hdrain)
          rw [hfinish] at hstep
          cases hstep
          exact sound_finish h hdrain hphase hleft
        · cases hstep
      · cases hstep

theorem sound_reaches {inbox : Inbox}
    (h : Transition.Reaches (Inbox.step pfx) WithinLimit Inbox.empty inbox) : inbox.Sound pfx :=
  h.invariant soundInbox_empty fun _ _ _ hsound hlimit hstep => sound_step hsound hlimit hstep

end Invariant

section Progress

namespace InboxStep

-- The steps of a drain after its start, and the writes.
def isReader : InboxStep → Bool
  | .page _ | .read | .finish => true
  | _ => false

def isWrite : InboxStep → Bool
  | .push _ _ | .failedPush _ _ => true
  | _ => false

end InboxStep

-- A drain that has started returns: a step of it is always enabled, and their
-- number is bounded by the objects there are and the writes that come.
structure Returns (pfx : Str) (inbox : Inbox) : Prop where
  enabled : inbox.drain.isSome →
    ∃ action next, InboxStep.isReader action = true ∧ inbox.step pfx action = some next
  bounded : ∃ bound, ∀ actions later, InboxStep.start ∉ actions →
    Transition.run (Inbox.step pfx) inbox actions = some later →
      actions.countP InboxStep.isReader ≤ bound + 3 * actions.countP InboxStep.isWrite

variable {pfx : Str}

def Drain.work (pfx : Str) (drain : Drain) (bucket : Bucket) : Nat :=
  match drain.phase with
  | .listing => 3 * (bucket.remaining pfx drain.continuation).length + 3
  | .reading pending true token => pending.length + 3 * (bucket.remaining pfx token).length + 4
  | .reading pending false _ => pending.length + 2
  | .deleting => 1

def Inbox.work (pfx : Str) (inbox : Inbox) : Nat :=
  match inbox.drain with
  | some drain => drain.work (pfx ++ ("/" : Str)) inbox.bucket
  | none => 0

theorem length_remaining_set (pfx : Str) (bucket : Bucket) (key text : Str) (continuation : Option Str) :
    (Bucket.remaining (bucket.set key text) pfx continuation).length ≤
      (bucket.remaining pfx continuation).length + 1 := by
  have hlength (keys : List Str) : ((Str.sorted keys).filter fun key =>
      Str.startsWith key pfx && isAfter continuation key).length =
        keys.countP fun key => Str.startsWith key pfx && isAfter continuation key := by
    rw [← List.countP_eq_length_filter]
    exact (Str.sorted_perm keys).countP_eq _
  unfold Bucket.remaining
  rw [hlength, hlength]
  have hkeys : (bucket.set key text).keys = bucket.keys ∨
      (bucket.set key text).keys = bucket.keys ++ [key] := by
    rw [Dict.keys, Dict.set, Entries.keys_set]
    split
    · exact Or.inl rfl
    · exact Or.inr rfl
  rcases hkeys with hold | hnew
  · rw [hold]
    omega
  · rw [hnew, List.countP_append, List.countP_singleton]
    split <;> omega

theorem work_set (drain : Drain) (bucket : Bucket) (key text : Str) :
    drain.work pfx (bucket.set key text) ≤ drain.work pfx bucket + 3 := by
  obtain ⟨before, keys, bodies, continuation, phase⟩ := drain
  cases phase with
  | listing =>
      have hmore := length_remaining_set pfx bucket key text continuation
      simp only [Drain.work]
      omega
  | reading pending isTruncated token =>
      have hmore := length_remaining_set pfx bucket key text token
      cases isTruncated <;> simp only [Drain.work] <;> omega
  | deleting => simp [Drain.work]

theorem work_put (inbox : Inbox) (key text : Str) :
    (inbox.put key text).work pfx ≤ inbox.work pfx + 3 := by
  unfold Inbox.work Inbox.put
  dsimp only
  cases inbox.drain with
  | none => simp
  | some drain => exact work_set drain inbox.bucket key text

theorem work_page (pfx : Str) {drain : Drain} (hphase : drain.phase = .listing) (bucket : Bucket) {count : Nat}
    (hcount : 0 < count) : (drain.page bucket pfx count).work pfx bucket < drain.work pfx bucket := by
  generalize hkeys : bucket.remaining pfx drain.continuation = keys
  have hbefore : drain.work pfx bucket = 3 * keys.length + 3 := by simp [Drain.work, hphase, hkeys]
  by_cases htruncated : count < keys.length
  · cases hlast : (keys.take count).getLast? with
    | none =>
        have hempty := List.getLast?_eq_none_iff.mp hlast
        rw [List.take_eq_nil_iff] at hempty
        rcases hempty with hzero | hnil
        · omega
        · simp [hnil] at htruncated
    | some last =>
        have hrest : bucket.remaining pfx (some last) = keys.drop count := by
          rw [← hkeys] at hlast ⊢
          exact remaining_token hlast
        have hafter : (drain.page bucket pfx count).work pfx bucket =
            (keys.take count).length + 3 * (keys.drop count).length + 4 := by
          simp only [Drain.page, Drain.work, Bucket.listObjects, hkeys, htruncated, decide_true, if_true,
            hlast, hrest]
        rw [hbefore, hafter, List.length_take, List.length_drop]
        omega
  · have hafter : (drain.page bucket pfx count).work pfx bucket = (keys.take count).length + 2 := by
      simp only [Drain.page, Drain.work, Bucket.listObjects, hkeys, htruncated, decide_false]
    rw [hbefore, hafter, List.length_take]
    omega

theorem work_read (pfx : Str) {drain next : Drain} {bucket : Bucket} (hread : drain.read bucket = some next) :
    next.work pfx bucket < drain.work pfx bucket := by
  obtain ⟨before, keys, bodies, continuation, phase⟩ := drain
  cases phase with
  | listing => cases hread
  | deleting => cases hread
  | reading pending isTruncated token =>
      cases pending with
      | cons key pending =>
          cases hread
          cases isTruncated <;> simp only [Drain.work, List.length_cons] <;> omega
      | nil =>
          cases isTruncated with
          | true =>
              cases hread
              simp only [Drain.work, List.length_nil]
              omega
          | false =>
              cases hread
              simp only [Drain.work, List.length_nil]
              omega

theorem work_step {inbox next : Inbox} {action : InboxStep} (hstart : action ≠ .start)
    (hstep : inbox.step pfx action = some next) :
    next.work pfx + (if action.isReader then 1 else 0) ≤
      inbox.work pfx + if action.isWrite then 3 else 0 := by
  cases action with
  | push uuid message =>
      simp only [Inbox.step] at hstep
      split at hstep
      · cases hstep
      · cases hstep
        exact work_put inbox (objectKey pfx uuid) (messageText message)
  | failedPush uuid left =>
      simp only [Inbox.step] at hstep
      split at hstep
      · cases hstep
      · cases left with
        | some text =>
            cases hstep
            exact work_put inbox (objectKey pfx uuid) text
        | none =>
            cases hstep
            exact Nat.le_add_right _ _
  | start => exact absurd rfl hstart
  | page count =>
      simp only [Inbox.step] at hstep
      split at hstep
      · rename_i drain hdrain
        split at hstep
        · rename_i hphase
          split at hstep
          · rename_i hcount
            cases hstep
            have hwork := work_page (pfx ++ ("/" : Str)) hphase inbox.bucket hcount.1
            simp only [Inbox.work, hdrain, InboxStep.isReader, InboxStep.isWrite, if_true]
            omega
          · cases hstep
        · cases hstep
      · cases hstep
  | read =>
      simp only [Inbox.step] at hstep
      split at hstep
      · rename_i drain hdrain
        cases hread : drain.read inbox.bucket with
        | none =>
            rw [hread] at hstep
            cases hstep
        | some after =>
            rw [hread] at hstep
            cases hstep
            have hwork := work_read (pfx ++ ("/" : Str)) hread
            simp only [Inbox.work, hdrain, InboxStep.isReader, InboxStep.isWrite, if_true]
            omega
      · cases hstep
  | finish =>
      simp only [Inbox.step] at hstep
      split at hstep
      · rename_i drain hdrain
        split at hstep
        · rename_i hphase
          have hwork : inbox.work pfx = 1 := by simp [Inbox.work, hdrain, Drain.work, hphase]
          split at hstep
          · cases hstep
            simp [Inbox.work, hdrain, Drain.work, hphase, InboxStep.isReader, InboxStep.isWrite]
          · cases hstep
            simp [Inbox.work, hdrain, Drain.work, hphase, InboxStep.isReader, InboxStep.isWrite]
        · cases hstep
      · cases hstep

theorem enabled_of_drain (pfx : Str) {inbox : Inbox} {drain : Drain} (hdrain : inbox.drain = some drain) :
    ∃ action, InboxStep.isReader action = true ∧ (inbox.step pfx action).isSome = true := by
  cases hphase : drain.phase with
  | listing =>
      refine ⟨.page 1, rfl, ?_⟩
      simp [Inbox.step, hdrain, hphase, maxKeys]
  | reading pending isTruncated token =>
      have hread : (drain.read inbox.bucket).isSome = true := by
        unfold Drain.read
        rw [hphase]
        cases pending with
        | cons key pending => rfl
        | nil => cases isTruncated <;> rfl
      refine ⟨.read, rfl, ?_⟩
      simpa [Inbox.step, hdrain] using hread
  | deleting =>
      refine ⟨.finish, rfl, ?_⟩
      simp only [Inbox.step, hdrain, hphase]
      split <;> rfl

theorem returns (pfx : Str) (inbox : Inbox) : Returns pfx inbox where
  enabled := by
    intro hsome
    obtain ⟨drain, hdrain⟩ := Option.isSome_iff_exists.mp hsome
    obtain ⟨action, hreader, htaken⟩ := enabled_of_drain pfx hdrain
    obtain ⟨next, hnext⟩ := Option.isSome_iff_exists.mp htaken
    exact ⟨action, next, hreader, hnext⟩
  bounded := by
    refine ⟨inbox.work pfx, fun actions later hstart hrun => ?_⟩
    have hcount := Transition.run_count_le (Inbox.work pfx) InboxStep.isReader InboxStep.isWrite 3
      (fun action => action ≠ .start) (fun _ _ _ => work_step)
      (fun action haction heq => hstart (heq ▸ haction)) hrun
    omega

-- In every run whose delete requests stay within the limit.
theorem run_exactlyOnce (pfx : Str) (inbox : Inbox)
    (h : Transition.Reaches (Inbox.step pfx) WithinLimit Inbox.empty inbox) :
    ExactlyOnce inbox ∧ Returns pfx inbox :=
  ⟨(sound_reaches h).toExactlyOnce, returns pfx inbox⟩

-- A push lands behind a page that is being read; the next drain returns it.
theorem pushDuringDrain_exactlyOnce : ∃ inbox : Inbox,
    deliveries inbox.drained = [(objectKey "_state/traces" 7, [Json.field "n" (.int 1)]),
      (objectKey "_state/traces" 3, [Json.field "n" (.int 2)])] ∧
      inbox.drained.length = 2 ∧ ExactlyOnce inbox ∧ Returns ("_state/traces" : Str) inbox := by
  have hpage : Transition.Reaches (Inbox.step "_state/traces") WithinLimit Inbox.empty _ :=
    .next (a := InboxStep.page 1)
      (.next (a := InboxStep.start)
        (.next (a := InboxStep.push 7 (.obj [Json.field "n" (.int 1)])) .refl trivial rfl) trivial rfl) trivial rfl
  have hdrained : Transition.Reaches (Inbox.step "_state/traces") WithinLimit Inbox.empty _ :=
    .next (a := InboxStep.finish)
      (.next (a := InboxStep.read)
        (.next (a := InboxStep.read)
          (.next (a := InboxStep.push 3 (.obj [Json.field "n" (.int 2)])) hpage trivial rfl) trivial rfl) trivial rfl)
      (by rintro _ ⟨⟩; decide) rfl
  have hagain : Transition.Reaches (Inbox.step "_state/traces") WithinLimit Inbox.empty _ :=
    .next (a := InboxStep.finish)
      (.next (a := InboxStep.read)
        (.next (a := InboxStep.read)
          (.next (a := InboxStep.page 1)
            (.next (a := InboxStep.start) hdrained trivial rfl) trivial rfl) trivial rfl) trivial rfl)
      (by rintro _ ⟨⟩; decide) rfl
  exact ⟨_, rfl, rfl, run_exactlyOnce "_state/traces" _ hagain⟩

end Progress

section Overflow

variable {pfx : Str}

-- The keys of different uuids differ.
theorem hexDigit_inj {a b : Nat} (h : Str.hexDigit a = Str.hexDigit b) : a % 16 = b % 16 := by
  have hdigits := congrArg Json.hexValue h
  rw [Json.hexValue_hexDigit, Json.hexValue_hexDigit] at hdigits
  exact Option.some.inj hdigits

theorem hexFixed_inj {width a b : Nat} (ha : a < 16 ^ width) (hb : b < 16 ^ width)
    (h : Str.hexFixed width a = Str.hexFixed width b) : a = b := by
  induction width generalizing a b with
  | zero =>
      rw [pow_zero] at ha hb
      omega
  | succ width ih =>
      rw [pow_succ] at ha hb
      have hparts := List.append_inj' h rfl
      have hhigh := ih (by omega) (by omega) hparts.1
      have hlow := hexDigit_inj (List.cons.inj hparts.2).1
      omega

theorem objectKey_inj {a b : Nat} (ha : a < 16 ^ 32) (hb : b < 16 ^ 32)
    (h : objectKey pfx a = objectKey pfx b) : a = b :=
  hexFixed_inj ha hb (List.append_cancel_left (List.append_cancel_right h))

-- `n` pushes of an empty object, and nothing else.
theorem reaches_pushed (pfx : Str) {n : Nat} (hn : n ≤ 16 ^ 32) :
    ∃ inbox, Transition.Reaches (Inbox.step pfx) WithinLimit Inbox.empty inbox ∧
      inbox.drain = none ∧ inbox.drained = [] ∧
      Entries.keys inbox.written = (List.range n).map (objectKey pfx) ∧
      inbox.pushed = (List.range n).map fun uuid => (objectKey pfx uuid, .obj []) := by
  induction n with
  | zero => exact ⟨Inbox.empty, .refl, rfl, rfl, rfl, rfl⟩
  | succ n ih =>
      obtain ⟨inbox, hreach, hdrain, hdrained, hwritten, hpushed⟩ := ih (by omega)
      have hfresh : objectKey pfx n ∉ Entries.keys inbox.written := by
        rw [hwritten]
        intro hmem
        obtain ⟨uuid, huuid, heq⟩ := List.mem_map.mp hmem
        have hlt := List.mem_range.mp huuid
        have hsame := objectKey_inj (by omega) (by omega) heq
        omega
      refine ⟨_, .next (a := .push n (.obj [])) hreach trivial (if_neg hfresh), hdrain, hdrained, ?_, ?_⟩
      · rw [List.range_succ, List.map_append, ← hwritten]
        simp [Inbox.put, Entries.keys]
      · rw [List.range_succ, List.map_append, ← hpushed]
        simp [Inbox.put]

-- The reader alone comes to the delete request, and the bucket stays as it is.
theorem reaches_deleting (pfx : Str) (inbox : Inbox) {drain : Drain} (hdrain : inbox.drain = some drain) :
    ∃ later last, Transition.Reaches (Inbox.step pfx) WithinLimit inbox later ∧
      later.drain = some last ∧ last.phase = .deleting ∧ last.before = drain.before ∧
      later.bucket = inbox.bucket := by
  induction hwork : drain.work (pfx ++ ("/" : Str)) inbox.bucket using Nat.strong_induction_on
    generalizing inbox drain with
  | h work ih =>
      subst hwork
      cases hphase : drain.phase with
      | deleting => exact ⟨inbox, drain, .refl, hdrain, hphase, rfl, rfl⟩
      | listing =>
          have hstep : inbox.step pfx (.page 1) = some { inbox with
              drain := some (drain.page inbox.bucket (pfx ++ ("/" : Str)) 1) } := by
            simp [Inbox.step, hdrain, hphase, maxKeys]
          obtain ⟨later, last, hreach, hlast, hdeleting, hbefore, hbucket⟩ :=
            ih _ (work_page _ hphase inbox.bucket Nat.one_pos) { inbox with
              drain := some (drain.page inbox.bucket (pfx ++ ("/" : Str)) 1) } rfl rfl
          exact ⟨later, last, (Transition.Reaches.next .refl trivial hstep).trans hreach, hlast,
            hdeleting, hbefore, hbucket⟩
      | reading pending isTruncated token =>
          have hread : ∃ next, drain.read inbox.bucket = some next := by
            unfold Drain.read
            rw [hphase]
            cases pending with
            | cons key pending => exact ⟨_, rfl⟩
            | nil => cases isTruncated <;> exact ⟨_, rfl⟩
          obtain ⟨next, hnext⟩ := hread
          have hstep : inbox.step pfx .read = some { inbox with drain := some next } := by
            simp [Inbox.step, hdrain, hnext]
          obtain ⟨later, last, hreach, hlast, hdeleting, hbefore, hbucket⟩ :=
            ih _ (work_read _ hnext) { inbox with drain := some next } rfl rfl
          exact ⟨later, last, (Transition.Reaches.next .refl trivial hstep).trans hreach, hlast,
            hdeleting, hbefore.trans (read_before hnext), hbucket⟩

-- A drain over more pushes than one delete request may name raises.
theorem reaches_raised (pfx : Str) {n : Nat} (hmany : maxKeys < n) (hn : n ≤ 16 ^ 32) :
    ∃ inbox, Transition.Reaches (Inbox.step pfx) (fun _ _ => True) Inbox.empty inbox ∧
      ∃ drained ∈ inbox.drained, ∃ error, drained.outcome = .error error := by
  obtain ⟨inbox, hreach, hnone, hdrained, -, hpushed⟩ := reaches_pushed pfx hn
  have hstart : inbox.step pfx .start =
      some { inbox with drain := some { before := inbox.pushed } } := by
    simp [Inbox.step, hnone]
  obtain ⟨later, last, hread, hlast, hdeleting, hbefore, hbucket⟩ :=
    reaches_deleting pfx { inbox with drain := some { before := inbox.pushed } } rfl
  have hall := (Transition.Reaches.next hreach (a := InboxStep.start) trivial hstart).trans hread
  have hsound := sound_reaches hreach
  obtain ⟨hdrain, -⟩ := (sound_reaches hall).reader last hlast
  have hlisted : last.listed = last.keys := by simp [Drain.listed, Drain.pending, hdeleting]
  have hkeys : ∀ key ∈ (List.range n).map (objectKey pfx), key ∈ last.keys := by
    intro key hkey
    obtain ⟨uuid, huuid, rfl⟩ := List.mem_map.mp hkey
    have hpush : (objectKey pfx uuid, Json.obj []) ∈ inbox.pushed := by
      rw [hpushed]
      exact List.mem_map.mpr ⟨uuid, huuid, rfl⟩
    have hheld : inbox.bucket.get? (objectKey pfx uuid) = some (messageText (.obj [])) := by
      rcases hsound.kept _ hpush [] rfl with hdelivered | hheld
      · simp [hdrained, deliveries] at hdelivered
      · exact hheld
    have hpresent : objectKey pfx uuid ∈ later.bucket.keys := hbucket ▸ mem_keys_of_get? hheld
    have hthere : objectKey pfx uuid ∈ Entries.keys last.before := by
      rw [hbefore]
      exact List.mem_map.mpr ⟨_, hpush, rfl⟩
    rcases hdrain.seen _ hpresent hthere with hseen | hahead
    · exact hlisted ▸ hseen
    · simp [Drain.Ahead, hdeleting] at hahead
  have hdistinct : ((List.range n).map (objectKey pfx)).Nodup := by
    apply List.Nodup.map_on _ List.nodup_range
    intro a ha b hb heq
    have ha' := List.mem_range.mp ha
    have hb' := List.mem_range.mp hb
    exact objectKey_inj (by omega) (by omega) heq
  have hlength : n ≤ last.keys.length := by
    have hsub := (hdistinct.subperm hkeys).length_le
    simpa using hsub
  have herror := finish_error later.bucket (lt_of_lt_of_le hmany hlength)
  have hfinish : later.step pfx .finish = some { later with
      drain := none
      drained := later.drained ++ [⟨last.before, .error ⟨.exception "ClientError", []⟩⟩] } := by
    simp only [Inbox.step, hlast, hdeleting, herror]
  refine ⟨_, .next (hall.mono fun _ _ _ => trivial) trivial hfinish,
    ⟨last.before, .error ⟨.exception "ClientError", []⟩⟩, ?_, _, rfl⟩
  exact List.mem_append_right _ (List.mem_singleton.mpr rfl)

theorem overflow_not_exactlyOnce :
    ¬∀ inbox, Transition.Reaches (Inbox.step ("_state/traces" : Str)) (fun _ _ => True) Inbox.empty inbox →
      ExactlyOnce inbox := by
  intro h
  obtain ⟨inbox, hreach, drained, hdrained, error, herror⟩ :=
    reaches_raised ("_state/traces" : Str) (n := 1001) (by decide) (by norm_num)
  obtain ⟨bodies, hbodies⟩ := (h inbox hreach).returned drained hdrained
  rw [herror] at hbodies
  cases hbodies

end Overflow

end Benzene.Mesh
