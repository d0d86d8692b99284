import Benzene.Data.Unfold
import Benzene.Mesh.Feeds
import Benzene.Mesh.Query

namespace Benzene.Mesh.XRay

open Benzene.Data

section Times

def zeroSeconds : PyFloat := .finite (Decimal.ofParts 0 0)

def thousandth : PyFloat → PyFloat
  | .finite d => .ofDecimal (Decimal.ofParts d.mantissa (d.exponent - 3))
  | x => x

def addDecimals (a b : Decimal) : Decimal :=
  let exponent := min a.exponent b.exponent
  Decimal.ofParts (a.mantissa * 10 ^ (a.exponent - exponent).toNat + b.mantissa * 10 ^ (b.exponent - exponent).toNat)
    exponent

def addFloats : PyFloat → PyFloat → PyFloat
  | .finite a, .finite b => .ofDecimal (addDecimals a b)
  | .infinity a, .infinity b => if a = b then .infinity a else .nan
  | .infinity a, .finite _ => .infinity a
  | .finite _, .infinity b => .infinity b
  | _, _ => .nan

def zulu : CodePoint := CodePoint.ofChar 'Z'

-- A stamp that is absent or cannot be read is the epoch.
def epochSeconds [Calendar] (startedAt : Option Str) : PyFloat :=
  match startedAt with
  | none => zeroSeconds
  | some stamp =>
      if stamp = [] then zeroSeconds
      else match Calendar.fromIsoFormat (stamp.flatMap fun c => if c = zulu then ("+00:00" : Str) else [c]) with
        | some moment => .ofDecimal (Decimal.ofParts moment.utc (-6))
        | none => zeroSeconds

def durationSeconds (span : TraceEvent) : PyFloat := thousandth (span.durationMs.getD zeroSeconds)

end Times

section Mapping

variable [Calendar]

structure SegmentNode where
  name : Str
  id : Str
  startTime : PyFloat
  endTime : PyFloat
  topic : Str
  status : Str
  fault : Bool
deriving DecidableEq

def segmentNode (span : TraceEvent) : SegmentNode :=
  let start := epochSeconds span.startedAt
  { name := span.service
    id := span.spanId
    startTime := start
    endTime := addFloats start (durationSeconds span)
    topic := span.topic
    status := span.status
    fault := span.exceptionType.any fun type => type ≠ [] }

abbrev Children := List (Option Str × List TraceEvent)

-- A parent that is not in the trace is none.
def parentIn (spans : List TraceEvent) (span : TraceEvent) : Option Str :=
  span.parentSpanId.filter fun parent => parent ∈ spans.map TraceEvent.spanId

-- `children.setdefault(parent, []).append(span)` for each span.
def childrenOf (spans : List TraceEvent) : Children :=
  spans.foldl (fun children span =>
    let parent := parentIn spans span
    Entries.set parent ((Entries.get? parent children).getD [] ++ [span]) children) []

def childrenAt (children : Children) (span : TraceEvent) : List TraceEvent :=
  (Entries.get? (some span.spanId) children).getD []

-- `none` is a recursion that the fuel does not carry to its end.
def segment (children : Children) (fuel : Nat) (span : TraceEvent) : Option (RoseTree SegmentNode) :=
  RoseTree.unfold segmentNode (childrenAt children) fuel span

-- A W3C trace id in the form of X-Ray.
def xrayTraceId (traceId : Str) : Str :=
  if traceId.startsWith "1-" then traceId
  else if traceId.length = 32 then ("1-" : Str) ++ traceId.take 8 ++ ("-" : Str) ++ traceId.drop 8
  else traceId

-- An empty trace has an empty document.
inductive Document
  | empty
  | root (traceId : Str) (segment : RoseTree SegmentNode)

def Document.nodes : Document → List SegmentNode
  | empty => []
  | root _ segment => segment.labels

def Document.Nests (upper lower : SegmentNode) : Document → Prop
  | empty => False
  | root _ segment => segment.Nests upper lower

-- The first span without a parent in the trace, else the first of all.
def rootOf (children : Children) (first : TraceEvent) : TraceEvent :=
  ((Entries.get? none children).getD [first]).headD first

-- `XRayTraceMapper.map`.
def mapTrace (fuel : Nat) : List TraceEvent → Option Document
  | [] => some .empty
  | first :: rest => do
      let children := childrenOf (first :: rest)
      let root := rootOf children first
      return .root (xrayTraceId root.traceId) (← segment children fuel root)

end Mapping

section Links

variable {spans : List TraceEvent}

-- A span whose parent is another one of the trace.
def ChildOf (spans : List TraceEvent) (span parent : TraceEvent) : Prop :=
  span ∈ spans ∧ parent ∈ spans ∧ span.parentSpanId = some parent.spanId

theorem get?_foldl_children (parent : TraceEvent → Option Str) (key : Option Str) (spans : List TraceEvent)
    (children : Children) :
    (Entries.get? key (spans.foldl
        (fun children span =>
          Entries.set (parent span) ((Entries.get? (parent span) children).getD [] ++ [span]) children)
        children)).getD [] =
      (Entries.get? key children).getD [] ++ spans.filter (fun span => parent span = key) := by
  induction spans generalizing children with
  | nil => simp
  | cons span rest ih =>
      rw [List.foldl_cons, ih, Entries.get?_set]
      by_cases hkey : parent span = key
      · rw [if_pos hkey, Option.getD_some, hkey, List.filter_cons_of_pos (by simp [hkey]), List.append_assoc,
          List.singleton_append]
      · rw [if_neg hkey, List.filter_cons_of_neg (by simp [hkey])]

theorem childrenOf_get? (spans : List TraceEvent) (key : Option Str) :
    (Entries.get? key (childrenOf spans)).getD [] = spans.filter fun span => parentIn spans span = key :=
  get?_foldl_children (parentIn spans) key spans []

theorem under_iff {span parent : TraceEvent} (hparent : parent ∈ spans) :
    RoseTree.Under (childrenAt (childrenOf spans)) span parent ↔ ChildOf spans span parent := by
  unfold RoseTree.Under childrenAt ChildOf
  rw [childrenOf_get?, List.mem_filter, decide_eq_true_eq, parentIn, Option.filter_eq_some_iff, decide_eq_true_eq]
  constructor
  · rintro ⟨hspan, hlink, -⟩
    exact ⟨hspan, hparent, hlink⟩
  · rintro ⟨hspan, -, hlink⟩
    exact ⟨hspan, hlink, List.mem_map.mpr ⟨parent, hparent, rfl⟩⟩

theorem mem_of_under {span parent : TraceEvent} (h : RoseTree.Under (childrenAt (childrenOf spans)) span parent) :
    span ∈ spans := by
  unfold RoseTree.Under childrenAt at h
  rw [childrenOf_get?] at h
  exact List.mem_of_mem_filter h

theorem mem_of_reaches {span root : TraceEvent} (hroot : root ∈ spans)
    (h : Relation.ReflTransGen (RoseTree.Under (childrenAt (childrenOf spans))) span root) : span ∈ spans := by
  rcases Relation.ReflTransGen.cases_head h with rfl | ⟨next, hnext, -⟩
  · exact hroot
  · exact mem_of_under hnext

-- A chain down from a span of the trace stays in the trace.
theorem reaches_iff {span root : TraceEvent} (hroot : root ∈ spans) :
    Relation.ReflTransGen (RoseTree.Under (childrenAt (childrenOf spans))) span root ↔
      Relation.ReflTransGen (ChildOf spans) span root := by
  constructor
  · intro h
    induction h using Relation.ReflTransGen.head_induction_on with
    | refl => exact .refl
    | head hstep hrest ih => exact ih.head ((under_iff (mem_of_reaches hroot hrest)).mp hstep)
  · intro h
    exact h.lift id fun _ parent hstep => (under_iff hstep.2.1).mpr hstep

theorem cycle_iff {span : TraceEvent} :
    Relation.TransGen (RoseTree.Under (childrenAt (childrenOf spans))) span span ↔
      Relation.TransGen (ChildOf spans) span span := by
  constructor
  · intro h
    obtain ⟨next, hnext, hrest⟩ := Relation.TransGen.head'_iff.mp h
    have hspan := mem_of_under hnext
    have hnextMem := mem_of_reaches hspan hrest
    exact Relation.TransGen.head' ((under_iff hnextMem).mp hnext) ((reaches_iff hspan).mp hrest)
  · intro h
    exact h.lift id fun _ parent hstep => (under_iff hstep.2.1).mpr hstep

-- Links are told by the ids, which differ.
theorem eq_of_childOf (hids : (spans.map TraceEvent.spanId).Nodup) {span parent other : TraceEvent}
    (h : ChildOf spans span parent) (h' : ChildOf spans span other) : parent = other := by
  have hid : parent.spanId = other.spanId := Option.some.inj (h.2.2.symm.trans h'.2.2)
  exact List.inj_on_of_nodup_map hids h.2.1 h'.2.1 hid

theorem parentIn_ne_none {span parent : TraceEvent} (h : ChildOf spans span parent) : parentIn spans span ≠ none := by
  rw [parentIn, ne_eq, Option.filter_eq_none_iff]
  intro hnone
  exact hnone parent.spanId h.2.2 (decide_eq_true (List.mem_map.mpr ⟨parent, h.2.1, rfl⟩))

-- What leads to a span without a parent in the trace is on no cycle.
theorem acyclic_of_reaches (hids : (spans.map TraceEvent.spanId).Nodup) {span root : TraceEvent}
    (hroot : parentIn spans root = none) (h : Relation.ReflTransGen (ChildOf spans) span root) :
    ¬Relation.TransGen (ChildOf spans) span span := by
  induction h using Relation.ReflTransGen.head_induction_on with
  | refl =>
      intro hcycle
      obtain ⟨next, hnext, -⟩ := Relation.TransGen.head'_iff.mp hcycle
      exact parentIn_ne_none hnext hroot
  | @head span next hstep _ ih =>
      intro hcycle
      obtain ⟨other, hother, hrest⟩ := Relation.TransGen.head'_iff.mp hcycle
      have hsame := eq_of_childOf hids hstep hother
      subst hsame
      exact ih (Relation.TransGen.tail' hrest hstep)

end Links

section Root

variable {spans : List TraceEvent} {first : TraceEvent}

theorem rootOf_eq :
    rootOf (childrenOf spans) first = (spans.filter fun span => parentIn spans span = none).headD first := by
  rw [← childrenOf_get? spans none, rootOf]
  cases Entries.get? none (childrenOf spans) with
  | none => rfl
  | some found => rfl

theorem rootOf_mem (hfirst : first ∈ spans) : rootOf (childrenOf spans) first ∈ spans := by
  rw [rootOf_eq]
  cases hroots : spans.filter fun span => parentIn spans span = none with
  | nil => exact hfirst
  | cons root others => exact List.mem_of_mem_filter (hroots ▸ List.mem_cons_self)

theorem childOf_of_parentIn {span : TraceEvent} {parent : Str} (hspan : span ∈ spans)
    (h : parentIn spans span = some parent) : ∃ other, ChildOf spans span other := by
  rw [parentIn, Option.filter_eq_some_iff] at h
  obtain ⟨other, hother, rfl⟩ := List.mem_map.mp (of_decide_eq_true h.2)
  exact ⟨other, hspan, hother, h.1⟩

-- A span without a parent that every span comes from is the root of the document.
theorem rootOf_of_reaches {root : TraceEvent} (hroot : root ∈ spans) (hnone : parentIn spans root = none)
    (hall : ∀ span ∈ spans, Relation.ReflTransGen (ChildOf spans) span root) :
    rootOf (childrenOf spans) first = root := by
  rw [rootOf_eq]
  cases hroots : spans.filter fun span => parentIn spans span = none with
  | nil =>
      have hmem : root ∈ spans.filter fun span => parentIn spans span = none :=
        List.mem_filter.mpr ⟨hroot, decide_eq_true hnone⟩
      rw [hroots] at hmem
      cases hmem
  | cons found others =>
      have hfound : found ∈ spans.filter fun span => parentIn spans span = none := hroots ▸ List.mem_cons_self
      obtain ⟨hmem, hfoundNone⟩ := List.mem_filter.mp hfound
      rw [List.headD_cons]
      rcases Relation.ReflTransGen.cases_head (hall found hmem) with heq | ⟨next, hnext, -⟩
      · exact heq
      · exact absurd (of_decide_eq_true hfoundNone) (parentIn_ne_none hnext)

end Root

section Map

variable [Calendar] {spans : List TraceEvent} {first : TraceEvent} {fuel : Nat}

theorem segmentNode_inj (hids : (spans.map TraceEvent.spanId).Nodup) {span other : TraceEvent} (hspan : span ∈ spans)
    (hother : other ∈ spans) (h : segmentNode span = segmentNode other) : span = other :=
  List.inj_on_of_nodup_map hids hspan hother (congrArg SegmentNode.id h)

-- Every span is one node of the document, below its parent's where there are no cycles.
def Forest (spans : List TraceEvent) : Prop := ∀ span, ¬Relation.TransGen (ChildOf spans) span span

def KeepsEverySpan (spans : List TraceEvent) : Prop :=
  ∃ fuel document, mapTrace fuel spans = some document ∧ document.nodes.Perm (spans.map segmentNode) ∧
    (Forest spans → ∀ span parent, ChildOf spans span parent →
      document.Nests (segmentNode parent) (segmentNode span))

-- One span has no parent in the trace, and every span comes from it.
def SingleTree (spans : List TraceEvent) : Prop :=
  spans = [] ∨ ∃ root ∈ spans, parentIn spans root = none ∧
    ∀ span ∈ spans, Relation.ReflTransGen (ChildOf spans) span root

theorem mapTrace_cons {rest : List TraceEvent} {document : Document} :
    mapTrace fuel (first :: rest) = some document ↔
      ∃ tree, segment (childrenOf (first :: rest)) fuel (rootOf (childrenOf (first :: rest)) first) = some tree ∧
        document = .root (xrayTraceId (rootOf (childrenOf (first :: rest)) first).traceId) tree := by
  rw [mapTrace]
  constructor
  · intro h
    obtain ⟨tree, htree, h⟩ := Option.bind_eq_some_iff.mp h
    cases h
    exact ⟨tree, htree, rfl⟩
  · rintro ⟨tree, htree, rfl⟩
    rw [htree]
    rfl

theorem singleTree_of_keeps (hids : (spans.map TraceEvent.spanId).Nodup) (h : KeepsEverySpan spans) :
    SingleTree spans := by
  obtain ⟨fuel, document, hmap, hnodes, -⟩ := h
  cases hspans : spans with
  | nil => exact .inl rfl
  | cons first rest =>
      rw [← hspans]
      right
      rw [hspans, mapTrace_cons, ← hspans] at hmap
      obtain ⟨tree, htree, rfl⟩ := hmap
      have hfirst : first ∈ spans := hspans ▸ List.mem_cons_self
      have hroot := rootOf_mem hfirst
      have hall : ∀ span ∈ spans, Relation.ReflTransGen (ChildOf spans) span (rootOf (childrenOf spans) first) := by
        intro span hspan
        have hmem : segmentNode span ∈ tree.labels := hnodes.mem_iff.mpr (List.mem_map.mpr ⟨span, hspan, rfl⟩)
        obtain ⟨found, hfound, hsame⟩ := (RoseTree.mem_labels_unfold htree).mp hmem
        have hfoundEq := segmentNode_inj hids (mem_of_reaches hroot hfound) hspan hsame
        subst hfoundEq
        exact (reaches_iff hroot).mp hfound
      refine ⟨_, hroot, ?_, hall⟩
      cases hparent : parentIn spans (rootOf (childrenOf spans) first) with
      | none => rfl
      | some parent =>
          obtain ⟨other, hother⟩ := childOf_of_parentIn hroot hparent
          have hcycle := Relation.TransGen.head' hother (hall other hother.2.1)
          exact absurd (cycle_iff.mpr hcycle) (RoseTree.not_under_self (RoseTree.acc_of_unfold htree))

theorem keeps_of_singleTree (hids : (spans.map TraceEvent.spanId).Nodup) (h : SingleTree spans) :
    KeepsEverySpan spans := by
  rcases h with rfl | ⟨root, hroot, hnone, hall⟩
  · exact ⟨0, .empty, rfl, .nil, fun _ span parent hchild => absurd hchild.1 List.not_mem_nil⟩
  · have hforest : ∀ span, ¬Relation.TransGen (ChildOf spans) span span := by
      intro span hcycle
      obtain ⟨next, hnext, -⟩ := Relation.TransGen.head'_iff.mp hcycle
      exact acyclic_of_reaches hids hnone (hall span hnext.1) hcycle
    have hacc : Acc (RoseTree.Under (childrenAt (childrenOf spans))) root :=
      RoseTree.acc_of_acyclic (fun _ _ hunder => mem_of_under hunder)
        (fun span hcycle => hforest span (cycle_iff.mp hcycle)) root
    obtain ⟨fuel, tree, htree⟩ := @RoseTree.unfold_of_acc _ _ segmentNode _ _ hacc
    cases hspans : spans with
    | nil =>
        rw [hspans] at hroot
        cases hroot
    | cons first rest =>
        have hrootOf : rootOf (childrenOf spans) first = root := rootOf_of_reaches hroot hnone hall
        have hmap : mapTrace fuel spans = some (.root (xrayTraceId root.traceId) tree) := by
          rw [hspans, mapTrace_cons, ← hspans, hrootOf]
          exact ⟨tree, htree, rfl⟩
        rw [← hspans]
        refine ⟨fuel, _, hmap, ?_, ?_⟩
        · have hspansNodup : spans.Nodup := hids.of_map _
          have hnodup : tree.labels.Nodup := by
            refine RoseTree.nodup_labels_unfold ?_ ?_ ?_ .refl htree
            · intro span parent other hparent hother hunder hunder'
              exact eq_of_childOf hids ((under_iff (mem_of_reaches hroot hparent)).mp hunder)
                ((under_iff (mem_of_reaches hroot hother)).mp hunder')
            · intro span other hspan hother hsame
              exact segmentNode_inj hids (mem_of_reaches hroot hspan) (mem_of_reaches hroot hother) hsame
            · intro parent
              rw [childrenAt, childrenOf_get?]
              exact hspansNodup.filter _
          have hmapNodup : (spans.map segmentNode).Nodup :=
            hspansNodup.map_on fun span hspan other hother hsame => segmentNode_inj hids hspan hother hsame
          apply (List.perm_ext_iff_of_nodup hnodup hmapNodup).mpr
          intro node
          rw [RoseTree.mem_labels_unfold htree, List.mem_map]
          constructor
          · rintro ⟨span, hspan, rfl⟩
            exact ⟨span, mem_of_reaches hroot hspan, rfl⟩
          · rintro ⟨span, hspan, rfl⟩
            exact ⟨span, (reaches_iff hroot).mpr (hall span hspan), rfl⟩
        · intro _ span parent hchild
          exact RoseTree.nests_unfold htree ((reaches_iff hroot).mpr (hall parent hchild.2.1))
            ((under_iff hchild.2.1).mpr hchild)

-- The document holds every span once, nested as the links say, just where the trace is
-- empty or one tree.
theorem mapTrace_keeps_iff (hids : (spans.map TraceEvent.spanId).Nodup) : KeepsEverySpan spans ↔ SingleTree spans :=
  ⟨singleTree_of_keeps hids, keeps_of_singleTree hids⟩

end Map

section Traces

@[reducible] def noCalendar : Calendar := ⟨fun _ => none⟩

def parentSpan : TraceEvent := ⟨"t", "1", "orders", "order:create", "Ok", none, none, none, none, none, none, none⟩

def childSpan : TraceEvent := ⟨"t", "2", "stock", "stock:take", "Ok", some "1", none, none, none, none, none, none⟩

theorem mapTrace_keeps_child :
    letI := noCalendar
    KeepsEverySpan [childSpan, parentSpan] ↔ SingleTree [childSpan, parentSpan] := by
  let _ := noCalendar
  exact mapTrace_keeps_iff (by decide)

def selfParent : TraceEvent := ⟨"t", "1", "orders", "order:create", "Ok", some "1", none, none, none, none, none, none⟩

-- A span that is its own parent is mapped without end.
theorem selfParent_lost :
    letI := noCalendar
    ([selfParent].map TraceEvent.spanId).Nodup ∧ ¬KeepsEverySpan [selfParent] := by
  let _ := noCalendar
  refine ⟨by decide, ?_⟩
  intro h
  rcases singleTree_of_keeps (by decide) h with hempty | ⟨root, hroot, hnone, -⟩
  · cases hempty
  · rw [List.mem_singleton] at hroot
    subst hroot
    exact absurd hnone (by decide)

end Traces

end Benzene.Mesh.XRay
