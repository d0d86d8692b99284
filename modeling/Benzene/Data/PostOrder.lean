import Benzene.Data.Py
import Mathlib.Logic.Relation

namespace Benzene.Data

namespace PostOrder

variable {κ ε : Type} (nodes : List κ) (links : κ → Except ε (List κ))

section Order

-- A node has a link to another one.
def Links (node target : κ) : Prop := target ∈ nodes ∧ ∃ targets, links node = .ok targets ∧ target ∈ targets

-- A node comes after what it has links to, but for what leads back to it.
inductive Settled : List κ → Prop
  | nil : Settled []
  | snoc {order : List κ} {node : κ} (horder : Settled order) (hnode : node ∈ nodes) (hnew : node ∉ order)
      (hlinks : ∃ targets, links node = .ok targets)
      (hbefore : ∀ target, Links nodes links node target →
        target ∈ order ∨ Relation.ReflTransGen (Links nodes links) target node) : Settled (order ++ [node])

variable {nodes links} {order : List κ}

theorem Settled.nodup (h : Settled nodes links order) : order.Nodup := by
  induction h with
  | nil => exact List.nodup_nil
  | snoc _ _ hnew _ _ ih =>
      rw [List.nodup_append]
      refine ⟨ih, List.nodup_singleton _, ?_⟩
      intro a ha b hb hab
      rw [List.mem_singleton] at hb
      apply hnew
      rwa [← hb, ← hab]

theorem Settled.mem {node : κ} (h : Settled nodes links order) (hnode : node ∈ order) :
    node ∈ nodes ∧ ∃ targets, links node = .ok targets := by
  induction h with
  | nil => cases hnode
  | snoc _ hmem _ hlinks _ ih =>
      rcases List.mem_append.mp hnode with hnode | hnode
      · exact ih hnode
      · rw [List.mem_singleton] at hnode
        subst hnode
        exact ⟨hmem, hlinks⟩

-- `first` comes somewhere before `last`.
def Before (order : List κ) (first last : κ) : Prop := ∃ front back, order = front ++ last :: back ∧ first ∈ front

theorem Before.append {first last : κ} (h : Before order first last) (more : List κ) :
    Before (order ++ more) first last := by
  obtain ⟨front, back, rfl, hfirst⟩ := h
  exact ⟨front, back ++ more, by rw [List.append_assoc, List.cons_append], hfirst⟩

theorem Settled.before {node target : κ} (h : Settled nodes links order) (hnode : node ∈ order)
    (hlink : Links nodes links node target) (hback : ¬Relation.ReflTransGen (Links nodes links) target node) :
    Before order target node := by
  induction h with
  | nil => cases hnode
  | @snoc order last _ _ hnew _ hbefore ih =>
      rcases List.mem_append.mp hnode with hearlier | hlast
      · exact (ih hearlier).append [last]
      · rw [List.mem_singleton] at hlast
        subst hlast
        exact ⟨order, [], rfl, (hbefore target hlink).resolve_right hback⟩

end Order

variable [DecidableEq κ]

section Visit

-- What is left to be put on the stack.
def pending (stack : List κ) : List κ := nodes.filter fun node => node ∉ stack

theorem pending_cons_lt {nodes stack : List κ} {node : κ} (hnode : node ∈ nodes) (hstack : node ∉ stack) :
    (pending nodes (node :: stack)).length < (pending nodes stack).length := by
  have hsub : pending nodes (node :: stack) = (pending nodes stack).filter fun other => other ≠ node := by
    unfold pending
    rw [List.filter_filter]
    apply List.filter_congr
    intro other _
    simp only [List.mem_cons, not_or, ne_eq, Bool.decide_and, decide_not]
  rw [hsub]
  apply List.length_filter_lt_length_iff_exists.mpr
  exact ⟨node, List.mem_filter.mpr ⟨hnode, by simp [hstack]⟩, by simp⟩

-- A node is put at the end of the order after what it has links to, unless it is
-- there already or is being visited.
def visit (stack : List κ) (node : κ) (order : List κ) : Except ε (List κ) :=
  if _h : node ∈ order ∨ node ∉ nodes ∨ node ∈ stack then .ok order
  else do
    let targets ← links node
    let order ← targets.foldlM (fun order target =>
      if target ∈ nodes then visit (node :: stack) target order else .ok order) order
    return order ++ [node]
termination_by (pending nodes stack).length
decreasing_by
  rw [not_or, not_or, not_not] at _h
  exact pending_cons_lt _h.2.1 _h.2.2

def postOrder : Except ε (List κ) :=
  nodes.foldlM (fun order node => visit nodes links [] node order) []

-- What the visits to some nodes make of an order.
structure Visited (stack visits before after : List κ) : Prop where
  settled : Settled nodes links after
  keeps : ∀ node ∈ before, node ∈ after
  fresh : ∀ node ∈ stack, node ∈ after → node ∈ before
  reached : ∀ node ∈ visits, node ∈ nodes → node ∈ after ∨ node ∈ stack

variable {nodes links}

omit [DecidableEq κ] in
theorem visited_foldlM {stack : List κ} {step : List κ → κ → Except ε (List κ)} {targets order order' : List κ}
    (hstep : ∀ target ∈ targets, ∀ order order', Settled nodes links order → step order target = .ok order' →
      Visited nodes links stack [target] order order')
    (horder : Settled nodes links order) (h : targets.foldlM step order = .ok order') :
    Visited nodes links stack targets order order' := by
  induction targets generalizing order with
  | nil =>
      cases h
      exact ⟨horder, fun _ hm => hm, fun _ _ hm => hm, fun _ hm => absurd hm List.not_mem_nil⟩
  | cons target rest ih =>
      rw [List.foldlM_cons] at h
      obtain ⟨middle, hfirst, hrest⟩ := Except.bind_eq_ok.mp h
      have hfirst := hstep target List.mem_cons_self order middle horder hfirst
      have hrest := ih (fun other hother => hstep other (List.mem_cons_of_mem _ hother)) hfirst.settled hrest
      refine ⟨hrest.settled, ?_, ?_, ?_⟩
      · intro node hnode
        exact hrest.keeps node (hfirst.keeps node hnode)
      · intro node hstack hnode
        exact hfirst.fresh node hstack (hrest.fresh node hstack hnode)
      · intro node hnode hmem
        rcases List.mem_cons.mp hnode with rfl | hnode
        · exact (hfirst.reached node List.mem_cons_self hmem).imp (hrest.keeps node) id
        · exact hrest.reached node hnode hmem

-- Every node on the stack leads to the one that is visited.
theorem visited_visit {stack : List κ} {node : κ} {order order' : List κ} (horder : Settled nodes links order)
    (hstack : ∀ waiting ∈ stack, Relation.ReflTransGen (Links nodes links) waiting node)
    (h : visit nodes links stack node order = .ok order') : Visited nodes links stack [node] order order' := by
  rw [visit] at h
  split at h
  · rename_i hskip
    cases h
    refine ⟨horder, fun _ hm => hm, fun _ _ hm => hm, ?_⟩
    intro other hother hmem
    rw [List.mem_singleton] at hother
    subst hother
    rcases hskip with hdone | hmissing | hwaiting
    · exact .inl hdone
    · exact absurd hmem hmissing
    · exact .inr hwaiting
  · rename_i hvisit
    rw [not_or, not_or, not_not] at hvisit
    obtain ⟨hnew, hnode, hwaiting⟩ := hvisit
    obtain ⟨targets, htargets, h⟩ := Except.bind_eq_ok.mp h
    obtain ⟨middle, hmiddle, h⟩ := Except.bind_eq_ok.mp h
    cases h
    have hinner : Visited nodes links (node :: stack) targets order middle := by
      apply visited_foldlM _ horder hmiddle
      intro target htarget before after hbefore hround
      split at hround
      · rename_i hmem
        have hlink : Links nodes links node target := ⟨hmem, targets, htargets, htarget⟩
        have hlt := pending_cons_lt hnode hwaiting
        apply visited_visit hbefore _ hround
        intro waiting hwaiting
        rcases List.mem_cons.mp hwaiting with rfl | hwaiting
        · exact .single hlink
        · exact (hstack waiting hwaiting).tail hlink
      · rename_i hmissing
        cases hround
        refine ⟨hbefore, fun _ hm => hm, fun _ _ hm => hm, ?_⟩
        intro other hother hmem
        rw [List.mem_singleton] at hother
        exact absurd (hother ▸ hmem) hmissing
    have hnotMiddle : node ∉ middle := fun hm => hnew (hinner.fresh node List.mem_cons_self hm)
    refine ⟨?_, ?_, ?_, ?_⟩
    · apply hinner.settled.snoc hnode hnotMiddle ⟨targets, htargets⟩
      rintro target ⟨hmem, others, hothers, htarget⟩
      rw [htargets] at hothers
      cases hothers
      rcases hinner.reached target htarget hmem with hdone | hwaiting
      · exact .inl hdone
      · rcases List.mem_cons.mp hwaiting with rfl | hwaiting
        · exact .inr .refl
        · exact .inr (hstack target hwaiting)
    · intro other hother
      exact List.mem_append_left _ (hinner.keeps other hother)
    · intro other hother hmem
      rcases List.mem_append.mp hmem with hmem | hmem
      · exact hinner.fresh other (List.mem_cons_of_mem _ hother) hmem
      · rw [List.mem_singleton] at hmem
        exact absurd (hmem ▸ hother) hwaiting
    · intro other hother _
      rw [List.mem_singleton] at hother
      subst hother
      exact .inl (List.mem_append_right _ List.mem_cons_self)
termination_by (pending nodes stack).length

end Visit

section Run

variable {nodes links}

theorem visited_postOrder {order : List κ} (h : postOrder nodes links = .ok order) :
    Visited nodes links [] nodes [] order :=
  visited_foldlM (fun _ _ _ _ horder hvisit =>
    visited_visit horder (fun _ hm => absurd hm List.not_mem_nil) hvisit) .nil h

theorem mem_postOrder {order : List κ} (h : postOrder nodes links = .ok order) (node : κ) :
    node ∈ order ↔ node ∈ nodes := by
  have hvisited := visited_postOrder h
  constructor
  · intro hnode
    exact (hvisited.settled.mem hnode).1
  · intro hnode
    exact (hvisited.reached node hnode hnode).resolve_right List.not_mem_nil

end Run

end PostOrder

end Benzene.Data
