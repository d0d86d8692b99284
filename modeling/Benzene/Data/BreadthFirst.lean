import Mathlib.Data.Finset.Card

namespace Benzene.Data

section Chains

variable {κ ε : Type}

-- The labels along a way through a graph with labelled edges.
inductive Chain (edge : κ → κ → ε → Prop) (source : κ) : List ε → κ → Prop
  | nil : Chain edge source [] source
  | snoc {labels : List ε} {node next : κ} {label : ε} (hchain : Chain edge source labels node)
      (hedge : edge node next label) : Chain edge source (labels ++ [label]) next

-- The edges that a list gives for each node.
def Listed (edges : κ → List (κ × ε)) (node next : κ) (label : ε) : Prop := (next, label) ∈ edges node

-- A chain to the target and none that is shorter.
def Shortest (edge : κ → κ → ε → Prop) (source target : κ) (labels : List ε) : Prop :=
  Chain edge source labels target ∧ ∀ other, Chain edge source other target → labels.length ≤ other.length

-- What a search is to find.
def Answers (edge : κ → κ → ε → Prop) (source target : κ) : Option (List ε) → Prop
  | some labels => Shortest edge source target labels
  | none => ∀ labels, ¬Chain edge source labels target

variable {edge : κ → κ → ε → Prop} {source node : κ} {labels : List ε}

theorem Chain.eq_source (h : Chain edge source labels node) (hlength : labels.length = 0) : node = source := by
  cases h with
  | nil => rfl
  | snoc hchain hedge =>
      rw [List.length_append, List.length_singleton] at hlength
      omega

-- What holds of the source and is handed on along every edge holds at the end of a chain.
theorem Chain.induct {p : κ → Prop} (h : Chain edge source labels node) (hsource : p source)
    (hstep : ∀ node next label, p node → edge node next label → p next) : p node := by
  induction h with
  | nil => exact hsource
  | snoc hchain hedge ih => exact hstep _ _ _ ih hedge

end Chains

namespace BreadthFirst

-- The nodes that were met, and those whose edges are still to be followed, each
-- with the labels on the way to it.
structure State (κ ε : Type) where
  seen : List κ
  queue : List (κ × List ε)

variable {κ ε : Type}

section Search

variable [DecidableEq κ]

-- The edges of a node in turn. One that leads to the target ends the search, one
-- that leads to a new node puts it at the end of the queue.
def visit (target : κ) (taken : List ε) : List (κ × ε) → State κ ε → List ε ⊕ State κ ε
  | [], state => .inr state
  | (next, label) :: rest, state =>
      if next = target then .inl (taken ++ [label])
      else if next ∈ state.seen then visit target taken rest state
      else visit target taken rest ⟨next :: state.seen, state.queue ++ [(next, taken ++ [label])]⟩

-- The labels on a way to the target, or that there is none. `none` is a search
-- that ran out of fuel.
def search (edges : κ → List (κ × ε)) (target : κ) : Nat → State κ ε → Option (Option (List ε))
  | 0, _ => none
  | _ + 1, ⟨_, []⟩ => some none
  | fuel + 1, ⟨seen, (node, taken) :: queue⟩ =>
      match visit target taken (edges node) ⟨seen, queue⟩ with
      | .inl labels => some (some labels)
      | .inr state => search edges target fuel state

end Search

def start (source : κ) : State κ ε := ⟨[source], [(source, [])]⟩

section Visit

variable [DecidableEq κ] {target : κ} {taken : List ε}

theorem visit_inl {found : List (κ × ε)} {state : State κ ε} {labels : List ε}
    (h : visit target taken found state = .inl labels) :
    ∃ label, (target, label) ∈ found ∧ labels = taken ++ [label] := by
  induction found generalizing state with
  | nil => cases h
  | cons edge rest ih =>
      obtain ⟨next, label⟩ := edge
      rw [visit] at h
      split at h
      · rename_i hnext
        subst hnext
        cases h
        exact ⟨label, List.mem_cons_self, rfl⟩
      · split at h
        · obtain ⟨other, hmem, hlabels⟩ := ih h
          exact ⟨other, List.mem_cons_of_mem _ hmem, hlabels⟩
        · obtain ⟨other, hmem, hlabels⟩ := ih h
          exact ⟨other, List.mem_cons_of_mem _ hmem, hlabels⟩

-- What a visit that does not end the search adds to the queue.
structure Adds (target : κ) (taken : List ε) (found : List (κ × ε)) (state after : State κ ε)
    (added : List (κ × List ε)) : Prop where
  queue : after.queue = state.queue ++ added
  seen : ∀ node, node ∈ after.seen ↔ node ∈ state.seen ∨ node ∈ added.map Prod.fst
  fresh : ∀ entry ∈ added, entry.1 ∉ state.seen ∧ ∃ label, (entry.1, label) ∈ found ∧ entry.2 = taken ++ [label]
  nodup : (added.map Prod.fst).Nodup
  missed : ∀ edge ∈ found, edge.1 ≠ target
  covered : ∀ edge ∈ found, edge.1 ∈ after.seen

theorem visit_inr {found : List (κ × ε)} {state after : State κ ε}
    (h : visit target taken found state = .inr after) : ∃ added, Adds target taken found state after added := by
  induction found generalizing state with
  | nil =>
      cases h
      exact ⟨[], by simp, by simp, by simp, List.nodup_nil, by simp, by simp⟩
  | cons edge rest ih =>
      obtain ⟨next, label⟩ := edge
      rw [visit] at h
      split at h
      · cases h
      · rename_i htarget
        split at h
        · rename_i hknown
          obtain ⟨added, hadds⟩ := ih h
          refine ⟨added, hadds.queue, hadds.seen, ?_, hadds.nodup, ?_, ?_⟩
          · intro entry hentry
            obtain ⟨hnew, other, hmem, htaken⟩ := hadds.fresh entry hentry
            exact ⟨hnew, other, List.mem_cons_of_mem _ hmem, htaken⟩
          · exact List.forall_mem_cons.mpr ⟨htarget, hadds.missed⟩
          · exact List.forall_mem_cons.mpr ⟨(hadds.seen next).mpr (Or.inl hknown), hadds.covered⟩
        · rename_i hnew
          obtain ⟨added, hadds⟩ := ih h
          have hlater : ∀ entry ∈ added, entry.1 ≠ next ∧ entry.1 ∉ state.seen := by
            intro entry hentry
            have hfresh := (hadds.fresh entry hentry).1
            rw [List.mem_cons, not_or] at hfresh
            exact hfresh
          refine ⟨(next, taken ++ [label]) :: added, ?_, ?_, ?_, ?_, ?_, ?_⟩
          · rw [hadds.queue, List.append_assoc]
            rfl
          · intro node
            rw [hadds.seen, List.map_cons, List.mem_cons, List.mem_cons]
            tauto
          · refine List.forall_mem_cons.mpr ⟨⟨hnew, label, List.mem_cons_self, rfl⟩, fun entry hentry => ?_⟩
            obtain ⟨-, other, hmem, htaken⟩ := hadds.fresh entry hentry
            exact ⟨(hlater entry hentry).2, other, List.mem_cons_of_mem _ hmem, htaken⟩
          · rw [List.map_cons, List.nodup_cons]
            refine ⟨fun hmem => ?_, hadds.nodup⟩
            obtain ⟨entry, hentry, heq⟩ := List.mem_map.mp hmem
            exact (hlater entry hentry).1 heq
          · exact List.forall_mem_cons.mpr ⟨htarget, hadds.missed⟩
          · exact List.forall_mem_cons.mpr
              ⟨(hadds.seen next).mpr (Or.inl List.mem_cons_self), hadds.covered⟩

end Visit

section Frontier

variable {edges : κ → List (κ × ε)} {source target : κ}

-- The invariant of the search while it follows the nodes at distance `depth`:
-- what is nearer was followed, and the queue holds the rest of that distance
-- before the nodes one step further.
structure Frontier (edges : κ → List (κ × ε)) (source target : κ) (depth : Nat) (state : State κ ε) : Prop where
  source_seen : source ∈ state.seen
  target_unseen : target ∉ state.seen
  chains : ∀ entry ∈ state.queue, Chain (Listed edges) source entry.2 entry.1
  levels : ∃ now later, state.queue = now ++ later ∧ (∀ entry ∈ now, entry.2.length = depth) ∧
    ∀ entry ∈ later, entry.2.length = depth + 1 ∧
      ∀ labels, Chain (Listed edges) source labels entry.1 → depth < labels.length
  closed : ∀ node ∈ state.seen, (∀ entry ∈ state.queue, entry.1 ≠ node) → ∀ edge ∈ edges node, edge.1 ∈ state.seen
  near : ∀ node labels, Chain (Listed edges) source labels node → labels.length ≤ depth → node ∈ state.seen

theorem frontier_start (h : source ≠ target) : Frontier edges source target 0 (start source) where
  source_seen := List.mem_singleton_self source
  target_unseen := fun hmem => h (List.mem_singleton.mp hmem).symm
  chains := by
    intro entry hentry
    rw [List.mem_singleton.mp hentry]
    exact .nil
  levels := ⟨[(source, [])], [], rfl, by simp, by simp⟩
  closed := by
    intro node hnode hqueue
    exact absurd (List.mem_singleton.mp hnode).symm (hqueue (source, []) (List.mem_singleton_self _))
  near := by
    intro node labels hchain hlength
    have hnode := hchain.eq_source (by omega)
    rw [hnode]
    exact List.mem_singleton_self source

-- Once the nodes at a distance are followed, those in the queue are the next distance.
theorem Frontier.advance {depth : Nat} {state : State κ ε} (h : Frontier edges source target depth state)
    (hlater : ∀ entry ∈ state.queue, entry.2.length = depth + 1 ∧
      ∀ labels, Chain (Listed edges) source labels entry.1 → depth < labels.length) :
    Frontier edges source target (depth + 1) state where
  source_seen := h.source_seen
  target_unseen := h.target_unseen
  chains := h.chains
  levels := ⟨state.queue, [], (List.append_nil _).symm, fun entry hentry => (hlater entry hentry).1, by simp⟩
  closed := h.closed
  near := by
    intro node labels hchain hlength
    cases hchain with
    | nil => exact h.source_seen
    | @snoc labels previous _ label hprevious hedge =>
        rw [List.length_append, List.length_singleton] at hlength
        have hseen := h.near previous labels hprevious (by omega)
        refine h.closed previous hseen ?_ _ hedge
        intro entry hentry heq
        subst heq
        have hfar := (hlater entry hentry).2 labels hprevious
        omega

-- The head of the queue is at the depth of some frontier.
theorem Frontier.head {depth : Nat} {seen : List κ} {node : κ} {taken : List ε} {queue : List (κ × List ε)}
    (h : Frontier edges source target depth ⟨seen, (node, taken) :: queue⟩) :
    ∃ depth', Frontier edges source target depth' ⟨seen, (node, taken) :: queue⟩ ∧ taken.length = depth' := by
  obtain ⟨now, later, hqueue, hnow, hlater⟩ := h.levels
  cases now with
  | nil =>
      rw [List.nil_append] at hqueue
      dsimp only at hqueue
      rw [← hqueue] at hlater
      exact ⟨depth + 1, h.advance hlater, (hlater _ List.mem_cons_self).1⟩
  | cons first now =>
      obtain ⟨rfl, -⟩ := List.cons_eq_cons.mp hqueue
      exact ⟨depth, h, hnow _ List.mem_cons_self⟩

theorem Frontier.found {seen : List κ} {node : κ} {taken : List ε} {queue : List (κ × List ε)} {label : ε}
    (h : Frontier edges source target taken.length ⟨seen, (node, taken) :: queue⟩)
    (hedge : (target, label) ∈ edges node) : Shortest (Listed edges) source target (taken ++ [label]) := by
  refine ⟨.snoc (h.chains (node, taken) List.mem_cons_self) hedge, fun other hother => ?_⟩
  rw [List.length_append, List.length_singleton]
  by_contra hshort
  exact h.target_unseen (h.near target other hother (by omega))

variable [DecidableEq κ]

theorem Frontier.visit {seen : List κ} {node : κ} {taken : List ε} {queue : List (κ × List ε)} {after : State κ ε}
    (h : Frontier edges source target taken.length ⟨seen, (node, taken) :: queue⟩) {added : List (κ × List ε)}
    (hadds : Adds target taken (edges node) ⟨seen, queue⟩ after added) :
    Frontier edges source target taken.length after where
  source_seen := (hadds.seen source).mpr (Or.inl h.source_seen)
  target_unseen := by
    intro hmem
    rcases (hadds.seen target).mp hmem with hold | hnew
    · exact h.target_unseen hold
    · obtain ⟨entry, hentry, heq⟩ := List.mem_map.mp hnew
      obtain ⟨-, label, hedge, -⟩ := hadds.fresh entry hentry
      exact hadds.missed _ hedge heq
  chains := by
    intro entry hentry
    rw [hadds.queue, List.mem_append] at hentry
    rcases hentry with hold | hnew
    · exact h.chains entry (List.mem_cons_of_mem _ hold)
    · obtain ⟨-, label, hedge, htaken⟩ := hadds.fresh entry hnew
      rw [htaken]
      exact .snoc (h.chains (node, taken) List.mem_cons_self) hedge
  levels := by
    obtain ⟨now, later, hqueue, hnow, hlater⟩ := h.levels
    have hadded : ∀ entry ∈ added, entry.2.length = taken.length + 1 ∧
        ∀ labels, Chain (Listed edges) source labels entry.1 → taken.length < labels.length := by
      intro entry hentry
      obtain ⟨hfresh, label, -, htaken⟩ := hadds.fresh entry hentry
      refine ⟨by rw [htaken, List.length_append, List.length_singleton], fun labels hchain => ?_⟩
      by_contra hnear
      exact hfresh (h.near entry.1 labels hchain (by omega))
    cases now with
    | nil =>
        rw [List.nil_append] at hqueue
        dsimp only at hqueue
        rw [← hqueue] at hlater
        have hhead := (hlater _ List.mem_cons_self).1
        dsimp only at hhead
        omega
    | cons first now =>
        obtain ⟨-, hrest⟩ := List.cons_eq_cons.mp hqueue
        refine ⟨now, later ++ added, ?_, fun entry hentry => hnow entry (List.mem_cons_of_mem _ hentry), ?_⟩
        · rw [hadds.queue, hrest]
          exact List.append_assoc now later added
        · intro entry hentry
          rcases List.mem_append.mp hentry with hold | hnew
          · exact hlater entry hold
          · exact hadded entry hnew
  closed := by
    intro other hother hqueue edge hedge
    rw [hadds.queue] at hqueue
    rcases (hadds.seen other).mp hother with hold | hnew
    · by_cases hnode : node = other
      · subst hnode
        exact hadds.covered edge hedge
      · refine (hadds.seen edge.1).mpr (Or.inl (h.closed other hold ?_ edge hedge))
        intro entry hentry
        rcases List.mem_cons.mp hentry with rfl | hrest
        · exact hnode
        · exact hqueue entry (List.mem_append_left _ hrest)
    · obtain ⟨entry, hentry, heq⟩ := List.mem_map.mp hnew
      exact absurd heq (hqueue entry (List.mem_append_right _ hentry))
  near := by
    intro other labels hchain hlength
    exact (hadds.seen other).mpr (Or.inl (h.near other labels hchain hlength))

-- What a search that returns has found.
theorem search_spec {fuel depth : Nat} {state : State κ ε} {outcome : Option (List ε)}
    (h : Frontier edges source target depth state) (hout : search edges target fuel state = some outcome) :
    Answers (Listed edges) source target outcome := by
  induction fuel generalizing depth state with
  | zero => cases hout
  | succ fuel ih =>
      obtain ⟨seen, queue⟩ := state
      cases queue with
      | nil =>
          cases hout
          intro labels hchain
          refine h.target_unseen (hchain.induct h.source_seen fun node next label hnode hedge => ?_)
          exact h.closed node hnode (by simp) _ hedge
      | cons entry queue =>
          obtain ⟨node, taken⟩ := entry
          obtain ⟨_, hfrontier, rfl⟩ := h.head
          rw [search] at hout
          cases hvisit : BreadthFirst.visit target taken (edges node) ⟨seen, queue⟩ with
          | inl labels =>
              rw [hvisit] at hout
              cases hout
              obtain ⟨label, hedge, rfl⟩ := visit_inl hvisit
              exact hfrontier.found hedge
          | inr after =>
              rw [hvisit] at hout
              obtain ⟨added, hadds⟩ := visit_inr hvisit
              exact ih (hfrontier.visit hadds) hout

-- The search ends: every round but those that add nodes shortens the queue.
theorem search_terminates {nodes : Finset κ} (hnodes : ∀ node, ∀ edge ∈ edges node, edge.1 ∈ nodes) {fuel : Nat}
    {state : State κ ε} (h : (nodes \ state.seen.toFinset).card + state.queue.length < fuel) :
    ∃ outcome, search edges target fuel state = some outcome := by
  induction fuel generalizing state with
  | zero => omega
  | succ fuel ih =>
      obtain ⟨seen, queue⟩ := state
      cases queue with
      | nil => exact ⟨none, rfl⟩
      | cons entry queue =>
          obtain ⟨node, taken⟩ := entry
          rw [search]
          cases hvisit : BreadthFirst.visit target taken (edges node) ⟨seen, queue⟩ with
          | inl labels => exact ⟨some labels, rfl⟩
          | inr after =>
              obtain ⟨added, hadds⟩ := visit_inr hvisit
              apply ih
              have hsplit : nodes \ seen.toFinset = (nodes \ after.seen.toFinset) ∪ (added.map Prod.fst).toFinset := by
                ext other
                simp only [Finset.mem_sdiff, Finset.mem_union, List.mem_toFinset, hadds.seen]
                constructor
                · rintro ⟨hmem, hnew⟩
                  tauto
                · rintro (⟨hmem, hnew⟩ | hadded)
                  · tauto
                  · obtain ⟨entry, hentry, rfl⟩ := List.mem_map.mp hadded
                    obtain ⟨hfresh, label, hedge, -⟩ := hadds.fresh entry hentry
                    exact ⟨hnodes node _ hedge, hfresh⟩
              have hdisjoint : Disjoint (nodes \ after.seen.toFinset) (added.map Prod.fst).toFinset := by
                rw [Finset.disjoint_right]
                intro other hother hmem
                rw [Finset.mem_sdiff, List.mem_toFinset, hadds.seen] at hmem
                exact hmem.2 (Or.inr (List.mem_toFinset.mp hother))
              have hcard := congrArg Finset.card hsplit
              rw [Finset.card_union_of_disjoint hdisjoint, List.toFinset_card_of_nodup hadds.nodup,
                List.length_map] at hcard
              rw [hadds.queue, List.length_append]
              simp only [List.length_cons] at h ⊢
              omega

theorem search_start_terminates {nodes : Finset κ} (hnodes : ∀ node, ∀ edge ∈ edges node, edge.1 ∈ nodes) {fuel : Nat}
    (h : nodes.card + 1 < fuel) : ∃ outcome, search edges target fuel (start source) = some outcome := by
  apply search_terminates hnodes
  have hcard : (nodes \ [source].toFinset).card ≤ nodes.card := Finset.card_le_card Finset.sdiff_subset
  show (nodes \ [source].toFinset).card + 1 < fuel
  omega

end Frontier

end BreadthFirst

end Benzene.Data
