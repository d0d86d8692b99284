import Benzene.Data.Py
import Mathlib.Data.List.Flatten
import Mathlib.Logic.Relation
import Mathlib.Order.Lattice
import Mathlib.Order.RelClasses

namespace Benzene.Data

inductive RoseTree (β : Type)
  | node (label : β) (subtrees : List (RoseTree β))

namespace RoseTree

variable {α β : Type}

def label : RoseTree β → β
  | node label _ => label

-- The labels, each before those below it.
def labels : RoseTree β → List β
  | node label subtrees => label :: subtrees.flatMap labels

-- A node with the one label has one with the other directly below it.
inductive Nests (upper lower : β) : RoseTree β → Prop
  | here {subtrees : List (RoseTree β)} {child : RoseTree β} (hchild : child ∈ subtrees)
      (hlabel : child.label = lower) : Nests upper lower (node upper subtrees)
  | inside {label : β} {subtrees : List (RoseTree β)} {child : RoseTree β} (hchild : child ∈ subtrees)
      (hnests : Nests upper lower child) : Nests upper lower (node label subtrees)

theorem mapM_eq_some {f : α → Option β} {items : List α} {out : List β} :
    items.mapM f = some out ↔ List.Forall₂ (fun item b => f item = some b) items out := by
  induction items generalizing out with
  | nil =>
      rw [List.mapM_nil, List.forall₂_nil_left_iff]
      exact ⟨fun h => (Option.some.inj h).symm, fun h => by rw [h]; rfl⟩
  | cons item rest ih =>
      rw [List.mapM_cons]
      constructor
      · intro h
        obtain ⟨first, hfirst, h⟩ := Option.bind_eq_some_iff.mp h
        obtain ⟨others, hothers, h⟩ := Option.bind_eq_some_iff.mp h
        cases h
        exact .cons hfirst (ih.mp hothers)
      · intro h
        cases h with
        | cons hfirst hothers =>
            rw [hfirst, ih.mpr hothers]
            rfl

section Unfold

variable (label : α → β) (children : α → List α)

-- The tree of what comes from a root, `none` where the fuel runs out.
def unfold : Nat → α → Option (RoseTree β)
  | 0, _ => none
  | fuel + 1, a => do return node (label a) (← (children a).mapM (unfold fuel))

-- One is directly under the other.
def Under (a b : α) : Prop := a ∈ children b

-- The trees of several roots.
def Unfolds (fuel : Nat) : List α → List (RoseTree β) → Prop :=
  List.Forall₂ fun a tree => unfold label children fuel a = some tree

variable {label children} {fuel : Nat} {a b : α} {tree : RoseTree β}

theorem unfold_succ : unfold label children (fuel + 1) a = some tree ↔
    ∃ subtrees, Unfolds label children fuel (children a) subtrees ∧ tree = node (label a) subtrees := by
  rw [unfold]
  constructor
  · intro h
    obtain ⟨subtrees, hsubtrees, h⟩ := Option.bind_eq_some_iff.mp h
    cases h
    exact ⟨subtrees, mapM_eq_some.mp hsubtrees, rfl⟩
  · rintro ⟨subtrees, hsubtrees, rfl⟩
    rw [mapM_eq_some.mpr hsubtrees]
    rfl

theorem unfold_mono (h : unfold label children fuel a = some tree) :
    unfold label children (fuel + 1) a = some tree := by
  induction fuel generalizing a tree with
  | zero => cases h
  | succ fuel ih =>
      obtain ⟨subtrees, hsubtrees, rfl⟩ := unfold_succ.mp h
      exact unfold_succ.mpr ⟨subtrees, hsubtrees.imp fun _ _ hchild => ih hchild, rfl⟩

theorem unfold_le {more : Nat} (h : unfold label children fuel a = some tree) (hle : fuel ≤ more) :
    unfold label children more a = some tree := by
  obtain ⟨extra, rfl⟩ := Nat.exists_eq_add_of_le hle
  clear hle
  induction extra with
  | zero => exact h
  | succ extra ih => exact unfold_mono ih

theorem acc_of_unfold (h : unfold label children fuel a = some tree) : Acc (Under children) a := by
  induction fuel generalizing a tree with
  | zero => cases h
  | succ fuel ih =>
      obtain ⟨subtrees, hsubtrees, -⟩ := unfold_succ.mp h
      constructor
      intro child hchild
      obtain ⟨subtree, -, hsubtree⟩ := exists_of_mem_left hsubtrees hchild
      exact ih hsubtree

theorem unfolds_of_forall {items : List α}
    (h : ∀ item ∈ items, ∃ fuel tree, unfold label children fuel item = some tree) :
    ∃ fuel trees, Unfolds label children fuel items trees := by
  induction items with
  | nil => exact ⟨0, [], .nil⟩
  | cons item rest ih =>
      obtain ⟨⟨fuel, tree, htree⟩, hrest⟩ := List.forall_mem_cons.mp h
      obtain ⟨more, trees, htrees⟩ := ih hrest
      refine ⟨max fuel more, tree :: trees, .cons (unfold_le htree (le_max_left _ _)) ?_⟩
      exact htrees.imp fun _ _ hother => unfold_le hother (le_max_right _ _)

-- What has no endless way down is unfolded.
theorem unfold_of_acc (h : Acc (Under children) a) : ∃ fuel tree, unfold label children fuel a = some tree := by
  induction h with
  | intro a _ ih =>
      obtain ⟨fuel, subtrees, hsubtrees⟩ := @unfolds_of_forall _ _ label children (children a) ih
      exact ⟨fuel + 1, node (label a) subtrees, unfold_succ.mpr ⟨subtrees, hsubtrees, rfl⟩⟩

theorem not_under_self (h : Acc (Under children) a) : ¬Relation.TransGen (Under children) a a := by
  have hall := h.transGen
  clear h
  induction hall with
  | intro a _ ih =>
      intro hcycle
      exact ih a hcycle hcycle

-- Among finitely many there is no endless way down without a cycle.
theorem acc_of_acyclic {nodes : List α} (hnodes : ∀ b c, Under children b c → b ∈ nodes)
    (hacyclic : ∀ b, ¬Relation.TransGen (Under children) b b) (a : α) : Acc (Under children) a := by
  classical
  let below (a : α) : List α := nodes.filter fun b => Relation.TransGen (Under children) b a
  have hless : ∀ b a, Under children b a → (below b).length < (below a).length := by
    intro b a hb
    have hsub : below b = (below a).filter fun c => Relation.TransGen (Under children) c b := by
      simp only [below, List.filter_filter]
      apply List.filter_congr
      intro c _
      rw [Bool.eq_iff_iff, Bool.and_eq_true, decide_eq_true_eq, decide_eq_true_eq]
      exact ⟨fun hc => ⟨hc, hc.tail hb⟩, And.left⟩
    rw [hsub]
    apply List.length_filter_lt_length_iff_exists.mpr
    refine ⟨b, List.mem_filter.mpr ⟨hnodes b a hb, decide_eq_true (.single hb)⟩, ?_⟩
    rw [decide_eq_true_eq]
    exact hacyclic b
  have hall : ∀ n a, (below a).length < n → Acc (Under children) a := by
    intro n
    induction n with
    | zero =>
        intro a ha
        omega
    | succ n ih =>
        intro a ha
        constructor
        intro b hb
        have hlt := hless b a hb
        exact ih b (by omega)
  exact hall _ a (Nat.lt_succ_self _)

theorem label_unfold (h : unfold label children fuel a = some tree) : tree.label = label a := by
  cases fuel with
  | zero => cases h
  | succ fuel =>
      obtain ⟨subtrees, -, rfl⟩ := unfold_succ.mp h
      rfl

theorem mem_labels_unfolds {found : β} {items : List α} {trees : List (RoseTree β)}
    (h : Unfolds label children fuel items trees)
    (hroot : ∀ a tree, unfold label children fuel a = some tree →
      (found ∈ tree.labels ↔ ∃ b, Relation.ReflTransGen (Under children) b a ∧ label b = found)) :
    found ∈ trees.flatMap labels ↔
      ∃ item ∈ items, ∃ b, Relation.ReflTransGen (Under children) b item ∧ label b = found := by
  rw [List.mem_flatMap]
  constructor
  · rintro ⟨tree, htree, hfound⟩
    obtain ⟨item, hitem, hunfold⟩ := exists_of_mem_right h htree
    exact ⟨item, hitem, (hroot item tree hunfold).mp hfound⟩
  · rintro ⟨item, hitem, hfound⟩
    obtain ⟨tree, htree, hunfold⟩ := exists_of_mem_left h hitem
    exact ⟨tree, htree, (hroot item tree hunfold).mpr hfound⟩

-- The labels are those of what is under the root.
theorem mem_labels_unfold {found : β} (h : unfold label children fuel a = some tree) :
    found ∈ tree.labels ↔ ∃ b, Relation.ReflTransGen (Under children) b a ∧ label b = found := by
  induction fuel generalizing a tree with
  | zero => cases h
  | succ fuel ih =>
      obtain ⟨subtrees, hsubtrees, rfl⟩ := unfold_succ.mp h
      rw [labels, List.mem_cons, mem_labels_unfolds hsubtrees fun _ _ hchild => ih hchild]
      constructor
      · rintro (rfl | ⟨child, hchild, b, hb, hlabel⟩)
        · exact ⟨a, .refl, rfl⟩
        · exact ⟨b, hb.tail hchild, hlabel⟩
      · rintro ⟨b, hb, hlabel⟩
        cases hb with
        | refl => exact .inl hlabel.symm
        | tail hb hchild => exact .inr ⟨_, hchild, b, hb, hlabel⟩

-- What is directly under something is nested directly below it.
theorem nests_unfold {c : α} (h : unfold label children fuel a = some tree)
    (hb : Relation.ReflTransGen (Under children) b a) (hc : Under children c b) : Nests (label b) (label c) tree := by
  induction fuel generalizing a tree with
  | zero => cases h
  | succ fuel ih =>
      obtain ⟨subtrees, hsubtrees, rfl⟩ := unfold_succ.mp h
      cases hb with
      | refl =>
          obtain ⟨subtree, hmem, hsubtree⟩ := exists_of_mem_left hsubtrees hc
          exact .here hmem (label_unfold hsubtree)
      | tail hb hchild =>
          obtain ⟨subtree, hmem, hsubtree⟩ := exists_of_mem_left hsubtrees hchild
          exact .inside hmem (ih hsubtree hb)

section Once

variable {root : α}
  (hunique : ∀ b c d, Relation.ReflTransGen (Under children) c root → Relation.ReflTransGen (Under children) d root →
    Under children b c → Under children b d → c = d)
include hunique

-- What is under two of the nodes under a third one is under one of them twice.
theorem eq_of_under_both {c d : α} (hroot : Acc (Under children) root) (hc : Under children c root)
    (hd : Under children d root) (hbc : Relation.ReflTransGen (Under children) b c)
    (hbd : Relation.ReflTransGen (Under children) b d) : c = d := by
  let inside (x y : α) : Prop := Under children x y ∧ Relation.ReflTransGen (Under children) y root
  have hinside : ∀ {y}, Relation.ReflTransGen (Under children) y root → Relation.ReflTransGen (Under children) b y →
      Relation.ReflTransGen inside b y := by
    intro y hy hby
    induction hby with
    | refl => exact .refl
    | tail _ hstep ih => exact (ih (hy.head hstep)).tail ⟨hstep, hy⟩
  have hright : Relator.RightUnique inside := by
    intro x y z hy hz
    exact hunique x y z hy.2 hz.2 hy.1 hz.1
  have hsame : ∀ {x y : α}, Under children x root → Under children y root → Relation.ReflTransGen inside x y →
      x = y := by
    intro x y hx hy hxy
    rcases Relation.ReflTransGen.cases_head hxy with rfl | ⟨z, hxz, hzy⟩
    · rfl
    · have hz : z = root := hunique x z root hxz.2 .refl hxz.1 hx
      subst hz
      have hcycle : Relation.ReflTransGen (Under children) z y := hzy.lift id fun _ _ h => h.1
      exact absurd (Relation.TransGen.tail' hcycle hy) (not_under_self hroot)
  rcases Relation.ReflTransGen.total_of_right_unique hright (hinside (.single hc) hbc)
    (hinside (.single hd) hbd) with hcd | hdc
  · exact hsame hc hd hcd
  · exact (hsame hd hc hdc).symm

variable (hlabel : ∀ b c, Relation.ReflTransGen (Under children) b root →
    Relation.ReflTransGen (Under children) c root → label b = label c → b = c)
include hlabel

theorem disjoint_unfolds {items : List α} {trees : List (RoseTree β)} (hroot : Acc (Under children) root)
    (h : Unfolds label children fuel items trees) (hitems : items.Nodup)
    (hunder : ∀ item ∈ items, Under children item root) :
    trees.Pairwise fun s t => List.Disjoint s.labels t.labels := by
  induction h with
  | nil => exact .nil
  | @cons first tree rest trees hfirst hrest ih =>
      obtain ⟨hnew, hnodup⟩ := List.nodup_cons.mp hitems
      obtain ⟨hunderFirst, hunderRest⟩ := List.forall_mem_cons.mp hunder
      refine .cons ?_ (ih hnodup hunderRest)
      intro other hother found hfound hfoundOther
      obtain ⟨item, hitem, hunfold⟩ := exists_of_mem_right hrest hother
      obtain ⟨b, hb, rfl⟩ := (mem_labels_unfold hfirst).mp hfound
      obtain ⟨c, hc, hsame⟩ := (mem_labels_unfold hunfold).mp hfoundOther
      have hcb : c = b := hlabel c b (hc.tail (hunderRest item hitem)) (hb.tail hunderFirst) hsame
      subst hcb
      have heq : first = item := eq_of_under_both hunique hroot hunderFirst (hunderRest item hitem) hb hc
      exact hnew (heq ▸ hitem)

-- Nothing is met twice where each is under one alone and labels differ.
theorem nodup_labels_unfold (hchildren : ∀ b, (children b).Nodup) (ha : Relation.ReflTransGen (Under children) a root)
    (h : unfold label children fuel a = some tree) : tree.labels.Nodup := by
  induction fuel generalizing a tree with
  | zero => cases h
  | succ fuel ih =>
      have hacc := acc_of_unfold h
      obtain ⟨subtrees, hsubtrees, rfl⟩ := unfold_succ.mp h
      rw [labels, List.nodup_cons, List.nodup_flatMap]
      refine ⟨?_, ?_, ?_⟩
      · rw [mem_labels_unfolds hsubtrees fun _ _ hchild => mem_labels_unfold hchild]
        rintro ⟨child, hchild, b, hb, hsame⟩
        have hba : b = a := hlabel b a ((hb.tail hchild).trans ha) ha hsame
        subst hba
        exact not_under_self hacc (.tail' hb hchild)
      · intro subtree hsubtree
        obtain ⟨child, hchild, hunfold⟩ := exists_of_mem_right hsubtrees hsubtree
        exact ih (ha.head hchild) hunfold
      · exact disjoint_unfolds (fun b c d hc hd => hunique b c d (hc.trans ha) (hd.trans ha))
          (fun b c hb hc => hlabel b c (hb.trans ha) (hc.trans ha)) hacc hsubtrees (hchildren a) fun _ hitem => hitem

end Once

end Unfold

end RoseTree

end Benzene.Data
