import Mathlib.Data.List.MinMax
import Mathlib.Data.List.SplitBy
import Mathlib.Data.List.Lex
import Mathlib.Data.Sum.Order

namespace Benzene.Data.NaturalOrder

variable {α : Type} (digit : α → Option Nat)

-- The maximal runs of digits and of other letters.
def runs (text : List α) : List (List α) :=
  text.splitBy fun a b => (digit a).isSome == (digit b).isSome

-- The number a run of digits writes.
def number (acc : Nat) : List α → Nat
  | [] => acc
  | a :: rest => number (acc * 10 + (digit a).getD 0) rest

-- A run is a number or a text. A number is below every text.
abbrev Key (α : Type) := List (ℤ ⊕ₗ List α)

def runKey (run : List α) : ℤ ⊕ₗ List α :=
  if run.all fun a => (digit a).isSome then toLex (.inl (number digit 0 run : ℤ)) else toLex (.inr run)

def key (text : List α) : Key α := (runs digit text).map (runKey digit)

section Order

variable [LinearOrder α]

def Below (a b : List α) : Prop := key digit a ≤ key digit b

theorem below_total (a b : List α) : Below digit a b ∨ Below digit b a :=
  le_total _ _

theorem below_trans {a b c : List α} (hab : Below digit a b) (hbc : Below digit b c) : Below digit a c :=
  le_trans hab hbc

end Order

section Greatest

variable {β κ : Type} [LinearOrder κ]

-- The first of the items that no other is above, which is what `max` gives.
def firstGreatest (keyed : List (β × κ)) : Option β := (keyed.argmax Prod.snd).map Prod.fst

theorem firstGreatest_eq_none {keyed : List (β × κ)} : firstGreatest keyed = none ↔ keyed = [] := by
  rw [firstGreatest, Option.map_eq_none_iff, List.argmax_eq_none]

theorem firstGreatest_eq_some {keyed : List (β × κ)} {item : β} (h : firstGreatest keyed = some item) :
    ∃ key, (item, key) ∈ keyed ∧ ∀ pair ∈ keyed, pair.2 ≤ key := by
  obtain ⟨pair, hargmax, rfl⟩ := Option.map_eq_some_iff.mp h
  exact ⟨pair.2, List.argmax_mem hargmax, fun other hother => List.le_of_mem_argmax hother hargmax⟩

end Greatest

variable {digit}

-- The letters of a run are digits together.
theorem isSome_eq_of_mem_run {text run : List α} (hrun : run ∈ runs digit text) {a b : α} (ha : a ∈ run)
    (hb : b ∈ run) : (digit a).isSome = (digit b).isSome := by
  have hchain : run.IsChain fun a b => (digit a).isSome = (digit b).isSome :=
    (List.isChain_of_mem_splitBy hrun).imp fun a b h => eq_of_beq h
  have hbools : (run.map fun a => (digit a).isSome).IsChain (· = ·) := (List.isChain_map _).mpr hchain
  exact List.Pairwise.forall_of_forall (fun _ _ => rfl) (List.isChain_iff_pairwise.mp hbools)
    (List.mem_map_of_mem ha) (List.mem_map_of_mem hb)

theorem ne_nil_of_mem_runs {text run : List α} (hrun : run ∈ runs digit text) : run ≠ [] :=
  List.ne_nil_of_mem_splitBy hrun

end Benzene.Data.NaturalOrder
