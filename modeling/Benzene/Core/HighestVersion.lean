import Benzene.Core.Selection
import Benzene.Data.Digits
import Benzene.Data.NaturalOrder

namespace Benzene.Core

open Benzene.Data

section Keys

variable [UnicodeData] [DigitData]

-- `int(text)`, where the interpreter reads at most `limit` digits; 0 is no limit.
def parseInt (limit : Nat) (text : Str) : Except PyError ℤ :=
  match Str.toInt? text with
  | some n =>
      if limit = 0 ∨ text.countP (fun c => (Str.decimalValue c).isSome) ≤ limit then .ok n
      else .error ⟨.valueError, []⟩
  | none => .error ⟨.valueError, []⟩

-- The runs are those of the pattern `\d+|\D+`, whose digits are the decimals.
def naturalKey (limit : Nat) (version : Str) : Except PyError (NaturalOrder.Key CodePoint) :=
  (NaturalOrder.runs Str.decimalValue version).mapM fun run =>
    if isDigitRun run then do
      let n ← parseInt limit run
      return toLex (.inl n)
    else return toLex (.inr run)

variable {σ τ : Type}

def highestVersion (limit : Nat) (registry : Registry σ τ) (topic version : Json) :
    Except PyError (Option (HandlerDefinition σ τ)) := do
  match ← exactVersion registry topic version with
  | some exact => return some exact
  | none =>
      let candidates := registry.versionsOf topic
      if candidates.isEmpty then return none
      let keyed ← candidates.mapM fun definition => do
        let key ← naturalKey limit definition.version
        return (definition, key)
      return NaturalOrder.firstGreatest keyed

-- A run of digits alone is one of decimals, and no longer than what `int` reads.
def Readable (limit : Nat) (version : Str) : Prop :=
  ∀ run ∈ NaturalOrder.runs Str.decimalValue version, (∀ c ∈ run, isDigitChar c = true) →
    (∀ c ∈ run, (Str.decimalValue c).isSome = true) ∧ (limit = 0 ∨ run.length ≤ limit)

end Keys

section Reading

variable [UnicodeData]

theorem decimals_or_others {version run : Str} (hrun : run ∈ NaturalOrder.runs Str.decimalValue version) :
    (∀ c ∈ run, Str.decimalValue c = none) ∨ ∀ c ∈ run, (Str.decimalValue c).isSome = true := by
  by_cases hdecimal : ∃ c ∈ run, (Str.decimalValue c).isSome = true
  · obtain ⟨c, hc, hsome⟩ := hdecimal
    right
    intro other hother
    rw [NaturalOrder.isSome_eq_of_mem_run hrun hother hc]
    exact hsome
  · left
    intro c hc
    cases hvalue : Str.decimalValue c with
    | none => rfl
    | some d => exact absurd ⟨c, hc, by rw [hvalue]; rfl⟩ hdecimal

variable [DigitData] {limit : Nat}

theorem parseInt_decimals {run : Str} (hne : run ≠ []) (h : ∀ c ∈ run, (Str.decimalValue c).isSome = true) :
    parseInt limit run = if limit = 0 ∨ run.length ≤ limit then
      .ok (NaturalOrder.number Str.decimalValue 0 run : ℤ) else .error ⟨.valueError, []⟩ := by
  unfold parseInt
  rw [toInt?_decimals hne h]
  dsimp only
  rw [List.countP_eq_length.mpr h]

-- What the key of a run needs, and what it is then.
theorem readRun {version run : Str} (hrun : run ∈ NaturalOrder.runs Str.decimalValue version)
    {key : ℤ ⊕ₗ Str} :
    (if isDigitRun run then do
        let n ← parseInt limit run
        return toLex (.inl n)
      else return toLex (.inr run) : Except PyError (ℤ ⊕ₗ Str)) = .ok key ↔
      ((∀ c ∈ run, isDigitChar c = true) → (∀ c ∈ run, (Str.decimalValue c).isSome = true) ∧
        (limit = 0 ∨ run.length ≤ limit)) ∧ NaturalOrder.runKey Str.decimalValue run = key := by
  have hne := NaturalOrder.ne_nil_of_mem_runs hrun
  cases decimals_or_others hrun with
  | inr hdecimals =>
      have hdigits : ∀ c ∈ run, isDigitChar c = true := fun c hc => by
        rw [isDigitChar, hdecimals c hc, Bool.true_or]
      have hall : (run.all fun c => (Str.decimalValue c).isSome) = true := List.all_eq_true.mpr hdecimals
      rw [if_pos ((isDigitRun_iff hne).mpr hdigits), parseInt_decimals hne hdecimals, NaturalOrder.runKey,
        if_pos hall]
      by_cases hlimit : limit = 0 ∨ run.length ≤ limit
      · rw [if_pos hlimit]
        constructor
        · intro h
          exact ⟨fun _ => ⟨hdecimals, hlimit⟩, Except.ok.inj h⟩
        · rintro ⟨-, rfl⟩
          rfl
      · rw [if_neg hlimit]
        constructor
        · intro h
          cases h
        · rintro ⟨hread, -⟩
          exact absurd (hread hdigits).2 hlimit
  | inl hothers =>
      obtain ⟨c, hc⟩ := List.exists_mem_of_ne_nil run hne
      have hall : ¬ (run.all fun c => (Str.decimalValue c).isSome) = true := by
        intro hall
        have hsome := List.all_eq_true.mp hall c hc
        rw [hothers c hc] at hsome
        cases hsome
      rw [NaturalOrder.runKey, if_neg hall]
      by_cases hdigits : ∀ c ∈ run, isDigitChar c = true
      · rw [if_pos ((isDigitRun_iff hne).mpr hdigits), parseInt, toInt?_other hothers]
        constructor
        · intro h
          cases h
        · rintro ⟨hread, -⟩
          have hsome := (hread hdigits).1 c hc
          rw [hothers c hc] at hsome
          cases hsome
      · rw [if_neg fun h => hdigits ((isDigitRun_iff hne).mp h)]
        constructor
        · intro h
          exact ⟨fun h => absurd h hdigits, Except.ok.inj h⟩
        · rintro ⟨-, rfl⟩
          rfl

theorem naturalKey_eq_ok {version : Str} {key : NaturalOrder.Key CodePoint} :
    naturalKey limit version = .ok key ↔
      Readable limit version ∧ NaturalOrder.key Str.decimalValue version = key := by
  exact Except.mapM_eq_ok_iff fun run hrun _ => readRun hrun

end Reading

section Highest

variable [UnicodeData] {σ τ : Type}

-- Versions in their natural order.
def VersionBelow (a b : Str) : Prop := NaturalOrder.Below Str.decimalValue a b

-- What a selection of the highest version is to give: the exact answer, else a
-- handler of the topic whose version is above all others, else none.
def Highest (registry : Registry σ τ) (topic version : Json) (found : Option (HandlerDefinition σ τ)) : Prop :=
  (∃ exact, exactVersion registry topic version = .ok (some exact) ∧ found = some exact) ∨
    exactVersion registry topic version = .ok none ∧
      ((registry.versionsOf topic = [] ∧ found = none) ∨
        ∃ highest ∈ registry.versionsOf topic, found = some highest ∧
          ∀ other ∈ registry.versionsOf topic, VersionBelow other.version highest.version)

theorem highest_firstGreatest {registry : Registry σ τ} {topic version : Json}
    (hexact : exactVersion registry topic version = .ok none) :
    Highest registry topic version (NaturalOrder.firstGreatest
      ((registry.versionsOf topic).map fun definition =>
        (definition, NaturalOrder.key Str.decimalValue definition.version))) := by
  refine Or.inr ⟨hexact, ?_⟩
  cases hfirst : NaturalOrder.firstGreatest ((registry.versionsOf topic).map fun definition =>
      (definition, NaturalOrder.key Str.decimalValue definition.version)) with
  | none => exact Or.inl ⟨List.map_eq_nil_iff.mp (NaturalOrder.firstGreatest_eq_none.mp hfirst), rfl⟩
  | some highest =>
      obtain ⟨key, hmem, hgreatest⟩ := NaturalOrder.firstGreatest_eq_some hfirst
      obtain ⟨definition, hdefinition, hpair⟩ := List.mem_map.mp hmem
      cases hpair
      exact Or.inr ⟨highest, hdefinition, rfl, fun other hother => hgreatest _ (List.mem_map_of_mem hother)⟩

variable [DigitData] {limit : Nat}

-- The keys of a topic's handlers.
theorem keyed_eq_ok {candidates : List (HandlerDefinition σ τ)}
    {keyed : List (HandlerDefinition σ τ × NaturalOrder.Key CodePoint)} :
    (candidates.mapM fun definition => do
        let key ← naturalKey limit definition.version
        return (definition, key)) = .ok keyed ↔
      (∀ definition ∈ candidates, Readable limit definition.version) ∧
        candidates.map (fun definition => (definition, NaturalOrder.key Str.decimalValue definition.version)) =
          keyed := by
  refine Except.mapM_eq_ok_iff fun definition _ pair => ?_
  rw [Except.bind_eq_ok]
  constructor
  · rintro ⟨key, hkey, hpair⟩
    cases hpair
    obtain ⟨hread, rfl⟩ := naturalKey_eq_ok.mp hkey
    exact ⟨hread, rfl⟩
  · rintro ⟨hread, rfl⟩
    exact ⟨_, naturalKey_eq_ok.mpr ⟨hread, rfl⟩, rfl⟩

theorem highestVersion_of_exact {registry : Registry σ τ} {topic version : Json}
    {exact : HandlerDefinition σ τ} (h : exactVersion registry topic version = .ok (some exact)) :
    highestVersion limit registry topic version = .ok (some exact) := by
  unfold highestVersion
  rw [h]
  rfl

-- Without an exact answer every version of the topic is read.
theorem highestVersion_eq_ok {registry : Registry σ τ} {topic version : Json}
    (h : exactVersion registry topic version = .ok none) {found : Option (HandlerDefinition σ τ)} :
    highestVersion limit registry topic version = .ok found ↔
      (∀ definition ∈ registry.versionsOf topic, Readable limit definition.version) ∧
        NaturalOrder.firstGreatest ((registry.versionsOf topic).map fun definition =>
          (definition, NaturalOrder.key Str.decimalValue definition.version)) = found := by
  have hunfold : highestVersion limit registry topic version =
      (if (registry.versionsOf topic).isEmpty then .ok none
        else (registry.versionsOf topic).mapM (fun definition => do
            let key ← naturalKey limit definition.version
            return (definition, key)) >>= fun keyed => .ok (NaturalOrder.firstGreatest keyed)) := by
    unfold highestVersion
    rw [h]
    rfl
  rw [hunfold]
  cases hempty : (registry.versionsOf topic).isEmpty with
  | true =>
      rw [List.isEmpty_iff.mp hempty, if_pos rfl]
      constructor
      · intro hnone
        exact ⟨List.forall_mem_nil _, Except.ok.inj hnone⟩
      · rintro ⟨-, rfl⟩
        rfl
  | false =>
      rw [if_neg Bool.false_ne_true, Except.bind_eq_ok]
      constructor
      · rintro ⟨keyed, hkeyed, hfound⟩
        obtain ⟨hread, rfl⟩ := keyed_eq_ok.mp hkeyed
        exact ⟨hread, Except.ok.inj hfound⟩
      · rintro ⟨hread, rfl⟩
        exact ⟨_, keyed_eq_ok.mpr ⟨hread, rfl⟩, rfl⟩

-- The highest version is selected in every registry, for every topic and version,
-- exactly where an exact match answers or each version of the topic can be read.
theorem highestVersion_selects_iff :
    (∀ a b : Str, VersionBelow a b ∨ VersionBelow b a) ∧
      (∀ a b c : Str, VersionBelow a b → VersionBelow b c → VersionBelow a c) ∧
      ∀ (limit : Nat) (registry : Registry σ τ) (topic version : Str),
        (∃ found, highestVersion limit registry (.str topic) (.str version) = .ok found ∧
          Highest registry (.str topic) (.str version) found) ↔
        (exactVersion registry (.str topic) (.str version) = .ok none →
          ∀ definition ∈ registry.versionsOf (.str topic), Readable limit definition.version) := by
  refine ⟨NaturalOrder.below_total _, fun _ _ _ => NaturalOrder.below_trans _, ?_⟩
  intro limit registry topic version
  obtain ⟨found, hexact, -⟩ := exactVersion_of_hashable registry (rfl : Json.hashable (.str topic) = true)
    fun _ => (rfl : Json.hashable (.str version) = true)
  cases found with
  | some exact =>
      constructor
      · intro _ hnone
        rw [hexact] at hnone
        cases hnone
      · intro _
        exact ⟨some exact, highestVersion_of_exact hexact, Or.inl ⟨exact, hexact, rfl⟩⟩
  | none =>
      constructor
      · rintro ⟨found, hfound, -⟩ -
        exact ((highestVersion_eq_ok hexact).mp hfound).1
      · intro hread
        exact ⟨_, (highestVersion_eq_ok hexact).mpr ⟨hread hexact, rfl⟩, highest_firstGreatest hexact⟩

end Highest

section Superscript

-- The database around the superscript two, which is a digit and no decimal.
@[reducible] def DigitData.superscript : @DigitData UnicodeData.ascii :=
  letI := UnicodeData.ascii
  { digit := fun c => c.val = 0xB2, notSpace := UnicodeData.ascii_notSpace }

def orders : Str := "orders"

-- One handler of one topic, whose version is a superscript two.
def superscriptRegistry [UnicodeData] : Registry Unit Unit :=
  Registry.after [.addDefinition ⟨orders, fun _ => Py.throw ⟨.valueError, []⟩, "²", none, false⟩]

-- A message that names no registered version is not answered.
theorem highestVersion_superscript :
    letI := UnicodeData.ascii
    letI := DigitData.superscript
    ¬ ∃ found, highestVersion 4300 superscriptRegistry (.str orders) (.str "v1") = .ok found ∧
      Highest superscriptRegistry (.str orders) (.str "v1") found := by
  let _ := UnicodeData.ascii
  let _ := DigitData.superscript
  rintro ⟨found, hfound, -⟩
  have hraises : (highestVersion 4300 superscriptRegistry (.str orders) (.str "v1")).toOption = none := by
    decide +kernel
  rw [hfound] at hraises
  cases hraises

end Superscript

end Benzene.Core
