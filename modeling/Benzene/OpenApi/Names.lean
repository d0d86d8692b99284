import Benzene.Data.JsonRoundTrip
import Benzene.Data.Unicode
import Benzene.Data.Words

namespace Benzene.OpenApi

open Benzene.Data

section Names

variable [UnicodeData]

def tokens (text : Str) : List Str := Str.runs text

def capitalize (token : Str) : Str := Str.upper (token.take 1) ++ token.drop 1

def camel : List Str → Str
  | [] => []
  | head :: tail => Str.lower head ++ tail.flatMap capitalize

def pascal (tokens : List Str) : Str := tokens.flatMap capitalize

def underscore : CodePoint := CodePoint.ofChar '_'

-- What is no letter and no digit collapsed to underscores, none of them at an end.
def slug (text : Str) : Str := Str.join [underscore] (Str.runs text)

def orDefault (name default : Str) : Str := if name = [] then default else name

def schemaName (topic version role : Str) : Str :=
  let suffix := if version = [] then [] else underscore :: slug version
  orDefault (pascal (tokens topic)) "Topic" ++ suffix ++ role

def operationId (topic version : Str) : Str :=
  let base := orDefault (camel (tokens topic)) "operation"
  if version = [] then base else base ++ underscore :: slug version

-- The name of the first claimant, and of the ones after it.
def suffixed (name : Str) (n : Nat) : Str := if n = 0 then name else name ++ underscore :: Str.ofNat (n + 1)

omit [UnicodeData] in
theorem suffixed_inj {name : Str} {n m : Nat} (h : suffixed name n = suffixed name m) : n = m := by
  have hlength : ∀ k, name.length < (name ++ underscore :: Str.ofNat (k + 1)).length := by
    intro k
    rw [List.length_append, List.length_cons]
    omega
  unfold suffixed at h
  split at h
  · rename_i hn
    split at h
    · rename_i hm
      rw [hn, hm]
    · have hlt := hlength m
      rw [← h] at hlt
      omega
  · split at h
    · have hlt := hlength n
      rw [h] at hlt
      omega
    · have hdigits : Str.ofNat (n + 1) = Str.ofNat (m + 1) := (List.cons.inj (List.append_cancel_left h)).2
      have hvalue := congrArg Json.readNat hdigits
      rw [Json.readNat_ofNat, Json.readNat_ofNat] at hvalue
      omega

omit [UnicodeData] in
theorem length_suffixed (name : Str) (n : Nat) :
    (suffixed name n).length = name.length + (suffixed [] n).length := by
  unfold suffixed
  split
  · rfl
  · rw [List.length_append, List.nil_append]

-- A handler's two components have two names.
theorem schemaName_ne (topic version : Str) (n : Nat) :
    suffixed (schemaName topic version "Request") n ≠ suffixed (schemaName topic version "Response") n := by
  intro h
  have hlength := congrArg List.length h
  rw [length_suffixed, length_suffixed (schemaName topic version "Response")] at hlength
  have hrequest : ("Request" : Str).length = 7 := by decide
  have hresponse : ("Response" : Str).length = 8 := by decide
  simp only [schemaName, List.length_append, hrequest, hresponse] at hlength
  omega

end Names

section Search

-- The first number that is not taken, `none` where the fuel runs out.
def firstFree (taken : Nat → Bool) : Nat → Nat → Option Nat
  | 0, _ => none
  | fuel + 1, n => if taken n then firstFree taken fuel (n + 1) else some n

variable {taken : Nat → Bool} {fuel : Nat}

theorem firstFree_some {n m : Nat} (h : firstFree taken fuel n = some m) : taken m = false := by
  induction fuel generalizing n with
  | zero => cases h
  | succ fuel ih =>
      rw [firstFree] at h
      split at h
      · exact ih h
      · rename_i hfree
        cases h
        simpa using hfree

theorem firstFree_none {n : Nat} (h : firstFree taken fuel n = none) :
    ∀ m, n ≤ m → m < n + fuel → taken m = true := by
  induction fuel generalizing n with
  | zero =>
      intro m hle hlt
      omega
  | succ fuel ih =>
      rw [firstFree] at h
      split at h
      · rename_i htaken
        intro m hle hlt
        rcases Nat.eq_or_lt_of_le hle with rfl | hlater
        · exact htaken
        · exact ih h m hlater (by omega)
      · cases h

-- Different numbers have different names, of which only so many are in use.
theorem length_le_of_names {names : List Str} {name : Nat → Str} (hname : ∀ n m, name n = name m → n = m)
    {numbers : List Nat} (hnodup : numbers.Nodup) (h : ∀ n ∈ numbers, name n ∈ names) :
    numbers.length ≤ names.length := by
  have hnames : (numbers.map name).Nodup := hnodup.map fun n m => hname n m
  have hsub : numbers.map name ⊆ names := by
    intro text htext
    obtain ⟨n, hn, rfl⟩ := List.mem_map.mp htext
    exact h n hn
  have hle := (hnames.subperm hsub).length_le
  rwa [List.length_map] at hle

theorem firstFree_isSome {first second third : Nat → Str} {names operations : List Str}
    (hfirst : ∀ n m, first n = first m → n = m) (hsecond : ∀ n m, second n = second m → n = m)
    (hthird : ∀ n m, third n = third m → n = m)
    (htaken : ∀ n, taken n = true → first n ∈ names ∨ second n ∈ names ∨ third n ∈ operations)
    (hfuel : 2 * names.length + operations.length < fuel) : ∃ n, firstFree taken fuel 0 = some n := by
  cases hfree : firstFree taken fuel 0 with
  | some n => exact ⟨n, rfl⟩
  | none =>
      have hall := firstFree_none hfree
      let numbers := List.range fuel
      have hnumbers : numbers.Nodup := List.nodup_range
      have hfirstLength : (numbers.filter fun n => first n ∈ names).length ≤ names.length :=
        length_le_of_names hfirst (hnumbers.filter _) fun n hn => of_decide_eq_true (List.mem_filter.mp hn).2
      let others := numbers.filter fun n => first n ∉ names
      have hsecondLength : (others.filter fun n => second n ∈ names).length ≤ names.length :=
        length_le_of_names hsecond ((hnumbers.filter _).filter _) fun n hn =>
          of_decide_eq_true (List.mem_filter.mp hn).2
      have hthirdLength : (others.filter fun n => second n ∉ names).length ≤ operations.length := by
        apply length_le_of_names hthird ((hnumbers.filter _).filter _)
        intro n hn
        obtain ⟨hother, hnotSecond⟩ := List.mem_filter.mp hn
        obtain ⟨hnumber, hnotFirst⟩ := List.mem_filter.mp hother
        have hlt := List.mem_range.mp hnumber
        rcases htaken n (hall n (Nat.zero_le n) (by omega)) with h | h | h
        · exact absurd h (of_decide_eq_true hnotFirst)
        · exact absurd h (of_decide_eq_true hnotSecond)
        · exact h
      have hsplit : numbers.length = (numbers.filter fun n => first n ∈ names).length + others.length := by
        rw [List.length_eq_length_filter_add fun n => decide (first n ∈ names)]
        simp only [others, decide_not]
      have hsplitOthers : others.length = (others.filter fun n => second n ∈ names).length +
          (others.filter fun n => second n ∉ names).length := by
        rw [List.length_eq_length_filter_add fun n => decide (second n ∈ names)]
        simp only [decide_not]
      have hlength : numbers.length = fuel := List.length_range
      omega

end Search

end Benzene.OpenApi
