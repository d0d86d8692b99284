import Benzene.Http.Routing
import Mathlib.Data.List.TakeWhile

namespace Benzene.Http

open Benzene.Data Benzene.Core

section Instances

-- A template's text, each placeholder replaced.
def fill (values : Str → Str) (parts : List Part) : Str :=
  parts.flatMap fun part => match part with
    | .literal text => text
    | .param name => values name

-- Some text that has no slash and is not empty stands in each placeholder's place.
def Instance (parts : List Part) (path : Str) : Prop :=
  ∃ values : Str → Str, (∀ name ∈ paramNames parts, values name ≠ [] ∧ slash ∉ values name) ∧ fill values parts = path

def substitute (captures : Captures) (parts : List Part) : Str :=
  fill (fun name => (Entries.get? name captures).getD []) parts

def newline : Str := "\n"

@[simp] theorem length_newline : newline.length = 1 := rfl

-- What each placeholder captures where a text is met part by part.
inductive Fits : List Part → Captures → Str → Prop
  | nil : Fits [] [] []
  | literal {rest : List Part} {captures : Captures} {tail : Str} (text : Str) (hrest : Fits rest captures tail) :
      Fits (.literal text :: rest) captures (text ++ tail)
  | param {rest : List Part} {captures : Captures} {tail value : Str} (name : Str) (hvalue : value ≠ [])
      (hslash : slash ∉ value) (hrest : Fits rest captures tail) :
      Fits (.param name :: rest) ((name, value) :: captures) (value ++ tail)

variable {parts : List Part} {captures : Captures} {text : Str}

theorem fill_congr {f g : Str → Str} (h : ∀ name ∈ paramNames parts, f name = g name) :
    fill f parts = fill g parts := by
  unfold fill
  apply List.flatMap_congr
  intro part hpart
  cases part with
  | literal text => rfl
  | param name => exact h name (List.mem_filterMap.mpr ⟨_, hpart, rfl⟩)

theorem Fits.keys (h : Fits parts captures text) : Entries.keys captures = paramNames parts := by
  induction h with
  | nil => rfl
  | literal text _ ih => exact ih
  | param name _ _ _ ih => exact congrArg (name :: ·) ih

theorem Fits.values (h : Fits parts captures text) : ∀ capture ∈ captures, capture.2 ≠ [] ∧ slash ∉ capture.2 := by
  induction h with
  | nil => exact List.forall_mem_nil _
  | literal _ _ ih => exact ih
  | param name hvalue hslash _ ih => exact List.forall_mem_cons.mpr ⟨⟨hvalue, hslash⟩, ih⟩

-- What is captured, put back into the template, is the text.
theorem Fits.substitute (h : Fits parts captures text) (hnames : (paramNames parts).Nodup) :
    substitute captures parts = text := by
  induction h with
  | nil => rfl
  | literal text _ ih => exact congrArg (text ++ ·) (ih hnames)
  | @param rest captures tail value name hvalue hslash hrest ih =>
      obtain ⟨hnew, hnames⟩ := List.nodup_cons.mp hnames
      have hrest : fill (fun other => (Entries.get? other ((name, value) :: captures)).getD []) rest = tail := by
        rw [← ih hnames]
        apply fill_congr
        intro other hother
        have hne : name ≠ other := fun heq => hnew (heq ▸ hother)
        rw [Entries.get?_cons, if_neg hne]
      calc Http.substitute ((name, value) :: captures) (.param name :: rest)
        _ = (Entries.get? name ((name, value) :: captures)).getD [] ++
            fill (fun other => (Entries.get? other ((name, value) :: captures)).getD []) rest := rfl
        _ = value ++ tail := by rw [hrest, Entries.get?_cons, if_pos rfl, Option.getD_some]

theorem Fits.instance (h : Fits parts captures text) (hnames : (paramNames parts).Nodup) : Instance parts text := by
  refine ⟨_, ?_, h.substitute hnames⟩
  intro name hname
  rw [← h.keys] at hname
  obtain ⟨⟨other, value⟩, hmem, rfl⟩ := List.mem_map.mp hname
  rw [← h.keys] at hnames
  rw [Entries.get?_of_mem hnames hmem]
  exact h.values _ hmem

theorem fits_of_instance (h : Instance parts text) : ∃ captures, Fits parts captures text := by
  obtain ⟨values, hvalues, rfl⟩ := h
  induction parts with
  | nil => exact ⟨[], .nil⟩
  | cons part rest ih =>
      cases part with
      | literal text =>
          obtain ⟨captures, hrest⟩ := ih hvalues
          exact ⟨captures, .literal text hrest⟩
      | param name =>
          obtain ⟨⟨hvalue, hslash⟩, hothers⟩ := List.forall_mem_cons.mp hvalues
          obtain ⟨captures, hrest⟩ := ih hothers
          exact ⟨_, .param name hvalue hslash hrest⟩

end Instances

section Closing

-- Whether there is a placeholder, and the text after the last one.
def hasParam (parts : List Part) : Bool := paramNames parts ≠ []

def closing : List Part → Str
  | [] => []
  | .literal text :: rest => if hasParam rest then closing rest else text ++ closing rest
  | .param _ :: rest => closing rest

variable {parts : List Part} {captures : Captures} {text : Str}

theorem Fits.eq_closing (h : Fits parts captures text) (hnone : hasParam parts = false) : text = closing parts := by
  induction h with
  | nil => rfl
  | @literal rest captures tail text _ ih =>
      have hrest : hasParam rest = false := hnone
      rw [closing, hrest, ← ih hrest]
      rfl
  | param name => exact absurd hnone (by simp [hasParam, paramNames])

theorem Fits.closing_suffix (h : Fits parts captures text) : closing parts <:+ text := by
  induction h with
  | nil => exact List.suffix_rfl
  | @literal rest captures tail text hrest ih =>
      rw [closing]
      split
      · exact ih.trans (List.suffix_append text tail)
      · rename_i hnone
        rw [← hrest.eq_closing (by simpa using hnone)]
  | @param rest captures tail value name _ _ _ ih => exact ih.trans (List.suffix_append value tail)

-- A last placeholder takes a line feed that the text after it would take as well.
theorem Fits.append_newline (h : Fits parts captures text) (hparam : hasParam parts = true)
    (hclosing : closing parts ++ newline = newline ++ closing parts) :
    ∃ captures, Fits parts captures (text ++ newline) := by
  induction h with
  | nil => cases hparam
  | @literal rest captures tail text hrest ih =>
      have hrestParam : hasParam rest = true := hparam
      rw [closing, if_pos hrestParam] at hclosing
      obtain ⟨captures, hlonger⟩ := ih hrestParam hclosing
      exact ⟨captures, by rw [List.append_assoc]; exact .literal text hlonger⟩
  | @param rest captures tail value name hvalue hslash hrest ih =>
      rw [closing] at hclosing
      cases hlast : hasParam rest with
      | true =>
          obtain ⟨captures, hlonger⟩ := ih hlast hclosing
          exact ⟨_, by rw [List.append_assoc]; exact .param name hvalue hslash hlonger⟩
      | false =>
          have htail := hrest.eq_closing hlast
          have hvalue' : value ++ newline ≠ [] := by simp [newline]
          have hslash' : slash ∉ value ++ newline := by
            rw [List.mem_append, not_or]
            exact ⟨hslash, by decide⟩
          refine ⟨(name, value ++ newline) :: captures, ?_⟩
          rw [List.append_assoc, htail, hclosing, ← List.append_assoc, ← htail]
          exact .param name hvalue' hslash' hrest

theorem eq_of_rotate {text : Str} {first last : CodePoint} (h : text ++ [last] = first :: text) : first = last := by
  induction text generalizing first with
  | nil =>
      rw [List.nil_append] at h
      exact (List.cons.inj h).1.symm
  | cons c rest ih =>
      rw [List.cons_append] at h
      obtain ⟨rfl, hrest⟩ := List.cons.inj h
      exact ih hrest

-- Text that ends both a text and the text one line feed longer is line feeds alone.
theorem rotate_of_suffix {affix text : Str} (h : affix <:+ text) (hlonger : affix <:+ text ++ newline) :
    affix ++ newline = newline ++ affix := by
  have hboth : affix ++ newline <:+ text ++ newline := by
    obtain ⟨front, rfl⟩ := h
    exact ⟨front, by rw [List.append_assoc]⟩
  have hinner : affix <:+ affix ++ newline :=
    List.suffix_of_suffix_length_le hlonger hboth (by rw [List.length_append]; omega)
  obtain ⟨front, hfront⟩ := hinner
  have hlength := congrArg List.length hfront
  simp only [List.length_append, length_newline] at hlength
  obtain ⟨c, rfl⟩ := List.length_eq_one_iff.mp (show front.length = 1 by omega)
  have hc : c = CodePoint.ofChar '\n' := eq_of_rotate hfront.symm
  rw [← hfront, hc]
  rfl

-- A text that fits up to its line feed fits whole, where a longer one does.
theorem Fits.whole {longer : Captures} {front : Str} (h : Fits parts captures text)
    (hlonger : Fits parts longer (front ++ (text ++ newline))) : ∃ captures, Fits parts captures (text ++ newline) := by
  have hsuffix := h.closing_suffix
  have hclosing : closing parts <:+ text ++ newline := by
    apply List.suffix_of_suffix_length_le hlonger.closing_suffix (List.suffix_append front _)
    have hle := hsuffix.length_le
    rw [List.length_append]
    omega
  cases hparam : hasParam parts with
  | true => exact h.append_newline hparam (rotate_of_suffix hsuffix hclosing)
  | false =>
      have hlength := congrArg List.length (hlonger.eq_closing hparam)
      rw [← h.eq_closing hparam] at hlength
      simp only [List.length_append, length_newline] at hlength
      omega

end Closing

section Search

variable {next : Str → Option Captures} {parts : List Part} {captures : Captures} {text value : Str}

theorem matchLongest_some {n : Nat} (h : matchLongest next text n = some (value, captures)) :
    ∃ k, 0 < k ∧ k ≤ n ∧ value = text.take k ∧ next (text.drop k) = some captures ∧
      ∀ m, k < m → m ≤ n → next (text.drop m) = none := by
  induction n with
  | zero => cases h
  | succ n ih =>
      rw [matchLongest] at h
      cases hnext : next (text.drop (n + 1)) with
      | some found =>
          rw [hnext] at h
          cases h
          exact ⟨n + 1, by omega, le_rfl, rfl, hnext, fun m hm hle => by omega⟩
      | none =>
          rw [hnext] at h
          obtain ⟨k, hpos, hle, hvalue, hfound, hlonger⟩ := ih h
          refine ⟨k, hpos, by omega, hvalue, hfound, ?_⟩
          intro m hm hmn
          rcases Nat.eq_or_lt_of_le hmn with rfl | hlt
          · exact hnext
          · exact hlonger m hm (by omega)

theorem matchLongest_none {n : Nat} (h : matchLongest next text n = none) :
    ∀ k, 0 < k → k ≤ n → next (text.drop k) = none := by
  induction n with
  | zero =>
      intro k hpos hle
      omega
  | succ n ih =>
      intro k hpos hle
      rw [matchLongest] at h
      cases hnext : next (text.drop (n + 1)) with
      | some found =>
          rw [hnext] at h
          cases h
      | none =>
          rw [hnext] at h
          rcases Nat.eq_or_lt_of_le hle with rfl | hlt
          · exact hnext
          · exact ih h k hpos (by omega)

theorem atEnd_iff : atEnd text = true ↔ text = [] ∨ text = newline := by
  unfold atEnd
  rw [Bool.or_eq_true, decide_eq_true_eq, decide_eq_true_eq]
  rfl

-- What is in front of the first slash has none.
theorem slash_notMem_take {k : Nat} (h : k ≤ (text.takeWhile (· ≠ slash)).length) : slash ∉ text.take k := by
  intro hmem
  have htake : text.take k <+: text.takeWhile (· ≠ slash) := by
    apply List.prefix_of_prefix_length_le (List.take_prefix k text) (List.takeWhile_prefix _)
    rw [List.length_take]
    omega
  have hne := List.mem_takeWhile_imp (htake.subset hmem)
  simp at hne

theorem length_le_takeWhile {tail : Str} (hslash : slash ∉ value) :
    value.length ≤ ((value ++ tail).takeWhile (· ≠ slash)).length := by
  have hall : ∀ c ∈ value, decide (c ≠ slash) = true := by
    intro c hc
    exact decide_eq_true fun heq => hslash (heq ▸ hc)
  rw [List.takeWhile_append_of_pos hall, List.length_append]
  omega

-- What is matched is a text that fits, or one and a last line feed.
theorem fits_of_matchParts (h : matchParts parts text = some captures) :
    ∃ met, Fits parts captures met ∧ (text = met ∨ text = met ++ newline) := by
  induction parts generalizing text captures with
  | nil =>
      rw [matchParts] at h
      split at h
      · rename_i hend
        cases h
        refine ⟨[], .nil, ?_⟩
        rw [List.nil_append]
        exact atEnd_iff.mp hend
      · cases h
  | cons part rest ih =>
      cases part with
      | literal expected =>
          rw [matchParts, Option.bind_eq_some_iff] at h
          obtain ⟨tail, htail, h⟩ := h
          rw [Str.stripPrefix?_eq_some] at htail
          obtain ⟨met, hmet, htext⟩ := ih h
          refine ⟨expected ++ met, .literal expected hmet, ?_⟩
          rw [htail, List.append_assoc]
          exact htext.imp (congrArg (expected ++ ·)) (congrArg (expected ++ ·))
      | param name =>
          rw [matchParts, Option.map_eq_some_iff] at h
          obtain ⟨⟨value, inner⟩, hfound, h⟩ := h
          cases h
          obtain ⟨k, hpos, hle, rfl, hinner, -⟩ := matchLongest_some hfound
          obtain ⟨met, hmet, htext⟩ := ih hinner
          have hslash := slash_notMem_take hle
          have hvalue : text.take k ≠ [] := by
            intro hempty
            have hlength := congrArg List.length hempty
            have hprefix := (List.takeWhile_prefix (l := text) (· ≠ slash)).length_le
            simp only [List.length_take, List.length_nil] at hlength
            omega
          refine ⟨text.take k ++ met, .param name hvalue hslash hmet, ?_⟩
          rw [List.append_assoc]
          rcases htext with htext | htext
          · exact .inl (by rw [← htext, List.take_append_drop])
          · exact .inr (by rw [← htext, List.take_append_drop])

-- A text that fits, or that fits up to a last line feed, is matched.
theorem matchParts_ne_none (h : Fits parts captures text) {tail : Str} (htail : atEnd tail = true) :
    matchParts parts (text ++ tail) ≠ none := by
  induction h with
  | nil =>
      rw [List.nil_append, matchParts, if_pos htail]
      exact Option.some_ne_none _
  | @literal rest captures met expected hrest ih =>
      have hstrip : Str.stripPrefix? expected (expected ++ met ++ tail) = some (met ++ tail) :=
        Str.stripPrefix?_eq_some.mpr (List.append_assoc _ _ _)
      rw [matchParts, hstrip, Option.bind_some]
      exact ih
  | @param rest captures met value name hvalue hslash hrest ih =>
      rw [matchParts]
      intro hnone
      rw [Option.map_eq_none_iff] at hnone
      have hpos : 0 < value.length := List.length_pos_iff.mpr hvalue
      rw [List.append_assoc] at hnone
      have hshort := matchLongest_none hnone value.length hpos (length_le_takeWhile hslash)
      rw [List.drop_left] at hshort
      exact ih hshort

-- Where the whole text fits, the whole text is captured.
theorem matchParts_whole (h : Fits parts captures text) :
    ∃ found, matchParts parts text = some found ∧ Fits parts found text := by
  induction parts generalizing text captures with
  | nil =>
      cases h
      exact ⟨[], rfl, .nil⟩
  | cons part rest ih =>
      cases h with
      | @literal _ _ tail expected hrest =>
          obtain ⟨found, hfound, hfits⟩ := ih hrest
          have hstrip : Str.stripPrefix? expected (expected ++ tail) = some tail := Str.stripPrefix?_eq_some.mpr rfl
          refine ⟨found, ?_, .literal expected hfits⟩
          rw [matchParts, hstrip, Option.bind_some, hfound]
      | @param _ inner tail value name hvalue hslash hrest =>
          have hpos : 0 < value.length := List.length_pos_iff.mpr hvalue
          have hle : value.length ≤ ((value ++ tail).takeWhile (· ≠ slash)).length := length_le_takeWhile hslash
          obtain ⟨shortest, hshortest, -⟩ := ih hrest
          have hdrop : (value ++ tail).drop value.length = tail := List.drop_left
          cases hlongest : matchLongest (matchParts rest) (value ++ tail)
              ((value ++ tail).takeWhile (· ≠ slash)).length with
          | none =>
              have hnone := matchLongest_none hlongest value.length hpos hle
              rw [hdrop, hshortest] at hnone
              cases hnone
          | some found =>
              obtain ⟨taken, captured⟩ := found
              obtain ⟨k, hk, hkle, rfl, hcaptured, hlonger⟩ := matchLongest_some hlongest
              have hvaluek : value.length ≤ k := by
                by_contra hlt
                have hnone := hlonger value.length (by omega) hle
                rw [hdrop, hshortest] at hnone
                cases hnone
              -- What is left after the longest text fits whole, since what is left after a
              -- shorter one does.
              have hwhole : ∃ captures, Fits rest captures ((value ++ tail).drop k) := by
                obtain ⟨met, hmet, htext | htext⟩ := fits_of_matchParts hcaptured
                · rw [htext]
                  exact ⟨captured, hmet⟩
                · rw [htext]
                  have htail : tail = tail.take (k - value.length) ++ (met ++ newline) := by
                    rw [← htext, List.drop_append, List.drop_eq_nil_of_le hvaluek, List.nil_append,
                      List.take_append_drop]
                  rw [htail] at hrest
                  exact hmet.whole hrest
              obtain ⟨whole, hwhole⟩ := hwhole
              obtain ⟨again, hagain, hfits⟩ := ih hwhole
              rw [hcaptured] at hagain
              cases hagain
              have htaken : (value ++ tail).take k ≠ [] := by
                intro hempty
                have hlength := congrArg List.length hempty
                rw [List.length_take, List.length_append, List.length_nil] at hlength
                omega
              refine ⟨(name, (value ++ tail).take k) :: captured, ?_, ?_⟩
              · rw [matchParts, hlongest]
                rfl
              · have hall := Fits.param name htaken (slash_notMem_take hkle) hfits
                rwa [List.take_append_drop] at hall

end Search

section Template

theorem paramNames_nodup (endpoint : HttpEndpoint) : (paramNames endpoint.parts).Nodup := by
  have hcompiled := endpoint.compiled
  simp only [compilePath] at hcompiled
  split at hcompiled
  · rename_i hnodup
    rwa [← Except.ok.inj hcompiled]
  · cases hcompiled

end Template

section Match

variable [UnicodeData]

def SameMethod (method other : Str) : Prop := Str.upper method = Str.upper other

-- A route matches what has its method and is an instance of its template, and captures
-- what stands in the placeholders' places.
def MatchesInstances (endpoint : HttpEndpoint) (method path : Str) : Prop :=
  ((endpoint.pathParams method path).isSome ↔ SameMethod method endpoint.method ∧ Instance endpoint.parts path) ∧
    ∀ params, endpoint.pathParams method path = some params → substitute params endpoint.parts = path

-- The route's method is in upper case where that matters, and the path does not end in a
-- line feed that its template leaves out.
structure Regular (endpoint : HttpEndpoint) (method path : Str) : Prop where
  upper : Instance endpoint.parts path → SameMethod method endpoint.method ∨ Str.upper method = endpoint.method →
    Str.upper endpoint.method = endpoint.method
  whole : Str.upper method = endpoint.method → ∀ text, path = text ++ newline → Instance endpoint.parts text →
    Instance endpoint.parts path

variable {endpoint : HttpEndpoint} {method path : Str}

theorem pathParams_of_method (h : Str.upper method = endpoint.method) :
    endpoint.pathParams method path = matchParts endpoint.parts path := by
  rw [HttpEndpoint.pathParams, if_neg (not_not.mpr h)]

theorem pathParams_instance (hmethod : Str.upper method = endpoint.method) (h : Instance endpoint.parts path) :
    ∃ params, endpoint.pathParams method path = some params ∧ substitute params endpoint.parts = path := by
  obtain ⟨captures, hfits⟩ := fits_of_instance h
  obtain ⟨params, hparams, hfits⟩ := matchParts_whole hfits
  rw [pathParams_of_method hmethod]
  exact ⟨params, hparams, hfits.substitute (paramNames_nodup endpoint)⟩

theorem pathParams_some {params : Captures} (h : endpoint.pathParams method path = some params) :
    Str.upper method = endpoint.method ∧
      ∃ text, Instance endpoint.parts text ∧ substitute params endpoint.parts = text ∧
        (path = text ∨ path = text ++ newline) := by
  rw [HttpEndpoint.pathParams] at h
  split at h
  · cases h
  · rename_i hmethod
    obtain ⟨text, hfits, htext⟩ := fits_of_matchParts h
    exact ⟨not_not.mp hmethod, text, hfits.instance (paramNames_nodup endpoint),
      hfits.substitute (paramNames_nodup endpoint), htext⟩

theorem matches_of_regular (h : Regular endpoint method path) : MatchesInstances endpoint method path := by
  have hsome : ∀ params, endpoint.pathParams method path = some params →
      Str.upper method = endpoint.method ∧ Instance endpoint.parts path := by
    intro params hparams
    obtain ⟨hmethod, text, htext, -, rfl | hpath⟩ := pathParams_some hparams
    · exact ⟨hmethod, htext⟩
    · exact ⟨hmethod, h.whole hmethod text hpath htext⟩
  refine ⟨⟨?_, ?_⟩, ?_⟩
  · intro hmatches
    obtain ⟨params, hparams⟩ := Option.isSome_iff_exists.mp hmatches
    obtain ⟨hmethod, hpath⟩ := hsome params hparams
    exact ⟨hmethod.trans (h.upper hpath (.inr hmethod)).symm, hpath⟩
  · rintro ⟨hsame, hpath⟩
    have hmethod : Str.upper method = endpoint.method := hsame.trans (h.upper hpath (.inl hsame))
    obtain ⟨params, hparams, -⟩ := pathParams_instance hmethod hpath
    rw [hparams]
    rfl
  · intro params hparams
    obtain ⟨hmethod, hpath⟩ := hsome params hparams
    obtain ⟨other, hother, hsubstitute⟩ := pathParams_instance hmethod hpath
    rw [hparams] at hother
    cases hother
    exact hsubstitute

theorem regular_of_matches (h : MatchesInstances endpoint method path) : Regular endpoint method path := by
  obtain ⟨hiff, hparams⟩ := h
  constructor
  · rintro hpath (hsame | hmethod)
    · obtain ⟨params, hmatched⟩ := Option.isSome_iff_exists.mp (hiff.mpr ⟨hsame, hpath⟩)
      exact hsame.symm.trans (pathParams_some hmatched).1
    · obtain ⟨params, hmatched, -⟩ := pathParams_instance hmethod hpath
      have hsame := (hiff.mp (by rw [hmatched]; rfl)).1
      exact hsame.symm.trans hmethod
  · intro hmethod text hpath htext
    obtain ⟨captures, hfits⟩ := fits_of_instance htext
    have hmatched : endpoint.pathParams method path ≠ none := by
      rw [pathParams_of_method hmethod, hpath]
      exact matchParts_ne_none hfits rfl
    exact (hiff.mp (Option.isSome_iff_ne_none.mpr hmatched)).2

theorem pathParams_matches_iff (endpoint : HttpEndpoint) (method path : Str) :
    MatchesInstances endpoint method path ↔ Regular endpoint method path :=
  ⟨regular_of_matches, matches_of_regular⟩

end Match

section LineFeed

theorem orders_lineFeed :
    letI := UnicodeData.ascii
    ∃ endpoint, httpEndpoint "GET" "/orders" "orders" [] = .ok endpoint ∧
      ¬MatchesInstances endpoint "GET" "/orders\n" := by
  let _ := UnicodeData.ascii
  refine ⟨_, rfl, ?_⟩
  rintro ⟨-, hparams⟩
  have hsubstitute := hparams [] (by decide)
  exact absurd hsubstitute (by decide)

end LineFeed

end Benzene.Http
