import Benzene.Contract.Expansion

namespace Benzene.Contract

open Benzene.Data

namespace Shape

section Wrappers

mutual

-- The names that nullable wrappers wrap.
def wrapped : Shape → List Str
  | .value _ => []
  | .failed _ => []
  | .ref _ => []
  | .properties members => wrappedMembers members
  | .branches items => wrappedItems items
  | .node wraps keywords => wraps.toList ++ wrappedMembers keywords

def wrappedMembers : List (Str × Shape) → List Str
  | [] => []
  | (_, shape) :: rest => wrapped shape ++ wrappedMembers rest

def wrappedItems : List Shape → List Str
  | [] => []
  | shape :: rest => wrapped shape ++ wrappedItems rest

end

theorem mem_wrappedMembers {name : Str} {members : List (Str × Shape)} :
    name ∈ wrappedMembers members ↔ ∃ member ∈ members, name ∈ member.2.wrapped := by
  induction members with
  | nil => simp [wrappedMembers]
  | cons member rest ih => simp [wrappedMembers, ih]

theorem mem_wrappedItems {name : Str} {items : List Shape} :
    name ∈ wrappedItems items ↔ ∃ item ∈ items, name ∈ item.wrapped := by
  induction items with
  | nil => simp [wrappedItems]
  | cons item rest ih => simp [wrappedItems, ih]

mutual

-- A nullable wrapper refers to what it wraps, and holds no other wrapper.
def Tight : Shape → Prop
  | .properties members => TightMembers members
  | .branches items => TightItems items
  | .node wraps keywords => TightMembers keywords ∧
      ∀ name, wraps = some name → name ∈ refsMembers keywords ∧ wrappedMembers keywords = []
  | _ => True

def TightMembers : List (Str × Shape) → Prop
  | [] => True
  | (_, shape) :: rest => shape.Tight ∧ TightMembers rest

def TightItems : List Shape → Prop
  | [] => True
  | shape :: rest => shape.Tight ∧ TightItems rest

end

theorem tightMembers_iff {members : List (Str × Shape)} :
    TightMembers members ↔ ∀ member ∈ members, member.2.Tight := by
  induction members with
  | nil => simp [TightMembers]
  | cons member rest ih => rw [TightMembers, ih, List.forall_mem_cons]

theorem tightItems_iff {items : List Shape} : TightItems items ↔ ∀ item ∈ items, item.Tight := by
  induction items with
  | nil => simp [TightItems]
  | cons item rest ih => rw [TightItems, ih, List.forall_mem_cons]

end Wrappers

section Inlining

-- The name that a shape is a reference to.
def named : Shape → Option Str
  | .ref name => some name
  | _ => none

theorem named_eq_some {shape : Shape} {name : Str} : shape.named = some name ↔ shape = .ref name := by
  cases shape <;> simp [named]

variable (fresh : Str) (target : Shape)

mutual

-- A shape with `target` for every reference to `fresh`. What wraps such a reference
-- wraps the target only if that is a reference too.
def inline : Shape → Shape
  | .value json => .value json
  | .failed error => .failed error
  | .ref name => if name = fresh then target else .ref name
  | .properties members => .properties (inlineMembers members)
  | .branches items => .branches (inlineItems items)
  | .node wraps keywords =>
      .node (wraps.bind fun name => if name = fresh then target.named else some name) (inlineMembers keywords)

def inlineMembers : List (Str × Shape) → List (Str × Shape)
  | [] => []
  | (key, shape) :: rest => (key, inline shape) :: inlineMembers rest

def inlineItems : List Shape → List Shape
  | [] => []
  | shape :: rest => inline shape :: inlineItems rest

end

variable {fresh : Str} {target : Shape}

theorem get?_inlineMembers (members : List (Str × Shape)) (key : Str) :
    Entries.get? key (inlineMembers fresh target members) =
      (Entries.get? key members).map (inline fresh target) := by
  induction members with
  | nil => rfl
  | cons member rest ih =>
      obtain ⟨name, shape⟩ := member
      rw [inlineMembers, Entries.get?_cons, Entries.get?_cons, ih]
      split <;> rfl

theorem keys_inlineMembers (members : List (Str × Shape)) :
    Entries.keys (inlineMembers fresh target members) = Entries.keys members := by
  induction members with
  | nil => rfl
  | cons member rest ih => simp [inlineMembers, ih]

theorem inlineMembers_append (a b : List (Str × Shape)) :
    inlineMembers fresh target (a ++ b) = inlineMembers fresh target a ++ inlineMembers fresh target b := by
  induction a with
  | nil => rfl
  | cons member rest ih => rw [List.cons_append, inlineMembers, inlineMembers, ih, List.cons_append]

theorem inlineMembers_fresh {members : List (Str × Shape)}
    (h : ∀ member ∈ members, inline fresh target member.2 = member.2) :
    inlineMembers fresh target members = members := by
  induction members with
  | nil => rfl
  | cons member rest ih =>
      obtain ⟨hmember, hrest⟩ := List.forall_mem_cons.mp h
      rw [inlineMembers, hmember, ih hrest]

theorem inlineItems_fresh {items : List Shape} (h : ∀ item ∈ items, inline fresh target item = item) :
    inlineItems fresh target items = items := by
  induction items with
  | nil => rfl
  | cons item rest ih =>
      obtain ⟨hitem, hrest⟩ := List.forall_mem_cons.mp h
      rw [inlineItems, hitem, ih hrest]

-- A shape that does not refer to `fresh` stays.
theorem inline_fresh {shape : Shape} (ht : shape.Tight) (h : fresh ∉ shape.refs) :
    inline fresh target shape = shape := by
  induction shape using Shape.induct with
  | value json => rfl
  | failed error => rfl
  | ref name =>
      simp only [refs, List.mem_singleton] at h
      rw [inline, if_neg (Ne.symm h)]
  | properties members ih =>
      rw [refs, mem_refsMembers] at h
      rw [inline, inlineMembers_fresh]
      intro member hm
      exact ih member hm (tightMembers_iff.mp ht member hm) fun hr => h ⟨member, hm, hr⟩
  | branches items ih =>
      rw [refs, mem_refsItems] at h
      rw [inline, inlineItems_fresh]
      intro item hm
      exact ih item hm (tightItems_iff.mp ht item hm) fun hr => h ⟨item, hm, hr⟩
  | node wraps keywords ih =>
      obtain ⟨hkeywords, hwraps⟩ := ht
      have hstays : (wraps.bind fun name => if name = fresh then target.named else some name) = wraps := by
        cases wraps with
        | none => rfl
        | some name =>
            have hne : name ≠ fresh := by
              rintro rfl
              exact h (hwraps name rfl).1
            simp [hne]
      rw [refs, mem_refsMembers] at h
      rw [inline, hstays, inlineMembers_fresh]
      intro keyword hm
      exact ih keyword hm (tightMembers_iff.mp hkeywords keyword hm) fun hr => h ⟨keyword, hm, hr⟩

end Inlining

section Following

variable (R : Except PyError Json → Except PyError Json → Prop) (expand expand' : Str → Except PyError Json)
  (expanding expanding' : List Str) (fresh : Str) (target : Shape)

-- The references of a shape expand alike once `target` is in the place of `fresh`, and
-- its wrappers are cut alike.
structure Follows (shape : Shape) : Prop where
  names : ∀ name ∈ shape.refs, name ≠ fresh → name ∉ expanding' → R (expand name) (expand' name)
  held : fresh ∈ shape.refs → R (target.unfold expand expanding) ((Shape.ref fresh).unfold expand' expanding')
  wrappers : fresh ∈ shape.wrapped → (fresh ∈ expanding' ↔ ∃ name ∈ expanding, target = .ref name)

variable {R expand expand' expanding expanding' fresh target}

theorem Follows.mono {shape other : Shape} (h : Follows R expand expand' expanding expanding' fresh target shape)
    (hrefs : other.refs ⊆ shape.refs) (hwrapped : other.wrapped ⊆ shape.wrapped) :
    Follows R expand expand' expanding expanding' fresh target other where
  names := fun name hname => h.names name (hrefs hname)
  held := fun hname => h.held (hrefs hname)
  wrappers := fun hname => h.wrappers (hwrapped hname)

theorem unfoldMembers_inline {members : List (Str × Shape)} (h : ∀ member ∈ members,
    (inline fresh target member.2).unfold expand expanding = member.2.unfold expand' expanding') :
    unfoldMembers expand expanding (inlineMembers fresh target members) =
      unfoldMembers expand' expanding' members := by
  induction members with
  | nil => rfl
  | cons member rest ih =>
      obtain ⟨hmember, hrest⟩ := List.forall_mem_cons.mp h
      simp only [inlineMembers, unfoldMembers, hmember, ih hrest]

theorem unfoldItems_inline {items : List Shape} (h : ∀ item ∈ items,
    (inline fresh target item).unfold expand expanding = item.unfold expand' expanding') :
    unfoldItems expand expanding (inlineItems fresh target items) = unfoldItems expand' expanding' items := by
  induction items with
  | nil => rfl
  | cons item rest ih =>
      obtain ⟨hitem, hrest⟩ := List.forall_mem_cons.mp h
      simp only [inlineItems, unfoldItems, hitem, ih hrest]

-- Paths that differ in `fresh` only cut the same wrappers, but for those of `fresh`.
theorem any_inline (hpath : ∀ name, name ≠ fresh → (name ∈ expanding ↔ name ∈ expanding')) (wraps : Option Str)
    (hwrappers : wraps = some fresh → (fresh ∈ expanding' ↔ ∃ name ∈ expanding, target = .ref name)) :
    (wraps.bind fun name => if name = fresh then target.named else some name).any (· ∈ expanding) =
      wraps.any (· ∈ expanding') := by
  cases wraps with
  | none => rfl
  | some name =>
      by_cases hname : name = fresh
      · subst hname
        have hiff := hwrappers rfl
        rw [Option.bind_some, if_pos rfl, Option.any_some, Bool.eq_iff_iff, Option.any_eq_true]
        simp only [named_eq_some, decide_eq_true_eq, hiff]
        constructor
        · rintro ⟨other, htarget, hother⟩
          exact ⟨other, hother, htarget⟩
        · rintro ⟨other, hother, htarget⟩
          exact ⟨other, htarget, hother⟩
      · rw [Option.bind_some, if_neg hname, Option.any_some, Option.any_some, Bool.eq_iff_iff]
        simpa using hpath name hname

-- Inlining keeps what a shape unfolds to, where its references expand alike.
theorem unfold_inline (hpath : ∀ name, name ≠ fresh → (name ∈ expanding ↔ name ∈ expanding')) {shape : Shape}
    (h : Follows Eq expand expand' expanding expanding' fresh target shape) :
    (inline fresh target shape).unfold expand expanding = shape.unfold expand' expanding' := by
  induction shape using Shape.induct with
  | value json => rfl
  | failed error => rfl
  | ref name =>
      by_cases hname : name = fresh
      · subst hname
        rw [inline, if_pos rfl]
        exact h.held (by simp [refs])
      · rw [inline, if_neg hname]
        simp only [unfold, hpath name hname]
        by_cases hcut : name ∈ expanding'
        · rw [if_pos hcut, if_pos hcut]
        · rw [if_neg hcut, if_neg hcut]
          exact h.names name (by simp [refs]) hname hcut
  | properties members ih =>
      have hmembers := unfoldMembers_inline fun member hm => ih member hm (h.mono
        (fun name hname => by rw [refs, mem_refsMembers]; exact ⟨member, hm, hname⟩)
        (fun name hname => by rw [wrapped, mem_wrappedMembers]; exact ⟨member, hm, hname⟩))
      simp only [inline, unfold, hmembers]
  | branches items ih =>
      have hitems := unfoldItems_inline fun item hm => ih item hm (h.mono
        (fun name hname => by rw [refs, mem_refsItems]; exact ⟨item, hm, hname⟩)
        (fun name hname => by rw [wrapped, mem_wrappedItems]; exact ⟨item, hm, hname⟩))
      simp only [inline, unfold, hitems]
  | node wraps keywords ih =>
      have hkeywords := unfoldMembers_inline fun keyword hm => ih keyword hm (h.mono
        (fun name hname => by rw [refs, mem_refsMembers]; exact ⟨keyword, hm, hname⟩)
        (fun name hname => by
          rw [wrapped, List.mem_append, mem_wrappedMembers]
          exact .inr ⟨keyword, hm, hname⟩))
      have hcut := any_inline hpath wraps fun hw => h.wrappers (by rw [hw]; simp [wrapped])
      simp only [inline, unfold, hkeywords, hcut]

end Following

section Observing

variable {expand expand' : Str → Except PyError Json} {expanding expanding' : List Str} {fresh : Str}
  {target : Shape}

theorem unfoldMembers_inline_agree {members : List (Str × Shape)} (hnodup : (Entries.keys members).Nodup)
    {out out' : Fields} (h : unfoldMembers expand expanding (inlineMembers fresh target members) = .ok out)
    (h' : unfoldMembers expand' expanding' members = .ok out')
    (hsame : (Json.obj out).canonical = (Json.obj out').canonical) : ∀ member ∈ members,
    Agree ((inline fresh target member.2).unfold expand expanding) (member.2.unfold expand' expanding') := by
  intro member hm
  have hmember := Entries.get?_of_mem hnodup hm
  have hget := get?_unfoldMembers h member.1
  have hget' := get?_unfoldMembers h' member.1
  rw [get?_inlineMembers, hmember, Option.map_some, Option.map_some] at hget
  rw [hmember, Option.map_some] at hget'
  obtain ⟨value, hvalue, hok⟩ := Option.map_eq_some_iff.mp hget
  obtain ⟨value', hvalue', hok'⟩ := Option.map_eq_some_iff.mp hget'
  have hcanonical := Json.get?_of_canonical hsame.symm member.1
  rw [hvalue, hvalue', Option.map_some, Option.map_some] at hcanonical
  exact ⟨value, value', hok.symm, hok'.symm, (Option.some.inj hcanonical).symm⟩

theorem unfoldItems_inline_agree {items : List Shape} {out out' : List Json}
    (h : unfoldItems expand expanding (inlineItems fresh target items) = .ok out)
    (h' : unfoldItems expand' expanding' items = .ok out')
    (hsame : out.map Json.canonical = out'.map Json.canonical) : ∀ item ∈ items,
    Agree ((inline fresh target item).unfold expand expanding) (item.unfold expand' expanding') := by
  induction items generalizing out out' with
  | nil => simp
  | cons shape rest ih =>
      simp only [inlineItems, unfoldItems] at h h'
      obtain ⟨value, hv, h⟩ := Except.bind_eq_ok.mp h
      obtain ⟨value', hv', h'⟩ := Except.bind_eq_ok.mp h'
      obtain ⟨values, hr, h⟩ := Except.bind_eq_ok.mp h
      obtain ⟨values', hr', h'⟩ := Except.bind_eq_ok.mp h'
      cases h
      cases h'
      simp only [List.map_cons, List.cons.injEq] at hsame
      obtain ⟨hhead, htail⟩ := hsame
      rw [List.forall_mem_cons]
      exact ⟨⟨value, value', hv, hv', hhead⟩, ih hr hr' htail⟩

variable {R : Except PyError Json → Except PyError Json → Prop}

theorem follows_of_members {members : List (Str × Shape)} {shape : Shape}
    (h : ∀ member ∈ members, Follows R expand expand' expanding expanding' fresh target member.2)
    (hrefs : shape.refs = refsMembers members) (hwrappers : fresh ∈ shape.wrapped →
      fresh ∈ wrappedMembers members ∨ (fresh ∈ expanding' ↔ ∃ name ∈ expanding, target = .ref name)) :
    Follows R expand expand' expanding expanding' fresh target shape where
  names := by
    intro name hname
    rw [hrefs] at hname
    obtain ⟨member, hm, hname⟩ := mem_refsMembers.mp hname
    exact (h member hm).names name hname
  held := by
    intro hname
    rw [hrefs] at hname
    obtain ⟨member, hm, hname⟩ := mem_refsMembers.mp hname
    exact (h member hm).held hname
  wrappers := by
    intro hname
    rcases hwrappers hname with hname | hiff
    · obtain ⟨member, hm, hname⟩ := mem_wrappedMembers.mp hname
      exact (h member hm).wrappers hname
    · exact hiff

theorem follows_of_items {items : List Shape}
    (h : ∀ item ∈ items, Follows R expand expand' expanding expanding' fresh target item) :
    Follows R expand expand' expanding expanding' fresh target (.branches items) where
  names := by
    intro name hname
    obtain ⟨item, hm, hname⟩ := mem_refsItems.mp hname
    exact (h item hm).names name hname
  held := by
    intro hname
    obtain ⟨item, hm, hname⟩ := mem_refsItems.mp hname
    exact (h item hm).held hname
  wrappers := by
    intro hname
    obtain ⟨item, hm, hname⟩ := mem_wrappedItems.mp hname
    exact (h item hm).wrappers hname

-- A wrapper that is cut in both shapes tells nothing of what it holds.
theorem follows_of_cut {name : Str} {keywords : List (Str × Shape)} (hs : (node (some name) keywords).Sound)
    (ht : (node (some name) keywords).Tight) (hcut : name ∈ expanding')
    (hwrappers : name = fresh → ∃ other ∈ expanding, target = .ref other) :
    Follows Agree expand expand' expanding expanding' fresh target (node (some name) keywords) where
  names := by
    intro other hother _ hopen
    have heq : other = name := hs.2.2 name rfl other hother
    rw [heq] at hopen
    exact absurd hcut hopen
  held := by
    intro hfresh
    have heq : fresh = name := hs.2.2 name rfl fresh hfresh
    obtain ⟨other, hother, htarget⟩ := hwrappers heq.symm
    refine ⟨.obj [], .obj [], ?_, ?_, rfl⟩
    · rw [htarget, unfold, if_pos hother]
    · rw [heq, unfold, if_pos hcut]
  wrappers := by
    intro hfresh
    have heq : fresh = name := by simpa [wrapped, (ht.2 name rfl).2] using hfresh
    rw [heq]
    exact iff_of_true hcut (hwrappers heq.symm)

-- Two nodes of one canonical form are cut alike, or have no keywords.
theorem cut_eq_of_agree {c c' : Bool} {keywords : List (Str × Shape)} (hne : keywords ≠ [])
    {out out' : Fields} (h : unfoldMembers expand expanding (inlineMembers fresh target keywords) = .ok out)
    (h' : unfoldMembers expand' expanding' keywords = .ok out')
    (hsame : (Json.obj (if c then [] else out)).canonical = (Json.obj (if c' then [] else out')).canonical) :
    c = c' := by
  have hleft : out ≠ [] := by
    rintro rfl
    have hkeys := keys_unfoldMembers h
    cases keywords with
    | nil => exact hne rfl
    | cons keyword rest => simp [inlineMembers] at hkeys
  have hright : out' ≠ [] := by
    rintro rfl
    have hkeys := keys_unfoldMembers h'
    cases keywords with
    | nil => exact hne rfl
    | cons keyword rest => simp at hkeys
  cases c with
  | true =>
      cases c' with
      | true => rfl
      | false => exact absurd (Json.obj.inj (canonical_eq_empty hsame)) hright
  | false =>
      cases c' with
      | true => exact absurd (Json.obj.inj (canonical_eq_empty hsame.symm)) hleft
      | false => rfl

theorem follows_node {wraps : Option Str} {keywords : List (Str × Shape)}
    (hpath : ∀ name, name ≠ fresh → (name ∈ expanding ↔ name ∈ expanding')) (hs : (node wraps keywords).Sound)
    (ht : (node wraps keywords).Tight) (ih : ∀ keyword ∈ keywords,
      Agree ((inline fresh target keyword.2).unfold expand expanding) (keyword.2.unfold expand' expanding') →
        Follows Agree expand expand' expanding expanding' fresh target keyword.2)
    (h : Agree ((inline fresh target (node wraps keywords)).unfold expand expanding)
      ((node wraps keywords).unfold expand' expanding')) :
    Follows Agree expand expand' expanding expanding' fresh target (node wraps keywords) := by
  obtain ⟨v, w, hv, hw, hsame⟩ := h
  simp only [inline, unfold] at hv hw
  obtain ⟨out, hout, hv⟩ := Except.bind_eq_ok.mp hv
  obtain ⟨out', hout', hw⟩ := Except.bind_eq_ok.mp hw
  cases hv
  cases hw
  have hwrappers : wraps = some fresh → (fresh ∈ expanding' ↔ ∃ name ∈ expanding, target = .ref name) := by
    rintro rfl
    have hne : keywords ≠ [] := by
      rintro rfl
      cases (ht.2 fresh rfl).1
    have hcut := cut_eq_of_agree hne hout hout' hsame
    rw [Option.bind_some, if_pos rfl, Option.any_some, Bool.eq_iff_iff, Option.any_eq_true] at hcut
    simp only [named_eq_some, decide_eq_true_eq] at hcut
    rw [← hcut]
    constructor
    · rintro ⟨other, htarget, hother⟩
      exact ⟨other, hother, htarget⟩
    · rintro ⟨other, hother, htarget⟩
      exact ⟨other, htarget, hother⟩
  rw [any_inline hpath wraps hwrappers] at hsame
  cases hcut : wraps.any (· ∈ expanding') with
  | true =>
      obtain ⟨name, rfl, hname⟩ := (Option.any_eq_true _ _).mp hcut
      have hname : name ∈ expanding' := by simpa using hname
      apply follows_of_cut hs ht hname
      rintro rfl
      exact (hwrappers rfl).mp hname
  | false =>
      rw [hcut] at hsame
      have hall := unfoldMembers_inline_agree hs.1 hout hout' hsame
      apply follows_of_members (fun keyword hm => ih keyword hm (hall keyword hm)) rfl
      intro hfresh
      rcases List.mem_append.mp hfresh with hfresh | hfresh
      · exact .inr (hwrappers (by simpa using hfresh))
      · exact .inl hfresh

-- What a shape unfolds to tells what its references expand to, and where its wrappers are cut.
theorem follows_of_agree (hpath : ∀ name, name ≠ fresh → (name ∈ expanding ↔ name ∈ expanding')) {shape : Shape}
    (hs : shape.Sound) (ht : shape.Tight)
    (h : Agree ((inline fresh target shape).unfold expand expanding) (shape.unfold expand' expanding')) :
    Follows Agree expand expand' expanding expanding' fresh target shape := by
  induction shape using Shape.induct with
  | value json => exact ⟨by simp [refs], by simp [refs], by simp [wrapped]⟩
  | failed error => exact ⟨by simp [refs], by simp [refs], by simp [wrapped]⟩
  | ref name =>
      by_cases hname : name = fresh
      · subst hname
        rw [inline, if_pos rfl] at h
        exact ⟨by simp [refs], fun _ => h, by simp [wrapped]⟩
      · rw [inline, if_neg hname] at h
        refine ⟨?_, ?_, by simp [wrapped]⟩
        · intro other hother _ hopen
          simp only [refs, List.mem_singleton] at hother
          subst hother
          have hopen' := (hpath other hname).not.mpr hopen
          simpa only [unfold, hopen, hopen', if_false] using h
        · intro hfresh
          simp only [refs, List.mem_singleton] at hfresh
          exact absurd hfresh.symm hname
  | properties members ih =>
      obtain ⟨v, w, hv, hw, hsame⟩ := h
      simp only [inline, unfold] at hv hw
      obtain ⟨out, hout, hv⟩ := Except.bind_eq_ok.mp hv
      obtain ⟨out', hout', hw⟩ := Except.bind_eq_ok.mp hw
      cases hv
      cases hw
      have hall := unfoldMembers_inline_agree hs.1 hout hout' hsame
      refine follows_of_members ?_ rfl .inl
      intro member hm
      exact ih member hm (soundMembers_iff.mp hs.2 member hm) (tightMembers_iff.mp ht member hm) (hall member hm)
  | branches items ih =>
      obtain ⟨v, w, hv, hw, hsame⟩ := h
      simp only [inline, unfold] at hv hw
      obtain ⟨out, hout, hv⟩ := Except.bind_eq_ok.mp hv
      obtain ⟨out', hout', hw⟩ := Except.bind_eq_ok.mp hw
      cases hv
      cases hw
      rw [Json.canonical_arr, Json.canonical_arr] at hsame
      have hall := unfoldItems_inline_agree hout hout' (Json.arr.inj hsame)
      apply follows_of_items
      intro item hm
      exact ih item hm (soundItems_iff.mp hs item hm) (tightItems_iff.mp ht item hm) (hall item hm)
  | node wraps keywords ih =>
      apply follows_node hpath hs ht _ h
      intro keyword hm
      exact ih keyword hm (soundMembers_iff.mp hs.2.1 keyword hm) (tightMembers_iff.mp ht.1 keyword hm)

end Observing

end Shape

end Benzene.Contract
