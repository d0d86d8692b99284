import Benzene.Data.Text

namespace Benzene.Data

-- The classes of Python errors. The last two stand for the classes an
-- application defines: below `Exception`, and outside it (`CancelledError`,
-- `KeyboardInterrupt`, `SystemExit`).
inductive ErrorKind
  | attributeError
  | keyError
  | overflowError
  | typeError
  | unicodeDecodeError
  | unicodeEncodeError
  | valueError
  | exception (name : Str)
  | baseException (name : Str)
deriving DecidableEq

-- The interpreter's own wording is left empty; `message` is what the sources
-- or an application say.
structure PyError where
  kind : ErrorKind
  message : Str := []
deriving DecidableEq

namespace PyError

-- What calls that nest too deep end in.
def recursionError : PyError := ⟨.exception "RecursionError", []⟩

def name (error : PyError) : Str :=
  match error.kind with
  | .attributeError => "AttributeError"
  | .keyError => "KeyError"
  | .overflowError => "OverflowError"
  | .typeError => "TypeError"
  | .unicodeDecodeError => "UnicodeDecodeError"
  | .unicodeEncodeError => "UnicodeEncodeError"
  | .valueError => "ValueError"
  | .exception name => name
  | .baseException name => name

-- What `except Exception` catches.
def isException (error : PyError) : Bool :=
  match error.kind with
  | .baseException _ => false
  | _ => true

end PyError

theorem Except.bind_eq_ok {ε α β : Type} {x : Except ε α} {f : α → Except ε β} {b : β} :
    (x >>= f) = .ok b ↔ ∃ a, x = .ok a ∧ f a = .ok b := by
  cases x with
  | error e => simp [bind, Except.bind]
  | ok a => simp [bind, Except.bind]

theorem Except.bind_eq_error {ε α β : Type} {x : Except ε α} {f : α → Except ε β} {error : ε} :
    (x >>= f) = .error error ↔ x = .error error ∨ ∃ a, x = .ok a ∧ f a = .error error := by
  cases x with
  | error e => simp [bind, Except.bind]
  | ok a => simp [bind, Except.bind]

-- A list is mapped when each of its items is.
theorem Except.isOk_iff {ε α : Type} {outcome : Except ε α} :
    outcome.isOk = true ↔ ∃ value, outcome = .ok value := by
  cases outcome with
  | error error => simp [Except.isOk, Except.toBool]
  | ok value => simp [Except.isOk, Except.toBool]

theorem Except.mapM_eq_ok {ε α β : Type} {f : α → Except ε β} {items : List α} {out : List β} :
    items.mapM f = .ok out ↔ List.Forall₂ (fun item b => f item = .ok b) items out := by
  induction items generalizing out with
  | nil =>
      rw [List.mapM_nil, List.forall₂_nil_left_iff]
      exact ⟨fun h => (Except.ok.inj h).symm, fun h => by rw [h]; rfl⟩
  | cons item rest ih =>
      rw [List.mapM_cons, Except.bind_eq_ok]
      constructor
      · rintro ⟨b, hb, h⟩
        obtain ⟨bs, hbs, h⟩ := Except.bind_eq_ok.mp h
        cases h
        exact .cons hb (ih.mp hbs)
      · intro h
        cases h with
        | @cons _ b _ bs hb hbs =>
            refine ⟨b, hb, ?_⟩
            rw [Except.bind_eq_ok]
            exact ⟨bs, ih.mpr hbs, rfl⟩

theorem Except.exists_of_mapM_eq_error {ε α β : Type} {f : α → Except ε β} {items : List α} {error : ε}
    (h : items.mapM f = .error error) : ∃ item ∈ items, f item = .error error := by
  induction items with
  | nil => cases h
  | cons item rest ih =>
      rw [List.mapM_cons, Except.bind_eq_error] at h
      rcases h with hitem | ⟨b, -, h⟩
      · exact ⟨item, List.mem_cons_self, hitem⟩
      · rcases Except.bind_eq_error.mp h with hrest | ⟨bs, -, h⟩
        · obtain ⟨other, hother, herror⟩ := ih hrest
          exact ⟨other, List.mem_cons_of_mem _ hother, herror⟩
        · cases h

theorem exists_of_mem_right {α β : Type} {R : α → β → Prop} {as : List α} {bs : List β}
    (h : List.Forall₂ R as bs) {b : β} (hb : b ∈ bs) : ∃ a ∈ as, R a b := by
  induction h with
  | nil => cases hb
  | cons hhead _ ih =>
      rcases List.mem_cons.mp hb with rfl | hm
      · exact ⟨_, List.mem_cons_self, hhead⟩
      · obtain ⟨a, ha, hab⟩ := ih hm
        exact ⟨a, List.mem_cons_of_mem _ ha, hab⟩

theorem exists_of_mem_left {α β : Type} {R : α → β → Prop} {as : List α} {bs : List β}
    (h : List.Forall₂ R as bs) {a : α} (ha : a ∈ as) : ∃ b ∈ bs, R a b :=
  exists_of_mem_right h.flip ha

-- Two relations over the same lists meet at every item.
theorem exists_of_mem_both {α β : Type} {R S : α → β → Prop} {as : List α} {bs : List β}
    (hR : List.Forall₂ R as bs) (hS : List.Forall₂ S as bs) {a : α} (ha : a ∈ as) : ∃ b, R a b ∧ S a b := by
  induction hR with
  | nil => cases ha
  | cons hfirst _ ih =>
      cases hS with
      | cons hfirst' hrest' =>
          rcases List.mem_cons.mp ha with rfl | hm
          · exact ⟨_, hfirst, hfirst'⟩
          · exact ih hrest' hm

-- What an item has exactly where its counterpart has something.
theorem forall_mem_iff_of_forall₂ {α β : Type} {R : α → β → Prop} {p : α → Prop} {q : β → Prop} {as : List α}
    {bs : List β} (h : List.Forall₂ R as bs) (hR : ∀ a b, R a b → (p a ↔ q b)) :
    (∀ a ∈ as, p a) ↔ ∀ b ∈ bs, q b := by
  induction h with
  | nil => simp
  | cons hfirst _ ih => rw [List.forall_mem_cons, List.forall_mem_cons, hR _ _ hfirst, ih]

theorem Except.mem_of_mapM_eq_ok {ε α β : Type} {f : α → Except ε β} {items : List α} {out : List β}
    (h : items.mapM f = .ok out) {b : β} (hb : b ∈ out) : ∃ item ∈ items, f item = .ok b :=
  exists_of_mem_right (Except.mapM_eq_ok.mp h) hb

-- Which computations return.
theorem Except.exists_bind_ok {ε α β : Type} {x : Except ε α} {f : α → Except ε β} :
    (∃ b, (x >>= f) = .ok b) ↔ ∃ a, x = .ok a ∧ ∃ b, f a = .ok b := by
  cases x with
  | error e => simp [bind, Except.bind]
  | ok a => simp [bind, Except.bind]

theorem Except.exists_mapM_ok {ε α β : Type} {f : α → Except ε β} {items : List α} :
    (∃ out, items.mapM f = .ok out) ↔ ∀ item ∈ items, ∃ b, f item = .ok b := by
  constructor
  · rintro ⟨out, h⟩ item hitem
    obtain ⟨b, -, hb⟩ := exists_of_mem_left (Except.mapM_eq_ok.mp h) hitem
    exact ⟨b, hb⟩
  · intro h
    induction items with
    | nil => exact ⟨[], rfl⟩
    | cons item rest ih =>
        obtain ⟨b, hb⟩ := h item List.mem_cons_self
        obtain ⟨bs, hbs⟩ := ih fun other hother => h other (List.mem_cons_of_mem _ hother)
        exact ⟨b :: bs, by rw [List.mapM_cons, hb]; simp only [bind, Except.bind, hbs]; rfl⟩

-- A map whose items are each read when safe, as `g` says.
theorem Except.mapM_eq_ok_iff {ε α β : Type} {f : α → Except ε β} {safe : α → Prop} {g : α → β} {items : List α}
    (h : ∀ item ∈ items, ∀ b, f item = .ok b ↔ safe item ∧ g item = b) {out : List β} :
    items.mapM f = .ok out ↔ (∀ item ∈ items, safe item) ∧ items.map g = out := by
  induction items generalizing out with
  | nil =>
      rw [List.mapM_nil, List.map_nil]
      constructor
      · intro heq
        exact ⟨List.forall_mem_nil _, Except.ok.inj heq⟩
      · rintro ⟨-, rfl⟩
        rfl
  | cons item rest ih =>
      rw [List.mapM_cons, Except.bind_eq_ok, List.forall_mem_cons, List.map_cons]
      have hrest := fun bs => @ih (fun other hother => h other (List.mem_cons_of_mem _ hother)) bs
      constructor
      · rintro ⟨b, hb, hout⟩
        obtain ⟨bs, hbs, hout⟩ := Except.bind_eq_ok.mp hout
        cases hout
        obtain ⟨hsafe, rfl⟩ := (h item List.mem_cons_self b).mp hb
        obtain ⟨hothers, rfl⟩ := (hrest bs).mp hbs
        exact ⟨⟨hsafe, hothers⟩, rfl⟩
      · rintro ⟨⟨hsafe, hothers⟩, rfl⟩
        refine ⟨g item, (h item List.mem_cons_self _).mpr ⟨hsafe, rfl⟩, ?_⟩
        rw [Except.bind_eq_ok]
        exact ⟨rest.map g, (hrest _).mpr ⟨hothers, rfl⟩, rfl⟩

-- A fold whose rounds succeed or fail by their item alone.
theorem Except.exists_foldlM_ok {ε α β : Type} {f : β → α → Except ε β} {safe : α → Prop}
    (h : ∀ acc item, (∃ acc', f acc item = .ok acc') ↔ safe item) {items : List α} (acc : β) :
    (∃ out, items.foldlM f acc = .ok out) ↔ ∀ item ∈ items, safe item := by
  induction items generalizing acc with
  | nil => simp [pure, Except.pure]
  | cons item rest ih =>
      rw [List.foldlM_cons, Except.exists_bind_ok, List.forall_mem_cons, ← h acc item]
      constructor
      · rintro ⟨acc', hacc, hrest⟩
        exact ⟨⟨acc', hacc⟩, (ih acc').mp hrest⟩
      · rintro ⟨⟨acc', hacc⟩, hrest⟩
        exact ⟨acc', hacc, (ih acc').mpr hrest⟩

-- What every round keeps, a fold keeps.
theorem Except.foldlM_induct {ε α β : Type} {f : β → α → Except ε β} {Inv : β → Prop} {items : List α}
    (h : ∀ acc item acc', item ∈ items → Inv acc → f acc item = .ok acc' → Inv acc') {acc out : β}
    (hacc : Inv acc) (hout : items.foldlM f acc = .ok out) : Inv out := by
  induction items generalizing acc with
  | nil =>
      cases hout
      exact hacc
  | cons item rest ih =>
      rw [List.foldlM_cons] at hout
      obtain ⟨acc', hround, hrest⟩ := Except.bind_eq_ok.mp hout
      exact ih (fun acc other acc' hother => h acc other acc' (List.mem_cons_of_mem _ hother))
        (h acc item acc' List.mem_cons_self hacc hround) hrest

-- A Python computation over mutable state: an exception keeps the changes made
-- before it was raised.
def Py (ε σ α : Type) : Type := σ → Except ε α × σ

namespace Py

variable {ε σ α β : Type}

def pure (a : α) : Py ε σ α := fun s => (.ok a, s)

def bind (x : Py ε σ α) (f : α → Py ε σ β) : Py ε σ β := fun s =>
  match x s with
  | (.ok a, s') => f a s'
  | (.error e, s') => (.error e, s')

instance : Monad (Py ε σ) where
  pure := pure
  bind := bind

def get : Py ε σ σ := fun s => (.ok s, s)

def modify (f : σ → σ) : Py ε σ Unit := fun s => (.ok (), f s)

def throw (e : ε) : Py ε σ α := fun s => (.error e, s)

def lift (r : Except ε α) : Py ε σ α := fun s => (r, s)

-- `try: x  except: handler`.
def tryCatch (x : Py ε σ α) (handler : ε → Py ε σ α) : Py ε σ α := fun s =>
  match x s with
  | (.ok a, s') => (.ok a, s')
  | (.error e, s') => handler e s'

-- A computation on the first of two states.
def onFirst {τ : Type} (x : Py ε σ α) : Py ε (σ × τ) α := fun s =>
  match x s.1 with
  | (outcome, s') => (outcome, (s', s.2))

-- A loop over `items`, with what each round yields.
def mapEach (body : α → Py ε σ β) : List α → Py ε σ (List β)
  | [] => pure []
  | item :: rest => bind (body item) fun b => bind (mapEach body rest) fun bs => pure (b :: bs)

@[simp] theorem pure_apply (a : α) (s : σ) : (Pure.pure a : Py ε σ α) s = (.ok a, s) := rfl

theorem bind_apply (x : Py ε σ α) (f : α → Py ε σ β) (s : σ) :
    (x >>= f) s = match x s with
      | (.ok a, s') => f a s'
      | (.error e, s') => (.error e, s') := rfl

@[simp] theorem get_apply (s : σ) : (get : Py ε σ σ) s = (.ok s, s) := rfl

@[simp] theorem modify_apply (f : σ → σ) (s : σ) : (modify f : Py ε σ Unit) s = (.ok (), f s) := rfl

@[simp] theorem throw_apply (e : ε) (s : σ) : (throw e : Py ε σ α) s = (.error e, s) := rfl

@[simp] theorem lift_apply (r : Except ε α) (s : σ) : (lift r : Py ε σ α) s = (r, s) := rfl

theorem onFirst_of {τ : Type} {x : Py ε σ α} {s s' : σ} {outcome : Except ε α} (h : x s = (outcome, s')) (t : τ) :
    onFirst x (s, t) = (outcome, (s', t)) := by
  simp only [onFirst, h]

theorem lift_ok_bind (a : α) (f : α → Py ε σ β) : (lift (.ok a) : Py ε σ α) >>= f = f a := rfl

theorem bind_ok {x : Py ε σ α} {f : α → Py ε σ β} {s s' : σ} {a : α} (h : x s = (.ok a, s')) :
    (x >>= f) s = f a s' := by
  simp [bind_apply, h]

theorem bind_error {x : Py ε σ α} {f : α → Py ε σ β} {s s' : σ} {e : ε}
    (h : x s = (.error e, s')) : (x >>= f) s = (.error e, s') := by
  simp [bind_apply, h]

-- A sequence that returns has run both of its parts.
theorem exists_of_bind_ok {x : Py ε σ α} {f : α → Py ε σ β} {s s' : σ} {b : β} (h : (x >>= f) s = (.ok b, s')) :
    ∃ a middle, x s = (.ok a, middle) ∧ f a middle = (.ok b, s') := by
  rw [bind_apply] at h
  cases hx : x s with
  | mk outcome middle =>
      cases outcome with
      | error e =>
          rw [hx] at h
          cases h
      | ok a =>
          rw [hx] at h
          exact ⟨a, middle, rfl, h⟩

@[simp] theorem mapEach_nil (body : α → Py ε σ β) (s : σ) :
    mapEach body [] s = (.ok [], s) := rfl

theorem mapEach_cons (body : α → Py ε σ β) (item : α) (rest : List α) (s : σ) :
    mapEach body (item :: rest) s =
      match body item s with
      | (.error e, s') => (.error e, s')
      | (.ok b, s') =>
          match mapEach body rest s' with
          | (.error e, s'') => (.error e, s'')
          | (.ok bs, s'') => (.ok (b :: bs), s'') := by
  simp only [mapEach, bind]
  cases body item s with
  | mk outcome s' =>
      cases outcome with
      | error e => rfl
      | ok b =>
          dsimp only
          cases mapEach body rest s' with
          | mk outcome s'' => cases outcome <;> rfl

-- The state after a loop, by how its first round ends.
theorem mapEach_ok_state {body : α → Py ε σ β} {item : α} {s s' : σ} {b : β}
    (h : body item s = (.ok b, s')) (rest : List α) :
    (mapEach body (item :: rest) s).2 = (mapEach body rest s').2 := by
  rw [mapEach_cons, h]
  cases hrest : mapEach body rest s' with
  | mk outcome after => cases outcome <;> simp only [hrest]

theorem mapEach_error_state {body : α → Py ε σ β} {item : α} {s s' : σ} {e : ε}
    (h : body item s = (.error e, s')) (rest : List α) :
    (mapEach body (item :: rest) s).2 = s' := by
  rw [mapEach_cons, h]

-- An invariant that a computation keeps, however it ends.
def Preserves (Inv : σ → Prop) (x : Py ε σ α) : Prop := ∀ s, Inv s → Inv (x s).2

namespace Preserves

variable {Inv : σ → Prop}

theorem pure (a : α) : Preserves Inv (Pure.pure a : Py ε σ α) := fun _ hs => hs

theorem get : Preserves Inv (Py.get : Py ε σ σ) := fun _ hs => hs

theorem throw (e : ε) : Preserves Inv (Py.throw e : Py ε σ α) := fun _ hs => hs

theorem lift (r : Except ε α) : Preserves Inv (Py.lift r : Py ε σ α) := fun _ hs => hs

theorem modify {f : σ → σ} (h : ∀ s, Inv s → Inv (f s)) :
    Preserves Inv (Py.modify f : Py ε σ Unit) := h

theorem bind {x : Py ε σ α} {f : α → Py ε σ β} (hx : Preserves Inv x)
    (hf : ∀ a, Preserves Inv (f a)) : Preserves Inv (x >>= f) := by
  intro s hs
  have hs' := hx s hs
  rw [bind_apply]
  cases h : x s with
  | mk outcome s' =>
      rw [h] at hs'
      cases outcome with
      | error e => exact hs'
      | ok a => exact hf a s' hs'

theorem lift_bind {r : Except ε α} {f : α → Py ε σ β} (h : ∀ a, r = .ok a → Preserves Inv (f a)) :
    Preserves Inv (Py.lift r >>= f) := by
  intro s hs
  cases r with
  | error e => exact hs
  | ok a => exact h a rfl s hs

-- What every round keeps, the whole loop keeps.
theorem mapEach {body : α → Py ε σ β} {items : List α}
    (h : ∀ item ∈ items, Preserves Inv (body item)) : Preserves Inv (Py.mapEach body items) := by
  induction items with
  | nil => exact pure []
  | cons item rest ih =>
      exact bind (h item List.mem_cons_self) fun b =>
        bind (ih fun other hm => h other (List.mem_cons_of_mem _ hm)) fun bs => pure (b :: bs)

end Preserves

-- Every error of the computation satisfies `P`.
def Throws (P : ε → Prop) (x : Py ε σ α) : Prop := ∀ s e, (x s).1 = .error e → P e

namespace Throws

variable {P : ε → Prop}

theorem pure (a : α) : Throws P (Pure.pure a : Py ε σ α) := fun _ _ h => nomatch h

theorem get : Throws P (Py.get : Py ε σ σ) := fun _ _ h => nomatch h

theorem modify (f : σ → σ) : Throws P (Py.modify f : Py ε σ Unit) := fun _ _ h => nomatch h

theorem lift {r : Except ε α} (h : ∀ e, r = .error e → P e) : Throws P (Py.lift r : Py ε σ α) :=
  fun _ e he => h e he

theorem bind {x : Py ε σ α} {f : α → Py ε σ β} (hx : Throws P x) (hf : ∀ a, Throws P (f a)) :
    Throws P (x >>= f) := by
  intro s e he
  rw [bind_apply] at he
  cases h : x s with
  | mk outcome s' =>
      rw [h] at he
      cases outcome with
      | error e' =>
          cases he
          exact hx s e (by rw [h])
      | ok a => exact hf a s' e he

theorem mapEach {body : α → Py ε σ β} (h : ∀ item, Throws P (body item)) (items : List α) :
    Throws P (Py.mapEach body items) := by
  induction items with
  | nil => exact pure []
  | cons item rest ih => exact bind (h item) fun b => bind ih fun bs => pure (b :: bs)

end Throws

-- The computation returns.
def Succeeds (x : Py ε σ α) (s : σ) : Prop := ∃ a s', x s = (.ok a, s')

-- Every item is safe in the state the items before it lead to.
def Each {τ : Type} (safe : τ → α → Prop) (next : τ → α → τ) : τ → List α → Prop
  | _, [] => True
  | t, item :: rest => safe t item ∧ Each safe next (next t item) rest

namespace Succeeds

theorem pure (a : α) (s : σ) : Succeeds (Pure.pure a : Py ε σ α) s := ⟨a, s, rfl⟩

theorem of_error {x : Py ε σ α} {e : ε} {s s' : σ} (h : x s = (.error e, s')) : ¬Succeeds x s := by
  rintro ⟨a, t, ha⟩
  rw [h] at ha
  cases ha

theorem bind_iff {x : Py ε σ α} {f : α → Py ε σ β} {s : σ} :
    Succeeds (x >>= f) s ↔ ∃ a s', x s = (.ok a, s') ∧ Succeeds (f a) s' := by
  constructor
  · rintro ⟨b, t, h⟩
    rw [bind_apply] at h
    cases hx : x s with
    | mk outcome s' =>
        rw [hx] at h
        cases outcome with
        | error e => cases h
        | ok a => exact ⟨a, s', rfl, b, t, h⟩
  · rintro ⟨a, s', hx, b, t, h⟩
    exact ⟨b, t, by rw [bind_ok hx, h]⟩

-- A computation that always returns something lets the rest decide.
theorem bind_ok_iff {x : Py ε σ α} {f : α → Py ε σ β} {s s' : σ} {a : α} (h : x s = (.ok a, s')) :
    Succeeds (x >>= f) s ↔ Succeeds (f a) s' := by
  unfold Succeeds
  rw [bind_ok h]

theorem bind_pure_iff {x : Py ε σ α} {f : α → β} {s : σ} :
    Succeeds (x >>= fun a => Pure.pure (f a)) s ↔ Succeeds x s := by
  rw [bind_iff]
  constructor
  · rintro ⟨a, s', h, -⟩
    exact ⟨a, s', h⟩
  · rintro ⟨a, s', h⟩
    exact ⟨a, s', h, pure _ _⟩

-- The rest asks only for what `x` keeps.
theorem bind_iff_of_preserves {Inv : σ → Prop} {x : Py ε σ α} {f : α → Py ε σ β} {q : Prop}
    (hx : Preserves Inv x) (hf : ∀ a s, Inv s → (Succeeds (f a) s ↔ q)) {s : σ} (hs : Inv s) :
    Succeeds (x >>= f) s ↔ Succeeds x s ∧ q := by
  rw [bind_iff]
  have hafter {a : α} {s' : σ} (h : x s = (.ok a, s')) : Inv s' := by
    have hkept := hx s hs
    rwa [h] at hkept
  constructor
  · rintro ⟨a, s', h, hrest⟩
    exact ⟨⟨a, s', h⟩, (hf a s' (hafter h)).mp hrest⟩
  · rintro ⟨⟨a, s', h⟩, hq⟩
    exact ⟨a, s', h, (hf a s' (hafter h)).mpr hq⟩

theorem lift_bind_iff {r : Except ε α} {f : α → Py ε σ β} {s : σ} :
    Succeeds (Py.lift r >>= f) s ↔ ∃ a, r = .ok a ∧ Succeeds (f a) s := by
  rw [bind_iff]
  constructor
  · rintro ⟨a, s', h, hrest⟩
    cases h
    exact ⟨a, rfl, hrest⟩
  · rintro ⟨a, rfl, hrest⟩
    exact ⟨a, s, rfl, hrest⟩

-- A loop returns when each round does, where `R` says what the rounds need of
-- the state.
theorem mapEach_iff {τ : Type} (R : τ → σ → Prop) (safe : τ → α → Prop) (next : τ → α → τ)
    {body : α → Py ε σ β}
    (hsafe : ∀ t s item, R t s → (Succeeds (body item) s ↔ safe t item))
    (hnext : ∀ t s item b s', R t s → body item s = (.ok b, s') → R (next t item) s')
    {t : τ} {s : σ} (h : R t s) (items : List α) :
    Succeeds (Py.mapEach body items) s ↔ Each safe next t items := by
  induction items generalizing t s with
  | nil => exact ⟨fun _ => trivial, fun _ => ⟨[], s, rfl⟩⟩
  | cons item rest ih =>
      have hround : Succeeds (Py.mapEach body (item :: rest)) s ↔
          ∃ b s', body item s = (.ok b, s') ∧ Succeeds (Py.mapEach body rest) s' := by
        refine bind_iff.trans (exists_congr fun b => exists_congr fun s' => and_congr_right fun _ => ?_)
        exact bind_pure_iff
      rw [hround, Each, ← hsafe t s item h]
      constructor
      · rintro ⟨b, s', hb, hrest⟩
        exact ⟨⟨b, s', hb⟩, (ih (hnext t s item b s' h hb)).mp hrest⟩
      · rintro ⟨⟨b, s', hb⟩, hrest⟩
        exact ⟨b, s', hb, (ih (hnext t s item b s' h hb)).mpr hrest⟩

end Succeeds

-- Two computations that end alike from related states, and in related states.
def Simulates (R : σ → σ → Prop) (x y : Py ε σ α) : Prop :=
  ∀ s t, R s t → (x s).1 = (y t).1 ∧ R (x s).2 (y t).2

namespace Simulates

variable {R : σ → σ → Prop}

theorem pure (a : α) : Simulates R (Pure.pure a : Py ε σ α) (Pure.pure a) :=
  fun _ _ h => ⟨rfl, h⟩

theorem lift (r : Except ε α) : Simulates R (Py.lift r : Py ε σ α) (Py.lift r) :=
  fun _ _ h => ⟨rfl, h⟩

theorem modify {f g : σ → σ} (h : ∀ s t, R s t → R (f s) (g t)) :
    Simulates R (Py.modify f : Py ε σ Unit) (Py.modify g) :=
  fun s t hst => ⟨rfl, h s t hst⟩

theorem bind {x y : Py ε σ α} {f g : α → Py ε σ β} (hxy : Simulates R x y)
    (hfg : ∀ a, Simulates R (f a) (g a)) : Simulates R (x >>= f) (y >>= g) := by
  intro s t hst
  obtain ⟨hout, hstate⟩ := hxy s t hst
  rw [bind_apply, bind_apply]
  cases hx : x s with
  | mk outcome s' =>
      cases hy : y t with
      | mk outcome' t' =>
          rw [hx, hy] at hout hstate
          cases hout
          cases outcome with
          | error e => exact ⟨rfl, hstate⟩
          | ok a => exact hfg a s' t' hstate

theorem mapEach {body body' : α → Py ε σ β} {items : List α}
    (h : ∀ item ∈ items, Simulates R (body item) (body' item)) :
    Simulates R (Py.mapEach body items) (Py.mapEach body' items) := by
  induction items with
  | nil => exact pure []
  | cons item rest ih =>
      exact bind (h item List.mem_cons_self) fun b =>
        bind (ih fun other hm => h other (List.mem_cons_of_mem _ hm)) fun bs => pure (b :: bs)

end Simulates

end Py

end Benzene.Data
