import Benzene.Core.Dependencies

namespace Benzene.Core

open Benzene.Data Benzene.Data.Transition

variable {κ ν ω : Type}

namespace Services

section Made

-- What a factory may return, whatever the world is and whatever it resolves.
inductive Yields : Factory κ ν ω → Option ν → Prop
  | returns (value : Option ν) : Yields (.returns value) value
  | acts {f : ω → ω} {next : ω → Factory κ ν ω} {value : Option ν} (world : ω) (h : Yields (next world) value) :
      Yields (.acts f next) value
  | resolves {key : κ} {next : Except PyError (Option ν) → Factory κ ν ω} {value : Option ν}
      (resolved : Except PyError (Option ν)) (h : Yields (next resolved) value) :
      Yields (.resolves key next) value

def Made (registration : Registration κ ν ω) (service : Service ν) : Prop :=
  service.madeBy = registration.number ∧ Yields registration.factory service.value

theorem yields_build {resolve : κ → Services κ ν ω → Except PyError (Option (Service ν)) × Services κ ν ω}
    {factory : Factory κ ν ω} {services after : Services κ ν ω} {value : Option ν}
    (h : build resolve factory services = (.ok value, after)) : Yields factory value := by
  induction factory generalizing services with
  | returns value =>
      cases h
      exact .returns value
  | raises error => cases h
  | acts f next ih => exact .acts _ (ih _ h)
  | resolves key next ih => exact .resolves _ (ih _ h)

end Made

variable [DecidableEq κ]

section Keeping

variable {services : Services κ ν ω} {lifetime other : Lifetime} {id id' : Nat} {key key' : κ}
  {service held : Service ν}

theorem scope_keep_perScope (hid : id < services.scopes.length) :
    (services.keep .perScope id key service).scope id' =
      if id = id' then (services.scope id).set key service else services.scope id' := by
  unfold keep scope
  by_cases h : id = id'
  · subst h
    simp [hid]
  · simp [h]

theorem kept_keep_self (hlifetime : lifetime ≠ .transient) (hid : id < services.scopes.length) :
    (services.keep lifetime id key service).kept lifetime id key = some service := by
  cases lifetime with
  | singleton => exact Dict.get?_set_self _ _ _
  | perScope =>
      show ((services.keep .perScope id key service).scope id).get? key = some service
      rw [scope_keep_perScope hid, if_pos rfl]
      exact Dict.get?_set_self _ _ _
  | transient => exact absurd rfl hlifetime

-- What is kept afterwards was kept before, or is what was put there.
theorem kept_keep (hid : id < services.scopes.length)
    (h : (services.keep lifetime id key service).kept other id' key' = some held) :
    (lifetime = other ∧ key = key' ∧ held = service) ∨ services.kept other id' key' = some held := by
  cases lifetime with
  | transient => exact .inr h
  | singleton =>
      cases other with
      | perScope | transient => exact .inr h
      | singleton =>
          change (services.singletons.set key service).get? key' = some held at h
          rw [Dict.get?_set] at h
          by_cases hkey : key = key'
          · rw [if_pos hkey] at h
            cases h
            exact .inl ⟨rfl, hkey, rfl⟩
          · rw [if_neg hkey] at h
            exact .inr h
  | perScope =>
      cases other with
      | singleton | transient => exact .inr h
      | perScope =>
          change ((services.keep .perScope id key service).scope id').get? key' = some held at h
          rw [scope_keep_perScope hid] at h
          by_cases hsame : id = id'
          · subst hsame
            rw [if_pos rfl, Dict.get?_set] at h
            by_cases hkey : key = key'
            · rw [if_pos hkey] at h
              cases h
              exact .inl ⟨rfl, hkey, rfl⟩
            · rw [if_neg hkey] at h
              exact .inr h
          · rw [if_neg hsame] at h
            exact .inr h

-- Keeping a service for which nothing was kept loses nothing.
theorem kept_of_kept {before : Services κ ν ω} (hid : id < services.scopes.length)
    (hnone : before.kept lifetime id key = none) (hbefore : before.kept other id' key' = some held)
    (h : services.kept other id' key' = some held) :
    (services.keep lifetime id key service).kept other id' key' = some held := by
  cases lifetime with
  | transient => exact h
  | singleton =>
      cases other with
      | perScope | transient => exact h
      | singleton =>
          have hkey : key ≠ key' := by
            rintro rfl
            rw [show before.kept .singleton id' key = before.kept .singleton id key from rfl, hnone] at hbefore
            cases hbefore
          exact (Dict.get?_set_of_ne _ _ hkey).trans h
  | perScope =>
      cases other with
      | singleton | transient => exact h
      | perScope =>
          show ((services.keep .perScope id key service).scope id').get? key' = some held
          rw [scope_keep_perScope hid]
          by_cases hsame : id = id'
          · subst hsame
            have hkey : key ≠ key' := by
              rintro rfl
              rw [hnone] at hbefore
              cases hbefore
            rw [if_pos rfl]
            exact (Dict.get?_set_of_ne _ _ hkey).trans h
          · rw [if_neg hsame]
            exact h

theorem keep_registrations : (services.keep lifetime id key service).registrations = services.registrations := by
  cases lifetime <;> rfl

theorem keep_scopes :
    (services.keep lifetime id key service).scopes.length = services.scopes.length := by
  cases lifetime with
  | singleton | transient => rfl
  | perScope => exact List.length_set

end Keeping

section Resolving

-- A kept value that may be handed out comes from the key's registration.
def Fresh (services : Services κ ν ω) : Prop :=
  ∀ lifetime id key service, services.kept lifetime id key = some service →
    ∃ registration, services.registrations.get? key = some registration ∧
      (registration.lifetime = lifetime → Made registration service)

-- What resolving does to a container and its scopes.
structure Extends (before after : Services κ ν ω) : Prop where
  registrations : after.registrations = before.registrations
  scopes : after.scopes.length = before.scopes.length
  kept : ∀ lifetime id key service, before.kept lifetime id key = some service →
    after.kept lifetime id key = some service
  fresh : before.Fresh → after.Fresh

theorem Extends.refl (services : Services κ ν ω) : Extends services services :=
  ⟨rfl, rfl, fun _ _ _ _ h => h, id⟩

theorem Extends.trans {a b c : Services κ ν ω} (hab : Extends a b) (hbc : Extends b c) : Extends a c where
  registrations := hbc.registrations.trans hab.registrations
  scopes := hbc.scopes.trans hab.scopes
  kept := fun lifetime id key service h => hbc.kept _ _ _ _ (hab.kept lifetime id key service h)
  fresh := fun h => hbc.fresh (hab.fresh h)

theorem extends_world (services : Services κ ν ω) (world : ω) : Extends services { services with world := world } :=
  ⟨rfl, rfl, fun _ _ _ _ h => h, id⟩

-- A factory that returned leaves its value where nothing was kept.
theorem extends_keep {before services : Services κ ν ω} (h : Extends before services) {id : Nat} {key : κ}
    {registration : Registration κ ν ω} (hid : id < before.scopes.length)
    (hregistration : before.registrations.get? key = some registration)
    (hnone : before.kept registration.lifetime id key = none) {value : Option ν}
    (hvalue : Yields registration.factory value) :
    Extends before (services.keep registration.lifetime id key ⟨value, registration.number⟩) := by
  have hid' : id < services.scopes.length := by
    rw [h.scopes]
    exact hid
  constructor
  · rw [keep_registrations, h.registrations]
  · rw [keep_scopes, h.scopes]
  · intro lifetime id' key' service hkept
    exact kept_of_kept hid' hnone hkept (h.kept _ _ _ _ hkept)
  · intro hfresh lifetime id' key' service hkept
    rw [keep_registrations]
    rcases kept_keep hid' hkept with ⟨hlifetime, rfl, rfl⟩ | hkept
    · refine ⟨registration, ?_, fun _ => ⟨rfl, hvalue⟩⟩
      rw [h.registrations]
      exact hregistration
    · exact h.fresh hfresh lifetime id' key' service hkept

variable (resolve : κ → Services κ ν ω → Except PyError (Option (Service ν)) × Services κ ν ω)

theorem extends_build (scopes : Nat) (hresolve : ∀ key services, services.scopes.length = scopes →
    Extends services (resolve key services).2) (factory : Factory κ ν ω) (services : Services κ ν ω)
    (hscopes : services.scopes.length = scopes) : Extends services (build resolve factory services).2 := by
  induction factory generalizing services with
  | returns value => exact .refl services
  | raises error => exact .refl services
  | acts f next ih => exact (extends_world services _).trans (ih _ _ hscopes)
  | resolves key next ih =>
      have hstep := hresolve key services hscopes
      exact hstep.trans (ih _ _ (hstep.scopes.trans hscopes))

theorem extends_tryGetService {id : Nat} (depth : Nat) (key : κ) {services : Services κ ν ω}
    (hid : id < services.scopes.length) : Extends services (tryGetService id depth key services).2 := by
  induction depth generalizing key services with
  | zero => exact .refl services
  | succ depth ih =>
      simp only [tryGetService]
      split
      · exact .refl services
      · rename_i registration hregistration
        split
        · exact .refl services
        · rename_i hnone
          have hbuild := extends_build (tryGetService id depth) services.scopes.length
            (fun key' services' hscopes => ih key' (hscopes ▸ hid)) registration.factory services rfl
          split
          · rename_i hraised
            rw [hraised] at hbuild
            exact hbuild
          · rename_i hreturned
            rw [hreturned] at hbuild
            exact extends_keep hbuild hid hregistration hnone (yields_build hreturned)

-- A service that is handed out was made by the key's registration, and stays for the
-- next one who asks.
theorem tryGetService_some {id depth : Nat} {key : κ} {services after : Services κ ν ω} {service : Service ν}
    (hfresh : services.Fresh) (hid : id < services.scopes.length)
    (h : tryGetService id depth key services = (.ok (some service), after)) :
    ∃ registration, services.registrations.get? key = some registration ∧
      Made registration service ∧
      (registration.lifetime ≠ .transient → after.kept registration.lifetime id key = some service) := by
  cases depth with
  | zero => cases h
  | succ depth =>
      simp only [tryGetService] at h
      split at h
      · cases h
      · rename_i registration hregistration
        refine ⟨registration, hregistration, ?_⟩
        split at h
        · rename_i hkept
          cases h
          obtain ⟨registration', hregistration', hmade⟩ := hfresh _ _ _ _ hkept
          rw [hregistration] at hregistration'
          cases hregistration'
          exact ⟨hmade rfl, fun _ => hkept⟩
        · have hbuild := extends_build (tryGetService id depth) services.scopes.length
            (fun key' services' hscopes => extends_tryGetService depth key' (hscopes ▸ hid))
            registration.factory services rfl
          split at h
          · cases h
          · rename_i hreturned
            rw [hreturned] at hbuild
            have hvalue := yields_build hreturned
            cases h
            refine ⟨⟨rfl, hvalue⟩, fun hlifetime => kept_keep_self hlifetime ?_⟩
            rw [hbuild.scopes]
            exact hid

theorem tryGetService_kept {id depth : Nat} {key : κ} {services : Services κ ν ω}
    {registration : Registration κ ν ω} {service : Service ν}
    (hregistration : services.registrations.get? key = some registration)
    (hkept : services.kept registration.lifetime id key = some service) :
    tryGetService id (depth + 1) key services = (.ok (some service), services) := by
  simp only [tryGetService, hregistration, hkept]

end Resolving

end Services

variable [DecidableEq κ]

section History

-- What an action makes of the latest registration of a key.
def noteRegistration (key : κ) (latest : Option (Registration κ ν ω)) (entry : Action κ ν ω × Nat) :
    Option (Registration κ ν ω) :=
  match entry.1 with
  | .add other factory lifetime => if other = key then some ⟨factory, lifetime, entry.2⟩ else latest
  | .addInstance other value => if other = key then some ⟨.returns value, .singleton, entry.2⟩ else latest
  | .tryAdd other factory lifetime =>
      if other = key ∧ latest.isNone then some ⟨factory, lifetime, entry.2⟩ else latest
  | .createScope | .resolve _ _ _ => latest

-- The latest registration of a key that took effect.
def latestRegistration (key : κ) (history : List (Action κ ν ω)) : Option (Registration κ ν ω) :=
  history.zipIdx.foldl (noteRegistration key) none

theorem latestRegistration_append (key : κ) (history : List (Action κ ν ω)) (action : Action κ ν ω) :
    latestRegistration key (history ++ [action]) =
      noteRegistration key (latestRegistration key history) (action, history.length) := by
  unfold latestRegistration
  rw [List.zipIdx_append, List.foldl_append]
  simp

-- Whether an action registers a key that it may find registered already.
def Registers (services : Services κ ν ω) (key : κ) : Action κ ν ω → Prop
  | .add other _ _ => other = key
  | .addInstance other _ => other = key
  | .tryAdd other _ _ => other = key ∧ services.registrations.get? key = none
  | .createScope | .resolve _ _ _ => False

-- No value is kept in the place where the services of a new registration will be looked for.
def Unshadowed (session : Session κ ν ω) : Action κ ν ω → Prop
  | .add key _ lifetime => ∀ id, session.services.kept lifetime id key = none
  | _ => True

end History

section Sessions

variable {session after : Session κ ν ω} {action : Action κ ν ω}

theorem step_eq (h : session.step action = some after) :
    after = ⟨session.services.act session.history.length action, session.history ++ [action]⟩ ∧
      ∀ id depth key, action = .resolve id depth key → id < session.services.scopes.length := by
  unfold Session.step at h
  split at h
  · rename_i id depth key
    split at h
    · rename_i hid
      cases h
      refine ⟨rfl, ?_⟩
      intro id' depth' key' he
      cases he
      exact hid
    · cases h
  · rename_i hother
    cases h
    exact ⟨rfl, fun id depth key he => absurd he (hother id depth key)⟩

theorem kept_register (services : Services κ ν ω) (key : κ) (registration : Registration κ ν ω)
    (lifetime : Lifetime) (id : Nat) (other : κ) :
    (services.register key registration).kept lifetime id other = services.kept lifetime id other := by
  cases lifetime <;> rfl

theorem kept_createScope (services : Services κ ν ω) (lifetime : Lifetime) (id : Nat) (key : κ) :
    ({ services with scopes := services.scopes ++ [Dict.empty] } : Services κ ν ω).kept lifetime id key =
      services.kept lifetime id key := by
  cases lifetime with
  | singleton | transient => rfl
  | perScope =>
      have hscope : ((services.scopes ++ [Dict.empty])[id]?).getD Dict.empty =
          (services.scopes[id]?).getD Dict.empty := by
        rw [List.getElem?_append]
        split
        · rfl
        · rename_i hid
          rw [List.getElem?_eq_none (not_lt.mp hid)]
          cases hlast : ([Dict.empty] : List (Dict κ (Service ν)))[id - services.scopes.length]? with
          | none => rfl
          | some scope => exact List.mem_singleton.mp (List.mem_of_getElem? hlast)
      exact congrArg (Dict.get? · key) hscope

theorem registrations_act (services : Services κ ν ω) (number : Nat) (action : Action κ ν ω) (key : κ)
    (hid : ∀ id depth key, action = .resolve id depth key → id < services.scopes.length) :
    (services.act number action).registrations.get? key =
      noteRegistration key (services.registrations.get? key) (action, number) := by
  cases action with
  | add other factory lifetime => exact Dict.get?_set _ _ _ _
  | addInstance other value => exact Dict.get?_set _ _ _ _
  | tryAdd other factory lifetime =>
      simp only [Services.act, noteRegistration]
      by_cases hsome : (services.registrations.get? other).isSome = true
      · rw [if_pos hsome, if_neg]
        rintro ⟨rfl, hnone⟩
        rw [Option.isNone_iff_eq_none.mp hnone] at hsome
        cases hsome
      · rw [if_neg hsome]
        by_cases hkey : other = key
        · subst hkey
          rw [if_pos ⟨rfl, by simpa using hsome⟩]
          exact Dict.get?_set_self _ _ _
        · rw [if_neg fun h => hkey h.1]
          exact Dict.get?_set_of_ne _ _ hkey
  | createScope => rfl
  | resolve id depth other =>
      have hextends := Services.extends_tryGetService depth other (hid id depth other rfl)
      show ((services.tryGetService id depth other).2).registrations.get? key = _
      rw [hextends.registrations]
      rfl

theorem fresh_register {services : Services κ ν ω} (h : services.Fresh) {key : κ}
    {registration : Registration κ ν ω} (hnone : ∀ id, services.kept registration.lifetime id key = none) :
    (services.register key registration).Fresh := by
  intro lifetime id other service hkept
  rw [kept_register] at hkept
  by_cases hkey : key = other
  · subst hkey
    refine ⟨registration, Dict.get?_set_self _ _ _, ?_⟩
    rintro rfl
    rw [hnone] at hkept
    cases hkept
  · obtain ⟨held, hheld, hmade⟩ := h lifetime id other service hkept
    exact ⟨held, (Dict.get?_set_of_ne _ _ hkey).trans hheld, hmade⟩

theorem fresh_addInstance {services : Services κ ν ω} (h : services.Fresh) (key : κ) (value : Option ν)
    (number : Nat) : (services.act number (.addInstance key value)).Fresh := by
  intro lifetime id other service hkept
  simp only [Services.act, kept_register] at hkept
  by_cases hkey : key = other
  · subst hkey
    refine ⟨_, Dict.get?_set_self _ _ _, ?_⟩
    rintro rfl
    change (services.singletons.set key ⟨value, number⟩).get? key = some service at hkept
    rw [Dict.get?_set_self] at hkept
    cases hkept
    exact ⟨rfl, .returns value⟩
  · have hbefore : services.kept lifetime id other = some service := by
      cases lifetime with
      | perScope | transient => exact hkept
      | singleton => exact (Dict.get?_set_of_ne _ _ hkey).symm.trans hkept
    obtain ⟨held, hheld, hmade⟩ := h lifetime id other service hbefore
    exact ⟨held, (Dict.get?_set_of_ne _ _ hkey).trans hheld, hmade⟩

theorem fresh_step (h : session.services.Fresh) (hok : Unshadowed session action)
    (hstep : session.step action = some after) : after.services.Fresh := by
  obtain ⟨rfl, hid⟩ := step_eq hstep
  cases action with
  | add key factory lifetime => exact fresh_register h hok
  | addInstance key value => exact fresh_addInstance h key value _
  | tryAdd key factory lifetime =>
      show Services.Fresh (if _ then _ else _)
      split
      · exact h
      · rename_i hnone
        apply fresh_register h
        intro id
        cases hkept : session.services.kept lifetime id key with
        | none => rfl
        | some service =>
            obtain ⟨registration, hregistration, -⟩ := h _ _ _ _ hkept
            rw [hregistration] at hnone
            exact absurd rfl hnone
  | createScope =>
      intro lifetime id key service hkept
      rw [show session.services.act session.history.length .createScope =
        { session.services with scopes := session.services.scopes ++ [Dict.empty] } from rfl,
        kept_createScope] at hkept
      exact h lifetime id key service hkept
  | resolve id depth key => exact (Services.extends_tryGetService depth key (hid id depth key rfl)).fresh h

theorem fresh_create (world : ω) : (Services.create world : Services κ ν ω).Fresh := by
  intro lifetime id key service hkept
  cases lifetime with
  | singleton | perScope | transient => cases hkept

-- What a run keeps: the registrations are the latest ones, and nothing stale is kept.
structure Current (session : Session κ ν ω) : Prop where
  latest : ∀ key, session.services.registrations.get? key = latestRegistration key session.history
  fresh : session.services.Fresh

theorem Current.step (h : Current session) (hok : Unshadowed session action)
    (hstep : session.step action = some after) : Current after := by
  refine ⟨?_, fresh_step h.fresh hok hstep⟩
  intro key
  obtain ⟨rfl, hid⟩ := step_eq hstep
  rw [latestRegistration_append, ← h.latest key]
  exact registrations_act _ _ _ key hid

theorem current_of_reaches {world : ω}
    (h : Reaches Session.step Unshadowed (Session.start world) session) : Current session :=
  h.invariant ⟨fun _ => rfl, fresh_create world⟩ fun _ _ _ hcurrent hok hstep => hcurrent.step hok hstep

theorem kept_step {key : κ} {registration : Registration κ ν ω} {id : Nat} {service : Service ν}
    (hregistration : session.services.registrations.get? key = some registration)
    (hkept : session.services.kept registration.lifetime id key = some service)
    (hother : ¬ Registers session.services key action) (hstep : session.step action = some after) :
    after.services.registrations.get? key = some registration ∧
      after.services.kept registration.lifetime id key = some service := by
  obtain ⟨rfl, hid⟩ := step_eq hstep
  cases action with
  | add other factory lifetime =>
      exact ⟨(Dict.get?_set_of_ne _ _ hother).trans hregistration, (kept_register _ _ _ _ _ _).trans hkept⟩
  | addInstance other value =>
      refine ⟨(Dict.get?_set_of_ne _ _ hother).trans hregistration, (kept_register _ _ _ _ _ _).trans ?_⟩
      cases hlifetime : registration.lifetime with
      | singleton =>
          rw [hlifetime] at hkept
          exact (Dict.get?_set_of_ne _ _ hother).trans hkept
      | perScope | transient =>
          rw [hlifetime] at hkept
          exact hkept
  | tryAdd other factory lifetime =>
      simp only [Services.act]
      by_cases hkey : other = key
      · subst hkey
        rw [hregistration, Option.isSome_some, if_pos rfl]
        exact ⟨hregistration, hkept⟩
      · split
        · exact ⟨hregistration, hkept⟩
        · exact ⟨(Dict.get?_set_of_ne _ _ hkey).trans hregistration, (kept_register _ _ _ _ _ _).trans hkept⟩
  | createScope => exact ⟨hregistration, (kept_createScope _ _ _ _).trans hkept⟩
  | resolve id' depth other =>
      have hextends := Services.extends_tryGetService depth other (hid id' depth other rfl)
      refine ⟨?_, hextends.kept _ _ _ _ hkept⟩
      exact (congrArg (Dict.get? · key) hextends.registrations).trans hregistration

theorem kept_reaches {key : κ} {registration : Registration κ ν ω} {id : Nat} {service : Service ν}
    {later : Session κ ν ω}
    (h : Reaches Session.step (fun s a => ¬ Registers s.services key a) session later)
    (hregistration : session.services.registrations.get? key = some registration)
    (hkept : session.services.kept registration.lifetime id key = some service) :
    later.services.registrations.get? key = some registration ∧
      later.services.kept registration.lifetime id key = some service := by
  induction h with
  | refl => exact ⟨hregistration, hkept⟩
  | next _ hother hstep ih => exact kept_step ih.1 ih.2 hother hstep

end Sessions

section Winning

-- What is handed out comes from the latest registration, and is handed out again until
-- the key is registered anew.
theorem last_registration_wins {world : ω} {session : Session κ ν ω}
    (h : Reaches Session.step Unshadowed (Session.start world) session) {id depth : Nat} {key : κ}
    {service : Service ν} {services : Services κ ν ω} (hid : id < session.services.scopes.length)
    (hget : Services.tryGetService id depth key session.services = (.ok (some service), services)) :
    ∃ registration, latestRegistration key session.history = some registration ∧
      Services.Made registration service ∧
      ∀ later, Reaches Session.step (fun s a => ¬ Registers s.services key a)
          ⟨services, session.history ++ [.resolve id depth key]⟩ later → ∀ depth',
        (registration.lifetime = .singleton → ∀ id',
          Services.tryGetService id' (depth' + 1) key later.services = (.ok (some service), later.services)) ∧
        (registration.lifetime = .perScope →
          Services.tryGetService id (depth' + 1) key later.services = (.ok (some service), later.services)) := by
  obtain ⟨hlatest, hfresh⟩ := current_of_reaches h
  obtain ⟨registration, hregistration, hmade, hkept⟩ := Services.tryGetService_some hfresh hid hget
  have hextends := Services.extends_tryGetService depth key hid
  rw [hget] at hextends
  refine ⟨registration, (hlatest key).symm.trans hregistration, hmade, ?_⟩
  intro later hlater depth'
  have hafter : services.registrations.get? key = some registration :=
    (congrArg (Dict.get? · key) hextends.registrations).trans hregistration
  constructor
  · intro hlifetime id'
    have hstays := kept_reaches hlater hafter (hkept (by rw [hlifetime]; decide))
    apply Services.tryGetService_kept hstays.1
    rw [hlifetime] at hstays ⊢
    exact hstays.2
  · intro hlifetime
    have hstays := kept_reaches hlater hafter (hkept (by rw [hlifetime]; decide))
    exact Services.tryGetService_kept hstays.1 hstays.2

def realClient : Action Str Str Unit := .addInstance "client" (some "real")

def fakeClient : Action Str Str Unit := .add "client" (.returns (some "fake")) .singleton

def fakeInstance : Action Str Str Unit := .addInstance "client" (some "fake")

-- An instance of the startup is handed out although an override registered another factory.
theorem not_last_registration_wins : ¬ ∀ session : Session Str Str Unit,
    Reaches Session.step (fun _ _ => True) (Session.start ()) session →
    ∀ id depth key service services, id < session.services.scopes.length →
      Services.tryGetService id depth key session.services = (.ok (some service), services) →
      ∃ registration, latestRegistration key session.history = some registration ∧
        Services.Made registration service := by
  intro h
  obtain ⟨session, hbuilt⟩ : ∃ session, buildApplication () [realClient] [[fakeClient]] = some session := ⟨_, rfl⟩
  have hreach : Reaches Session.step (fun _ _ => True) (Session.start ()) session := by
    cases hbuilt
    exact .next (a := .createScope) (.next (a := fakeClient) (.next (a := realClient) .refl trivial rfl)
      trivial rfl) trivial rfl
  cases hbuilt
  obtain ⟨registration, hlatest, hmade, -⟩ := h _ hreach 0 1 "client" ⟨some "real", 0⟩ _ (by decide) rfl
  cases hlatest
  exact absurd hmade (by decide)

theorem last_registration_wins_override : ∃ session : Session Str Str Unit,
    buildApplication () [fakeClient] [[fakeInstance]] = some session ∧
    ∃ registration, latestRegistration ("client" : Str) session.history = some registration ∧
      Services.Made registration ⟨some "fake", 1⟩ := by
  obtain ⟨session, hbuilt⟩ : ∃ session, buildApplication () [fakeClient] [[fakeInstance]] = some session := ⟨_, rfl⟩
  refine ⟨session, hbuilt, ?_⟩
  have hregistered : Unshadowed (Session.start ()) fakeClient := fun _ => rfl
  have hreach : Reaches Session.step Unshadowed (Session.start ()) session := by
    cases hbuilt
    exact .next (a := .createScope) (.next (a := fakeInstance) (.next (a := fakeClient) .refl hregistered rfl)
      trivial rfl) trivial rfl
  have hget : Services.tryGetService 0 1 ("client" : Str) session.services =
      (.ok (some ⟨some "fake", 1⟩), session.services) := by
    cases hbuilt
    rfl
  have hid : 0 < session.services.scopes.length := by
    cases hbuilt
    decide
  obtain ⟨registration, hlatest, hmade, -⟩ := last_registration_wins hreach hid hget
  exact ⟨registration, hlatest, hmade⟩

end Winning

end Benzene.Core
