import LightningRecords.Proofs.Host.Steps
import Mathlib.Data.List.Induction

namespace LightningRecords.Host

open Relation (ReflTransGen)

section Acts

-- What a process may do about its stores.
inductive Act where
  | openFolder (handle path : String) (config : Config)
  | clone (handle copy : String)
  | drop (handle : String)
  | close (path : String)
  | shutdown
  | command (handle : String) (c : Command)

def perform (h : Host) : Act → Host
  | .openFolder handle path config => (h.openFolder handle path config).2
  | .clone handle copy => (h.clone handle copy).getD h
  | .drop handle => (h.drop handle).2
  | .close path => (h.close path).2
  | .shutdown => h.shutdown
  | .command handle c => ((h.operate handle fun e => e.obey c).map Prod.snd).getD h

def performAll (h : Host) (acts : List Act) : Host := acts.foldl perform h

theorem performAll_append (h : Host) (acts later : List Act) :
    h.performAll (acts ++ later) = (h.performAll acts).performAll later := List.foldl_append

theorem performAll_concat (h : Host) (acts : List Act) (act : Act) :
    h.performAll (acts ++ [act]) = (h.performAll acts).perform act :=
  h.performAll_append acts [act]

end Acts

-- The opening that a handle stands for, and the directory that it was opened for.
def number? (h : Host) (handle : String) : Option Nat := (h.handles.get? handle).map Handle.number

def location? (h : Host) (handle : String) : Option Location := do
  let held ← h.handles.get? handle
  let opening ← h.openings.get? held.number
  return opening.location

-- A directory that some handle keeps open.
def IsLive (h : Host) (location : Location) : Prop := ∃ handle, h.location? handle = some location

variable {h h' : Host} {location : Location} {number : Nat} {e : Environment} {handle path : String}
  {config : Config}

section Invariant

theorem Sound.retires_close (hs : h.Sound) (path : String) :
    ReflTransGen Retires h (h.close path).2 := by
  rcases hs.close_cases path with ⟨hclose, _⟩ | ⟨location, number, e, _, hregistered, hfree, hclose⟩
  · rw [hclose]
  · rw [hclose]
    exact .single (hs.retire hregistered hfree)

theorem moves_of_retires_all (hretires : ReflTransGen Retires h h') : ReflTransGen Moves h h' :=
  hretires.lift id fun _ _ => Moves.retire

-- An act that opens nothing is a chain of moves.
theorem Sound.moves_perform (hs : h.Sound) {act : Act}
    (hact : ∀ handle path config, act ≠ .openFolder handle path config) :
    ReflTransGen Moves h (h.perform act) := by
  cases act with
  | openFolder handle path config => exact absurd rfl (hact handle path config)
  | clone handle copy =>
    cases hheld : h.handles.get? handle with
    | none =>
      simp only [perform, clone, hheld]
      exact .refl
    | some held =>
      obtain ⟨opening, hopening⟩ := hs.handles handle held hheld
      simp only [perform, clone, hheld]
      exact .single (.take hopening)
  | drop handle => exact .single (.drop handle)
  | close path => exact moves_of_retires_all (hs.retires_close path)
  | shutdown => exact moves_of_retires_all (shutdown_retires hs).1
  | command handle c =>
    cases hheld : h.handles.get? handle with
    | none =>
      simp only [perform, operate, hheld]
      exact .refl
    | some held =>
      obtain ⟨⟨location, e⟩, hopening⟩ := hs.handles handle held hheld
      have hconfig : (e.obey c).2.config = e.config :=
        (Environment.obey_resizes (Prod.mk.eta (p := e.obey c)).symm).1
      simp only [perform, operate_eq hheld hopening]
      exact .single (.write hopening hconfig)

theorem Sound.perform (hs : h.Sound) (act : Act) : (h.perform act).Sound := by
  cases act with
  | openFolder handle path config => exact hs.opens (h.opens_openFolder handle path config)
  | _ => exact hs.moves_all (hs.moves_perform (by simp))

theorem Sound.performAll (hs : h.Sound) (acts : List Act) : (h.performAll acts).Sound := by
  induction acts using List.reverseRecOn with
  | nil => exact hs
  | append_singleton acts act ih =>
    rw [performAll_concat]
    exact ih.perform act

end Invariant

section Handles

theorem location?_eq_some_iff : h.location? handle = some location ↔
    ∃ held e, h.handles.get? handle = some held ∧
      h.openings.get? held.number = some ⟨location, e⟩ := by
  simp only [location?, Option.bind_eq_bind, Option.bind_eq_some_iff]
  constructor
  · rintro ⟨held, hheld, ⟨place, e⟩, hopening, hplace⟩
    cases hplace
    exact ⟨held, e, hheld, hopening⟩
  · rintro ⟨held, e, hheld, hopening⟩
    exact ⟨held, hheld, ⟨location, e⟩, hopening, rfl⟩

theorem Sound.exists_location (hs : h.Sound) (hnumber : h.number? handle = some number) :
    ∃ location, h.location? handle = some location := by
  obtain ⟨held, hheld, _⟩ := Option.map_eq_some_iff.mp hnumber
  obtain ⟨⟨location, e⟩, hopening⟩ := hs.handles handle held hheld
  exact ⟨location, location?_eq_some_iff.mpr ⟨held, e, hheld, hopening⟩⟩

theorem Sound.isLive_iff (hs : h.Sound) (hregistered : h.registered? location = some (number, e)) :
    h.IsLive location ↔ h.IsHeld number := by
  have hopening := hs.registered?_iff.mp hregistered
  constructor
  · rintro ⟨handle, hlocation⟩
    obtain ⟨held, e', hheld, hother⟩ := location?_eq_some_iff.mp hlocation
    have hsame := (registered?_eq_some_iff.mp (hs.registered?_iff.mpr hother)).1
    rw [(registered?_eq_some_iff.mp hregistered).1] at hsame
    cases hsame
    exact ⟨handle, held, hheld, rfl⟩
  · rintro ⟨handle, held, hheld, rfl⟩
    exact ⟨handle, location?_eq_some_iff.mpr ⟨held, e, hheld, hopening⟩⟩

theorem Sound.exists_registered (hs : h.Sound) (hlocation : h.location? handle = some location) :
    ∃ number e, h.registered? location = some (number, e) ∧ h.number? handle = some number ∧
      h.environment? handle = some e := by
  obtain ⟨held, e, hheld, hopening⟩ := location?_eq_some_iff.mp hlocation
  refine ⟨held.number, e, hs.registered?_iff.mpr hopening, ?_, ?_⟩
  · simp only [number?, hheld, Option.map_some]
  · simp only [environment?, hheld, hopening, Option.bind_eq_bind, Option.bind_some]
    rfl

-- An opening that succeeds leaves a handle of the environment that it returns.
theorem Sound.opened (hs : h.Sound)
    (hopened : (h.openFolder handle path config).1 = .ok (location, e)) :
    (h.openFolder handle path config).2.location? handle = some location ∧
      ∃ number, (h.openFolder handle path config).2.registered? location = some (number, e) := by
  have hopens := h.opens_openFolder handle path config
  generalize h.openFolder handle path config = run at hopened hopens ⊢
  cases hopens with
  | failed => cases hopened
  | shared hvalid hreach hregistered =>
    cases hopened
    have hopening := hs.registered?_iff.mp hregistered
    exact ⟨location?_eq_some_iff.mpr ⟨_, e, OrderedMap.get?_insert_self _ _ _, hopening⟩,
      _, hregistered⟩
  | @launched _ tree =>
    cases hopened
    exact ⟨location?_eq_some_iff.mpr
        ⟨_, e, OrderedMap.get?_insert_self _ _ _, OrderedMap.get?_insert_self _ _ _⟩,
      h.count, ({ h with tree } : Host).registered?_enter_self location e⟩

-- What is done through a handle is done to the environment that is registered for its
-- directory, and all its handles see it.
theorem Sound.operate_shared (hs : h.Sound) {α : Type} (hlocation : h.location? handle = some location)
    (hregistered : h.registered? location = some (number, e)) (run : Environment → α × Environment) :
    ∃ h', h.operate handle run = some ((run e).1, h') ∧
      (∀ other, h.location? other = some location → h'.environment? other = some (run e).2) ∧
      ∀ other place, h.location? other = some place → place ≠ location →
        h'.environment? other = h.environment? other := by
  obtain ⟨held, e', hheld, hopening⟩ := location?_eq_some_iff.mp hlocation
  have hsame := hs.registered?_iff.mpr hopening
  rw [hregistered] at hsame
  cases hsame
  refine ⟨_, operate_eq hheld hopening run, ?_, ?_⟩
  · intro other hother
    obtain ⟨held', e', hheld', hopening'⟩ := location?_eq_some_iff.mp hother
    have hsame := hs.registered?_iff.mpr hopening'
    rw [hregistered, Option.some_inj, Prod.mk.injEq] at hsame
    simp only [environment?, hheld', ← hsame.1, OrderedMap.get?_insert_self, Option.bind_eq_bind,
      Option.bind_some]
    rfl
  · intro other place hother hplace
    obtain ⟨held', e', hheld', hopening'⟩ := location?_eq_some_iff.mp hother
    have hne : held'.number ≠ held.number := by
      intro heq
      rw [heq, hopening] at hopening'
      cases hopening'
      exact hplace rfl
    simp only [environment?, hheld', Option.bind_eq_bind, Option.bind_some,
      OrderedMap.get?_insert_of_ne _ _ hne]

end Handles

section Registered

theorem Sound.registered?_of_moves_all (hs : h.Sound) (hmoves : ReflTransGen Moves h h')
    (hregistered : h'.registered? location = some (number, e)) :
    ∃ e', h.registered? location = some (number, e') ∧ e.config = e'.config := by
  induction hmoves generalizing e with
  | refl => exact ⟨e, hregistered, rfl⟩
  | tail hfirst hlast ih =>
    obtain ⟨e', hbefore, hconfig⟩ := (hs.moves_all hfirst).registered?_of_moves hlast hregistered
    obtain ⟨e'', hfound, hsame⟩ := ih hbefore
    exact ⟨e'', hfound, hconfig.trans hsame⟩

theorem Sound.registered?_enter_of_ne (hs : h.Sound) {other : Location} (hne : other ≠ location)
    (e : Environment) : (h.enter location e).registered? other = h.registered? other := by
  refine registered?_congr (OrderedMap.get?_insert_of_ne _ _ hne) fun number hfound => ?_
  obtain ⟨e', hopening⟩ := (hs.registry other number hfound).1
  exact OrderedMap.get?_insert_of_ne _ _ (Nat.ne_of_lt (hs.openings number _ hopening).2)

-- The opening by which a directory comes to be registered.
structure Founds (h : Host) (handle path : String) (config : Config) (location : Location)
    (number : Nat) (e : Environment) : Prop where
  vacant : h.registered? location = none
  valid : config.validate = .ok ()
  reached : (h.tree.reach path).1 = .ok location
  opened : (h.openFolder handle path config).1 = .ok (location, e)
  asked : e.config = config
  registered : (h.openFolder handle path config).2.registered? location = some (number, e)

theorem Sound.registered?_openFolder (hs : h.Sound)
    (hregistered : (h.openFolder handle path config).2.registered? location = some (number, e)) :
    h.registered? location = some (number, e) ∨ h.Founds handle path config location number e := by
  have hopens := h.opens_openFolder handle path config
  generalize hrun : h.openFolder handle path config = run at hopens hregistered
  cases hopens with
  | failed hextends => exact .inl hregistered
  | shared hvalid hreach hfound => exact .inl hregistered
  | @launched place tree e' hvalid hreach hvacant hextends _ _ _ he =>
    by_cases heq : location = place
    · subst heq
      have hself := ({ h with tree } : Host).registered?_enter_self location e'
      have hpair : some (h.count, e') = some (number, e) := hself.symm.trans hregistered
      cases hpair
      refine .inr ⟨hvacant, hvalid, hreach, by rw [hrun], he ▸ rfl, ?_⟩
      rw [hrun]
      exact hself
    · have hother := (hs.moves (.extend hextends)).registered?_enter_of_ne heq e'
      exact .inl (hother.symm.trans hregistered)

-- What is registered was so before, under the same number and with the same settings, or has
-- just been opened.
theorem Sound.registered?_perform (hs : h.Sound) {act : Act}
    (hregistered : (h.perform act).registered? location = some (number, e)) :
    (∃ e', h.registered? location = some (number, e') ∧ e.config = e'.config) ∨
    ∃ handle path, act = .openFolder handle path e.config ∧
      h.Founds handle path e.config location number e := by
  cases act with
  | openFolder handle path config =>
    rcases hs.registered?_openFolder hregistered with hbefore | hfounds
    · exact .inl ⟨e, hbefore, rfl⟩
    · obtain rfl := hfounds.asked
      exact .inr ⟨handle, path, rfl, hfounds⟩
  | _ => exact .inl (hs.registered?_of_moves_all (hs.moves_perform (by simp)) hregistered)

end Registered

section Rest

theorem kept_of_retires_all (hretires : ReflTransGen Retires h h') :
    h'.handles = h.handles ∧ h'.tree = h.tree := by
  induction hretires with
  | refl => exact ⟨rfl, rfl⟩
  | tail _ hlast ih =>
    obtain ⟨hhandles, htree⟩ := kept_of_retires hlast
    exact ⟨hhandles.trans ih.1, htree.trans ih.2⟩

theorem Sound.rests_of_retires_all (hs : h.Sound) (hretires : ReflTransGen Retires h h')
    (hregistered : h.registered? location = some (number, e)) :
    h'.registered? location = some (number, e) ∨
      ¬h.IsHeld number ∧ h'.registered? location = none ∧
        h'.atRest.get? location = some e.tables := by
  induction hretires with
  | refl => exact .inl hregistered
  | @tail mid last hfirst hlast ih =>
    have hmid := hs.retires_all hfirst
    rcases ih with hstill | ⟨hfree, hnone, hrest⟩
    · have hsame : mid.IsHeld number ↔ h.IsHeld number := by
        simp only [IsHeld, (kept_of_retires_all hfirst).1]
      rw [← hsame]
      exact hmid.rests_of_retires hlast hstill
    · obtain ⟨hlater, hkept, _⟩ := hmid.rests_of_moves (.retire hlast) hnone
      exact .inr ⟨hfree, hlater, hkept.trans hrest⟩

theorem Sound.rests_of_moves_all (hs : h.Sound) (hmoves : ReflTransGen Moves h h')
    (hnone : h.registered? location = none) :
    h'.registered? location = none ∧ h'.atRest.get? location = h.atRest.get? location ∧
      h.tree.Extends h'.tree := by
  induction hmoves with
  | refl => exact ⟨hnone, rfl, .refl _⟩
  | tail hfirst hlast ih =>
    obtain ⟨hmid, hrest, hextends⟩ := ih
    obtain ⟨hlater, hkept, hmore⟩ := (hs.moves_all hfirst).rests_of_moves hlast hmid
    exact ⟨hlater, hkept.trans hrest, hextends.trans hmore⟩

-- An opening only reads what is at rest.
theorem Sound.rests_perform (hs : h.Sound) (act : Act) (hnone : h.registered? location = none) :
    (h.perform act).atRest.get? location = h.atRest.get? location ∧
      h.tree.Extends (h.perform act).tree := by
  cases act with
  | openFolder handle path config =>
    have hopens := h.opens_openFolder handle path config
    simp only [Host.perform]
    generalize h.openFolder handle path config = run at hopens
    cases hopens with
    | failed hextends => exact ⟨rfl, hextends⟩
    | shared => exact ⟨rfl, h.tree.extends_reach path⟩
    | launched _ _ _ hextends => exact ⟨rfl, hextends⟩
  | _ => exact (hs.rests_of_moves_all (hs.moves_perform (by simp)) hnone).2

theorem Sound.rests_performAll (hs : h.Sound) (acts : List Act)
    (hnone : ∀ first, first <+: acts → (h.performAll first).registered? location = none) :
    (h.performAll acts).atRest.get? location = h.atRest.get? location ∧
      h.tree.Extends (h.performAll acts).tree := by
  induction acts using List.reverseRecOn with
  | nil => exact ⟨rfl, .refl _⟩
  | append_singleton acts act ih =>
    obtain ⟨hrest, hextends⟩ := ih fun first hfirst =>
      hnone first (hfirst.trans (List.prefix_append acts [act]))
    obtain ⟨hlater, hmore⟩ := (hs.performAll acts).rests_perform act
      (hnone acts (List.prefix_append acts [act]))
    rw [performAll_concat]
    exact ⟨hlater.trans hrest, hextends.trans hmore⟩

-- Nothing else takes a directory out of the registry.
theorem Sound.closes_of_ends (hs : h.Sound) {act : Act} {found : Nat × Environment}
    (hregistered : h.registered? location = some found)
    (hlater : (h.perform act).registered? location = none) :
    act = .shutdown ∨ ∃ path, act = .close path := by
  have hthere : h.registry.get? location ≠ none := by
    rw [Ne, ← hs.registered?_eq_none_iff, hregistered]
    exact Option.some_ne_none found
  have hgone := (hs.perform act).registered?_eq_none_iff.mp hlater
  have hchanged : (h.perform act).registry.get? location ≠ h.registry.get? location :=
    hgone.symm ▸ hthere.symm
  cases act with
  | openFolder handle path config =>
    refine absurd ?_ hchanged
    have hopens := h.opens_openFolder handle path config
    simp only [Host.perform]
    generalize h.openFolder handle path config = run at hopens
    cases hopens with
    | failed => rfl
    | shared => rfl
    | @launched place tree e _ _ hvacant =>
      refine OrderedMap.get?_insert_of_ne _ _ ?_
      rintro rfl
      exact hthere (hs.registered?_eq_none_iff.mp hvacant)
  | clone handle copy =>
    refine absurd ?_ hchanged
    simp only [Host.perform, clone]
    cases h.handles.get? handle <;> rfl
  | drop handle => exact absurd rfl hchanged
  | close path => exact .inr ⟨path, rfl⟩
  | shutdown => exact .inl rfl
  | command handle c =>
    refine absurd ?_ hchanged
    simp only [Host.perform, operate]
    cases hheld : h.handles.get? handle with
    | none => rfl
    | some held =>
      obtain ⟨opening, hopening⟩ := hs.handles handle held hheld
      simp only [Option.bind_eq_bind, Option.bind_some, hopening]
      rfl

-- What was registered until an act has its tables at rest, and its files where they were.
theorem Sound.rests_of_ends (hs : h.Sound) {act : Act}
    (hregistered : h.registered? location = some (number, e))
    (hlater : (h.perform act).registered? location = none) :
    (h.perform act).atRest.get? location = some e.tables ∧
      Prepared (h.perform act).tree location := by
  have hretires : ReflTransGen Retires h (h.perform act) := by
    rcases hs.closes_of_ends hregistered hlater with rfl | ⟨path, rfl⟩
    · exact (shutdown_retires hs).1
    · exact hs.retires_close path
  have hprepared := (hs.registry location number (registered?_eq_some_iff.mp hregistered).1).2
  rw [← (kept_of_retires_all hretires).2] at hprepared
  rcases hs.rests_of_retires_all hretires hregistered with hstill | ⟨_, _, hrest⟩
  · rw [hlater] at hstill
    cases hstill
  · exact ⟨hrest, hprepared⟩

end Rest

end LightningRecords.Host
