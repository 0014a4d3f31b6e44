import LightningRecords.Proofs.Host.Moves

namespace LightningRecords.Host

open Relation (ReflTransGen)

variable {h h' : Host} {location : Location} {number : Nat} {e : Environment}

theorem Sound.retires_all (hs : h.Sound) (hretires : ReflTransGen Retires h h') : h'.Sound := by
  induction hretires with
  | refl => exact hs
  | tail _ hlast ih => exact ih.retires hlast

theorem Sound.moves_all (hs : h.Sound) (hmoves : ReflTransGen Moves h h') : h'.Sound := by
  induction hmoves with
  | refl => exact hs
  | tail _ hlast ih => exact ih.moves hlast

section Release

-- The registry keeps an opening that was not taken out of it, and none but the one entry
-- was.
theorem isKept_iff (hother : ∀ location, h.registry.get? location ≠ some number) :
    h.isKept number = true ↔ h.IsHeld number := by
  simp only [isKept, Bool.or_eq_true, List.any_eq_true, decide_eq_true_eq]
  constructor
  · rintro (⟨⟨name, held⟩, hheld, hnumber⟩ | ⟨⟨place, found⟩, hfound, hnumber⟩)
    · exact ⟨name, held, OrderedMap.get?_of_mem hheld, hnumber⟩
    · subst hnumber
      exact absurd (OrderedMap.get?_of_mem hfound) (hother place)
  · rintro ⟨name, held, hheld, hnumber⟩
    exact .inl ⟨(name, held), (OrderedMap.mem_toList_iff _ _ _).mpr hheld, hnumber⟩

theorem releaseOrKeep_of_held (hother : ∀ location, h.registry.get? location ≠ some number)
    (hheld : h.IsHeld number) : h.releaseOrKeep location number =
      (false, { h with registry := h.registry.insert location number }) := by
  rw [releaseOrKeep, release, if_pos ((isKept_iff hother).mpr hheld)]

theorem releaseOrKeep_of_free (hother : ∀ location, h.registry.get? location ≠ some number)
    (hfree : ¬h.IsHeld number) (hopening : h.openings.get? number = some ⟨location, e⟩) :
    h.releaseOrKeep location number =
      (true, { h with
        atRest := h.atRest.insert location e.tables
        openings := h.openings.erase number }) := by
  have hkept : ¬h.isKept number = true := fun hkept => hfree ((isKept_iff hother).mp hkept)
  rw [releaseOrKeep, release, if_neg hkept, hopening]

end Release

section Close

theorem Sound.not_registered_elsewhere (hs : h.Sound)
    (hregistry : h.registry.get? location = some number) (other : Location) :
    (h.registry.erase location).get? other ≠ some number := by
  intro hother
  by_cases heq : other = location
  · subst heq
    rw [OrderedMap.get?_erase_self] at hother
    cases hother
  · rw [OrderedMap.get?_erase_of_ne _ heq] at hother
    exact heq (hs.eq_location hregistry hother)

theorem registry_put_back (hregistry : h.registry.get? location = some number) :
    { h with registry := (h.registry.erase location).insert location number } = h := by
  have hsame : (h.registry.erase location).insert location number = h.registry := by
    apply OrderedMap.ext_get?
    intro other
    by_cases heq : other = location
    · subst heq
      rw [OrderedMap.get?_insert_self, hregistry]
    · rw [OrderedMap.get?_insert_of_ne _ _ heq, OrderedMap.get?_erase_of_ne _ heq]
  rw [hsame]

variable {path : String}

theorem close_of_held (hs : h.Sound) (hresolve : h.tree.resolve path = .ok location)
    (hregistered : h.registered? location = some (number, e)) (hheld : h.IsHeld number) :
    h.close path = (false, h) := by
  have hregistry := (registered?_eq_some_iff.mp hregistered).1
  simp only [close, hresolve, hregistry]
  refine (releaseOrKeep_of_held (h := { h with registry := h.registry.erase location })
    (hs.not_registered_elsewhere hregistry) hheld).trans ?_
  exact congrArg (Prod.mk false) (registry_put_back hregistry)

theorem close_of_free (hs : h.Sound) (hresolve : h.tree.resolve path = .ok location)
    (hregistered : h.registered? location = some (number, e)) (hfree : ¬h.IsHeld number) :
    h.close path = (true, h.retired location number e.tables) := by
  have hregistry := (registered?_eq_some_iff.mp hregistered).1
  simp only [close, hresolve, hregistry]
  exact releaseOrKeep_of_free (hs.not_registered_elsewhere hregistry) hfree
    (hs.registered?_iff.mp hregistered)

-- A close has either found nothing that it may close, or has closed what no handle keeps.
theorem Sound.close_cases (hs : h.Sound) (path : String) :
    (h.close path = (false, h) ∧ ∀ location number e, h.tree.resolve path = .ok location →
      h.registered? location = some (number, e) → h.IsHeld number) ∨
    ∃ location number e, h.tree.resolve path = .ok location ∧
      h.registered? location = some (number, e) ∧ ¬h.IsHeld number ∧
      h.close path = (true, h.retired location number e.tables) := by
  cases hresolve : h.tree.resolve path with
  | error fault =>
    refine .inl ⟨by simp only [close, hresolve], ?_⟩
    rintro location number e ⟨⟩
  | ok location =>
    cases hregistered : h.registered? location with
    | none =>
      have hnone := hs.registered?_eq_none_iff.mp hregistered
      refine .inl ⟨by simp only [close, hresolve, hnone], ?_⟩
      rintro other number e ⟨⟩ hsome
      rw [hregistered] at hsome
      cases hsome
    | some found =>
      obtain ⟨number, e⟩ := found
      by_cases hheld : h.IsHeld number
      · refine .inl ⟨close_of_held hs hresolve hregistered hheld, ?_⟩
        rintro other found e' ⟨⟩ hsome
        rw [hregistered] at hsome
        cases hsome
        exact hheld
      · exact .inr ⟨location, number, e, rfl, hregistered, hheld,
          close_of_free hs hresolve hregistered hheld⟩

theorem Sound.retire (hs : h.Sound) (hregistered : h.registered? location = some (number, e))
    (hfree : ¬h.IsHeld number) : h.Retires (h.retired location number e.tables) :=
  .retire (registered?_eq_some_iff.mp hregistered).1 (hs.registered?_iff.mp hregistered) hfree

theorem operate_eq {α : Type} {handle : String} {held : Handle}
    (hheld : h.handles.get? handle = some held)
    (hopening : h.openings.get? held.number = some ⟨location, e⟩)
    (run : Environment → α × Environment) :
    h.operate handle run = some ((run e).1,
      { h with openings := h.openings.insert held.number ⟨location, (run e).2⟩ }) := by
  simp only [operate, hheld, hopening, Option.bind_eq_bind, Option.bind_some]
  rfl

end Close

section Shutdown

-- The host with all entries back in the registry.
def restored (h : Host) (entries : List (Location × Nat)) : Host :=
  { h with registry := entries.foldl (fun m entry => m.insert entry.1 entry.2) h.registry }

-- The entries that were drained from the registry and are still to be looked at: none of
-- them is in it, and with them it would be as it should.
structure Drained (h : Host) (entries : List (Location × Nat)) : Prop where
  sound : (h.restored entries).Sound
  vacant : ∀ entry ∈ entries, h.registry.get? entry.1 = none
  distinct : (entries.map Prod.fst).Nodup

variable {entries : List (Location × Nat)}

namespace Drained

theorem get?_restored (hd : h.Drained entries) (hregistry : h.registry.get? location = some number) :
    (h.restored entries).registry.get? location = some number := by
  have hnot : ∀ entry ∈ entries, entry.1 ≠ location := by
    rintro entry hentry rfl
    rw [hd.vacant entry hentry] at hregistry
    cases hregistry
  exact (OrderedMap.get?_foldl_insert_of_notMem entries Prod.fst Prod.snd h.registry hnot).trans
    hregistry

theorem get?_restored_first (hd : h.Drained ((location, number) :: entries)) :
    (h.restored ((location, number) :: entries)).registry.get? location = some number :=
  OrderedMap.get?_foldl_insert_of_mem Prod.snd h.registry hd.distinct List.mem_cons_self

theorem not_registered_elsewhere (hd : h.Drained ((location, number) :: entries))
    (other : Location) : h.registry.get? other ≠ some number := by
  intro hother
  obtain rfl := hd.sound.eq_location hd.get?_restored_first (hd.get?_restored hother)
  rw [hd.vacant _ List.mem_cons_self] at hother
  cases hother

theorem ne_of_mem (hd : h.Drained ((location, number) :: entries)) {entry : Location × Nat}
    (hentry : entry ∈ entries) : entry.1 ≠ location := by
  intro heq
  have hmem : entry.1 ∈ entries.map Prod.fst := List.mem_map_of_mem hentry
  rw [heq] at hmem
  exact (List.nodup_cons.mp hd.distinct).1 hmem

-- What is held is put back, and so the registry would be as before.
theorem put_back (hd : h.Drained ((location, number) :: entries)) :
    Drained { h with registry := h.registry.insert location number } entries where
  sound := hd.sound
  vacant := by
    intro entry hentry
    rw [OrderedMap.get?_insert_of_ne _ _ (hd.ne_of_mem hentry)]
    exact hd.vacant entry (List.mem_cons_of_mem _ hentry)
  distinct := (List.nodup_cons.mp hd.distinct).2

theorem restored_released (hd : h.Drained ((location, number) :: entries)) (e : Environment) :
    ({ h with
        atRest := h.atRest.insert location e.tables
        openings := h.openings.erase number } : Host).restored entries =
      (h.restored ((location, number) :: entries)).retired location number e.tables := by
  have hregistry : entries.foldl (fun m entry => m.insert entry.1 entry.2) h.registry =
      (entries.foldl (fun m entry => m.insert entry.1 entry.2)
        (h.registry.insert location number)).erase location := by
    apply OrderedMap.ext_get?
    intro other
    by_cases heq : other = location
    · subst heq
      rw [OrderedMap.get?_erase_self, OrderedMap.get?_foldl_insert_of_notMem entries Prod.fst
        Prod.snd h.registry fun entry hentry => hd.ne_of_mem hentry]
      exact hd.vacant _ List.mem_cons_self
    · rw [OrderedMap.get?_erase_of_ne _ heq]
      exact OrderedMap.get?_foldl_insert_congr entries Prod.fst Prod.snd
        (OrderedMap.get?_insert_of_ne _ _ heq).symm
  simp only [restored, retired, List.foldl_cons, hregistry]

-- What is not held is released, as if it alone was.
theorem released (hd : h.Drained ((location, number) :: entries)) (hfree : ¬h.IsHeld number)
    (hopening : h.openings.get? number = some ⟨location, e⟩) :
    Drained { h with
      atRest := h.atRest.insert location e.tables
      openings := h.openings.erase number } entries where
  sound := by
    rw [hd.restored_released e]
    exact hd.sound.retires (.retire hd.get?_restored_first hopening hfree)
  vacant := fun entry hentry => hd.vacant entry (List.mem_cons_of_mem _ hentry)
  distinct := (List.nodup_cons.mp hd.distinct).2

end Drained

-- Every entry that was drained is released or put back, and put back only if it is held.
theorem settle_drained (hd : h.Drained entries)
    (hheld : ∀ location number, h.registry.get? location = some number → h.IsHeld number) :
    ReflTransGen Retires (h.restored entries)
      (entries.foldl (fun h entry => (h.releaseOrKeep entry.1 entry.2).2) h) ∧
    ∀ location number,
      (entries.foldl (fun h entry => (h.releaseOrKeep entry.1 entry.2).2) h).registry.get?
        location = some number → h.IsHeld number := by
  induction entries generalizing h with
  | nil => exact ⟨.refl, hheld⟩
  | cons entry rest ih =>
    obtain ⟨location, number⟩ := entry
    rw [List.foldl_cons]
    by_cases hkept : h.IsHeld number
    · rw [releaseOrKeep_of_held hd.not_registered_elsewhere hkept]
      refine ih hd.put_back fun other found hfound => ?_
      by_cases heq : other = location
      · subst heq
        rw [OrderedMap.get?_insert_self] at hfound
        cases hfound
        exact hkept
      · rw [OrderedMap.get?_insert_of_ne _ _ heq] at hfound
        exact hheld other found hfound
    · obtain ⟨e, hopening⟩ := (hd.sound.registry location number hd.get?_restored_first).1
      rw [releaseOrKeep_of_free hd.not_registered_elsewhere hkept hopening]
      obtain ⟨hretires, hlater⟩ := ih (hd.released hkept hopening) hheld
      refine ⟨.head ?_ hretires, hlater⟩
      rw [hd.restored_released e]
      exact .retire hd.get?_restored_first hopening hkept

theorem restored_registry (h : Host) :
    ({ h with registry := ∅ } : Host).restored h.registry.toList = h := by
  have hsame : h.registry.toList.foldl (fun m entry => m.insert entry.1 entry.2) ∅ = h.registry :=
    OrderedMap.ofList_toList h.registry
  simp only [restored, hsame]

theorem drained_registry (hs : h.Sound) :
    Drained { h with registry := ∅ } h.registry.toList where
  sound := by
    rw [restored_registry]
    exact hs
  vacant := fun _ _ => rfl
  distinct := h.registry.keys_nodup

-- A shutdown closes one directory after the other, and leaves open those that are held.
theorem shutdown_retires (hs : h.Sound) : ReflTransGen Retires h h.shutdown ∧
    ∀ location number, h.shutdown.registry.get? location = some number → h.IsHeld number := by
  have hsettle := settle_drained (drained_registry hs) fun _ _ hfound => by cases hfound
  rw [restored_registry] at hsettle
  exact hsettle

end Shutdown

section Open

variable {handle path : String} {config : Config}

-- The host with the directories that a path needs.
def reaching (h : Host) (path : String) : Host := { h with tree := (h.tree.reach path).2 }

theorem register_of_registered {found : Nat × Environment}
    (hregistered : h.registered? location = some found) :
    h.register location config = (.ok found, h) := by
  rw [register, hregistered]

theorem launch_of_files {opened : Except EngineFailure Unit × FileTree}
    (hopened : openFiles h.tree location (h.fromRest location config).mapSize = opened) :
    h.launch location config = h.conclude (h.fromRest location config) opened := by
  rw [← hopened]
  rfl

-- Where nothing is registered, the files are opened, and the next number is given out if
-- they can be.
theorem register_of_vacant (hvacant : h.registered? location = none) :
    (∃ error tree, h.tree.Extends tree ∧
      h.register location config = (.error error, { h with tree })) ∨
    Openable h.tree location ∧ (h.fromRest location config).mapSize.toNat ≤ maxMapping ∧
      ∃ tree, h.tree.Extends tree ∧ Prepared tree location ∧
        h.register location config =
          (.ok (h.count, h.fromRest location config),
            ({ h with tree } : Host).enter location (h.fromRest location config)) := by
  have hextends := extends_openFiles h.tree location (h.fromRest location config).mapSize
  cases hopened : openFiles h.tree location (h.fromRest location config).mapSize with
  | mk result tree =>
    rw [hopened] at hextends
    cases result with
    | error failure =>
      refine .inl ⟨.engine "open" failure, tree, hextends, ?_⟩
      rw [register, hvacant, launch_of_files hopened]
      rfl
    | ok =>
      obtain ⟨hopenable, _, hsize, _⟩ := openFiles_eq_ok_iff.mp hopened
      refine .inr ⟨hopenable, hsize, tree, hextends, prepared_of_openFiles hopened, ?_⟩
      rw [register, hvacant, launch_of_files hopened]
      rfl

theorem aligned_fromRest (hsize : (h.fromRest location config).mapSize.toNat ≤ maxMapping) :
    (h.fromRest location config).mapSize.toNat % pageSize = 0 := by
  have hmax : maxMapping < maxSize := by decide
  have hround : mapGranule ∣ (h.fromRest location config).mapSize.toNat :=
    dvd_roundToGranule (Nat.lt_of_le_of_lt hsize hmax)
  have hpage : pageSize ∣ mapGranule := by decide
  exact Nat.mod_eq_zero_of_dvd (hpage.trans hround)

-- Where nothing is registered and the files can be opened, the next number is given out.
theorem register_of_openable (hvacant : h.registered? location = none)
    (hopenable : Openable h.tree location)
    (hsize : (h.fromRest location config).mapSize.toNat ≤ maxMapping) :
    h.register location config =
      (.ok (h.count, h.fromRest location config),
        ({ h with
            tree := (h.tree.addFile (lockFile location)).addFile (dataFile location) } : Host).enter
          location (h.fromRest location config)) := by
  have hopened := openFiles_eq_ok_iff.mpr ⟨hopenable, aligned_fromRest hsize, hsize, rfl⟩
  rw [register, hvacant, launch_of_files hopened]
  rfl

theorem openFolder_of_error {error : StoreError} (hvalid : config.validate = .ok ())
    (hreach : (h.tree.reach path).1 = .ok location)
    (hregister : ({ h with tree := (h.tree.reach path).2 } : Host).register location config =
      (.error error, h')) : h.openFolder handle path config = (.error error, h') := by
  simp only [openFolder, hvalid, hreach, hregister]

theorem openFolder_of_ok (hvalid : config.validate = .ok ())
    (hreach : (h.tree.reach path).1 = .ok location)
    (hregister : ({ h with tree := (h.tree.reach path).2 } : Host).register location config =
      (.ok (number, e), h')) :
    h.openFolder handle path config =
      (.ok (location, e), { h' with handles := h'.handles.insert handle ⟨number, config⟩ }) := by
  simp only [openFolder, hvalid, hreach, hregister]

theorem openFolder_of_registered (hvalid : config.validate = .ok ())
    (hreach : (h.tree.reach path).1 = .ok location)
    (hregistered : h.registered? location = some (number, e)) :
    h.openFolder handle path config = (.ok (location, e),
      { h with
        tree := (h.tree.reach path).2
        handles := h.handles.insert handle ⟨number, config⟩ }) :=
  openFolder_of_ok hvalid hreach (register_of_registered hregistered)

-- What an opening comes to: it fails and leaves at most directories and files, it finds the
-- environment that is registered, or it registers a new one.
inductive Opens (h : Host) (handle path : String) (config : Config) :
    Except StoreError (Location × Environment) × Host → Prop where
  | failed {error : StoreError} {tree : FileTree} (hextends : h.tree.Extends tree) :
      Opens h handle path config (.error error, { h with tree })
  | shared {location : Location} {number : Nat} {e : Environment}
      (hvalid : config.validate = .ok ()) (hreach : (h.tree.reach path).1 = .ok location)
      (hregistered : h.registered? location = some (number, e)) :
      Opens h handle path config
        (.ok (location, e),
          { h with
            tree := (h.tree.reach path).2
            handles := h.handles.insert handle ⟨number, config⟩ })
  | launched {location : Location} {tree : FileTree} {e : Environment}
      (hvalid : config.validate = .ok ()) (hreach : (h.tree.reach path).1 = .ok location)
      (hvacant : h.registered? location = none) (hextends : h.tree.Extends tree)
      (hprepared : Prepared tree location) (hopenable : Openable (h.tree.reach path).2 location)
      (hsize : e.mapSize.toNat ≤ maxMapping)
      (he : (h.reaching path).fromRest location config = e) :
      Opens h handle path config
        (.ok (location, e),
          { ({ h with tree } : Host).enter location e with
            handles := h.handles.insert handle ⟨h.count, config⟩ })

theorem opens_openFolder (h : Host) (handle path : String) (config : Config) :
    h.Opens handle path config (h.openFolder handle path config) := by
  cases hvalid : config.validate with
  | error error =>
    simp only [openFolder, hvalid]
    exact .failed (.refl _)
  | ok =>
    have hreached := h.tree.extends_reach path
    cases hreach : (h.tree.reach path).1 with
    | error fault =>
      simp only [openFolder, hvalid, hreach]
      exact .failed hreached
    | ok location =>
      cases hregistered : h.registered? location with
      | some found =>
        rw [openFolder_of_registered hvalid hreach hregistered]
        exact .shared hvalid hreach hregistered
      | none =>
        rcases register_of_vacant (h := h.reaching path) hregistered with
          ⟨error, tree, hextends, hfailed⟩ |
          ⟨hopenable, hsize, tree, hextends, hprepared, hentered⟩
        · rw [openFolder_of_error hvalid hreach hfailed]
          exact .failed (hreached.trans hextends)
        · rw [openFolder_of_ok hvalid hreach hentered]
          exact .launched hvalid hreach hregistered (hreached.trans hextends) hprepared
            hopenable hsize rfl

theorem Sound.enter (hs : h.Sound) (hvacant : h.registered? location = none)
    (hprepared : Prepared h.tree location) (e : Environment) : (h.enter location e).Sound := by
  have hnone := hs.registered?_eq_none_iff.mp hvacant
  have hnew : ∀ number opening, h.openings.get? number = some opening → number ≠ h.count := by
    rintro number opening hopening rfl
    exact Nat.lt_irrefl _ (hs.openings _ opening hopening).2
  have hkept : ∀ number opening, h.openings.get? number = some opening →
      (h.enter location e).openings.get? number = some opening := fun number opening hopening =>
    (OrderedMap.get?_insert_of_ne _ _ (hnew number opening hopening)).trans hopening
  constructor
  · intro name held hheld
    obtain ⟨opening, hopening⟩ := hs.handles name held hheld
    exact ⟨opening, hkept _ opening hopening⟩
  · intro number opening hopening
    by_cases heq : number = h.count
    · subst heq
      rw [Host.enter, OrderedMap.get?_insert_self] at hopening
      cases hopening
      exact ⟨OrderedMap.get?_insert_self _ _ _, Nat.lt_succ_self _⟩
    · rw [Host.enter, OrderedMap.get?_insert_of_ne _ _ heq] at hopening
      obtain ⟨hregistry, hlt⟩ := hs.openings number opening hopening
      have hother : opening.location ≠ location := by
        intro hsame
        rw [hsame, hnone] at hregistry
        cases hregistry
      exact ⟨(OrderedMap.get?_insert_of_ne _ _ hother).trans hregistry, Nat.lt_succ_of_lt hlt⟩
  · intro other number hregistry
    by_cases heq : other = location
    · subst heq
      rw [Host.enter, OrderedMap.get?_insert_self] at hregistry
      cases hregistry
      exact ⟨⟨e, OrderedMap.get?_insert_self _ _ _⟩, hprepared⟩
    · rw [Host.enter, OrderedMap.get?_insert_of_ne _ _ heq] at hregistry
      obtain ⟨⟨e', hopening⟩, hother⟩ := hs.registry other number hregistry
      exact ⟨⟨e', hkept number _ hopening⟩, hother⟩

theorem registered?_enter_self (h : Host) (location : Location) (e : Environment) :
    (h.enter location e).registered? location = some (h.count, e) :=
  registered?_eq_some_iff.mpr
    ⟨OrderedMap.get?_insert_self _ _ _, _, OrderedMap.get?_insert_self _ _ _, rfl⟩

theorem Sound.opens (hs : h.Sound) {run : Except StoreError (Location × Environment) × Host}
    (hopens : h.Opens handle path config run) : run.2.Sound := by
  cases hopens with
  | failed hextends => exact hs.moves (.extend hextends)
  | shared hvalid hreach hregistered =>
    have hopening := hs.registered?_iff.mp hregistered
    exact (hs.moves (.extend (h.tree.extends_reach path))).moves (.take hopening)
  | @launched location tree e hvalid hreach hvacant hextends hprepared =>
    have hentered := (hs.moves (.extend hextends)).enter hvacant hprepared e
    exact hentered.moves (.take (OrderedMap.get?_insert_self _ _ _))

-- What an opening returns: the environment that is registered for the directory, or else a
-- new one, if its files can be opened and its map is not larger than memory.
theorem openFolder_eq_ok_iff : (h.openFolder handle path config).1 = .ok (location, e) ↔
    config.validate = .ok () ∧ (h.tree.reach path).1 = .ok location ∧
      ((∃ number, h.registered? location = some (number, e)) ∨
        h.registered? location = none ∧ Openable (h.tree.reach path).2 location ∧
          e.mapSize.toNat ≤ maxMapping ∧ (h.reaching path).fromRest location config = e) := by
  constructor
  · intro hopened
    have hopens := h.opens_openFolder handle path config
    generalize h.openFolder handle path config = run at hopened hopens
    cases hopens with
    | failed => cases hopened
    | shared hvalid hreach hregistered =>
      cases hopened
      exact ⟨hvalid, hreach, .inl ⟨_, hregistered⟩⟩
    | launched hvalid hreach hvacant _ _ hopenable hsize he =>
      cases hopened
      exact ⟨hvalid, hreach, .inr ⟨hvacant, hopenable, hsize, he⟩⟩
  · rintro ⟨hvalid, hreach, ⟨number, hregistered⟩ | ⟨hvacant, hopenable, hsize, rfl⟩⟩
    · rw [openFolder_of_registered hvalid hreach hregistered]
    · have hnone : (h.reaching path).registered? location = none := hvacant
      rw [openFolder_of_ok hvalid hreach (register_of_openable hnone hopenable hsize)]
      rfl

end Open

end LightningRecords.Host
