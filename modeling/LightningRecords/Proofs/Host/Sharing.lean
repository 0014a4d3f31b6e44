import LightningRecords.Proofs.Host.Acts

namespace LightningRecords.Host

variable {h : Host} {location : Location} {number : Nat} {e : Environment} {path : String}

section Directories

-- Each directory has one environment, which all its handles share.
structure OneEach (h : Host) : Prop where
  located : ∀ handle number, h.number? handle = some number →
    ∃ location, h.location? handle = some location
  shared : ∀ handle location, h.location? handle = some location →
    ∃ number e, h.registered? location = some (number, e) ∧ h.number? handle = some number ∧
      h.environment? handle = some e
  written : ∀ {α : Type} handle location number e (run : Environment → α × Environment),
    h.location? handle = some location → h.registered? location = some (number, e) →
    ∃ h', h.operate handle run = some ((run e).1, h') ∧
      (∀ other, h.location? other = some location → h'.environment? other = some (run e).2) ∧
      ∀ other place, h.location? other = some place → place ≠ location →
        h'.environment? other = h.environment? other

-- How handles come and go. An opening finds the environment that is registered for the
-- directory, or else registers one with the settings that are asked for and the tables at
-- rest there, under a number that none has had.
structure Takes (h : Host) : Prop where
  opened : ∀ handle path config location e,
    (h.openFolder handle path config).1 = .ok (location, e) →
    (h.openFolder handle path config).2.location? handle = some location ∧
      ∃ number, (h.openFolder handle path config).2.registered? location = some (number, e)
  opened_iff : ∀ handle path config location e,
    (h.openFolder handle path config).1 = .ok (location, e) ↔
      config.validate = .ok () ∧ (h.tree.reach path).1 = .ok location ∧
        ((∃ number, h.registered? location = some (number, e)) ∨
          h.registered? location = none ∧ Openable (h.tree.reach path).2 location ∧
            e.mapSize.toNat ≤ maxMapping ∧ (h.reaching path).fromRest location config = e)
  founded : ∀ handle path config location, config.validate = .ok () →
    (h.tree.reach path).1 = .ok location → h.registered? location = none →
    Openable (h.tree.reach path).2 location →
    let tables := (h.atRest.get? location).getD ∅
    let isOld := (h.tree.reach path).2.isThere (dataFile location)
    let e := Environment.start config (if isOld then tables.fileSize else 0) tables h.capacity
    e.mapSize.toNat ≤ maxMapping →
    (h.openFolder handle path config).1 = .ok (location, e) ∧
      (h.openFolder handle path config).2.registered? location = some (h.count, e) ∧
      (h.openFolder handle path config).2.number? handle = some h.count ∧
      ∀ place, place ≠ location →
        (h.openFolder handle path config).2.registered? place = h.registered? place
  reopened : ∀ handle path config location number e, config.validate = .ok () →
    (h.tree.reach path).1 = .ok location → h.registered? location = some (number, e) →
    (h.openFolder handle path config).1 = .ok (location, e) ∧
      (h.openFolder handle path config).2.number? handle = some number ∧
      ∀ place, (h.openFolder handle path config).2.registered? place = h.registered? place
  refused : ∀ handle path (config : Config) error, config.validate = .error error →
    h.openFolder handle path config = (.error (.invalid (.config error)), h)
  unreached : ∀ handle path (config : Config) fault, config.validate = .ok () →
    (h.tree.reach path).1 = .error fault →
    h.openFolder handle path config =
      (.error (.io (h.tree.spell path) fault.message), h.reaching path)
  failed : ∀ handle path config error, (h.openFolder handle path config).1 = .error error →
    (∀ other, (h.openFolder handle path config).2.number? other = h.number? other) ∧
      ∀ place, (h.openFolder handle path config).2.registered? place = h.registered? place
  others : ∀ handle path config other, other ≠ handle →
    (h.openFolder handle path config).2.number? other = h.number? other
  cloned : ∀ handle copy number, h.number? handle = some number →
    ∃ h', h.clone handle copy = some h' ∧ h'.number? copy = some number ∧
      (∀ other, other ≠ copy → h'.number? other = h.number? other) ∧
      ∀ place, h'.registered? place = h.registered? place
  dropped : ∀ handle, (h.drop handle).2.number? handle = none ∧
    (∀ other, other ≠ handle → (h.drop handle).2.number? other = h.number? other) ∧
    ∀ place, (h.drop handle).2.registered? place = h.registered? place

-- Only what no handle stands for is closed, and a shutdown closes all of that.
structure Closes (h : Host) : Prop where
  closed_iff : ∀ path, (h.close path).1 = true ↔ ∃ location found,
    h.tree.resolve path = .ok location ∧ h.registered? location = some found ∧
      ¬h.IsLive location
  closed : ∀ path location place, (h.close path).1 = true → h.tree.resolve path = .ok location →
    (h.close path).2.registered? location = none ∧
      (place ≠ location → (h.close path).2.registered? place = h.registered? place)
  unclosed : ∀ path, (h.close path).1 = false → (h.close path).2 = h
  shut : ∀ location, (h.IsLive location → h.shutdown.registered? location = h.registered? location) ∧
    (¬h.IsLive location → h.shutdown.registered? location = none)
  ended : ∀ act location found, h.registered? location = some found →
    (h.perform act).registered? location = none →
    act = .shutdown ∨ ∃ path, act = .close path ∧ (h.close path).1 = true ∧
      h.tree.resolve path = .ok location

theorem Sound.registered?_retired_of_ne (hs : h.Sound)
    (hregistered : h.registered? location = some (number, e)) {place : Location}
    (hne : place ≠ location) :
    (h.retired location number e.tables).registered? place = h.registered? place := by
  refine registered?_congr (OrderedMap.get?_erase_of_ne _ hne) fun other hfound => ?_
  refine OrderedMap.get?_erase_of_ne _ ?_
  rintro rfl
  exact hne (hs.eq_location (registered?_eq_some_iff.mp hregistered).1 hfound)

theorem Sound.closed_iff (hs : h.Sound) (path : String) :
    (h.close path).1 = true ↔ ∃ location found, h.tree.resolve path = .ok location ∧
      h.registered? location = some found ∧ ¬h.IsLive location := by
  rcases hs.close_cases path with ⟨hclose, hheld⟩ |
    ⟨location, number, e, hresolve, hregistered, hfree, hclose⟩
  · rw [hclose]
    refine iff_of_false Bool.false_ne_true ?_
    rintro ⟨location, ⟨number, e⟩, hresolve, hregistered, hdead⟩
    exact hdead ((hs.isLive_iff hregistered).mpr (hheld location number e hresolve hregistered))
  · rw [hclose]
    exact iff_of_true rfl ⟨location, (number, e), hresolve, hregistered,
      fun hlive => hfree ((hs.isLive_iff hregistered).mp hlive)⟩

theorem Sound.registered?_shutdown (hs : h.Sound) (location : Location) :
    (h.IsLive location → h.shutdown.registered? location = h.registered? location) ∧
    (¬h.IsLive location → h.shutdown.registered? location = none) := by
  obtain ⟨hretires, hleft⟩ := shutdown_retires hs
  constructor
  · rintro ⟨handle, hlocation⟩
    obtain ⟨number, e, hregistered, _⟩ := hs.exists_registered hlocation
    have hheld := (hs.isLive_iff hregistered).mp ⟨handle, hlocation⟩
    rcases hs.rests_of_retires_all hretires hregistered with hstill | ⟨hfree, _⟩
    · exact hstill.trans hregistered.symm
    · exact absurd hheld hfree
  · intro hdead
    rw [(hs.retires_all hretires).registered?_eq_none_iff]
    by_contra hsome
    obtain ⟨number, hnumber⟩ := Option.ne_none_iff_exists'.mp hsome
    obtain ⟨e, hopening⟩ := ((hs.retires_all hretires).registry location number hnumber).1
    have hregistered := (hs.retires_all hretires).registered?_iff.mpr hopening
    obtain ⟨e', hbefore, _⟩ := hs.registered?_of_moves_all (moves_of_retires_all hretires) hregistered
    exact hdead ((hs.isLive_iff hbefore).mpr (hleft location number hnumber))

theorem Sound.ended (hs : h.Sound) {act : Act} {found : Nat × Environment}
    (hregistered : h.registered? location = some found)
    (hlater : (h.perform act).registered? location = none) :
    act = .shutdown ∨ ∃ path, act = .close path ∧ (h.close path).1 = true ∧
      h.tree.resolve path = .ok location := by
  rcases hs.closes_of_ends hregistered hlater with rfl | ⟨path, rfl⟩
  · exact .inl rfl
  · refine .inr ⟨path, rfl, ?_⟩
    rw [Host.perform] at hlater
    rcases hs.close_cases path with ⟨hclose, _⟩ |
      ⟨place, number, e, hresolve, hfound, hfree, hclose⟩
    · rw [hclose, hregistered] at hlater
      cases hlater
    · rw [hclose] at hlater ⊢
      by_cases heq : location = place
      · rw [heq]
        exact ⟨rfl, hresolve⟩
      · rw [hs.registered?_retired_of_ne hfound heq, hregistered] at hlater
        cases hlater

theorem Sound.oneEach (hs : h.Sound) : h.OneEach where
  located := fun _ _ hnumber => hs.exists_location hnumber
  shared := fun _ _ hlocation => hs.exists_registered hlocation
  written := fun _ _ _ _ run hlocation hregistered =>
    hs.operate_shared hlocation hregistered run

theorem number?_insert (h : Host) (tree : FileTree) (handle other : String) (held : Handle) :
    ({ h with tree, handles := h.handles.insert handle held } : Host).number? other =
      if other = handle then some held.number else h.number? other := by
  by_cases heq : other = handle
  · subst heq
    simp [number?]
  · simp [number?, heq]

theorem number?_openFolder_of_ne {handle other : String} (config : Config) (hne : other ≠ handle) :
    (h.openFolder handle path config).2.number? other = h.number? other := by
  have hopens := h.opens_openFolder handle path config
  generalize h.openFolder handle path config = run at hopens
  cases hopens with
  | failed => rfl
  | shared => rw [number?_insert, if_neg hne]
  | @launched place tree e =>
    exact congrArg (Option.map Handle.number) (OrderedMap.get?_insert_of_ne _ _ hne)

theorem Sound.founded (hs : h.Sound) {handle : String} {config : Config}
    (hvalid : config.validate = .ok ()) (hreach : (h.tree.reach path).1 = .ok location)
    (hvacant : h.registered? location = none)
    (hopenable : Openable (h.tree.reach path).2 location)
    (hsize : ((h.reaching path).fromRest location config).mapSize.toNat ≤ maxMapping) :
    let e := (h.reaching path).fromRest location config
    (h.openFolder handle path config).1 = .ok (location, e) ∧
      (h.openFolder handle path config).2.registered? location = some (h.count, e) ∧
      (h.openFolder handle path config).2.number? handle = some h.count ∧
      ∀ place, place ≠ location →
        (h.openFolder handle path config).2.registered? place = h.registered? place := by
  intro e
  have hregister := register_of_openable (h := h.reaching path) hvacant hopenable hsize
  rw [openFolder_of_ok hvalid hreach hregister]
  refine ⟨rfl, ?_, ?_, fun place hplace => ?_⟩
  · exact registered?_enter_self _ location _
  · exact congrArg (Option.map Handle.number) (OrderedMap.get?_insert_self _ _ _)
  · exact hs.registered?_enter_of_ne hplace _

theorem Sound.takes (hs : h.Sound) : h.Takes where
  opened := fun _ _ _ _ _ hopened => hs.opened hopened
  opened_iff := fun _ _ _ _ _ => openFolder_eq_ok_iff
  founded := fun _ _ _ _ => hs.founded
  reopened := by
    intro handle path config location number e hvalid hreach hregistered
    rw [openFolder_of_registered hvalid hreach hregistered]
    refine ⟨rfl, ?_, fun place => rfl⟩
    rw [number?_insert, if_pos rfl]
  refused := by
    intro handle path config error herror
    simp only [openFolder, herror]
  unreached := by
    intro handle path config fault hvalid hreach
    have hspell : (h.tree.reach path).2.spell path = h.tree.spell path := by
      rw [FileTree.spell, (h.tree.extends_reach path).root, FileTree.spell]
    simp only [openFolder, hvalid, hreach, hspell]
    rfl
  failed := by
    intro handle path config error herror
    have hopens := h.opens_openFolder handle path config
    generalize h.openFolder handle path config = run at hopens herror ⊢
    cases hopens with
    | failed => exact ⟨fun _ => rfl, fun _ => rfl⟩
    | shared => cases herror
    | launched => cases herror
  others := fun _ _ config _ hne => number?_openFolder_of_ne config hne
  cloned := by
    intro handle copy number hnumber
    obtain ⟨held, hheld, rfl⟩ := Option.map_eq_some_iff.mp hnumber
    refine ⟨_, congrArg (Option.map _) hheld, ?_, fun other hother => ?_, fun place => rfl⟩
    · exact (number?_insert h h.tree copy copy held).trans (if_pos rfl)
    · exact (number?_insert h h.tree copy other held).trans (if_neg hother)
  dropped := by
    intro handle
    refine ⟨?_, fun other hother => ?_, fun place => rfl⟩
    · exact congrArg (Option.map Handle.number) (OrderedMap.get?_erase_self _ _)
    · exact congrArg (Option.map Handle.number) (OrderedMap.get?_erase_of_ne _ hother)

theorem Sound.closes (hs : h.Sound) : h.Closes where
  closed_iff := hs.closed_iff
  closed := by
    intro path location place hclosed hresolve
    rcases hs.close_cases path with ⟨hclose, _⟩ |
      ⟨other, number, e, hother, hregistered, hfree, hclose⟩
    · rw [hclose] at hclosed
      cases hclosed
    · rw [hresolve] at hother
      cases hother
      have hlater := hs.retires (hs.retire hregistered hfree)
      rw [hclose]
      exact ⟨hlater.registered?_eq_none_iff.mpr (OrderedMap.get?_erase_self _ _),
        hs.registered?_retired_of_ne hregistered⟩
  unclosed := by
    intro path hopen
    rcases hs.close_cases path with ⟨hclose, _⟩ | ⟨_, _, _, _, _, _, hclose⟩
    · rw [hclose]
    · rw [hclose] at hopen
      cases hopen
  shut := hs.registered?_shutdown
  ended := fun _ _ _ hregistered hlater => hs.ended hregistered hlater

end Directories

section Settings

-- A directory has been open, under one number and with the settings that were asked for,
-- since an opening found none registered for it.
structure Lasting (h : Host) (handle path : String) (config : Config) (location : Location)
    (number : Nat) (later : List Act) : Prop where
  founded : ∃ e, h.Founds handle path config location number e
  lasts : ∀ acts, acts <+: later → ∃ e,
    ((h.openFolder handle path config).2.performAll acts).registered? location = some (number, e) ∧
      e.config = config

theorem Sound.exists_lasting (hs : h.Sound) (hempty : ∀ location, h.registered? location = none)
    {acts : List Act} (hregistered : (h.performAll acts).registered? location = some (number, e)) :
    ∃ before handle path later, acts = before ++ .openFolder handle path e.config :: later ∧
      Lasting (h.performAll before) handle path e.config location number later := by
  induction acts using List.reverseRecOn generalizing e with
  | nil =>
    rw [Host.performAll, List.foldl_nil, hempty] at hregistered
    cases hregistered
  | append_singleton acts act ih =>
    have hnow := hregistered
    rw [performAll_concat] at hnow
    rcases (hs.performAll acts).registered?_perform hnow with
      ⟨e', hbefore, hconfig⟩ | ⟨handle, path, rfl, hfounds⟩
    · obtain ⟨before, handle, path, later, rfl, hlasting⟩ := ih hbefore
      rw [hconfig]
      refine ⟨before, handle, path, later ++ [act], by rw [List.append_assoc, List.cons_append],
        hlasting.founded, fun first hfirst => ?_⟩
      rcases List.prefix_concat_iff.mp hfirst with rfl | hearlier
      · rw [List.append_assoc, List.cons_append, performAll_append] at hregistered
        exact ⟨e, hregistered, hconfig⟩
      · exact hlasting.lasts first hearlier
    · refine ⟨acts, handle, path, [], rfl, ⟨e, hfounds⟩, fun first hfirst => ?_⟩
      rw [List.prefix_nil.mp hfirst]
      exact ⟨e, hfounds.registered, rfl⟩

end Settings

section Reopening

-- What is read of a store is read of it again after another opening.
theorem get_start {config : Config} (hvalid : config.validate = .ok ()) {fileSize : UInt64}
    {capacity : Capacity} {table : String} {key : Key} {stored : Option Record}
    (hread : (e.get table key).1 = .ok stored) :
    ((Environment.start config fileSize e.tables capacity).get table key).1 = .ok stored := by
  have hget : e.get table key = (.ok stored, (e.get table key).2) := Prod.ext hread rfl
  have htable := Environment.checkTable_of_checked hget
  have hroom : (Environment.start config fileSize e.tables capacity).HasRoom table :=
    .inr (config.maxTables_pos hvalid)
  have hheld := Environment.held_of_get hget
  change (Environment.start config fileSize e.tables capacity).held table key = .ok stored at hheld
  obtain ⟨later, hlater, _⟩ := Environment.get_of_room htable hroom hheld
  rw [hlater]

-- What was open before is opened from the tables that it left.
theorem fromRest_of_rest {tables : Tables} (config : Config)
    (hrest : h.atRest.get? location = some tables) (hprepared : Prepared h.tree location) :
    h.fromRest location config =
      Environment.start config tables.fileSize tables h.capacity := by
  simp only [fromRest, hrest, Option.getD_some, hprepared.data.1, if_true]

-- What a directory held when it ceased to be open is what it holds once it is open again,
-- with the settings that are asked for then.
def Resumes (h : Host) : Prop :=
  ∀ location number e act acts, h.registered? location = some (number, e) →
    (∀ first, first <+: acts → ((h.perform act).performAll first).registered? location = none) →
    ∀ handle path config, config.validate = .ok () →
      (((h.perform act).performAll acts).tree.reach path).1 = .ok location →
      let later := (h.perform act).performAll acts
      let reopen := (later.openFolder handle path config).1
      let opened := Environment.start config e.tables.fileSize e.tables later.capacity
      (∀ result, reopen = .ok result → result = (location, opened)) ∧
      (opened.mapSize.toNat ≤ maxMapping → reopen = .ok (location, opened)) ∧
      ∀ table key stored, (e.get table key).1 = .ok stored →
        (opened.get table key).1 = .ok stored

theorem Sound.resumes (hs : h.Sound) : h.Resumes := by
  intro location number e act acts hregistered hnone handle path config hvalid hreach
  have hfirst : (h.perform act).registered? location = none := hnone [] (List.nil_prefix)
  have hlast := hnone acts (List.prefix_refl acts)
  obtain ⟨hrest, hprepared⟩ := hs.rests_of_ends hregistered hfirst
  obtain ⟨hkept, hextends⟩ := (hs.perform act).rests_performAll acts hnone
  intro later reopen opened
  have hready : Prepared (later.tree.reach path).2 location :=
    hprepared.mono (hextends.trans (later.tree.extends_reach path))
  have hopened : (later.reaching path).fromRest location config = opened :=
    fromRest_of_rest config (hkept.trans hrest) hready
  refine ⟨?_, fun hsize => ?_, fun _ _ _ => get_start hvalid⟩
  · rintro ⟨place, found⟩ hresult
    obtain ⟨-, hplace, hfound⟩ := openFolder_eq_ok_iff.mp hresult
    rw [hreach] at hplace
    cases hplace
    rcases hfound with ⟨other, hother⟩ | ⟨-, -, -, hfound⟩
    · rw [hlast] at hother
      cases hother
    · rw [← hfound, hopened]
  · exact openFolder_eq_ok_iff.mpr ⟨hvalid, hreach, .inr ⟨hlast, hready.openable, hsize, hopened⟩⟩

end Reopening

-- Whatever a process does about its stores, each directory has one environment at a time,
-- however its path is spelled, which has the settings of the opening that found none, and
-- what it holds is there when it is opened again.
theorem one_environment_per_directory (tree : FileTree) (capacity : Capacity)
    (atRest : OrderedMap Location.compare Tables) (acts : List Act) :
    let start : Host := { tree, capacity, atRest }
    let h := start.performAll acts
    h.tree.Reaches ∧ h.OneEach ∧ h.Takes ∧ h.Closes ∧
      (∀ location number e, h.registered? location = some (number, e) →
        ∃ before handle path later, acts = before ++ .openFolder handle path e.config :: later ∧
          Lasting (start.performAll before) handle path e.config location number later) ∧
      h.Resumes := by
  intro start h
  have hstart : start.Sound := sound_start tree capacity atRest
  have hs : h.Sound := hstart.performAll acts
  exact ⟨h.tree.reaches, hs.oneEach, hs.takes, hs.closes,
    fun _ _ _ => hstart.exists_lasting fun _ => rfl, hs.resumes⟩

-- Two spellings of a directory, one by way of a link: what is written through one handle is
-- read through the other, neither can be closed before both are dropped, and the next
-- opening finds the record under its own settings.
theorem two_spellings_share :
    let key : Key := ⟨List.replicate 32 7, List.length_replicate⟩
    let record : Record := OrderedMap.ofList [("alias", .text "a")]
    let links : OrderedMap Location.compare Node :=
      OrderedMap.ofList [(["home", "same"], .link "stores/db")]
    let start : Host := { tree := { root := "/home", nodes := links } }
    let location : Location := ["home", "stores", "db"]
    let written := start.performAll
      [.openFolder "a" "stores/db" Config.minimal, .openFolder "b" "/home//same/." Config.desktop,
        .command "a" (.put "nodes" key record none)]
    let dropped := written.performAll [.drop "a", .drop "b"]
    let closed := dropped.perform (.close "same")
    (∃ e, written.environment? "a" = some e ∧ written.environment? "b" = some e ∧
      written.registered? location = some (0, e) ∧ e.config = Config.minimal ∧
      (e.get "nodes" key).1 = .ok (some record)) ∧
    (written.close "same").1 = false ∧ (dropped.close "same").1 = true ∧
    ∃ e, (closed.openFolder "c" "/../home/stores/db" Config.desktop).1 = .ok (location, e) ∧
      e.config = Config.desktop ∧ (e.get "nodes" key).1 = .ok (some record) := by
  intro key record links start location written dropped closed
  obtain ⟨-, hone, -, hcloses, -, -⟩ := one_environment_per_directory start.tree .byWeight ∅
    [.openFolder "a" "stores/db" Config.minimal, .openFolder "b" "/home//same/." Config.desktop,
      .command "a" (.put "nodes" key record none)]
  obtain ⟨-, -, -, hlater, -, hresumes⟩ := one_environment_per_directory start.tree .byWeight ∅
    [.openFolder "a" "stores/db" Config.minimal, .openFolder "b" "/home//same/." Config.desktop,
      .command "a" (.put "nodes" key record none), .drop "a", .drop "b"]
  change dropped.Closes at hlater
  change dropped.Resumes at hresumes
  -- Both handles stand for what is registered.
  have ha : written.location? "a" = some location := by decide +kernel
  have hb : written.location? "b" = some location := by decide +kernel
  obtain ⟨number, e, hregistered, -, hfirst⟩ := hone.shared "a" location ha
  obtain ⟨number', e', hregistered', -, hsecond⟩ := hone.shared "b" location hb
  obtain ⟨rfl, rfl⟩ : number = number' ∧ e = e' := by
    simpa using hregistered.symm.trans hregistered'
  have hnumber : (written.registered? location).map Prod.fst = some 0 := by decide +kernel
  have hconfig : (written.registered? location).map (fun found => found.2.config) =
      some Config.minimal := by decide +kernel
  have hget : (written.registered? location).map (fun found => (found.2.get "nodes" key).1) =
      some (.ok (some record)) := by decide +kernel
  change written.registered? location = some (number, e) at hregistered
  rw [hregistered, Option.map_some, Option.some_inj] at hnumber hconfig hget
  obtain rfl : number = 0 := hnumber
  -- Handles and not spellings keep it open.
  have hbusy : (written.close "same").1 = false := by
    rw [Bool.eq_false_iff, Ne, hcloses.closed_iff]
    rintro ⟨place, found, hplace, -, hdead⟩
    have hresolve : written.tree.resolve "same" = .ok location := by decide +kernel
    obtain rfl : location = place := Except.ok.inj (hresolve.symm.trans hplace)
    exact hdead ⟨"b", hb⟩
  -- The drops leave the environment as it is, for the next opening to find its tables.
  have hdrops (h : Host) :
      (h.performAll [.drop "a", .drop "b"]).registered? location = h.registered? location := rfl
  have hheld : dropped.registered? location = some (0, e) := (hdrops written).trans hregistered
  have hresolve : dropped.tree.resolve "same" = .ok location := by decide +kernel
  have hdead : ¬dropped.IsLive location := by
    have hnone : dropped.handles = ∅ := by decide +kernel
    rintro ⟨handle, hlocation⟩
    obtain ⟨held, _, hhandle, _⟩ := location?_eq_some_iff.mp hlocation
    rw [hnone] at hhandle
    cases hhandle
  have hfree : (dropped.close "same").1 = true :=
    (hlater.closed_iff "same").mpr ⟨location, (0, e), hresolve, hheld, hdead⟩
  have hgone : closed.registered? location = none :=
    (hlater.closed "same" location location hfree hresolve).1
  have hsize : (written.registered? location).map (fun found =>
      Config.desktop.mapSizeAtOpen found.2.tables.fileSize) = some 268435456 := by decide +kernel
  rw [hregistered, Option.map_some, Option.some_inj] at hsize
  have hstill : ∀ first, first <+: [] → (closed.performAll first).registered? location = none := by
    rintro first hfirst
    obtain rfl := List.prefix_nil.mp hfirst
    exact hgone
  obtain ⟨-, hopens, hsame⟩ := hresumes location 0 e (.close "same") [] hheld hstill "c"
    "/../home/stores/db" Config.desktop (by decide) (by decide +kernel)
  have hfits : (Config.desktop.mapSizeAtOpen e.tables.fileSize).toNat ≤ maxMapping := by
    rw [hsize]
    decide
  exact ⟨⟨e, hfirst, hsecond, hregistered, hconfig, hget⟩, hbusy, hfree, _, hopens hfits, rfl,
    hsame "nodes" key (some record) hget⟩

end LightningRecords.Host
