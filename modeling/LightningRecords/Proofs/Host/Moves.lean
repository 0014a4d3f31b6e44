import LightningRecords.Proofs.OrderedMap
import LightningRecords.Proofs.Store.FileTree
import LightningRecords.Proofs.Store.Growth
import LightningRecords.Store.Host
import Mathlib.Logic.Relation

namespace LightningRecords

namespace Host

section Files

variable {tree tree' : FileTree} {location file : Location} {mapSize : UInt64}

-- Nothing about the files of a directory keeps an environment from being opened in it.
structure Openable (tree : FileTree) (location : Location) : Prop where
  lock : tree.isFolder (lockFile location) = false
  data : tree.isFolder (dataFile location) = false
  own : tree.isForeign (dataFile location) = false
  access : tree.isSealed location = true →
    tree.isThere (lockFile location) = true ∧ tree.isThere (dataFile location) = true

-- A directory with the two files of an environment that was opened before.
structure Prepared (tree : FileTree) (location : Location) : Prop where
  lock : tree.isThere (lockFile location) = true ∧ tree.isFolder (lockFile location) = false
  data : tree.isThere (dataFile location) = true ∧ tree.isFolder (dataFile location) = false
  own : tree.isForeign (dataFile location) = false

theorem Prepared.openable (h : Prepared tree location) : Openable tree location :=
  ⟨h.lock.2, h.data.2, h.own, fun _ => ⟨h.lock.1, h.data.1⟩⟩

theorem Prepared.mono (h : Prepared tree location) (hextends : tree.Extends tree') :
    Prepared tree' location where
  lock := ⟨hextends.isThere h.lock.1, (hextends.isFolder h.lock.1).trans h.lock.2⟩
  data := ⟨hextends.isThere h.data.1, (hextends.isFolder h.data.1).trans h.data.2⟩
  own := (hextends.isForeign h.data.1).trans h.own

theorem openFile_eq_ok_iff : openFile tree location file = .ok tree' ↔
    tree.isFolder file = false ∧ (tree.isSealed location = true → tree.isThere file = true) ∧
      tree.addFile file = tree' := by
  unfold openFile
  cases tree.isFolder file <;> cases tree.isThere file <;> cases tree.isSealed location <;> simp

theorem extends_openFiles (tree : FileTree) (location : Location) (mapSize : UInt64) :
    tree.Extends (openFiles tree location mapSize).2 := by
  unfold openFiles
  split
  · exact .refl tree
  split
  · exact .refl tree
  rename_i hlock
  obtain ⟨_, _, rfl⟩ := openFile_eq_ok_iff.mp hlock
  have hlock := tree.extends_addFile (lockFile location)
  split
  · exact hlock
  rename_i hdata
  obtain ⟨_, _, rfl⟩ := openFile_eq_ok_iff.mp hdata
  have hdata := hlock.trans (FileTree.extends_addFile _ (dataFile location))
  split
  · exact hdata
  split
  · exact hdata
  · exact hdata

-- Besides the files, only a map that is uneven or larger than memory cannot be opened.
theorem openFiles_eq_ok_iff : openFiles tree location mapSize = (.ok (), tree') ↔
    Openable tree location ∧ mapSize.toNat % pageSize = 0 ∧ mapSize.toNat ≤ maxMapping ∧
      (tree.addFile (lockFile location)).addFile (dataFile location) = tree' := by
  have hextends := tree.extends_addFile (lockFile location)
  have hne : dataFile location ≠ lockFile location := by simp [dataFile, lockFile]
  constructor
  · intro h
    unfold openFiles at h
    split at h
    · cases h
    rename_i haligned
    split at h
    · cases h
    rename_i hlock
    obtain ⟨hlockFolder, hlockAccess, rfl⟩ := openFile_eq_ok_iff.mp hlock
    split at h
    · cases h
    rename_i hdata
    obtain ⟨hdataFolder, hdataAccess, rfl⟩ := openFile_eq_ok_iff.mp hdata
    rw [FileTree.isFolder_addFile] at hdataFolder
    rw [FileTree.isSealed_addFile, FileTree.isThere_addFile_of_ne hne] at hdataAccess
    rw [FileTree.isForeign_addFile, FileTree.isForeign_addFile] at h
    split at h
    · cases h
    rename_i hown
    split at h
    · cases h
    rename_i hlarge
    cases h
    exact ⟨⟨hlockFolder, hdataFolder, by simpa using hown,
      fun hsealed => ⟨hlockAccess hsealed, hdataAccess hsealed⟩⟩, by omega, by omega, rfl⟩
  · rintro ⟨hopenable, haligned, hsize, rfl⟩
    have hlarge : ¬maxMapping < mapSize.toNat := by omega
    have hlock : openFile tree location (lockFile location) =
        .ok (tree.addFile (lockFile location)) :=
      openFile_eq_ok_iff.mpr ⟨hopenable.lock, fun hsealed => (hopenable.access hsealed).1, rfl⟩
    have hdata : openFile (tree.addFile (lockFile location)) location (dataFile location) =
        .ok ((tree.addFile (lockFile location)).addFile (dataFile location)) := by
      rw [openFile_eq_ok_iff, FileTree.isFolder_addFile, FileTree.isSealed_addFile]
      exact ⟨hopenable.data, fun hsealed => hextends.isThere (hopenable.access hsealed).2, rfl⟩
    simp only [openFiles, haligned, hlock, hdata, FileTree.isForeign_addFile, hopenable.own, hlarge]
    rfl

theorem prepared_of_openFiles (h : openFiles tree location mapSize = (.ok (), tree')) :
    Prepared tree' location := by
  obtain ⟨hopenable, _, _, rfl⟩ := openFiles_eq_ok_iff.mp h
  have hlock := tree.isThere_addFile (lockFile location)
  have hextends := (tree.addFile (lockFile location)).extends_addFile (dataFile location)
  constructor
  · simp only [FileTree.isFolder_addFile, hopenable.lock, hextends.isThere hlock, and_self]
  · simp only [FileTree.isFolder_addFile, hopenable.data, FileTree.isThere_addFile, and_self]
  · simp only [FileTree.isForeign_addFile, hopenable.own]

end Files

-- Whether a handle stands for an opening.
def IsHeld (h : Host) (number : Nat) : Prop :=
  ∃ name held, h.handles.get? name = some held ∧ held.number = number

-- The host without an opening that was registered for a directory.
def retired (h : Host) (location : Location) (number : Nat) (tables : Tables) : Host :=
  { h with
    atRest := h.atRest.insert location tables
    openings := h.openings.erase number
    registry := h.registry.erase location }

-- One opening that is registered and that no handle stands for comes to its end.
inductive Retires (h : Host) : Host → Prop where
  | retire {location : Location} {number : Nat} {e : Environment}
      (hregistry : h.registry.get? location = some number)
      (hopening : h.openings.get? number = some ⟨location, e⟩) (hfree : ¬h.IsHeld number) :
      Retires h (h.retired location number e.tables)

-- What becomes of a host without anything new being opened.
inductive Moves (h : Host) : Host → Prop where
  | extend {tree : FileTree} (hextends : h.tree.Extends tree) : Moves h { h with tree }
  | take {name : String} {held : Handle} {opening : Opening}
      (hopening : h.openings.get? held.number = some opening) :
      Moves h { h with handles := h.handles.insert name held }
  | drop (name : String) : Moves h { h with handles := h.handles.erase name }
  | write {number : Nat} {location : Location} {e e' : Environment}
      (hopening : h.openings.get? number = some ⟨location, e⟩) (hconfig : e'.config = e.config) :
      Moves h { h with openings := h.openings.insert number ⟨location, e'⟩ }
  | retire {h' : Host} (hretires : h.Retires h') : Moves h h'

-- Each directory that is open has one opening, which is the one that is registered for it,
-- and handles stand for nothing else.
structure Sound (h : Host) : Prop where
  handles : ∀ name held, h.handles.get? name = some held →
    ∃ opening, h.openings.get? held.number = some opening
  openings : ∀ number opening, h.openings.get? number = some opening →
    h.registry.get? opening.location = some number ∧ number < h.count
  registry : ∀ location number, h.registry.get? location = some number →
    (∃ e, h.openings.get? number = some ⟨location, e⟩) ∧ Prepared h.tree location

theorem sound_start (tree : FileTree) (capacity : Capacity)
    (atRest : OrderedMap Location.compare Tables) : Sound { tree, capacity, atRest } where
  handles := by
    intro name held h
    cases h
  openings := by
    intro number opening h
    cases h
  registry := by
    intro location number h
    cases h

variable {h h' : Host} {location other : Location} {number : Nat} {e : Environment}

theorem registered?_eq_some_iff : h.registered? location = some (number, e) ↔
    h.registry.get? location = some number ∧
      ∃ opening, h.openings.get? number = some opening ∧ opening.environment = e := by
  simp only [registered?, Option.bind_eq_bind, Option.bind_eq_some_iff]
  constructor
  · rintro ⟨found, hregistry, opening, hopening, hpair⟩
    cases hpair
    exact ⟨hregistry, opening, hopening, rfl⟩
  · rintro ⟨hregistry, opening, hopening, rfl⟩
    exact ⟨number, hregistry, opening, hopening, rfl⟩

-- What is registered for a directory is up to its entry and to the opening that it tells.
theorem registered?_congr (hregistry : h'.registry.get? location = h.registry.get? location)
    (hopenings : ∀ number, h.registry.get? location = some number →
      h'.openings.get? number = h.openings.get? number) :
    h'.registered? location = h.registered? location := by
  rw [registered?, registered?, hregistry]
  cases hfound : h.registry.get? location with
  | none => rfl
  | some number => simp only [Option.bind_eq_bind, Option.bind_some, hopenings number hfound]

namespace Sound

-- Only the opening that is registered for a directory is one of it.
theorem registered?_iff (hs : h.Sound) : h.registered? location = some (number, e) ↔
    h.openings.get? number = some ⟨location, e⟩ := by
  rw [registered?_eq_some_iff]
  constructor
  · rintro ⟨hregistry, opening, hopening, rfl⟩
    obtain ⟨e, he⟩ := (hs.registry location number hregistry).1
    rw [hopening] at he
    cases he
    exact hopening
  · intro hopening
    exact ⟨(hs.openings number _ hopening).1, _, hopening, rfl⟩

theorem registered?_eq_none_iff (hs : h.Sound) :
    h.registered? location = none ↔ h.registry.get? location = none := by
  constructor
  · intro hnone
    cases hregistry : h.registry.get? location with
    | none => rfl
    | some number =>
      obtain ⟨e, hopening⟩ := (hs.registry location number hregistry).1
      rw [hs.registered?_iff.mpr hopening] at hnone
      cases hnone
  · intro hnone
    simp [registered?, hnone]

theorem eq_location (hs : h.Sound) (hregistry : h.registry.get? location = some number)
    (hother : h.registry.get? other = some number) : other = location := by
  obtain ⟨e, hopening⟩ := (hs.registry location number hregistry).1
  obtain ⟨e', hopening'⟩ := (hs.registry other number hother).1
  rw [hopening] at hopening'
  cases hopening'
  rfl

end Sound

section Keeps

theorem Sound.retires (hs : h.Sound) (hretires : h.Retires h') : h'.Sound := by
  cases hretires with
  | @retire location number e hregistry hopening hfree =>
    constructor
    · intro name held hheld
      obtain ⟨opening, hfound⟩ := hs.handles name held hheld
      have hne : held.number ≠ number := fun heq => hfree ⟨name, held, hheld, heq⟩
      exact ⟨opening, (OrderedMap.get?_erase_of_ne _ hne).trans hfound⟩
    · intro other opening hfound
      have hne : other ≠ number := by
        rintro rfl
        rw [retired, OrderedMap.get?_erase_self] at hfound
        cases hfound
      rw [retired, OrderedMap.get?_erase_of_ne _ hne] at hfound
      obtain ⟨hregistered, hlt⟩ := hs.openings other opening hfound
      have hlocation : opening.location ≠ location := by
        intro heq
        rw [heq, hregistry] at hregistered
        cases hregistered
        exact hne rfl
      exact ⟨(OrderedMap.get?_erase_of_ne _ hlocation).trans hregistered, hlt⟩
    · intro other found hfound
      have hlocation : other ≠ location := by
        rintro rfl
        rw [retired, OrderedMap.get?_erase_self] at hfound
        cases hfound
      rw [retired, OrderedMap.get?_erase_of_ne _ hlocation] at hfound
      obtain ⟨⟨e', he'⟩, hprepared⟩ := hs.registry other found hfound
      have hne : found ≠ number := by
        rintro rfl
        exact hlocation (hs.eq_location hregistry hfound)
      exact ⟨⟨e', (OrderedMap.get?_erase_of_ne _ hne).trans he'⟩, hprepared⟩

theorem Sound.moves (hs : h.Sound) (hmoves : h.Moves h') : h'.Sound := by
  cases hmoves with
  | extend hextends =>
    refine ⟨hs.handles, hs.openings, fun location number hfound => ?_⟩
    obtain ⟨hopening, hprepared⟩ := hs.registry location number hfound
    exact ⟨hopening, hprepared.mono hextends⟩
  | @take name held opening hopening =>
    refine ⟨fun other found hfound => ?_, hs.openings, hs.registry⟩
    by_cases heq : other = name
    · subst heq
      rw [OrderedMap.get?_insert_self] at hfound
      cases hfound
      exact ⟨opening, hopening⟩
    · rw [OrderedMap.get?_insert_of_ne _ _ heq] at hfound
      exact hs.handles other found hfound
  | drop name =>
    refine ⟨fun other found hfound => ?_, hs.openings, hs.registry⟩
    by_cases heq : other = name
    · subst heq
      rw [OrderedMap.get?_erase_self] at hfound
      cases hfound
    · rw [OrderedMap.get?_erase_of_ne _ heq] at hfound
      exact hs.handles other found hfound
  | @write number location e e' hopening hconfig =>
    have hother (other : Nat) (hne : other ≠ number) :
        (h.openings.insert number ⟨location, e'⟩).get? other = h.openings.get? other :=
      OrderedMap.get?_insert_of_ne _ _ hne
    have hself : (h.openings.insert number ⟨location, e'⟩).get? number = some ⟨location, e'⟩ :=
      OrderedMap.get?_insert_self _ _ _
    constructor
    · intro name held hheld
      by_cases heq : held.number = number
      · rw [heq]
        exact ⟨_, hself⟩
      · exact (hs.handles name held hheld).imp fun opening hfound =>
          (hother _ heq).trans hfound
    · intro other opening hfound
      by_cases heq : other = number
      · subst heq
        rw [hself] at hfound
        cases hfound
        exact hs.openings other ⟨location, e⟩ hopening
      · rw [hother other heq] at hfound
        exact hs.openings other opening hfound
    · intro place found hfound
      obtain ⟨⟨e₁, he₁⟩, hprepared⟩ := hs.registry place found hfound
      refine ⟨?_, hprepared⟩
      by_cases heq : found = number
      · subst heq
        rw [hopening] at he₁
        cases he₁
        exact ⟨e', hself⟩
      · exact ⟨e₁, (hother found heq).trans he₁⟩
  | retire hretires => exact hs.retires hretires

-- What is open had been opened with the same settings, under the same number.
theorem Sound.registered?_of_moves (hs : h.Sound) (hmoves : h.Moves h') {e' : Environment}
    (hregistered : h'.registered? location = some (number, e')) :
    ∃ e, h.registered? location = some (number, e) ∧ e'.config = e.config := by
  have hopening := (hs.moves hmoves).registered?_iff.mp hregistered
  cases hmoves with
  | extend hextends => exact ⟨e', hs.registered?_iff.mpr hopening, rfl⟩
  | take hheld => exact ⟨e', hs.registered?_iff.mpr hopening, rfl⟩
  | drop name => exact ⟨e', hs.registered?_iff.mpr hopening, rfl⟩
  | @write other place e₁ e₂ hbefore hconfig =>
    by_cases heq : number = other
    · subst heq
      rw [OrderedMap.get?_insert_self] at hopening
      cases hopening
      exact ⟨e₁, hs.registered?_iff.mpr hbefore, hconfig⟩
    · rw [OrderedMap.get?_insert_of_ne _ _ heq] at hopening
      exact ⟨e', hs.registered?_iff.mpr hopening, rfl⟩
  | retire hretires =>
    cases hretires with
    | @retire place other e₁ _ _ _ =>
      have hne : number ≠ other := by
        rintro rfl
        rw [retired, OrderedMap.get?_erase_self] at hopening
        cases hopening
      rw [retired, OrderedMap.get?_erase_of_ne _ hne] at hopening
      exact ⟨e', hs.registered?_iff.mpr hopening, rfl⟩

-- The tables of a directory that is not open stay at rest, and its files as they are.
theorem Sound.rests_of_moves (hs : h.Sound) (hmoves : h.Moves h')
    (hnone : h.registered? location = none) :
    h'.registered? location = none ∧ h'.atRest.get? location = h.atRest.get? location ∧
      h.tree.Extends h'.tree := by
  have hlater : h'.registered? location = none := by
    cases hfound : h'.registered? location with
    | none => rfl
    | some found =>
      obtain ⟨e, he, _⟩ := hs.registered?_of_moves hmoves hfound
      rw [hnone] at he
      cases he
  refine ⟨hlater, ?_⟩
  cases hmoves with
  | extend hextends => exact ⟨rfl, hextends⟩
  | take hheld => exact ⟨rfl, .refl _⟩
  | drop name => exact ⟨rfl, .refl _⟩
  | write hopening hconfig => exact ⟨rfl, .refl _⟩
  | retire hretires =>
    cases hretires with
    | @retire place number e hregistry _ _ =>
      refine ⟨OrderedMap.get?_insert_of_ne _ _ ?_, .refl _⟩
      rintro rfl
      rw [hs.registered?_eq_none_iff.mp hnone] at hregistry
      cases hregistry

-- What is registered stays so, or comes to rest because no handle stands for it.
theorem Sound.rests_of_retires (hs : h.Sound) (hretires : h.Retires h')
    (hregistered : h.registered? location = some (number, e)) :
    h'.registered? location = some (number, e) ∨
      ¬h.IsHeld number ∧ h'.registered? location = none ∧
        h'.atRest.get? location = some e.tables := by
  have hlater := hs.retires hretires
  have hopening := hs.registered?_iff.mp hregistered
  cases hretires with
  | @retire place other e' hregistry hother hfree =>
    by_cases heq : number = other
    · subst heq
      rw [hopening] at hother
      cases hother
      refine .inr ⟨hfree, ?_, OrderedMap.get?_insert_self _ _ _⟩
      exact hlater.registered?_eq_none_iff.mpr (OrderedMap.get?_erase_self _ _)
    · refine .inl (hlater.registered?_iff.mpr ?_)
      exact (OrderedMap.get?_erase_of_ne _ heq).trans hopening

theorem kept_of_retires (hretires : h.Retires h') :
    h'.handles = h.handles ∧ h'.tree = h.tree := by
  cases hretires
  exact ⟨rfl, rfl⟩

end Keeps

end Host

end LightningRecords
