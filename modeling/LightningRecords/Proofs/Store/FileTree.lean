import LightningRecords.Proofs.Except
import LightningRecords.Proofs.OrderedMap
import LightningRecords.Store.FileTree
import Mathlib.Data.List.Induction

namespace LightningRecords.FileTree

variable {t t' t'' : FileTree} {location other next : Location} {step path : String}
  {steps more : List String}

section Growth

-- More directories and files than before: what was there is there still, as it was, and there
-- are no more links.
structure Extends (t t' : FileTree) : Prop where
  root : t'.root = t.root
  home : t'.home = t.home
  kept : ∀ location node, t.node? location = some node → t'.node? location = some node
  links : ∀ location, t'.link? location = t.link? location

theorem Extends.refl (t : FileTree) : t.Extends t := ⟨rfl, rfl, fun _ _ h => h, fun _ => rfl⟩

theorem Extends.trans (h : t.Extends t') (h' : t'.Extends t'') : t.Extends t'' where
  root := h'.root.trans h.root
  home := h'.home.trans h.home
  kept := fun location node hnode => h'.kept location node (h.kept location node hnode)
  links := fun location => (h'.links location).trans (h.links location)

theorem Extends.node?_eq (h : t.Extends t') (hthere : t.isThere location = true) :
    t'.node? location = t.node? location := by
  obtain ⟨node, hnode⟩ := Option.isSome_iff_exists.mp hthere
  rw [hnode, h.kept location node hnode]

theorem Extends.isThere (h : t.Extends t') (hthere : t.isThere location = true) :
    t'.isThere location = true := by
  rw [FileTree.isThere, h.node?_eq hthere]
  exact hthere

theorem Extends.isFolder (h : t.Extends t') (hthere : t.isThere location = true) :
    t'.isFolder location = t.isFolder location := by
  rw [FileTree.isFolder, h.node?_eq hthere, FileTree.isFolder]

theorem isThere_of_isFolder (h : t.isFolder location = true) : t.isThere location = true := by
  unfold isFolder at h
  split at h
  · rename_i hnode
    rw [isThere, hnode, Option.isSome_some]
  · cases h

theorem link?_of_isFolder (h : t.isFolder location = true) : t.link? location = none := by
  unfold isFolder at h
  split at h
  · rename_i hnode
    rw [link?, hnode]
  · cases h

theorem Extends.isForeign (h : t.Extends t') (hthere : t.isThere location = true) :
    t'.isForeign location = t.isForeign location := by
  rw [FileTree.isForeign, h.node?_eq hthere, FileTree.isForeign]

theorem Extends.steps_eq (h : t.Extends t') (path : String) : t'.steps path = t.steps path := by
  unfold steps spell
  rw [h.root, h.home]

theorem node?_addNode (t : FileTree) (location : Location) (node : Node) (other : Location) :
    (t.addNode location node).node? other =
      if other = location then some node else t.node? other := by
  by_cases heq : other = location
  · subst heq
    simp [node?, addNode]
  · simp [node?, addNode, heq]

theorem isThere_eq_false_iff : t.isThere location = false ↔ t.node? location = none := by
  rw [isThere, Option.isSome_eq_false_iff, Option.isNone_iff_eq_none]

theorem extends_addNode {node : Node} (hnone : t.node? location = none)
    (hnode : ∀ target, node ≠ .link target) : t.Extends (t.addNode location node) where
  root := rfl
  home := rfl
  kept := by
    intro other found hfound
    rw [node?_addNode, if_neg]
    · exact hfound
    · rintro rfl
      rw [hnone] at hfound
      cases hfound
  links := by
    intro other
    rw [link?, node?_addNode]
    by_cases heq : other = location
    · rw [if_pos heq, heq, link?, hnone]
      cases node with
      | link target => exact absurd rfl (hnode target)
      | _ => rfl
    · rw [if_neg heq, link?]

theorem addFile_of_isThere (h : t.isThere location = true) : t.addFile location = t := if_pos h

theorem addFile_of_not_isThere (h : t.isThere location = false) :
    t.addFile location = t.addNode location (.file false) := by
  rw [addFile, h]
  rfl

theorem extends_addFile (t : FileTree) (location : Location) : t.Extends (t.addFile location) := by
  cases hthere : t.isThere location with
  | true =>
    rw [addFile_of_isThere hthere]
    exact .refl t
  | false =>
    rw [addFile_of_not_isThere hthere]
    exact extends_addNode (isThere_eq_false_iff.mp hthere) (by simp)

theorem node?_addFile (t : FileTree) (location other : Location) :
    (t.addFile location).node? other =
      if other = location ∧ t.isThere location = false then some (.file false)
      else t.node? other := by
  cases hthere : t.isThere location with
  | true => simp [addFile_of_isThere hthere]
  | false => simp [addFile_of_not_isThere hthere, node?_addNode]

theorem isThere_addFile (t : FileTree) (location : Location) :
    (t.addFile location).isThere location = true := by
  rw [isThere, node?_addFile]
  cases hthere : t.isThere location with
  | true => simpa [isThere] using hthere
  | false => simp

theorem isThere_addFile_of_ne (hne : other ≠ location) :
    (t.addFile location).isThere other = t.isThere other := by
  rw [isThere, node?_addFile, if_neg fun h => hne h.1, isThere]

-- A new file is no directory, and not foreign.
theorem isFolder_addFile (t : FileTree) (location other : Location) :
    (t.addFile location).isFolder other = t.isFolder other := by
  rw [isFolder, node?_addFile]
  split_ifs with hnew
  · rw [hnew.1, isFolder, isThere_eq_false_iff.mp hnew.2]
  · rw [isFolder]

theorem isSealed_addFile (t : FileTree) (location other : Location) :
    (t.addFile location).isSealed other = t.isSealed other := by
  rw [isSealed, node?_addFile]
  split_ifs with hnew
  · rw [hnew.1, isSealed, isThere_eq_false_iff.mp hnew.2]
    rfl
  · rw [isSealed]

theorem isForeign_addFile (t : FileTree) (location other : Location) :
    (t.addFile location).isForeign other = t.isForeign other := by
  rw [isForeign, node?_addFile]
  split_ifs with hnew
  · rw [hnew.1, isForeign, isThere_eq_false_iff.mp hnew.2]
    rfl
  · rw [isForeign]

end Growth

section Walks

theorem walkFrom_nil (t : FileTree) (left : Nat) (location : Location) :
    t.walkFrom left location [] = .ok (location, left) := by
  cases left <;> rfl

-- The first step of a walk, and what is left to walk after it.
theorem walkFrom_cons (t : FileTree) (left : Nat) (location : Location) (step : String)
    (rest : List String) :
    t.walkFrom left location (step :: rest) = (do
      let next ← t.follow location step
      match t.link? next with
      | some target =>
        match left with
        | 0 => .error .tooManyLinks
        | fewer + 1 => t.walkFrom fewer (linkStart location target) (stepsOf target ++ rest)
      | none => t.walkFrom left next rest) := by
  cases left <;> rfl

-- By induction on the links that are left, and then on the steps: those behind a link come
-- after the steps of the link.
theorem walkFrom_append (t : FileTree) (left : Nat) (location : Location)
    (steps more : List String) :
    t.walkFrom left location (steps ++ more) =
      (t.walkFrom left location steps >>= fun place => t.walkFrom place.2 place.1 more) := by
  induction left using Nat.strongRecOn generalizing location steps with
  | ind left ihlinks =>
    induction steps generalizing location with
    | nil =>
      rw [walkFrom_nil]
      rfl
    | cons step rest ih =>
      rw [List.cons_append, walkFrom_cons, walkFrom_cons]
      cases t.follow location step with
      | error fault => rfl
      | ok next =>
        simp only [bind, Except.bind]
        cases t.link? next with
        | none => exact ih next
        | some target =>
          cases left with
          | zero => rfl
          | succ fewer =>
            simp only [← List.append_assoc]
            exact ihlinks fewer (Nat.lt_succ_self fewer) _ _

theorem follow_eq_ok (h : t.follow location step = .ok next) : t.isFolder location = true ∧
    (step = "." ∧ next = location ∨ step = ".." ∧ next = location.dropLast ∨
      next = location ++ [step] ∧ t.isThere next = true) := by
  unfold follow at h
  split at h
  · cases h
  rename_i hfolder
  refine ⟨by simpa using hfolder, ?_⟩
  split at h
  · cases h
    exact .inl ⟨‹_›, rfl⟩
  split at h
  · cases h
    exact .inr (.inl ⟨‹_›, rfl⟩)
  split at h
  · cases h
  split at h
  · cases h
    exact .inr (.inr ⟨rfl, ‹_›⟩)
  · cases h

-- Only what is not there is missing.
theorem not_isThere_of_follow (h : t.follow location step = .error .missing) :
    t.isThere (location ++ [step]) = false := by
  unfold follow at h
  split at h
  · cases h
  split at h
  · cases h
  split at h
  · cases h
  split at h
  · cases h
  split at h
  · cases h
  · rename_i hnot
    simpa using hnot

theorem follow_mono (hextends : t.Extends t') (h : t.follow location step = .ok next) :
    t'.follow location step = .ok next := by
  obtain ⟨hfolder, _⟩ := follow_eq_ok h
  have hstill := (hextends.isFolder (isThere_of_isFolder hfolder)).trans hfolder
  unfold follow at h ⊢
  simp only [hfolder, hstill, Bool.not_true, Bool.false_eq_true, if_false] at h ⊢
  split at h
  · rwa [if_pos ‹_›]
  rw [if_neg ‹_›]
  split at h
  · rwa [if_pos ‹_›]
  rw [if_neg ‹_›]
  split at h
  · cases h
  rw [if_neg ‹_›]
  split at h
  · rwa [if_pos (hextends.isThere ‹_›)]
  · cases h

-- A walk that leads somewhere leads there still when there is more to be found.
theorem walkFrom_mono (hextends : t.Extends t') {left : Nat} {place : Location × Nat}
    (h : t.walkFrom left location steps = .ok place) :
    t'.walkFrom left location steps = .ok place := by
  induction left using Nat.strongRecOn generalizing location steps with
  | ind left ihlinks =>
    induction steps generalizing location with
    | nil =>
      rw [walkFrom_nil] at h ⊢
      exact h
    | cons step rest ih =>
      rw [walkFrom_cons] at h ⊢
      obtain ⟨next, hnext, h⟩ := bind_eq_ok_iff.mp h
      simp only [follow_mono hextends hnext, bind, Except.bind, hextends.links]
      cases hlink : t.link? next with
      | none =>
        rw [hlink] at h
        exact ih h
      | some target =>
        rw [hlink] at h
        cases left with
        | zero => cases h
        | succ fewer => exact ihlinks fewer (Nat.lt_succ_self fewer) h

theorem walk_eq_ok_iff : t.walk steps = .ok location ↔
    ∃ left, t.walkFrom maxLinks [] steps = .ok (location, left) := by
  unfold walk
  cases t.walkFrom maxLinks [] steps <;> simp [Except.map, Prod.ext_iff]

theorem walk_mono (hextends : t.Extends t') (h : t.walk steps = .ok location) :
    t'.walk steps = .ok location := by
  obtain ⟨left, hwalk⟩ := walk_eq_ok_iff.mp h
  exact walk_eq_ok_iff.mpr ⟨left, walkFrom_mono hextends hwalk⟩

theorem resolve_eq_ok_iff : t.resolve path = .ok location ↔
    ∃ steps, t.steps path = .ok steps ∧ t.walk steps = .ok location ∧
      (path.toList.getLast? = some '/' → t.isFolder location = true) := by
  simp only [resolve, bind_eq_ok_iff]
  constructor
  · rintro ⟨steps, hsteps, place, hwalk, h⟩
    split at h
    · cases h
    · rename_i hcase
      cases h
      exact ⟨steps, hsteps, hwalk, by simpa using hcase⟩
  · rintro ⟨steps, hsteps, hwalk, hfolder⟩
    refine ⟨steps, hsteps, location, hwalk, if_neg ?_⟩
    simpa using hfolder

theorem resolve_mono (hextends : t.Extends t') (h : t.resolve path = .ok location) :
    t'.resolve path = .ok location := by
  obtain ⟨steps, hsteps, hwalk, hfolder⟩ := resolve_eq_ok_iff.mp h
  refine resolve_eq_ok_iff.mpr
    ⟨steps, (hextends.steps_eq path).trans hsteps, walk_mono hextends hwalk, fun hslash => ?_⟩
  have hbefore := hfolder hslash
  exact (hextends.isFolder (isThere_of_isFolder hbefore)).trans hbefore

end Walks

section Folders

-- What leads somewhere leads to a directory before its last step.
theorem walk_concat {front : List String} (h : t.walk (front ++ [step]) = .ok location) :
    ∃ above next, t.walk front = .ok above ∧ t.follow above step = .ok next := by
  obtain ⟨left, hwalk⟩ := walk_eq_ok_iff.mp h
  rw [walkFrom_append] at hwalk
  obtain ⟨⟨above, fewer⟩, habove, hlast⟩ := bind_eq_ok_iff.mp hwalk
  rw [walkFrom_cons] at hlast
  obtain ⟨next, hnext, _⟩ := bind_eq_ok_iff.mp hlast
  exact ⟨above, next, walk_eq_ok_iff.mpr ⟨fewer, habove⟩, hnext⟩

-- What is made where a step led to nothing is what the step leads to.
theorem follow_addNode (h : t.follow location step = .error .missing) (node : Node) :
    (t.addNode (location ++ [step]) node).follow location step = .ok (location ++ [step]) := by
  have hne : location ≠ location ++ [step] := by simp
  have hsame : (t.addNode (location ++ [step]) node).isFolder location = t.isFolder location := by
    rw [isFolder, node?_addNode, if_neg hne, isFolder]
  have hthere : (t.addNode (location ++ [step]) node).isThere (location ++ [step]) = true := by
    rw [isThere, node?_addNode, if_pos rfl, Option.isSome_some]
  unfold follow at h ⊢
  rw [hsame, hthere]
  split at h
  · cases h
  rw [if_neg ‹_›]
  split at h
  · cases h
  rw [if_neg ‹_›]
  split at h
  · cases h
  rw [if_neg ‹_›]
  split at h
  · cases h
  rw [if_neg ‹_›, if_pos rfl]

theorem walk_addNode {front : List String} {above : Location} {isSealed : Bool}
    (habove : t.walk front = .ok above) (hmissing : t.follow above step = .error .missing) :
    (t.addNode (above ++ [step]) (.folder isSealed)).walk (front ++ [step]) =
      .ok (above ++ [step]) := by
  have hnone := isThere_eq_false_iff.mp (not_isThere_of_follow hmissing)
  have hextends : t.Extends (t.addNode (above ++ [step]) (.folder isSealed)) :=
    extends_addNode hnone (by simp)
  have hlink : (t.addNode (above ++ [step]) (.folder isSealed)).link? (above ++ [step]) = none := by
    rw [link?, node?_addNode, if_pos rfl]
  obtain ⟨left, hwalk⟩ := walk_eq_ok_iff.mp habove
  refine walk_eq_ok_iff.mpr ⟨left, ?_⟩
  rw [walkFrom_append, walkFrom_mono hextends hwalk]
  simp only [bind, Except.bind, walkFrom_cons, follow_addNode hmissing, hlink, walkFrom_nil]

theorem vacancy_eq_ok (h : t.vacancy steps = .ok location) :
    ∃ front step above, steps = front ++ [step] ∧ location = above ++ [step] ∧
      t.walk front = .ok above ∧ t.follow above step = .error .missing := by
  unfold vacancy at h
  split at h
  · cases h
  · rename_i step hlast
    obtain ⟨above, habove, h⟩ := bind_eq_ok_iff.mp h
    have hsteps : steps = steps.dropLast ++ [step] :=
      (List.dropLast_append_getLast? step hlast).symm
    split at h
    · cases h
    · rename_i hmissing
      split at h
      · cases h
      · cases h
        exact ⟨steps.dropLast, step, above, hsteps, rfl, habove, hmissing⟩
    · cases h

theorem extends_ensureFolder (h : t.ensureFolder steps = .ok t') : t.Extends t' := by
  unfold ensureFolder at h
  split at h
  · rename_i hvacant
    cases h
    obtain ⟨_, _, _, _, rfl, _, hmissing⟩ := vacancy_eq_ok hvacant
    exact extends_addNode (isThere_eq_false_iff.mp (not_isThere_of_follow hmissing)) (by simp)
  · split at h <;> cases h
    exact .refl t

theorem extends_ensureLineage (t : FileTree) (lineage : List (List String)) :
    t.Extends (t.ensureLineage lineage).2 := by
  induction lineage with
  | nil => exact .refl t
  | cons steps above ih =>
    unfold ensureLineage
    split
    · rename_i hmade
      exact extends_ensureFolder hmade
    · split
      · rename_i habove
        rw [habove] at ih
        exact ih
      · rename_i habove
        rw [habove] at ih
        split
        · rename_i hmade
          exact ih.trans (extends_ensureFolder hmade)
        · exact ih
    · exact .refl t

theorem extends_reach (t : FileTree) (path : String) : t.Extends (t.reach path).2 := by
  unfold reach
  split
  · exact .refl t
  · rename_i steps _
    have hextends := t.extends_ensureLineage (lineage steps)
    split
    · rename_i hmade
      rw [hmade] at hextends
      exact hextends
    · rename_i hmade
      rw [hmade] at hextends
      exact hextends

theorem leadsToFolder_iff : t.leadsToFolder steps = true ↔
    ∃ location, t.walk steps = .ok location ∧ t.isFolder location = true := by
  unfold leadsToFolder
  cases t.walk steps <;> simp

-- There is no place for a directory where one can be walked to.
theorem ensureFolder_of_walk (h : t.walk steps = .ok location)
    (hfolder : t.isFolder location = true) : t.ensureFolder steps = .ok t := by
  have hleads : t.leadsToFolder steps = true := leadsToFolder_iff.mpr ⟨location, h, hfolder⟩
  have hvacancy : t.vacancy steps = .error .alreadyExists := by
    rcases List.eq_nil_or_concat' steps with rfl | ⟨front, step, rfl⟩
    · rfl
    · obtain ⟨above, next, habove, hnext⟩ := walk_concat h
      simp only [vacancy, List.getLast?_concat, List.dropLast_concat, habove, bind, Except.bind,
        hnext]
  rw [ensureFolder, hvacancy]
  simp only [hleads, if_true]

-- A directory that is made can be walked to.
theorem leadsToFolder_of_ensureFolder (h : t.ensureFolder steps = .ok t') :
    t'.leadsToFolder steps = true := by
  unfold ensureFolder at h
  split at h
  · rename_i hvacant
    cases h
    obtain ⟨front, step, above, rfl, rfl, habove, hmissing⟩ := vacancy_eq_ok hvacant
    refine leadsToFolder_iff.mpr ⟨_, walk_addNode habove hmissing, ?_⟩
    rw [isFolder, node?_addNode, if_pos rfl]
  · split at h
    · cases h
      assumption
    · cases h

theorem leadsToFolder_of_ensureLineage {above : List (List String)}
    (h : t.ensureLineage (steps :: above) = (.ok (), t')) : t'.leadsToFolder steps = true := by
  unfold ensureLineage at h
  split at h
  · rename_i hmade
    cases h
    exact leadsToFolder_of_ensureFolder hmade
  · split at h
    · cases h
    · split at h
      · rename_i hmade
        cases h
        exact leadsToFolder_of_ensureFolder hmade
      · cases h
  · cases h

-- Any path to a directory that is there reaches it, and nothing is made.
theorem reach_of_resolve (h : t.resolve path = .ok location)
    (hfolder : t.isFolder location = true) : t.reach path = (.ok location, t) := by
  obtain ⟨steps, hsteps, hwalk, _⟩ := resolve_eq_ok_iff.mp h
  simp only [reach, hsteps, lineage, ensureLineage, ensureFolder_of_walk hwalk hfolder, hwalk]

-- What is reached is a directory, and the path leads to it from then on.
theorem resolve_of_reach (h : (t.reach path).1 = .ok location) :
    (t.reach path).2.resolve path = .ok location ∧ (t.reach path).2.isFolder location = true := by
  have hsame := (t.extends_reach path).steps_eq path
  rw [resolve_eq_ok_iff, hsame]
  unfold reach at h ⊢
  split at h
  · cases h
  · rename_i steps hsteps
    split at h
    · cases h
    · rename_i made hmade
      obtain ⟨place, hwalk, hfolder⟩ := leadsToFolder_iff.mp (leadsToFolder_of_ensureLineage hmade)
      rw [hwalk] at h
      cases h
      rw [hsteps]
      exact ⟨⟨steps, rfl, hwalk, fun _ => hfolder⟩, hfolder⟩

end Folders

section NewFolders

variable {above : Location} {front names : List String} {name : String} {left : Nat}

-- A step that can only lead to an entry of a directory.
def IsName (step : String) : Prop := step ≠ "." ∧ step ≠ ".." ∧ step.utf8ByteSize ≤ maxName

-- Names that lead from a directory, in which something can be made, to nothing yet.
structure Unmade (t : FileTree) (above : Location) (names : List String) : Prop where
  folder : t.isFolder above = true
  writable : t.isSealed above = false
  plain : ∀ name ∈ names, IsName name
  vacant : ∀ first, first <+: names → first ≠ [] → t.isThere (above ++ first) = false

-- The same tree with the directories on the way, and nothing else.
structure Made (t t' : FileTree) (above : Location) (names : List String) : Prop where
  grown : t.Extends t'
  walks : ∀ left, t'.walkFrom left above names = .ok (above ++ names, left)
  folder : t'.isFolder (above ++ names) = true
  writable : t'.isSealed (above ++ names) = false
  only : ∀ other, t'.isThere other = true → t.isThere other = true ∨ other <+: above ++ names

theorem Unmade.init (h : t.Unmade above (names ++ [name])) : t.Unmade above names where
  folder := h.folder
  writable := h.writable
  plain := fun other hother => h.plain other (List.mem_append_left _ hother)
  vacant := fun first hfirst => h.vacant first (hfirst.trans (List.prefix_append _ _))

theorem Unmade.made_nil (h : t.Unmade above []) : t.Made t above [] where
  grown := .refl t
  walks := fun left => by rw [walkFrom_nil, List.append_nil]
  folder := by
    rw [List.append_nil]
    exact h.folder
  writable := by
    rw [List.append_nil]
    exact h.writable
  only := fun _ hthere => .inl hthere

theorem follow_of_vacant (hfolder : t.isFolder location = true) (hname : IsName step)
    (hnot : t.isThere (location ++ [step]) = false) :
    t.follow location step = .error .missing := by
  obtain ⟨hdot, hup, hsize⟩ := hname
  simp [follow, hfolder, hdot, hup, Nat.not_lt.mpr hsize, hnot]

-- The next name leads to nothing even when the directories before it are made.
theorem Made.follow_last (h : t.Made t' above names) (hu : t.Unmade above (names ++ [name])) :
    t'.follow (above ++ names) name = .error .missing := by
  refine follow_of_vacant h.folder (hu.plain name (by simp)) ?_
  rw [Bool.eq_false_iff]
  intro hthere
  rcases h.only _ hthere with hbefore | hprefix
  · rw [List.append_assoc, hu.vacant _ (List.prefix_refl _) (by simp)] at hbefore
    cases hbefore
  · have hlength := hprefix.length_le
    simp only [List.length_append, List.length_singleton] at hlength
    omega

theorem Made.concat (h : t.Made t' above names) (hu : t.Unmade above (names ++ [name])) :
    t.Made (t'.addNode (above ++ names ++ [name]) (.folder false)) above (names ++ [name]) := by
  have hmissing := h.follow_last hu
  have hnone := isThere_eq_false_iff.mp (not_isThere_of_follow hmissing)
  have hextends : t'.Extends (t'.addNode (above ++ names ++ [name]) (.folder false)) :=
    extends_addNode hnone (by simp)
  have hnode : (t'.addNode (above ++ names ++ [name]) (.folder false)).node?
      (above ++ names ++ [name]) = some (.folder false) := by
    rw [node?_addNode, if_pos rfl]
  rw [List.append_assoc] at hnode hextends ⊢
  constructor
  · exact h.grown.trans hextends
  · intro left
    rw [walkFrom_append, walkFrom_mono hextends (h.walks left)]
    have hfollow := follow_addNode (h.follow_last hu) (.folder false)
    rw [List.append_assoc] at hfollow
    simp only [bind, Except.bind, walkFrom_cons, hfollow, link?, hnode, walkFrom_nil]
  · rw [isFolder, hnode]
  · rw [isSealed, hnode]
    rfl
  · intro other hthere
    rw [isThere, node?_addNode] at hthere
    split_ifs at hthere with heq
    · exact .inr (heq ▸ List.prefix_refl _)
    · refine (h.only other hthere).imp_right fun hprefix => hprefix.trans ?_
      rw [← List.append_assoc]
      exact List.prefix_append _ _

theorem Made.ensureFolder (h : t.Made t' above names) (hu : t.Unmade above (names ++ [name]))
    (hwalk : t.walkFrom maxLinks [] front = .ok (above, left)) :
    t'.ensureFolder (front ++ (names ++ [name])) =
      .ok (t'.addNode (above ++ names ++ [name]) (.folder false)) := by
  have habove : t'.walk (front ++ names) = .ok (above ++ names) := by
    refine walk_eq_ok_iff.mpr ⟨left, ?_⟩
    rw [walkFrom_append, walkFrom_mono h.grown hwalk]
    exact h.walks left
  rw [← List.append_assoc]
  simp [FileTree.ensureFolder, vacancy, habove, h.follow_last hu, h.writable, bind, Except.bind]

-- Before the directories above are made there is no place for the last.
theorem ensureFolder_of_unmade (hu : t.Unmade above (names ++ [name])) (hnames : names ≠ [])
    (hwalk : t.walkFrom maxLinks [] front = .ok (above, left)) :
    t.ensureFolder (front ++ (names ++ [name])) = .error .missing := by
  obtain ⟨first, rest, rfl⟩ := List.exists_cons_of_ne_nil hnames
  have hfollow : t.follow above first = .error .missing :=
    follow_of_vacant hu.folder (hu.plain first (by simp))
      (hu.vacant [first] (by simp) (by simp))
  have hlost (more : List String) : t.walk (front ++ first :: more) = .error .missing := by
    rw [walk, walkFrom_append, hwalk]
    simp only [bind, Except.bind, walkFrom_cons, hfollow, Except.map]
  have hvacancy : t.vacancy (front ++ (first :: rest ++ [name])) = .error .missing := by
    have hbefore := hlost rest
    rw [← List.append_assoc, vacancy, List.getLast?_concat, List.dropLast_concat]
    simp only [hbefore, bind, Except.bind]
  have hleads : t.leadsToFolder (front ++ (first :: rest ++ [name])) = false := by
    have hbefore := hlost (rest ++ [name])
    simp [leadsToFolder, hbefore]
  simp only [FileTree.ensureFolder, hvacancy, hleads]
  rfl

-- If the directories above can be made, so can the last.
theorem Made.ensureLineage {lineage : List (List String)} (h : t.Made t' above names)
    (hu : t.Unmade above (names ++ [name]))
    (hwalk : t.walkFrom maxLinks [] front = .ok (above, left))
    (hlineage : t.ensureLineage lineage = (.ok (), t')) : ∃ t'',
      t.ensureLineage ((front ++ (names ++ [name])) :: lineage) = (.ok (), t'') ∧
      t.Made t'' above (names ++ [name]) := by
  rcases eq_or_ne names [] with rfl | hnames
  · have hmade := hu.init.made_nil
    refine ⟨_, ?_, hmade.concat hu⟩
    simp only [FileTree.ensureLineage, hmade.ensureFolder hu hwalk]
  · refine ⟨_, ?_, h.concat hu⟩
    simp only [FileTree.ensureLineage, ensureFolder_of_unmade hu hnames hwalk, hlineage,
      h.ensureFolder hu hwalk]

theorem ensureLineage_of_unmade (hu : t.Unmade above names)
    (hwalk : t.walkFrom maxLinks [] front = .ok (above, left)) : ∃ t',
      t.ensureLineage (beginnings (front ++ names).reverse) = (.ok (), t') ∧
      t.Made t' above names := by
  induction names using List.reverseRecOn with
  | nil =>
    refine ⟨t, ?_, hu.made_nil⟩
    have hfront : t.walk front = .ok above := walk_eq_ok_iff.mpr ⟨left, hwalk⟩
    rw [List.append_nil]
    rcases List.eq_nil_or_concat' front with rfl | ⟨init, last, rfl⟩
    · rfl
    · have hensure := ensureFolder_of_walk hfront hu.folder
      simp [beginnings, FileTree.ensureLineage, hensure]
  | append_singleton names name ih =>
    obtain ⟨t', hlineage, hmade⟩ := ih hu.init
    have hbeginnings : beginnings (front ++ (names ++ [name])).reverse =
        (front ++ (names ++ [name])) :: beginnings (front ++ names).reverse := by
      simp [beginnings]
    rw [hbeginnings]
    exact hmade.ensureLineage hu hwalk hlineage

-- A `.` leads nowhere else.
theorem walkFrom_dot {place : Location × Nat}
    (h : t.walkFrom left location ["."] = .ok place) : place = (location, left) := by
  rw [walkFrom_cons] at h
  obtain ⟨next, hfollow, h⟩ := bind_eq_ok_iff.mp h
  obtain ⟨hfolder, _⟩ := follow_eq_ok hfollow
  have hsame : t.follow location "." = .ok location := by simp [follow, hfolder]
  obtain rfl : location = next := Except.ok.inj (hsame.symm.trans hfollow)
  rw [link?_of_isFolder hfolder, walkFrom_nil] at h
  exact (Except.ok.inj h).symm

theorem walkFrom_filter {place : Location × Nat} (h : t.walkFrom left location steps = .ok place) :
    t.walkFrom left location (steps.filter (· != ".")) = .ok place := by
  induction steps generalizing left location with
  | nil => exact h
  | cons step rest ih =>
    rw [← List.singleton_append, walkFrom_append] at h
    obtain ⟨⟨next, fewer⟩, hfirst, hrest⟩ := bind_eq_ok_iff.mp h
    by_cases hdot : step = "."
    · subst hdot
      cases walkFrom_dot hfirst
      simpa using ih hrest
    · have hkept : (step :: rest).filter (· != ".") = [step] ++ rest.filter (· != ".") := by
        simp [hdot]
      rw [hkept, walkFrom_append, hfirst]
      exact ih hrest

-- A path to directories that are not there yet makes them, one below the other.
theorem reach_of_unmade (hsteps : t.steps path = .ok (front ++ names))
    (hwalk : t.walk front = .ok above) (hu : t.Unmade above names) :
    (t.reach path).1 = .ok (above ++ names) ∧ t.Made (t.reach path).2 above names := by
  obtain ⟨left, hwalk⟩ := walk_eq_ok_iff.mp hwalk
  rcases List.eq_nil_or_concat' names with rfl | ⟨init, last, rfl⟩
  · rw [List.append_nil] at hsteps
    have hresolve : t.resolve path = .ok above := resolve_eq_ok_iff.mpr
      ⟨front, hsteps, walk_eq_ok_iff.mpr ⟨left, hwalk⟩, fun _ => hu.folder⟩
    rw [reach_of_resolve hresolve hu.folder]
    exact ⟨by rw [List.append_nil], hu.made_nil⟩
  · have hnames : (init ++ [last]).filter (· != ".") = init ++ [last] :=
      List.filter_eq_self.mpr fun name hname => by simpa using (hu.plain name hname).1
    have hlineage : lineage (front ++ (init ++ [last])) =
        (front ++ (init ++ [last])) ::
          beginnings (front.filter (· != ".") ++ init).reverse := by
      rw [lineage, List.filter_append, hnames]
      simp
    obtain ⟨t', habove, hmade⟩ := ensureLineage_of_unmade hu.init (walkFrom_filter hwalk)
    obtain ⟨t'', hall, hmade⟩ := hmade.ensureLineage hu hwalk habove
    have hend : t''.walk (front ++ (init ++ [last])) = .ok (above ++ (init ++ [last])) := by
      refine walk_eq_ok_iff.mpr ⟨left, ?_⟩
      rw [walkFrom_append, walkFrom_mono hmade.grown hwalk]
      exact hmade.walks left
    have hreach : t.reach path = (.ok (above ++ (init ++ [last])), t'') := by
      simp only [reach, hsteps, hlineage, hall, hend]
    rw [hreach]
    exact ⟨rfl, hmade⟩

end NewFolders

-- Every path to a directory reaches it, however it is spelled. What is not there yet is made
-- on the way, and nothing else becomes of the paths that led somewhere before.
structure Reaches (t : FileTree) : Prop where
  known : ∀ path location, t.resolve path = .ok location → t.isFolder location = true →
    t.reach path = (.ok location, t)
  unmade : ∀ path front names above, t.steps path = .ok (front ++ names) →
    t.walk front = .ok above → t.Unmade above names →
    (t.reach path).1 = .ok (above ++ names) ∧ t.Made (t.reach path).2 above names
  resolved : ∀ path location, (t.reach path).1 = .ok location →
    (t.reach path).2.resolve path = .ok location ∧ (t.reach path).2.isFolder location = true
  kept : ∀ path, t.Extends (t.reach path).2
  steady : ∀ path other location, t.resolve other = .ok location →
    (t.reach path).2.resolve other = .ok location

theorem reaches (t : FileTree) : t.Reaches where
  known := fun _ _ => reach_of_resolve
  unmade := fun _ _ _ _ => reach_of_unmade
  resolved := fun _ _ => resolve_of_reach
  kept := t.extends_reach
  steady := fun path _ _ => resolve_mono (t.extends_reach path)

end LightningRecords.FileTree
