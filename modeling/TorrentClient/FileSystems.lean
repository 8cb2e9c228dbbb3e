import Mathlib.Data.List.Basic
import Mathlib.Data.Set.Insert

/-!
# A disk and the files that are open on it

Each place on a disk holds nothing, a directory or a file. A file is known by a handle, which
stays good when the file gets another place and when another file takes its place. A path passes
through directories to its target.
-/
namespace FileSystems

inductive Node where
  | directory
  | file (handle : ℕ)
  deriving DecidableEq

inductive Failure where
  | notFound
  | notDirectory
  | isDirectory
  deriving DecidableEq

structure Path (π : Type) where
  parents : List π
  target : π

/-- No file has two places, and no handle that is in use is given out again. -/
structure Disk (π β : Type) where
  node : π → Option Node
  content : ℕ → List β
  next : ℕ
  handle_lt : ∀ p h, node p = some (.file h) → h < next
  handle_inj : ∀ p q h, node p = some (.file h) → node q = some (.file h) → p = q

/-- What can be seen at a place. -/
inductive Entry (β : Type) where
  | directory
  | file (content : List β)

namespace Disk

variable {π β : Type} {d d' : Disk π β} {p q : π} {h : ℕ}

def entry (d : Disk π β) (p : π) : Option (Entry β) :=
  match d.node p with
  | none => none
  | some .directory => some .directory
  | some (.file h) => some (.file (d.content h))

/-- The same things are at all places but some. -/
def SameOutside (places : Set π) (d d' : Disk π β) : Prop :=
  ∀ p, p ∉ places →
    d'.node p = d.node p ∧ ∀ h, d.node p = some (.file h) → d'.content h = d.content h

variable {places places' : Set π}

theorem SameOutside.refl (places : Set π) (d : Disk π β) : SameOutside places d d :=
  fun _ _ => ⟨rfl, fun _ _ => rfl⟩

theorem SameOutside.trans {d'' : Disk π β} (h : SameOutside places d d')
    (h' : SameOutside places d' d'') : SameOutside places d d'' := by
  intro p hp
  obtain ⟨hnode, hcontent⟩ := h p hp
  obtain ⟨hnode', hcontent'⟩ := h' p hp
  refine ⟨hnode'.trans hnode, fun k hk => ?_⟩
  exact (hcontent' k (hnode.trans hk)).trans (hcontent k hk)

theorem SameOutside.mono (h : SameOutside places d d') (hsub : places ⊆ places') :
    SameOutside places' d d' := fun p hp => h p fun hmem => hp (hsub hmem)

theorem SameOutside.trans_union {d'' : Disk π β} (h : SameOutside places d d')
    (h' : SameOutside places' d' d'') : SameOutside (places ∪ places') d d'' :=
  (h.mono Set.subset_union_left).trans (h'.mono Set.subset_union_right)

theorem SameOutside.entry_eq (h : SameOutside places d d') (hp : p ∉ places) :
    d'.entry p = d.entry p := by
  obtain ⟨hnode, hcontent⟩ := h p hp
  rw [entry, entry, hnode]
  cases hd : d.node p with
  | none => rfl
  | some node =>
    cases node with
    | directory => rfl
    | file k => exact congrArg (fun xs => some (Entry.file xs)) (hcontent k hd)

theorem entry_of_file (hp : d.node p = some (.file h)) :
    d.entry p = some (.file (d.content h)) := by
  rw [entry, hp]

def modify (d : Disk π β) (h : ℕ) (f : List β → List β) : Disk π β :=
  { d with content := fun k => if k = h then f (d.content h) else d.content k }

@[simp] theorem node_modify (f : List β → List β) : (d.modify h f).node = d.node := rfl

@[simp] theorem content_modify (f : List β → List β) :
    (d.modify h f).content h = f (d.content h) := if_pos rfl

theorem content_modify_of_ne (f : List β → List β) {k : ℕ} (hne : k ≠ h) :
    (d.modify h f).content k = d.content k := if_neg hne

/-- A file that is written to changes at its own place only. -/
theorem sameOutside_modify (f : List β → List β) (hp : d.node p = some (.file h)) :
    SameOutside {p} d (d.modify h f) := by
  refine fun q hq => ⟨rfl, fun k hk => content_modify_of_ne f ?_⟩
  rintro rfl
  exact hq (d.handle_inj q p k hk hp)

/-- The contents behind different handles when one of them is written to. -/
theorem map_content_modify {handles : List ℕ} {i : ℕ} (hi : handles[i]? = some h)
    (hnodup : handles.Nodup) (f : List β → List β) :
    handles.map (d.modify h f).content = (handles.map d.content).set i (f (d.content h)) := by
  apply List.ext_getElem?
  intro j
  obtain ⟨hlt, hget⟩ := List.getElem?_eq_some_iff.mp hi
  rw [List.getElem?_map, List.getElem?_set, List.getElem?_map, List.length_map]
  by_cases hij : i = j
  · subst hij
    rw [if_pos rfl, if_pos hlt, hi, Option.map_some, content_modify]
  · rw [if_neg hij]
    cases hj : handles[j]? with
    | none => rfl
    | some k =>
      have hne : k ≠ h := by
        rintro rfl
        exact hij ((List.getElem?_inj hlt hnodup).mp (hi.trans hj.symm))
      rw [Option.map_some, Option.map_some, content_modify_of_ne f hne]

/-- Each of the places is a directory. -/
def walk (d : Disk π β) : List π → Except Failure Unit
  | [] => .ok ()
  | p :: parents =>
    match d.node p with
    | some .directory => d.walk parents
    | some (.file _) => .error .notDirectory
    | none => .error .notFound

theorem walk_eq_ok {parents : List π} :
    d.walk parents = .ok () ↔ ∀ p ∈ parents, d.node p = some .directory := by
  induction parents with
  | nil => simp [walk]
  | cons p parents ih =>
    rw [walk, List.forall_mem_cons]
    cases d.node p with
    | none => simp
    | some node =>
      cases node with
      | directory => simp [ih]
      | file h => simp

variable [DecidableEq π]

/-- A new place is taken. -/
def makeDirectory (d : Disk π β) (p : π) : Disk π β where
  node := fun q => if q = p then some .directory else d.node q
  content := d.content
  next := d.next
  handle_lt := by
    intro q h hq
    split_ifs at hq
    · cases hq
    · exact d.handle_lt q h hq
  handle_inj := by
    intro q r h hq hr
    split_ifs at hq hr
    · cases hq
    · cases hq
    · cases hr
    · exact d.handle_inj q r h hq hr

theorem node_makeDirectory (d : Disk π β) (p q : π) :
    (d.makeDirectory p).node q = if q = p then some .directory else d.node q := rfl

/-- Directories are made where there are none. -/
def makeDirectories (d : Disk π β) : List π → Except Failure (Disk π β)
  | [] => .ok d
  | p :: parents =>
    match d.node p with
    | some .directory => d.makeDirectories parents
    | some (.file _) => .error .notDirectory
    | none => (d.makeDirectory p).makeDirectories parents

theorem sameOutside_makeDirectory (d : Disk π β) (p : π) :
    SameOutside {p} d (d.makeDirectory p) :=
  fun _ hq => ⟨if_neg hq, fun _ _ => rfl⟩

theorem makeDirectories_eq_ok {parents : List π}
    (hfree : ∀ p ∈ parents, ∀ h, d.node p ≠ some (.file h)) :
    ∃ d', d.makeDirectories parents = .ok d' ∧ (∀ p ∈ parents, d'.node p = some .directory) ∧
      (∀ p, d.node p = some .directory → d'.node p = some .directory) ∧
      SameOutside {p | p ∈ parents} d d' := by
  induction parents generalizing d with
  | nil => exact ⟨d, rfl, List.forall_mem_nil _, fun _ hp => hp, .refl _ d⟩
  | cons p parents ih =>
    obtain ⟨hp, hrest⟩ := List.forall_mem_cons.mp hfree
    have hsub : {q | q ∈ parents} ⊆ {q | q ∈ p :: parents} := fun q hq => List.mem_cons_of_mem p hq
    rw [makeDirectories]
    cases hnode : d.node p with
    | none =>
      have hstill : ∀ q ∈ parents, ∀ h, (d.makeDirectory p).node q ≠ some (.file h) := by
        intro q hq h hfile
        rw [node_makeDirectory] at hfile
        split_ifs at hfile
        · cases hfile
        · exact hrest q hq h hfile
      obtain ⟨d', hd', hmade, hkept, hsame⟩ := ih hstill
      refine ⟨d', hd', List.forall_mem_cons.mpr ⟨hkept p (if_pos rfl), hmade⟩, ?_, ?_⟩
      · intro q hq
        refine hkept q ?_
        rw [node_makeDirectory, hq]
        split_ifs <;> rfl
      · refine ((sameOutside_makeDirectory d p).mono ?_).trans (hsame.mono hsub)
        exact Set.singleton_subset_iff.mpr List.mem_cons_self
    | some node =>
      cases node with
      | file h => exact absurd hnode (hp h)
      | directory =>
        obtain ⟨d', hd', hmade, hkept, hsame⟩ := ih hrest
        exact ⟨d', hd', List.forall_mem_cons.mpr ⟨hkept p hnode, hmade⟩, hkept, hsame.mono hsub⟩

/-- A new empty file. -/
def createFile (d : Disk π β) (p : π) : Disk π β where
  node := fun q => if q = p then some (.file d.next) else d.node q
  content := fun k => if k = d.next then [] else d.content k
  next := d.next + 1
  handle_lt := by
    intro q h hq
    split_ifs at hq
    · cases hq
      exact Nat.lt_succ_self _
    · exact Nat.lt_succ_of_lt (d.handle_lt q h hq)
  handle_inj := by
    intro q r h hq hr
    split_ifs at hq hr with hqp hrp hrp
    · rw [hqp, hrp]
    · cases hq
      exact absurd (d.handle_lt r _ hr) (Nat.lt_irrefl _)
    · cases hr
      exact absurd (d.handle_lt q _ hq) (Nat.lt_irrefl _)
    · exact d.handle_inj q r h hq hr

theorem node_createFile (d : Disk π β) (p q : π) :
    (d.createFile p).node q = if q = p then some (.file d.next) else d.node q := rfl

theorem sameOutside_createFile (d : Disk π β) (p : π) : SameOutside {p} d (d.createFile p) := by
  refine fun q hq => ⟨if_neg hq, fun k hk => if_neg ?_⟩
  rintro rfl
  exact Nat.lt_irrefl _ (d.handle_lt q _ hk)

/-- `open` with `create`: the handle of the file, which is made if there is none. -/
def openFile (d : Disk π β) (path : Path π) : Except Failure (ℕ × Disk π β) := do
  d.walk path.parents
  match d.node path.target with
  | some (.file h) => return (h, d)
  | some .directory => .error .isDirectory
  | none => return (d.next, d.createFile path.target)

theorem openFile_of_file {path : Path π} (hwalk : d.walk path.parents = .ok ())
    (hfile : d.node path.target = some (.file h)) : d.openFile path = .ok (h, d) := by
  rw [openFile, hwalk, hfile]
  rfl

theorem openFile_of_none {path : Path π} (hwalk : d.walk path.parents = .ok ())
    (hnone : d.node path.target = none) :
    d.openFile path = .ok (d.next, d.createFile path.target) := by
  rw [openFile, hwalk, hnone]
  rfl

/-- A file that is seen after a move is the moved one, or was there before. -/
theorem file_of_moved {node : π → Option Node} {r : π}
    (hr : (if r = q then node p else if r = p then none else node r) = some (.file h)) :
    (r = q ∧ node p = some (.file h)) ∨ (r ≠ p ∧ node r = some (.file h)) := by
  split_ifs at hr with hrq hrp
  · exact Or.inl ⟨hrq, hr⟩
  · exact Or.inr ⟨hrp, hr⟩

/-- What is at a place goes to another one; what was there is there no more. -/
def moveFile (d : Disk π β) (p q : π) : Disk π β where
  node := fun r => if r = q then d.node p else if r = p then none else d.node r
  content := d.content
  next := d.next
  handle_lt := by
    intro r h hr
    rcases file_of_moved hr with ⟨-, hp⟩ | ⟨-, hr⟩
    · exact d.handle_lt p h hp
    · exact d.handle_lt r h hr
  handle_inj := by
    intro r r' h hr hr'
    rcases file_of_moved hr with ⟨hq, hp⟩ | ⟨hne, hold⟩
    · rcases file_of_moved hr' with ⟨hq', -⟩ | ⟨hne', hold'⟩
      · rw [hq, hq']
      · exact absurd (d.handle_inj r' p h hold' hp) hne'
    · rcases file_of_moved hr' with ⟨-, hp⟩ | ⟨-, hold'⟩
      · exact absurd (d.handle_inj r p h hold hp) hne
      · exact d.handle_inj r r' h hold hold'

theorem node_moveFile (d : Disk π β) (p q r : π) :
    (d.moveFile p q).node r = if r = q then d.node p else if r = p then none else d.node r := rfl

theorem sameOutside_moveFile (d : Disk π β) (p q : π) :
    SameOutside {p, q} d (d.moveFile p q) := by
  intro r hr
  obtain ⟨hp, hq⟩ := not_or.mp hr
  exact ⟨(if_neg hq).trans (if_neg hp), fun _ _ => rfl⟩

/-- `rename` of a file. -/
def renameFile (d : Disk π β) (old new : Path π) : Except Failure (Disk π β) := do
  d.walk old.parents
  d.walk new.parents
  match d.node old.target, d.node new.target with
  | none, _ => .error .notFound
  | some .directory, _ => .error .isDirectory
  | some (.file _), some .directory => .error .isDirectory
  | some (.file _), _ => return d.moveFile old.target new.target

theorem renameFile_of_file {old new : Path π} (hold : d.walk old.parents = .ok ())
    (hnew : d.walk new.parents = .ok ()) (hfile : d.node old.target = some (.file h))
    (hfree : d.node new.target ≠ some .directory) :
    d.renameFile old new = .ok (d.moveFile old.target new.target) := by
  rw [renameFile, hold, hnew, hfile]
  cases htarget : d.node new.target with
  | none => rfl
  | some node =>
    cases node with
    | directory => exact absurd htarget hfree
    | file k => rfl

end Disk
end FileSystems
