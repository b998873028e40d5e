/-
What a disk holds after it was changed.

There are two changes: directories are made where nothing was (`Grown`), or a file is put at a place (`Saved`). Neither
takes a directory or a file away (`Kept`), so a path that led to a file still leads there afterwards.

- `grown_makeDirectories`: making directories makes directories only.
- `Kept.filePlace_file`: the path of a file goes on naming it.
- `Saved.filePlace_after`: a file can be found again by the path under which it was saved.
-/
import Mathlib.Tactic.SplitIfs
import Asm6502.Demo.Disk
import Asm6502.Proofs.Lengths

namespace Asm6502.Demo.Disk

/-! ## Entries -/

theorem lookup_filter_ne {place other : List String} (h : other ≠ place) (entries : List (List String × Entry)) :
    (entries.filter (·.1 ≠ place)).lookup other = entries.lookup other := by
  induction entries with
  | nil => rfl
  | cons entry entries ih =>
    obtain ⟨key, value⟩ := entry
    by_cases hk : key = place
    · have hne : (other == key) = false := by simpa [hk] using h
      rw [List.filter_cons_of_neg (by simpa using hk), List.lookup_cons, hne, ih]
    · rw [List.filter_cons_of_pos (by simpa using hk), List.lookup_cons, List.lookup_cons, ih]

theorem find?_put (disk : Disk) {place : List String} (hp : place ≠ []) (entry : Entry) (other : List String) :
    (disk.put place entry).find? other = if other = place then some entry else disk.find? other := by
  cases other with
  | nil => rw [if_neg hp.symm]; rfl
  | cons name names =>
    have hfind : ∀ disk : Disk, disk.find? (name :: names) = disk.entries.lookup (name :: names) := fun _ => rfl
    rw [hfind, hfind, put, List.lookup_cons]
    by_cases h : name :: names = place
    · rw [if_pos h, beq_iff_eq.2 h]
    · rw [if_neg h, beq_eq_false_iff_ne.2 h, lookup_filter_ne h]

/-- some directories were made where nothing was, and all else is as before -/
structure Grown (before after : Disk) : Prop where
  current_eq : after.current = before.current
  find?_cases : ∀ place, after.find? place = before.find? place ∨
    before.find? place = none ∧ after.find? place = some .directory

namespace Grown

theorem refl (disk : Disk) : Grown disk disk :=
  ⟨rfl, fun _ => .inl rfl⟩

theorem trans {first second third : Disk} (h : Grown first second) (h' : Grown second third) : Grown first third := by
  refine ⟨h'.current_eq.trans h.current_eq, fun place => ?_⟩
  rcases h'.find?_cases place with hkept | ⟨hnone, hmade⟩
  · rw [hkept]
    exact h.find?_cases place
  · rcases h.find?_cases place with hkept | ⟨_, hdirectory⟩
    · exact .inr ⟨hkept ▸ hnone, hmade⟩
    · rw [hnone] at hdirectory
      cases hdirectory

/-- no file is made, changed or taken away -/
theorem file_iff {before after : Disk} (h : Grown before after) (place : List String) (content : ByteArray) :
    after.find? place = some (.file content) ↔ before.find? place = some (.file content) := by
  rcases h.find?_cases place with hkept | ⟨hnone, hmade⟩
  · rw [hkept]
  · rw [hnone, hmade]
    exact ⟨fun h => (by cases h), fun h => (by cases h)⟩

end Grown

/-! ## Making directories -/

theorem grown_makeDirectory {disk after : Disk} {path : Path} (h : disk.makeDirectory path = .ok after) :
    Grown disk after := by
  obtain ⟨_, _, h⟩ := bind_eq_ok_iff.1 h
  split at h
  · cases h
  · obtain ⟨directory, _, h⟩ := bind_eq_ok_iff.1 h
    split at h
    · cases h
    · split at h
      · cases h
      · split at h
        · cases h
        next last _ _ _ hnone =>
          cases h
          refine ⟨rfl, fun place => ?_⟩
          rw [find?_put disk (by simp)]
          split
          next heq => exact .inr ⟨heq ▸ hnone, rfl⟩
          next => exact .inl rfl

theorem ensureDirectory_eq (path : Path) (disk : Disk) :
    ensureDirectory path disk =
      match disk.makeDirectory path with
      | .ok after => .ok () after
      | .error refusal => if disk.isDirectory path then .ok () disk else .error refusal disk := by
  have hget : (get : EStateM Refusal Disk Disk) disk = .ok disk disk := rfl
  rw [ensureDirectory, run_bind, hget]
  simp only
  cases disk.makeDirectory path with
  | ok after => rfl
  | error refusal => cases disk.isDirectory path <;> rfl

theorem grown_ensureDirectory {disk after : Disk} {path : Path} (h : ensureDirectory path disk = .ok () after) :
    Grown disk after := by
  rw [ensureDirectory_eq] at h
  split at h
  next hmade =>
    cases h
    exact grown_makeDirectory hmade
  next =>
    split at h <;> cases h
    exact .refl disk

theorem grown_makeAll {pieces : List String} {disk after : Disk} (h : makeAll pieces disk = .ok () after) :
    Grown disk after := by
  induction pieces generalizing after with
  | nil =>
    cases h
    exact .refl disk
  | cons piece above ih =>
    rw [makeAll] at h
    split at h
    · exact ih h
    · have hget : (get : EStateM Refusal Disk Disk) disk = .ok disk disk := rfl
      rw [run_bind, hget] at h
      simp only at h
      cases hmade : disk.makeDirectory ⟨(piece :: above).reverse⟩ with
      | ok made =>
        rw [hmade] at h
        exact grown_ensureDirectory h
      | error refusal =>
        rw [hmade] at h
        cases refusal with
        | missing =>
          -- the only refusal that those above are made for
          simp only [run_bind] at h
          split at h
          next habove => exact (ih habove).trans (grown_ensureDirectory h)
          next => cases h
        | _ => exact grown_ensureDirectory h

/-- **Making directories makes directories only**, where nothing was. -/
theorem grown_makeDirectories {path : Path} {disk after : Disk} (h : makeDirectories path disk = .ok () after) :
    Grown disk after :=
  grown_makeAll h

/-! ## Paths -/

/-- a walk that succeeds goes the same way on a disk that has all the directories -/
theorem walk_of_directories {before after : Disk}
    (h : ∀ place, before.find? place = some .directory → after.find? place = some .directory)
    {names here place : List String} (hw : before.walk here names = .ok place) : after.walk here names = .ok place := by
  induction names generalizing here with
  | nil => exact hw
  | cons name names ih =>
    rw [walk] at hw ⊢
    split_ifs at hw ⊢
    · exact ih hw
    · exact ih hw
    · split at hw
      next hdirectory =>
        rw [h _ hdirectory]
        exact ih hw
      next => cases hw
      next => cases hw

theorem filePlace_eq_ok_iff {disk : Disk} {path : Path} {place : List String} :
    disk.filePlace path = .ok place ↔
      path.check = .ok () ∧ ∃ last directory, path.names.getLast? = some last ∧
        disk.walk (disk.start path) path.names.dropLast = .ok directory ∧
        ¬ (last = "." ∨ last = ".." ∨ path.closed) ∧ ¬ nameLimit < last.utf8ByteSize ∧
        place = directory ++ [last] ∧ disk.find? place ≠ some .directory := by
  constructor
  · intro h
    obtain ⟨_, hcheck, h⟩ := bind_eq_ok_iff.1 h
    refine ⟨hcheck, ?_⟩
    split at h
    · cases h
    next last hlast =>
      obtain ⟨directory, hwalk, h⟩ := bind_eq_ok_iff.1 h
      split_ifs at h with hname hlong
      split at h
      · cases h
      next hfind =>
        cases h
        exact ⟨last, directory, hlast, hwalk, hname, hlong, rfl, hfind⟩
  · rintro ⟨hcheck, last, directory, hlast, hwalk, hname, hlong, rfl, hfind⟩
    rw [filePlace, hcheck, ok_bind, hlast]
    simp only
    rw [hwalk, ok_bind, if_neg hname, if_neg hlong]
    split
    next hdirectory => exact absurd hdirectory hfind
    next => rfl

theorem filePlace_ne_nil {disk : Disk} {path : Path} {place : List String} (h : disk.filePlace path = .ok place) :
    place ≠ [] := by
  obtain ⟨_, last, directory, _, _, _, _, rfl, _⟩ := filePlace_eq_ok_iff.1 h
  simp

theorem find?_filePlace {disk : Disk} {path : Path} {place : List String} (h : disk.filePlace path = .ok place) :
    disk.find? place ≠ some .directory := by
  obtain ⟨_, _, _, _, _, _, _, _, hfind⟩ := filePlace_eq_ok_iff.1 h
  exact hfind

theorem content?_eq {disk : Disk} {path : Path} {place : List String} {content : ByteArray}
    (h : disk.filePlace path = .ok place) (hf : disk.find? place = some (.file content)) :
    disk.content? path = some content := by
  rw [content?, h]
  simp only [hf]

/-- two paths that name one place -/
def Meet (disk : Disk) (path other : Path) : Prop :=
  ∃ place, disk.filePlace path = .ok place ∧ disk.filePlace other = .ok place

/-! ## What every change keeps -/

/-- directories stay, and a file stays a file, whatever is in it -/
structure Kept (before after : Disk) : Prop where
  current_eq : after.current = before.current
  directory : ∀ place, before.find? place = some .directory → after.find? place = some .directory
  file : ∀ place content, before.find? place = some (.file content) →
    ∃ content', after.find? place = some (.file content')

namespace Kept

theorem refl (disk : Disk) : Kept disk disk :=
  ⟨rfl, fun _ h => h, fun _ content h => ⟨content, h⟩⟩

theorem trans {first second third : Disk} (h : Kept first second) (h' : Kept second third) : Kept first third := by
  refine ⟨h'.current_eq.trans h.current_eq, fun place hd => h'.directory place (h.directory place hd), ?_⟩
  intro place content hf
  obtain ⟨content', hf'⟩ := h.file place content hf
  exact h'.file place content' hf'

/-- a path leads where it led before, unless a directory was made there -/
theorem filePlace {before after : Disk} (h : Kept before after) {path : Path} {place : List String}
    (hp : before.filePlace path = .ok place) (hf : after.find? place ≠ some .directory) :
    after.filePlace path = .ok place := by
  obtain ⟨hcheck, last, directory, hlast, hwalk, hname, hlong, hplace, _⟩ := filePlace_eq_ok_iff.1 hp
  refine filePlace_eq_ok_iff.2 ⟨hcheck, last, directory, hlast, ?_, hname, hlong, hplace, hf⟩
  rw [start, h.current_eq]
  exact walk_of_directories h.directory hwalk

/-- the path of a file goes on naming it -/
theorem filePlace_file {before after : Disk} (h : Kept before after) {path : Path} {place : List String}
    {content : ByteArray} (hp : before.filePlace path = .ok place) (hf : before.find? place = some (.file content)) :
    after.filePlace path = .ok place := by
  obtain ⟨content', hf'⟩ := h.file place content hf
  exact h.filePlace hp (by rw [hf']; simp)

end Kept

theorem Grown.kept {before after : Disk} (h : Grown before after) : Kept before after := by
  refine ⟨h.current_eq, fun place hd => ?_, fun place content hf => ⟨content, (h.file_iff place content).2 hf⟩⟩
  rcases h.find?_cases place with hkept | ⟨hnone, _⟩
  · rw [hkept, hd]
  · rw [hnone] at hd
    cases hd

/-- a file was saved at a place that the path names, and all else is as before -/
structure Saved (path : Path) (content : ByteArray) (place : List String) (before after : Disk) : Prop where
  filePlace_eq : before.filePlace path = .ok place
  after_eq : after = before.put place (.file content)

theorem saved_of_save {disk after : Disk} {path : Path} {content : ByteArray} (h : disk.save path content = .ok after) :
    ∃ place, Saved path content place disk after := by
  obtain ⟨place, hplace, hput⟩ := bind_eq_ok_iff.1 h
  exact ⟨place, hplace, (Except.ok.inj hput).symm⟩

namespace Saved

variable {path : Path} {content : ByteArray} {place : List String} {before after : Disk}

theorem find?_eq (h : Saved path content place before after) (other : List String) :
    after.find? other = if other = place then some (.file content) else before.find? other := by
  rw [h.after_eq, find?_put before (filePlace_ne_nil h.filePlace_eq)]

theorem find?_place (h : Saved path content place before after) : after.find? place = some (.file content) := by
  rw [h.find?_eq, if_pos rfl]

theorem find?_other (h : Saved path content place before after) {other : List String} (ho : other ≠ place) :
    after.find? other = before.find? other := by
  rw [h.find?_eq, if_neg ho]

theorem kept (h : Saved path content place before after) : Kept before after := by
  refine ⟨by rw [h.after_eq]; rfl, fun other hd => ?_, fun other content' hf => ?_⟩
  · rw [h.find?_other, hd]
    rintro rfl
    exact find?_filePlace h.filePlace_eq hd
  · by_cases ho : other = place
    · exact ⟨content, ho ▸ h.find?_place⟩
    · exact ⟨content', (h.find?_other ho).trans hf⟩

/-- a file can be found again by the path under which it was saved -/
theorem filePlace_after (h : Saved path content place before after) : after.filePlace path = .ok place :=
  h.kept.filePlace h.filePlace_eq (by rw [h.find?_place]; simp)

end Saved

end Asm6502.Demo.Disk
