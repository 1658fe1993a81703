import Mathlib.Order.Nat
import Z1Kv.Library.FiniteMap
import Z1Kv.Store.Types

/-! `DurableWriter` for files of any names in one directory: write a temporary file, sync it,
rename it, sync the directory, the whole flow again after a transient error. An attempt leaves
the file under its name when it comes as far as the rename, else its temporary file. -/
namespace Z1Kv

/-- An I/O error, or the end of the process at this point. -/
inductive Interrupt
  | fails (kind : IoErrorKind)
  | crashes
  deriving DecidableEq

/-- Error kinds that `write_durable` retries. -/
def Interrupt.transient : Interrupt → Bool
  | .fails .notFound => true
  | .fails .permissionDenied => true
  | _ => false

/-- Where an attempt stops: before there is a temporary file, after so many bytes of it,
before its sync, before the rename, or before the sync of the directory. -/
inductive WritePoint
  | create
  | write (count : Nat)
  | fsync
  | rename
  | syncParent
  deriving DecidableEq

inductive WriteAttempt
  | completes
  | stops (point : WritePoint) (interrupt : Interrupt)
  deriving DecidableEq

/-- `Uuid::new_v4`, of which the writers use that it gives no number a second time. -/
structure NewUuid where
  pick : List Nat → Nat
  fresh : ∀ used, pick used ∉ used

/-- The number after all that are in use. -/
def NewUuid.next : NewUuid where
  pick used := used.foldr max 0 + 1
  fresh _ h := absurd (List.le_max_of_le h le_rfl) (Nat.not_succ_le_self _)

/-- What happens to the three attempts of a call of `write_durable`. -/
structure WriteAttempts where
  first : WriteAttempt
  second : WriteAttempt
  third : WriteAttempt
  newUuid : NewUuid

/-- The same at each attempt. -/
def WriteAttempts.each (attempt : WriteAttempt) : WriteAttempts := ⟨attempt, attempt, attempt, .next⟩

/-- A file under its name, or the temporary file `.{name}.{uuid}.tmp` of an attempt. -/
inductive NamedFile (ν : Type) where
  | final (name : ν)
  | tmp (name : ν) (uuid : Nat)
  deriving DecidableEq

abbrev NamedDir (ν : Type) := FinMap (NamedFile ν) Bytes

namespace WriteAttempt

/-- All bytes are in a temporary file that is not renamed. -/
def LeavesWhole (size : Nat) : WriteAttempt → Prop
  | .stops (.write count) _ => size ≤ count
  | .stops .fsync _ => True
  | .stops .rename _ => True
  | _ => False

instance (size : Nat) : DecidablePred (LeavesWhole size)
  | .completes => isFalse id
  | .stops .create _ => isFalse id
  | .stops (.write count) _ => inferInstanceAs (Decidable (size ≤ count))
  | .stops .fsync _ => isTrue trivial
  | .stops .rename _ => isTrue trivial
  | .stops .syncParent _ => isFalse id

/-- The attempt comes as far as the rename. -/
def Renames : WriteAttempt → Prop
  | .completes => True
  | .stops .syncParent _ => True
  | _ => False

instance : DecidablePred Renames
  | .completes => isTrue trivial
  | .stops .create _ => isFalse id
  | .stops (.write _) _ => isFalse id
  | .stops .fsync _ => isFalse id
  | .stops .rename _ => isFalse id
  | .stops .syncParent _ => isTrue trivial

def result : WriteAttempt → Except Interrupt Unit
  | .completes => .ok ()
  | .stops _ interrupt => .error interrupt

theorem result_ok (attempt : WriteAttempt) : attempt.result = .ok () ↔ attempt = .completes := by
  cases attempt with
  | completes => exact ⟨fun _ => rfl, fun _ => rfl⟩
  | stops point interrupt =>
      constructor
      · intro h
        cases h
      · intro h
        cases h

/-- The attempts that are made, as long as the errors are transient. -/
def made (attempt : WriteAttempt) : List WriteAttempt → List WriteAttempt
  | [] => [attempt]
  | next :: more =>
      match attempt.result with
      | .ok () => [attempt]
      | .error interrupt => if interrupt.transient then attempt :: next.made more else [attempt]

end WriteAttempt

/-- The attempts that a call makes. -/
def WriteAttempts.made (attempts : WriteAttempts) : List WriteAttempt :=
  attempts.first.made [attempts.second, attempts.third]

namespace NamedDir
variable {ν : Type}

/-- The numbers of the temporary files. -/
def uuids (dir : NamedDir ν) : List Nat :=
  dir.keys.filterMap fun
    | .final _ => none
    | .tmp _ uuid => some uuid

/-- The temporary file of the next attempt. -/
def temp (newUuid : NewUuid) (dir : NamedDir ν) (name : ν) : NamedFile ν :=
  .tmp name (newUuid.pick dir.uuids)

theorem temp_not_mem (newUuid : NewUuid) (dir : NamedDir ν) (name : ν) : temp newUuid dir name ∉ dir := by
  intro h
  exact newUuid.fresh dir.uuids (List.mem_filterMap.mpr ⟨temp newUuid dir name, h, rfl⟩)

theorem final_ne_temp {newUuid : NewUuid} {dir : NamedDir ν} {name other : ν} :
    NamedFile.final other ≠ temp newUuid dir name := nofun

variable [DecidableEq ν]

/-- What is under a final name. -/
def read (dir : NamedDir ν) (name : ν) : Option Bytes := AList.lookup (NamedFile.final name) dir

/-- `fs::rename`, which replaces the target. -/
def rename (dir : NamedDir ν) (source target : NamedFile ν) : NamedDir ν :=
  match AList.lookup source dir with
  | none => dir
  | some bytes => AList.insert target bytes (AList.erase source dir)

def writeToTemp (newUuid : NewUuid) (dir : NamedDir ν) (name : ν) (data : Bytes) :
    WriteAttempt → Except Interrupt (NamedFile ν) × NamedDir ν
  | .stops .create interrupt => (.error interrupt, dir)
  | .stops (.write count) interrupt =>
      (.error interrupt, AList.insert (temp newUuid dir name) (data.take count) dir)
  | _ => (.ok (temp newUuid dir name), AList.insert (temp newUuid dir name) data dir)

def fsyncData : WriteAttempt → Except Interrupt Unit
  | .stops .fsync interrupt => .error interrupt
  | _ => .ok ()

/-- Rename, then sync the directory. -/
def commit (dir : NamedDir ν) (temp final : NamedFile ν) :
    WriteAttempt → Except Interrupt Unit × NamedDir ν
  | .stops .rename interrupt => (.error interrupt, dir)
  | .stops .syncParent interrupt => (.error interrupt, dir.rename temp final)
  | _ => (.ok (), dir.rename temp final)

def writeDurableOnce (newUuid : NewUuid) (dir : NamedDir ν) (name : ν) (data : Bytes)
    (attempt : WriteAttempt) : Except Interrupt Unit × NamedDir ν :=
  match writeToTemp newUuid dir name data attempt with
  | (.error interrupt, dir) => (.error interrupt, dir)
  | (.ok temp, dir) =>
      match fsyncData attempt with
      | .error interrupt => (.error interrupt, dir)
      | .ok () => dir.commit temp (.final name) attempt

/-- The whole flow again after a transient error, as long as attempts are left. -/
def attemptDurable (newUuid : NewUuid) (dir : NamedDir ν) (name : ν) (data : Bytes)
    (attempt : WriteAttempt) : List WriteAttempt → Except Interrupt Unit × NamedDir ν
  | [] => writeDurableOnce newUuid dir name data attempt
  | next :: more =>
      match writeDurableOnce newUuid dir name data attempt with
      | (.ok (), dir) => (.ok (), dir)
      | (.error interrupt, dir) =>
          if interrupt.transient then attemptDurable newUuid dir name data next more
          else (.error interrupt, dir)

def writeDurable (dir : NamedDir ν) (name : ν) (data : Bytes) (attempts : WriteAttempts) :
    Except Interrupt Unit × NamedDir ν :=
  attemptDurable attempts.newUuid dir name data attempts.first [attempts.second, attempts.third]

/-- What an attempt leaves. -/
def after (newUuid : NewUuid) (dir : NamedDir ν) (name : ν) (data : Bytes) : WriteAttempt → NamedDir ν
  | .stops .create _ => dir
  | .stops (.write count) _ => AList.insert (temp newUuid dir name) (data.take count) dir
  | .stops .fsync _ => AList.insert (temp newUuid dir name) data dir
  | .stops .rename _ => AList.insert (temp newUuid dir name) data dir
  | .stops .syncParent _ => AList.insert (.final name) data dir
  | .completes => AList.insert (.final name) data dir

def afterAll (newUuid : NewUuid) (dir : NamedDir ν) (name : ν) (data : Bytes)
    (attempts : List WriteAttempt) : NamedDir ν :=
  attempts.foldl (fun dir attempt => after newUuid dir name data attempt) dir

variable {newUuid : NewUuid} {dir : NamedDir ν} {name other : ν} {data : Bytes}

theorem erase_of_not_mem {file : NamedFile ν} (h : file ∉ dir) : AList.erase file dir = dir :=
  AList.ext (List.kerase_of_notMem_keys h)

theorem erase_insert {file : NamedFile ν} (h : file ∉ dir) :
    AList.erase file (AList.insert file data dir) = dir := by
  apply AList.ext
  calc List.kerase file (⟨file, data⟩ :: List.kerase file dir.entries)
      = List.kerase file dir.entries := List.kerase_cons_eq rfl
    _ = dir.entries := List.kerase_of_notMem_keys h

theorem erase_insert_ne {file other : NamedFile ν} (h : file ≠ other) :
    AList.erase file (AList.insert other data dir) = AList.insert other data (AList.erase file dir) := by
  apply AList.ext
  calc List.kerase file (⟨other, data⟩ :: List.kerase other dir.entries)
      = ⟨other, data⟩ :: List.kerase file (List.kerase other dir.entries) := List.kerase_cons_ne h
    _ = ⟨other, data⟩ :: List.kerase other (List.kerase file dir.entries) := by
        rw [List.kerase_comm]

theorem erase_insert_self (dir : NamedDir ν) (file : NamedFile ν) (data : Bytes) :
    AList.erase file (AList.insert file data dir) = AList.erase file dir := by
  apply AList.ext
  calc List.kerase file (⟨file, data⟩ :: List.kerase file dir.entries)
      = List.kerase file dir.entries := List.kerase_cons_eq rfl

theorem rename_temp (newUuid : NewUuid) (dir : NamedDir ν) (name : ν) (data : Bytes) :
    rename (AList.insert (temp newUuid dir name) data dir) (temp newUuid dir name) (.final name) =
      AList.insert (.final name) data dir := by
  rw [rename, AList.lookup_insert]
  dsimp only
  rw [erase_insert (temp_not_mem newUuid dir name)]

theorem writeDurableOnce_eq (attempt : WriteAttempt) :
    writeDurableOnce newUuid dir name data attempt =
      (attempt.result, after newUuid dir name data attempt) := by
  have hRename := rename_temp newUuid dir name data
  cases attempt with
  | completes => exact congrArg _ hRename
  | stops point interrupt =>
      cases point with
      | create => rfl
      | write count => rfl
      | fsync => rfl
      | rename => rfl
      | syncParent => exact congrArg _ hRename

theorem attemptDurable_dir (attempt : WriteAttempt) (more : List WriteAttempt) :
    (attemptDurable newUuid dir name data attempt more).2 =
      afterAll newUuid dir name data (attempt.made more) := by
  induction more generalizing attempt dir with
  | nil => exact congrArg Prod.snd (writeDurableOnce_eq attempt)
  | cons next more ih =>
      rw [attemptDurable, writeDurableOnce_eq, WriteAttempt.made]
      cases attempt.result with
      | ok done => rfl
      | error interrupt =>
          dsimp only
          split
          · exact ih next
          · rfl

theorem attemptDurable_ok (attempt : WriteAttempt) (more : List WriteAttempt) :
    (attemptDurable newUuid dir name data attempt more).1 = .ok () ↔ .completes ∈ attempt.made more := by
  induction more generalizing attempt dir with
  | nil =>
      rw [attemptDurable, writeDurableOnce_eq]
      exact attempt.result_ok.trans (by rw [WriteAttempt.made, List.mem_singleton, eq_comm])
  | cons next more ih =>
      rw [attemptDurable, writeDurableOnce_eq, WriteAttempt.made]
      have hResult := attempt.result_ok
      cases hStop : attempt.result with
      | ok done =>
          obtain rfl := hResult.mp (by rw [hStop])
          simp
      | error interrupt =>
          have hNot : .completes ≠ attempt := by
            rintro rfl
            cases hStop
          dsimp only
          split
          · rw [ih next, List.mem_cons, or_iff_right hNot]
          · simp [hNot]

theorem writeDurable_dir (attempts : WriteAttempts) :
    (dir.writeDurable name data attempts).2 = afterAll attempts.newUuid dir name data attempts.made :=
  attemptDurable_dir _ _

/-- The call succeeds exactly with its last attempt. -/
theorem writeDurable_ok (attempts : WriteAttempts) :
    (dir.writeDurable name data attempts).1 = .ok () ↔ .completes ∈ attempts.made :=
  attemptDurable_ok _ _

theorem afterAll_cons (attempt : WriteAttempt) (rest : List WriteAttempt) :
    afterAll newUuid dir name data (attempt :: rest) =
      afterAll newUuid (after newUuid dir name data attempt) name data rest := rfl

theorem lookup_after {file : NamedFile ν} {bytes : Bytes} (attempt : WriteAttempt)
    (h : AList.lookup file dir = some bytes) (hFile : file ≠ .final name) :
    AList.lookup file (after newUuid dir name data attempt) = some bytes := by
  have hTemp (written : Bytes) :
      AList.lookup file (AList.insert (temp newUuid dir name) written dir) = some bytes := by
    rw [AList.lookup_insert_ne, h]
    rintro rfl
    exact temp_not_mem newUuid dir name (AList.lookup_isSome.mp (by rw [h]; rfl))
  cases attempt with
  | completes => rw [after, AList.lookup_insert_ne hFile, h]
  | stops point interrupt =>
      cases point with
      | create => exact h
      | write count => exact hTemp _
      | fsync => exact hTemp _
      | rename => exact hTemp _
      | syncParent => rw [after, AList.lookup_insert_ne hFile, h]

/-- A file is touched by no attempt at another one. -/
theorem lookup_afterAll_ne {file : NamedFile ν} {bytes : Bytes} (attempts : List WriteAttempt)
    (h : AList.lookup file dir = some bytes) (hFile : file ≠ .final name) :
    AList.lookup file (afterAll newUuid dir name data attempts) = some bytes := by
  induction attempts generalizing dir with
  | nil => exact h
  | cons attempt rest ih => exact ih (lookup_after attempt h hFile)

/-- The names that an attempt changes. -/
theorem read_after (attempt : WriteAttempt) (other : ν) :
    read (after newUuid dir name data attempt) other =
      if other = name ∧ attempt.Renames then some data else dir.read other := by
  have hTemp (written : Bytes) (hNot : ¬ attempt.Renames) :
      read (AList.insert (temp newUuid dir name) written dir) other =
        if other = name ∧ attempt.Renames then some data else dir.read other := by
    rw [if_neg fun h => hNot h.2]
    exact AList.lookup_insert_ne final_ne_temp
  have hFinal (hRenames : attempt.Renames) : read (AList.insert (.final name) data dir) other =
      if other = name ∧ attempt.Renames then some data else dir.read other := by
    by_cases hName : other = name
    · rw [if_pos ⟨hName, hRenames⟩, hName]
      exact AList.lookup_insert _
    · rw [if_neg fun h => hName h.1]
      exact AList.lookup_insert_ne (by simpa using hName)
  cases attempt with
  | completes => exact hFinal trivial
  | stops point interrupt =>
      cases point with
      | create => exact (if_neg fun h => h.2).symm
      | write count => exact hTemp _ id
      | fsync => exact hTemp _ id
      | rename => exact hTemp _ id
      | syncParent => exact hFinal trivial

/-- Only the name that is written changes, and only to the data, exactly when some attempt
came as far as the rename. -/
theorem read_afterAll (attempts : List WriteAttempt) (other : ν) :
    read (afterAll newUuid dir name data attempts) other =
      if other = name ∧ ∃ a ∈ attempts, a.Renames then some data else dir.read other := by
  induction attempts generalizing dir with
  | nil => simp [afterAll]
  | cons attempt rest ih =>
      rw [afterAll_cons, ih, read_after]
      by_cases hRest : ∃ a ∈ rest, a.Renames <;> by_cases hHere : attempt.Renames <;>
        by_cases hName : other = name <;> simp [hRest, hHere, hName]

theorem lookup_afterAll (attempts : List WriteAttempt) :
    AList.lookup (.final name) (afterAll newUuid dir name data attempts) =
      if ∃ a ∈ attempts, a.Renames then some data else AList.lookup (.final name) dir := by
  have hRead := @read_afterAll ν _ newUuid dir name data attempts name
  rw [read] at hRead
  rw [hRead]
  exact if_congr (and_iff_right rfl) rfl rfl

theorem lookup_afterAll_other (attempts : List WriteAttempt) (h : other ≠ name) :
    AList.lookup (.final other) (afterAll newUuid dir name data attempts) =
      AList.lookup (.final other) dir := by
  have hRead := @read_afterAll ν _ newUuid dir name data attempts other
  rwa [if_neg fun hBoth => h hBoth.1] at hRead

/-- No other name appears. -/
theorem mem_afterAll_final {attempts : List WriteAttempt}
    (h : .final other ∈ afterAll newUuid dir name data attempts) : .final other ∈ dir ∨ other = name := by
  by_cases hName : other = name
  · exact Or.inr hName
  · rw [← AList.lookup_isSome, lookup_afterAll_other attempts hName, AList.lookup_isSome] at h
    exact Or.inl h

theorem writeDurable_read (dir : NamedDir ν) (name : ν) (data : Bytes) (attempts : WriteAttempts)
    (other : ν) : (dir.writeDurable name data attempts).2.read other =
      if other = name ∧ ∃ a ∈ attempts.made, a.Renames then some data else dir.read other := by
  rw [writeDurable_dir]
  exact read_afterAll _ _

/-- A write that returns `Ok` has renamed the file. -/
theorem writeDurable_renames {attempts : WriteAttempts}
    (h : (dir.writeDurable name data attempts).1 = .ok ()) : ∃ a ∈ attempts.made, a.Renames :=
  ⟨.completes, (writeDurable_ok attempts).mp h, trivial⟩

end NamedDir
end Z1Kv
