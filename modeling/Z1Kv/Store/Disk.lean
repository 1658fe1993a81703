import Z1Kv.Store.Mem

/-! The disk layers L2 and L3: sorted patches and the key ranges by which reads
skip them. Patch files are intact here, so reads do not fail. -/
namespace Z1Kv

structure PatchEntry where
  key : Bytes
  value : Option Bytes
  txnId : TxnId
  deriving DecidableEq

namespace PatchEntry

/-- By key, then by transaction. -/
def Le (a b : PatchEntry) : Prop := a.key < b.key ∨ a.key = b.key ∧ a.txnId ≤ b.txnId

instance : DecidableRel Le := fun a b =>
  inferInstanceAs (Decidable (a.key < b.key ∨ a.key = b.key ∧ a.txnId ≤ b.txnId))

instance : Std.Total Le where
  total a b := by
    rcases lt_trichotomy a.key b.key with h | h | h
    · exact Or.inl (Or.inl h)
    · rcases Nat.le_total a.txnId b.txnId with ht | ht
      · exact Or.inl (Or.inr ⟨h, ht⟩)
      · exact Or.inr (Or.inr ⟨h.symm, ht⟩)
    · exact Or.inr (Or.inl h)

instance : IsTrans PatchEntry Le where
  trans a b c := by
    rintro (hab | ⟨hab, tab⟩) (hbc | ⟨hbc, tbc⟩)
    · exact Or.inl (hab.trans hbc)
    · exact Or.inl (hbc ▸ hab)
    · exact Or.inl (hab ▸ hbc)
    · exact Or.inr ⟨hab.trans hbc, tab.trans tbc⟩

theorem Le.key_le {a b : PatchEntry} (h : a.Le b) : a.key ≤ b.key := by
  rcases h with h | ⟨h, -⟩
  · exact h.le
  · exact h.le

def toZ1Entry (cf : UInt16) (pe : PatchEntry) : Z1Entry := ⟨⟨cf, pe.key⟩, pe.txnId, pe.value⟩

def ofZ1Entry (e : Z1Entry) : PatchEntry := ⟨e.key.key, e.value, e.txnId⟩

end PatchEntry

/-- A patch file, entries in order. The id is that of its `.zpatch` name; a temporary file
has none. -/
structure Patch where
  cf : UInt16
  patchId : Option Nat
  entries : List PatchEntry
  sorted : entries.Pairwise PatchEntry.Le

namespace Patch

/-- `Z1PatchFormatV4::sparse`: the entries are sorted when the patch is built. -/
def sparse (cf : UInt16) (entries : List PatchEntry) (patchId : Option Nat) : Patch :=
  ⟨cf, patchId, entries.insertionSort PatchEntry.Le, List.pairwise_insertionSort _ _⟩

def minKey (p : Patch) : Bytes := (p.entries.head?.map PatchEntry.key).getD []

def maxKey (p : Patch) : Bytes := (p.entries.getLast?.map PatchEntry.key).getD []

def versions (p : Patch) : List Z1Entry := p.entries.map (PatchEntry.toZ1Entry p.cf)

theorem minKey_le {p : Patch} {pe : PatchEntry} (h : pe ∈ p.entries) : p.minKey ≤ pe.key := by
  obtain ⟨cf, patchId, entries, sorted⟩ := p
  cases entries with
  | nil => simp at h
  | cons first rest =>
      simp only [minKey, List.head?_cons, Option.map_some, Option.getD_some]
      rcases List.mem_cons.mp h with rfl | h
      · exact le_rfl
      · exact ((List.pairwise_cons.mp sorted).1 pe h).key_le

theorem le_maxKey {p : Patch} {pe : PatchEntry} (h : pe ∈ p.entries) : pe.key ≤ p.maxKey := by
  obtain ⟨cf, patchId, entries, sorted⟩ := p
  rcases List.eq_nil_or_concat' entries with rfl | ⟨front, last, rfl⟩
  · simp at h
  · simp only [maxKey, List.getLast?_append, List.getLast?_singleton, Option.some_or,
      Option.map_some, Option.getD_some]
    rcases List.mem_append.mp h with h | h
    · exact ((List.pairwise_append.mp sorted).2.2 pe h last (by simp)).key_le
    · obtain rfl := List.mem_singleton.mp h
      exact le_rfl

end Patch

/-- What a call of `write_durable` comes to: whether it returns `Ok`, how many of its failed
attempts leave a complete temporary file, and whether a failed call has renamed its file. -/
structure PatchOutcome where
  written : Bool
  temps : Nat := 0
  renamed : Bool := false
  deriving DecidableEq

/-- The first attempt goes through. -/
def PatchOutcome.succeeds : PatchOutcome := ⟨true, 0, false⟩

/-- The call fails and leaves no complete file. -/
def PatchOutcome.fails : PatchOutcome := ⟨false, 0, false⟩

/-- A complete file with the entries is on disk when the call returns. -/
def PatchOutcome.leavesFile (outcome : PatchOutcome) : Bool :=
  outcome.written || 0 < outcome.temps || outcome.renamed

/-- A disk layer: its patches in index order, and the complete files that failed writes left,
which the index gets at the next open. Only the order among patches of one column family can
be seen. -/
structure DiskLayer where
  patches : List Patch := []
  images : List Patch := []

namespace DiskLayer

/-- The files in the directories of the layer. -/
def files (layer : DiskLayer) : List Patch := layer.patches ++ layer.images

def versions (layer : DiskLayer) : List Z1Entry := layer.patches.flatMap Patch.versions

def imageVersions (layer : DiskLayer) : List Z1Entry := layer.images.flatMap Patch.versions

/-- Write a patch file and index it. A failed attempt leaves its temporary file, a failed sync
of the directory the file under its name. -/
def appendPatch (layer : DiskLayer) (outcome : PatchOutcome) (cf : UInt16)
    (entries : List PatchEntry) (patchId : Nat) : Except Z1Error Unit × DiskLayer :=
  if entries = [] then (.ok (), layer)
  else
    let patch := Patch.sparse cf entries (some patchId)
    let images := layer.images ++ List.replicate outcome.temps (Patch.sparse cf entries none)
    if outcome.written then (.ok (), ⟨layer.patches ++ [patch], images⟩)
    else
      (.error (.io .other), ⟨layer.patches, if outcome.renamed then images ++ [patch] else images⟩)

/-- All versions of a key, from the patches whose key range covers it. -/
def getVersions (layer : DiskLayer) (cf : UInt16) (key : Bytes) : List Z1Entry :=
  (layer.patches.filter fun p => p.cf = cf && p.minKey ≤ key && key ≤ p.maxKey).flatMap fun p =>
    (p.entries.filter (·.key = key)).map (PatchEntry.toZ1Entry cf)

/-- For each key in the range the version of the highest transaction, whether
that one is visible or not. -/
def rangeVisible (layer : DiskLayer) (cf : UInt16) (start : Bytes) (endKey : Option Bytes) :
    List (Bytes × Z1Entry) :=
  let covering := layer.patches.filter fun p =>
    p.cf = cf && start ≤ p.maxKey && endKey.all fun bound => p.minKey < bound
  let pairs := covering.flatMap fun p =>
    (p.entries.filter fun pe => inRange cf start endKey ⟨cf, pe.key⟩).map fun pe =>
      (pe.key, pe.toZ1Entry cf)
  (FinMap.keepMaxAll Z1Entry.txnId ∅ pairs).ascending

/-- Remove the directory of a column family. -/
def dropCf (layer : DiskLayer) (cf : UInt16) : DiskLayer :=
  ⟨layer.patches.filter (·.cf ≠ cf), layer.images.filter (·.cf ≠ cf)⟩

def listCfs (layer : DiskLayer) : List UInt16 :=
  (layer.patches.map Patch.cf).dedup.insertionSort fun a b => a.toNat ≤ b.toNat

def allVersions (layer : DiskLayer) (cf : UInt16) : List Z1Entry :=
  (layer.patches.filter (·.cf = cf)).flatMap Patch.versions

/-- The ids of the `.zpatch` files of a column family, indexed or not. -/
def patchIds (layer : DiskLayer) (cf : UInt16) : List Nat :=
  (layer.files.filter (·.cf = cf)).filterMap Patch.patchId

/-- The `.zpatch` files of the indexed column families. -/
def patchCount (layer : DiskLayer) : Nat :=
  (layer.listCfs.map fun cf => (layer.patchIds cf).length).sum

/-- The largest id among the names in the index. -/
def maxPatchId (layer : DiskLayer) : Nat := (layer.patches.filterMap Patch.patchId).foldr max 0

section
variable {layer : DiskLayer} {outcome : PatchOutcome} {cf : UInt16} {entries : List PatchEntry}

theorem appendPatch_written (hEntries : entries ≠ []) (h : outcome.written = true) (patchId : Nat) :
    layer.appendPatch outcome cf entries patchId =
      (.ok (), ⟨layer.patches ++ [Patch.sparse cf entries (some patchId)],
        layer.images ++ List.replicate outcome.temps (Patch.sparse cf entries none)⟩) := by
  rw [appendPatch, if_neg hEntries]
  exact if_pos h

theorem appendPatch_failed (hEntries : entries ≠ []) (h : ¬ outcome.written = true) (patchId : Nat) :
    ∃ images, layer.appendPatch outcome cf entries patchId =
      (.error (.io .other), ⟨layer.patches, images⟩) := by
  rw [appendPatch, if_neg hEntries]
  exact ⟨_, if_neg h⟩

theorem appendPatch_traceless (h : outcome.leavesFile = false) (cf : UInt16)
    (entries : List PatchEntry) (patchId : Nat) :
    (layer.appendPatch outcome cf entries patchId).2 = layer := by
  obtain ⟨written, temps, renamed⟩ := outcome
  simp only [PatchOutcome.leavesFile, Bool.or_eq_false_iff, decide_eq_false_iff_not, Nat.not_lt,
    Nat.le_zero] at h
  obtain ⟨⟨rfl, rfl⟩, rfl⟩ := h
  rw [appendPatch]
  split
  · rfl
  · simp

end

theorem mem_versions {layer : DiskLayer} {e : Z1Entry} :
    e ∈ layer.versions ↔ ∃ p ∈ layer.patches, ∃ pe ∈ p.entries, pe.toZ1Entry p.cf = e := by
  simp [versions, Patch.versions]

theorem mem_files {layer : DiskLayer} {e : Z1Entry} (h : e ∈ layer.versions) :
    e ∈ layer.files.flatMap Patch.versions := by
  rw [files, List.flatMap_append]
  exact List.mem_append_left _ h

/-- The key-range index never hides a version. -/
theorem getVersions_eq (layer : DiskLayer) (cf : UInt16) (key : Bytes) :
    layer.getVersions cf key = layer.versions.filter fun e => e.key = ⟨cf, key⟩ := by
  unfold getVersions versions
  induction layer.patches with
  | nil => rfl
  | cons p rest ih =>
      rw [List.flatMap_cons, List.filter_append, ← ih, List.filter_cons]
      have hHere : p.cf = cf → (p.versions.filter fun e => decide (e.key = ⟨cf, key⟩)) =
          (p.entries.filter (·.key = key)).map (PatchEntry.toZ1Entry cf) := by
        rintro rfl
        rw [Patch.versions, List.filter_map]
        congr 1
        apply List.filter_congr
        intro pe _
        simp [PatchEntry.toZ1Entry]
      split
      · next h =>
        simp only [Bool.and_eq_true, decide_eq_true_eq] at h
        rw [List.flatMap_cons, hHere h.1.1]
      · next h =>
        have hNone : (p.versions.filter fun e => decide (e.key = ⟨cf, key⟩)) = [] := by
          rw [List.filter_eq_nil_iff]
          intro e he hKey
          obtain ⟨pe, hpe, rfl⟩ := List.mem_map.mp he
          simp only [PatchEntry.toZ1Entry, decide_eq_true_eq, Z1Key.mk.injEq] at hKey
          obtain ⟨rfl, rfl⟩ := hKey
          exact h (by simp [Patch.minKey_le hpe, Patch.le_maxKey hpe])
        rw [hNone, List.nil_append]

/-- No version of the layer is newer than this one of the layer. -/
def IsTop (layer : DiskLayer) (e : Z1Entry) : Prop :=
  e ∈ layer.versions ∧ ∀ w ∈ layer.versions, w.key = e.key → w.txnId ≤ e.txnId

private theorem mem_rangePairs {layer : DiskLayer} {cf : UInt16} {start : Bytes}
    {endKey : Option Bytes} {k : Bytes} {e : Z1Entry} :
    (k, e) ∈ ((layer.patches.filter fun p =>
      p.cf = cf && start ≤ p.maxKey && endKey.all fun bound => p.minKey < bound).flatMap fun p =>
        (p.entries.filter fun pe => inRange cf start endKey ⟨cf, pe.key⟩).map fun pe =>
          (pe.key, pe.toZ1Entry cf)) ↔
      e ∈ layer.versions ∧ e.key = ⟨cf, k⟩ ∧ inRange cf start endKey ⟨cf, k⟩ = true := by
  simp only [List.mem_flatMap, List.mem_filter, List.mem_map, mem_versions, Prod.mk.injEq]
  constructor
  · rintro ⟨p, ⟨hp, hCover⟩, pe, ⟨hpe, hRange⟩, rfl, rfl⟩
    simp only [Bool.and_eq_true, decide_eq_true_eq] at hCover
    exact ⟨⟨p, hp, pe, hpe, by rw [hCover.1.1]⟩, rfl, hRange⟩
  · rintro ⟨⟨p, hp, pe, hpe, rfl⟩, hKey, hRange⟩
    obtain ⟨rfl, rfl⟩ : p.cf = cf ∧ pe.key = k := by simpa [PatchEntry.toZ1Entry] using hKey
    refine ⟨p, ⟨hp, ?_⟩, pe, ⟨hpe, hRange⟩, rfl, rfl⟩
    simp only [inRange, Bool.and_eq_true, decide_eq_true_eq, true_and] at hRange
    simp only [Bool.and_eq_true, decide_eq_true_eq, true_and]
    refine ⟨hRange.1.trans (Patch.le_maxKey hpe), ?_⟩
    cases endKey with
    | none => rfl
    | some bound =>
        have hEnd := hRange.2
        simp only [Option.all_some, decide_eq_true_eq] at hEnd ⊢
        exact (Patch.minKey_le hpe).trans_lt hEnd

/-- The offered version of a key is the highest of the layer. -/
theorem rangeVisible_sound {layer : DiskLayer} {cf : UInt16} {start : Bytes} {endKey : Option Bytes}
    {k : Bytes} {e : Z1Entry} (h : (k, e) ∈ layer.rangeVisible cf start endKey) :
    layer.IsTop e ∧ inRange cf start endKey ⟨cf, k⟩ = true ∧ e.key = ⟨cf, k⟩ := by
  obtain ⟨hFrom, -, hMax⟩ := FinMap.keepMaxAll_sound _ (FinMap.mem_ascending.mp h)
  obtain ⟨he, hKey, hRange⟩ := mem_rangePairs.mp (hFrom.resolve_left (by simp))
  refine ⟨⟨he, fun w hw hwKey => ?_⟩, hRange, hKey⟩
  exact hMax w (mem_rangePairs.mpr ⟨hw, hwKey.trans hKey, hRange⟩)

theorem rangeVisible_complete {layer : DiskLayer} {cf : UInt16} {start : Bytes}
    {endKey : Option Bytes} {k : Bytes} {e : Z1Entry} (he : e ∈ layer.versions)
    (hKey : e.key = ⟨cf, k⟩) (hRange : inRange cf start endKey ⟨cf, k⟩ = true) :
    ∃ top, (k, top) ∈ layer.rangeVisible cf start endKey ∧ e.txnId ≤ top.txnId := by
  have hPair := mem_rangePairs.mpr ⟨he, hKey, hRange⟩
  obtain ⟨top, hTop⟩ := FinMap.mem_iff_lookup.mp
    (FinMap.keepMaxAll_complete Z1Entry.txnId (Or.inr ⟨e, hPair⟩))
  exact ⟨top, FinMap.mem_ascending.mpr hTop, (FinMap.keepMaxAll_sound _ hTop).2.2 e hPair⟩

end DiskLayer
end Z1Kv
