import Z1Kv.Store.DiskFormat
import Z1Kv.Store.DurableWriter

/-! The disk layer over its files: a directory of patch files for each column family, the
key-range index and the content cache in memory. A patch is published by a rename; the
attempts of a write may fail, or the process may end, at each of its points. -/
namespace Z1Kv

/-- A file in the directory of a column family, named by the id of the patch:
`{:016}.zpatch`, or the temporary file of an attempt to write it. -/
abbrev PatchFile := NamedFile Nat

/-- The number in a name with the suffix `.zpatch`. -/
def NamedFile.patchId? : PatchFile → Option Nat
  | .final patchId => some patchId
  | .tmp _ _ => none

structure PatchPath where
  cf : UInt16
  file : PatchFile
  deriving DecidableEq

abbrev PatchDir := NamedDir Nat

/-- The directories below the root of a layer. -/
abbrev PatchTree := FinMap UInt16 PatchDir

inductive PatchError
  | io (kind : IoErrorKind)
  | format (cause : DiskFormatError)
  deriving DecidableEq

/-- What ends a call before it returns `Ok`. -/
inductive Halt
  | error (e : PatchError)
  | crash
  deriving DecidableEq

def Interrupt.halt : Interrupt → Halt
  | fails kind => .error (.io kind)
  | crashes => .crash

/-- The ids of the names with the suffix `.zpatch`. -/
def PatchDir.patchIds (dir : PatchDir) : List Nat := dir.keys.filterMap NamedFile.patchId?

namespace PatchTree

def dir (files : PatchTree) (cf : UInt16) : PatchDir := (AList.lookup cf files).getD ∅

def read (files : PatchTree) (path : PatchPath) : Option Bytes :=
  AList.lookup path.file (files.dir path.cf)

/-- `create_dir_all` for a column family. -/
def createDir (files : PatchTree) (cf : UInt16) : PatchTree := AList.insert cf (files.dir cf) files

end PatchTree

/-- What the file system does in a call of `append_patch`: to the creation of the directory,
and to the attempts of `write_durable`. -/
structure PatchWrite where
  createDir : Option Interrupt
  attempts : WriteAttempts

/-- The removal of a directory goes through, or stops with some of its files left. -/
inductive Removal
  | completes
  | stops (left : PatchFile → Bool) (interrupt : Interrupt)
  | stopsAfter (interrupt : Interrupt)

/-- The order in which the file system lists a directory. -/
structure ReadDir where
  order : List (PatchFile × Bytes) → List (PatchFile × Bytes)
  perm : ∀ files, (order files).Perm files

def ReadDir.listed : ReadDir := ⟨id, fun _ => .refl _⟩

/-- The reader of patch files. -/
def PatchCodec.readPatch (codec : PatchCodec) (bytes : Bytes) :
    Except DiskFormatError (List PatchEntry) :=
  match ((Z1PatchFormatV4.format codec).fromDiskBytes bytes).get
      (DiskFormat.fromDiskBytes_isSome _ bytes) with
  | .error e => .error e
  | .ok (.sparse entries) => .ok entries

/-- `Z1PatchFormatV4::key_bounds`, with the empty key for the bounds of no entries. -/
def keyBounds (entries : List PatchEntry) : Bytes × Bytes :=
  ((entries.head?.map PatchEntry.key).getD [], (entries.getLast?.map PatchEntry.key).getD [])

/-- Key range of a patch file. -/
structure RangeIndexEntry where
  min : Bytes
  max : Bytes
  path : PatchPath

/-- A layer with the files below its root. -/
structure FileLayer where
  files : PatchTree
  index : FinMap UInt16 (List RangeIndexEntry)
  content : FinMap PatchPath (List PatchEntry)

namespace FileLayer
section
variable (codec : PatchCodec)

/-- The index entry of a file, unless it does not parse. -/
def indexEntry (cf : UInt16) (file : PatchFile × Bytes) : Option RangeIndexEntry :=
  match codec.readPatch file.2 with
  | .error _ => none
  | .ok entries => some ⟨(keyBounds entries).1, (keyBounds entries).2, ⟨cf, file.1⟩⟩

/-- Every file of the directories that parses, by smallest key. -/
def rebuildIndex (listing : ReadDir) (files : PatchTree) : FinMap UInt16 (List RangeIndexEntry) :=
  files.mapValues fun cf dir =>
    ((listing.order (dir.entries.map fun e => (e.1, e.2))).filterMap (indexEntry codec cf)).insertionSort
      (·.min ≤ ·.min)

/-- `DiskLayer::new`. -/
def new (listing : ReadDir) (files : PatchTree) : FileLayer :=
  ⟨files, rebuildIndex codec listing files, ∅⟩

end

/-- The index of one column family. -/
def ranges (layer : FileLayer) (cf : UInt16) : List RangeIndexEntry :=
  (AList.lookup cf layer.index).getD []

def removeFromIndex (layer : FileLayer) (path : PatchPath) : FileLayer :=
  { layer with index := layer.index.mapValues fun _ entries => entries.filter (·.path ≠ path) }

def evictPatch (layer : FileLayer) (path : PatchPath) : FileLayer :=
  { layer with content := AList.erase path layer.content }

/-- The content of a file, from the cache if it is there. -/
def loadPatch (codec : PatchCodec) (layer : FileLayer) (path : PatchPath) :
    Except PatchError (List PatchEntry) × FileLayer :=
  match AList.lookup path layer.content with
  | some hit => (.ok hit, layer)
  | none =>
      match layer.files.read path with
      | none => (.error (.io .notFound), layer)
      | some bytes =>
          match codec.readPatch bytes with
          | .error e => (.error (.format e), layer)
          | .ok entries =>
              (.ok entries, { layer with content := AList.insert path entries layer.content })

/-- The loop of the reads over patch files: a file that has vanished leaves the index, any
other error ends the read. -/
def collect {β : Type} (codec : PatchCodec) (taken : List PatchEntry → List β) (layer : FileLayer) :
    List PatchPath → Except PatchError (List β) × FileLayer
  | [] => (.ok [], layer)
  | path :: rest =>
      match layer.loadPatch codec path with
      | (.error (.io .notFound), layer) =>
          collect codec taken ((layer.removeFromIndex path).evictPatch path) rest
      | (.error e, layer) => (.error e, layer)
      | (.ok entries, layer) =>
          match collect codec taken layer rest with
          | (.error e, layer) => (.error e, layer)
          | (.ok more, layer) => (.ok (taken entries ++ more), layer)

/-- All versions of a key, from the files whose range covers it. -/
def getVersions (codec : PatchCodec) (layer : FileLayer) (cf : UInt16) (key : Bytes) :
    Except PatchError (List Z1Entry) × FileLayer :=
  let covering := (layer.ranges cf).filter fun e => e.min ≤ key && key ≤ e.max
  layer.collect codec
    (fun entries => (entries.filter (·.key = key)).map (PatchEntry.toZ1Entry cf))
    (covering.map RangeIndexEntry.path)

/-- For each key in the range the first version of the highest transaction, from the
files whose range meets it. -/
def rangeVisible (codec : PatchCodec) (layer : FileLayer) (cf : UInt16) (start : Bytes)
    (endKey : Option Bytes) : Except PatchError (List (Bytes × Z1Entry)) × FileLayer :=
  let meeting := (layer.ranges cf).filter fun e =>
    start ≤ e.max && endKey.all fun bound => e.min < bound
  match layer.collect codec
      (fun entries => (entries.filter fun pe => inRange cf start endKey ⟨cf, pe.key⟩).map fun pe =>
        (pe.key, pe.toZ1Entry cf))
      (meeting.map RangeIndexEntry.path) with
  | (.error e, layer) => (.error e, layer)
  | (.ok pairs, layer) => (.ok (FinMap.keepMaxAll Z1Entry.txnId ∅ pairs).ascending, layer)

def allVersions (codec : PatchCodec) (layer : FileLayer) (cf : UInt16) :
    Except PatchError (List Z1Entry) × FileLayer :=
  layer.collect codec (·.map (PatchEntry.toZ1Entry cf))
    ((layer.ranges cf).map RangeIndexEntry.path)

/-- Write a patch file, then record its key range. -/
def appendPatch (codec : PatchCodec) (layer : FileLayer) (write : PatchWrite) (cf : UInt16)
    (entries : List PatchEntry) (patchId : Nat) : Except Halt Unit × FileLayer :=
  if entries = [] then (.ok (), layer)
  else
    match write.createDir with
    | some interrupt => (.error interrupt.halt, layer)
    | none =>
        let files := layer.files.createDir cf
        let sorted := entries.insertionSort PatchEntry.Le
        match (Z1PatchFormatV4.format codec).toDiskBytes (.sparse sorted) with
        | .error e => (.error (.error (.format e)), { layer with files })
        | .ok bytes =>
            match (files.dir cf).writeDurable patchId bytes write.attempts with
            | (.error interrupt, dir) =>
                (.error interrupt.halt, { layer with files := AList.insert cf dir files })
            | (.ok (), dir) =>
                (.ok (),
                  { layer with
                    files := AList.insert cf dir files
                    index := AList.insert cf (layer.ranges cf ++ [⟨(keyBounds sorted).1,
                      (keyBounds sorted).2, ⟨cf, .final patchId⟩⟩]) layer.index })

/-- Remove the directory of a column family, its index and its cached contents. -/
def dropCf (layer : FileLayer) (removal : Removal) (cf : UInt16) : Except Halt Unit × FileLayer :=
  let forget (files : PatchTree) : FileLayer :=
    ⟨files, AList.erase cf layer.index, layer.content.retain fun path _ => path.cf ≠ cf⟩
  match AList.lookup cf layer.files with
  | none => (.ok (), forget layer.files)
  | some dir =>
      match removal with
      | .completes => (.ok (), forget (AList.erase cf layer.files))
      | .stops left interrupt =>
          (.error interrupt.halt,
            { layer with files := AList.insert cf (dir.retain fun file _ => left file) layer.files })
      | .stopsAfter interrupt =>
          (.error interrupt.halt, { layer with files := AList.erase cf layer.files })

/-- Column families of the index, ascending. -/
def listCfs (layer : FileLayer) : List UInt16 :=
  layer.index.keys.insertionSort fun a b => a.toNat ≤ b.toNat

/-- The largest id among the names of indexed files that are a number with a suffix. -/
def maxPatchId (layer : FileLayer) : Nat :=
  ((layer.index.entries.flatMap fun e => e.2).filterMap fun e => e.path.file.patchId?).foldr max 0

end FileLayer
end Z1Kv
