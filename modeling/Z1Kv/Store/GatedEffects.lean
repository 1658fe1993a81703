import Z1Kv.Store.GatedCalls

/-! What one step of a call does for the other calls: a read has its answer from its look at
L1 on, a put commutes with what a flush or a compaction still has to do. -/
namespace Z1Kv

namespace ReadCall

def cached (call : ReadCall) (s : Store) : List Z1Entry :=
  (s.recentFlush.values.filter fun e => e.key = ⟨call.cf, call.key⟩).filter (·.isVisibleAtCommit call.snap)

def inL2 (call : ReadCall) (s : Store) : List Z1Entry :=
  (s.l2.getVersions call.cf call.key).filter (·.isVisibleAtCommit call.snap)

def inL3 (call : ReadCall) (s : Store) : List Z1Entry :=
  (s.l3.getVersions call.cf call.key).filter (·.isVisibleAtCommit call.snap)

end ReadCall

def newestValue (candidates : List Z1Entry) : Option Bytes :=
  (maxByKey Z1Entry.txnId candidates).bind Z1Entry.value

/-- What the get will find if nobody moves versions below L1. -/
def ReadPhase.found (s : Store) : ReadPhase → Option (Option Bytes)
  | .idle | .gated _ => none
  | .readL1 call candidates =>
      some (newestValue (candidates ++ call.cached s ++ call.inL2 s ++ call.inL3 s))
  | .readCache call candidates => some (newestValue (candidates ++ call.inL2 s ++ call.inL3 s))
  | .readL2 call candidates => some (newestValue (candidates ++ call.inL3 s))
  | .readL3 _ candidates => some (newestValue candidates)
  | .returned _ _ value => some value

/-- What the scan will find if nobody moves versions below L1. -/
def ScanPhase.found (call : ScanCall) (s : Store) : ScanPhase → Option (List (Bytes × Bytes))
  | .idle | .gated => none
  | .readL1 best =>
      some (livePairs (best.keepMaxAll Z1Entry.txnId (call.cached s ++ call.inL2 s ++ call.inL3 s)))
  | .readCache best => some (livePairs (best.keepMaxAll Z1Entry.txnId (call.inL2 s ++ call.inL3 s)))
  | .readL2 best => some (livePairs (best.keepMaxAll Z1Entry.txnId (call.inL3 s)))
  | .readL3 best => some (livePairs best)
  | .returned pairs => some pairs

theorem FinMap.keepMaxAll_append {κ V : Type} [DecidableEq κ] (rank : V → Nat) (m : FinMap κ V)
    (first second : List (κ × V)) :
    m.keepMaxAll rank (first ++ second) = (m.keepMaxAll rank first).keepMaxAll rank second :=
  List.foldl_append

/-- A scan that has looked at L1 finds what a scan of the layers at that moment finds. -/
theorem ScanPhase.found_readL1 (call : ScanCall) (s : Store) :
    ScanPhase.found call s (.readL1 (FinMap.keepMaxAll Z1Entry.txnId ∅ (call.inL1 s))) =
      some (s.scanAt call.snap call.cf call.start call.endKey) := by
  rw [found, ← FinMap.keepMaxAll_append, ← List.append_assoc, ← List.append_assoc]
  rfl

theorem ScanPhase.found_readCache (call : ScanCall) (s : Store) (best : FinMap Bytes Z1Entry) :
    ScanPhase.found call s (.readCache (best.keepMaxAll Z1Entry.txnId (call.cached s))) =
      ScanPhase.found call s (.readL1 best) := by
  simp only [found, FinMap.keepMaxAll_append]

theorem ScanPhase.found_readL2 (call : ScanCall) (s : Store) (best : FinMap Bytes Z1Entry) :
    ScanPhase.found call s (.readL2 (best.keepMaxAll Z1Entry.txnId (call.inL2 s))) =
      ScanPhase.found call s (.readCache best) := by
  simp only [found, FinMap.keepMaxAll_append]

def PutPhase.result : PutPhase → Option ClientReply
  | .called => none
  | .inserted | .counted => some (.ok .inserted)
  | .failed e => some (.error e)

def FlushPhase.result : FlushPhase → Option ClientReply
  | .returned result => some (result.map LayerReply.flushed)
  | _ => none

def CompactPhase.result : CompactPhase → Option ClientReply
  | .returned result => some (result.map LayerReply.compacted)
  | _ => none

namespace GatedCall

/-- The answer of a call that has taken effect. -/
def answer (s : Store) : GatedCall → Option ClientReply
  | .put _ phase => phase.result
  | .flushL1ToL2 phase => phase.result
  | .compactL2ToL3 _ phase => phase.result
  | .getAt _ phase => (phase.found s).map fun value => .ok (.value value)
  | .scanAt call phase => (phase.found call s).map fun pairs => .ok (.pairs pairs)
  | _ => none

def reads : GatedCall → Bool
  | .getAt _ phase => phase.holdsGate
  | .scanAt _ phase => phase.holdsGate
  | _ => false

def writes : GatedCall → Bool
  | .flushL1ToL2 phase => phase.holdsGate
  | .compactL2ToL3 _ phase => phase.holdsGate
  | _ => false

/-- The flush is about to take the hot buffer. -/
def atTake : GatedCall → Bool
  | .flushL1ToL2 .gated => true
  | _ => false

/-- A flush or a compaction called on `a` has got this far and has made the layers `b`. -/
def Follows (a b : Store) : GatedCall → Prop
  | .flushL1ToL2 phase => phase.Follows a b
  | .compactL2ToL3 minActiveBeginTs phase => phase.Follows minActiveBeginTs a b
  | _ => False

theorem answer_of_writes {call : GatedCall} (h : call.writes = true) (s : Store) : call.answer s = none := by
  cases call with
  | flushL1ToL2 phase =>
      cases phase with
      | returned => cases h
      | _ => rfl
  | compactL2ToL3 _ phase =>
      cases phase with
      | returned => cases h
      | _ => rfl
  | _ => cases h

/-- Only a read in the middle of its work depends on what the others do to the layers. -/
theorem answer_of_not_reads {call : GatedCall} (h : call.reads = false) (s s' : Store) :
    call.answer s' = call.answer s := by
  cases call with
  | getAt _ phase =>
      cases phase with
      | idle => rfl
      | returned => rfl
      | _ => cases h
  | scanAt _ phase =>
      cases phase with
      | idle => rfl
      | returned => rfl
      | _ => cases h
  | _ => rfl

/-- And it does not depend on L1 any more. -/
theorem answer_congr {s s' : Store} (hCache : s'.recentFlush = s.recentFlush) (hL2 : s'.l2 = s.l2)
    (hL3 : s'.l3 = s.l3) (call : GatedCall) : call.answer s' = call.answer s := by
  cases call with
  | getAt _ phase =>
      cases phase <;> simp only [answer, ReadPhase.found, ReadCall.cached, ReadCall.inL2, ReadCall.inL3,
        hCache, hL2, hL3]
  | scanAt _ phase =>
      cases phase <;> simp only [answer, ScanPhase.found, ScanCall.cached, ScanCall.inL2, ScanCall.inL3,
        hCache, hL2, hL3]
  | _ => rfl

theorem answer_of_returns {call : GatedCall} {ret : ClientReply} (h : call.returns = some ret) (s : Store) :
    call.answer s = some ret ∧ call.reads = false ∧ call.writes = false := by
  cases call with
  | put _ phase =>
      cases phase with
      | counted => exact ⟨h, rfl, rfl⟩
      | failed => exact ⟨h, rfl, rfl⟩
      | _ => cases h
  | flushL1ToL2 phase =>
      cases phase with
      | returned => exact ⟨h, rfl, rfl⟩
      | _ => cases h
  | compactL2ToL3 _ phase =>
      cases phase with
      | returned => exact ⟨h, rfl, rfl⟩
      | _ => cases h
  | getAt _ phase =>
      cases phase with
      | returned => exact ⟨h, rfl, rfl⟩
      | _ => cases h
  | scanAt _ phase =>
      cases phase with
      | returned => exact ⟨h, rfl, rfl⟩
      | _ => cases h
  | _ => cases h

end GatedCall

/-- The layers `s` are `b` with these puts on top, the count of bytes aside. -/
structure Store.Ahead (b : Store) (puts : List Z1Entry) (s : Store) : Prop where
  hot : s.l1.hot = b.l1.hot.putAll puts
  cold : s.l1.cold = b.l1.cold
  snapshot : s.l1.snapshot = b.l1.snapshot
  flushThreshold : s.l1.flushThreshold = b.l1.flushThreshold
  recentFlush : s.recentFlush = b.recentFlush
  l2 : s.l2 = b.l2
  l3 : s.l3 = b.l3
  nextPatchId : s.nextPatchId = b.nextPatchId

/-- The puts one after the other. -/
def Store.replayAll (b : Store) (puts : List Z1Entry) : Store :=
  puts.foldl (fun s e => { s with l1 := s.l1.replayPut e }) b

namespace Store.Ahead
variable {b s : Store} {puts : List Z1Entry}

theorem refl (s : Store) : s.Ahead [] s := ⟨rfl, rfl, rfl, rfl, rfl, rfl, rfl, rfl⟩

theorem insert (h : b.Ahead puts s) (e : Z1Entry) :
    b.Ahead (puts ++ [e]) { s with l1 := { s.l1 with hot := s.l1.hot.put e } } where
  hot := by
    simp only [h.hot, VersionMap.putAll, List.foldl_append, List.foldl_cons, List.foldl_nil]
  cold := h.cold
  snapshot := h.snapshot
  flushThreshold := h.flushThreshold
  recentFlush := h.recentFlush
  l2 := h.l2
  l3 := h.l3
  nextPatchId := h.nextPatchId

theorem count (h : b.Ahead puts s) (hotSizeBytes : Nat) :
    b.Ahead puts { s with l1 := { s.l1 with hotSizeBytes } } :=
  ⟨h.hot, h.cold, h.snapshot, h.flushThreshold, h.recentFlush, h.l2, h.l3, h.nextPatchId⟩

/-- The first put may as well have been made on `b`. -/
theorem replayPut {e : Z1Entry} (h : b.Ahead (e :: puts) s) :
    Store.Ahead { b with l1 := b.l1.replayPut e } puts s :=
  ⟨h.hot, h.cold, h.snapshot, h.flushThreshold, h.recentFlush, h.l2, h.l3, h.nextPatchId⟩

theorem replayAll (h : b.Ahead puts s) : (b.replayAll puts).Ahead [] s := by
  induction puts generalizing b with
  | nil => exact h
  | cons e rest ih => exact ih h.replayPut

/-- Equal layers read alike. -/
theorem getAt (h : b.Ahead [] s) (snap : TxnSnapshot) (cf : UInt16) (key : Bytes) :
    s.getAt snap cf key = b.getAt snap cf key := by
  have hL1 : s.l1.sources = b.l1.sources := by
    rw [MemStore.sources, h.hot, h.cold, h.snapshot]
    rfl
  simp only [Store.getAt, Store.candidates, MemStore.getVersions, hL1, h.recentFlush, h.l2, h.l3]

theorem scanAt (h : b.Ahead [] s) (snap : TxnSnapshot) (cf : UInt16) (start : Bytes) (endKey : Option Bytes) :
    s.scanAt snap cf start endKey = b.scanAt snap cf start endKey := by
  have hL1 : s.l1.sources = b.l1.sources := by
    rw [MemStore.sources, h.hot, h.cold, h.snapshot]
    rfl
  simp only [Store.scanAt, MemStore.rangeVisible, hL1, h.recentFlush, h.l2, h.l3]

end Store.Ahead

section Commute
variable {id : Nat} {b s s' : Store} {puts : List Z1Entry} {gate gate' : MigrationGate}

/-- A flush that has taken the hot buffer does not notice the puts. -/
theorem FlushStep.ahead {phase phase' : FlushPhase} (h : FlushStep id (phase, s, gate) (phase', s', gate'))
    (hAhead : b.Ahead puts s) (hTake : phase = .gated → puts = []) :
    ∃ b', FlushStep id (phase, b, gate) (phase', b', gate') ∧ b'.Ahead puts s' := by
  obtain ⟨hHot, hCold, hSnapshot, hThreshold, hCache, hL2, hL3, hPatchId⟩ := hAhead
  cases h with
  | enter _ _ hReaders hWriter =>
      exact ⟨b, .enter b gate hReaders hWriter, hHot, hCold, hSnapshot, hThreshold, hCache, hL2, hL3, hPatchId⟩
  | take =>
      obtain rfl := hTake rfl
      have hSame : s.l1.hot = b.l1.hot := hHot
      rw [hSame]
      exact ⟨_, .take b gate, rfl, hCold, hSnapshot, hThreshold, hCache, hL2, hL3, hPatchId⟩
  | resize _ _ oldHot =>
      exact ⟨_, .resize b gate oldHot, hHot, hCold, hSnapshot, hThreshold, hCache, hL2, hL3, hPatchId⟩
  | publish _ _ oldHot =>
      exact ⟨_, .publish b gate oldHot, hHot, hCold, rfl, hThreshold, hCache, hL2, hL3, hPatchId⟩
  | cacheMerge _ _ swapped =>
      refine ⟨_, .cacheMerge b gate swapped, hHot, hCold, hSnapshot, hThreshold, ?_, hL2, hL3, hPatchId⟩
      rw [hCache]
  | getAll =>
      rw [hCache]
      exact ⟨b, .getAll b gate, hHot, hCold, hSnapshot, hThreshold, hCache, hL2, hL3, hPatchId⟩
  | appendPatch _ _ numGroups cf entries rest written l2 hPatch =>
      rw [hL2, hPatchId] at hPatch
      refine ⟨_, .appendPatch b gate numGroups cf entries rest written l2 hPatch,
        hHot, hCold, hSnapshot, hThreshold, hCache, rfl, hL3, ?_⟩
      rw [hPatchId]
  | appendFails _ _ numGroups cf entries rest written l2 e hPatch =>
      rw [hL2, hPatchId] at hPatch
      refine ⟨_, .appendFails b gate numGroups cf entries rest written l2 e hPatch,
        hHot, hCold, hSnapshot, hThreshold, hCache, rfl, hL3, ?_⟩
      rw [hPatchId]
  | clear _ _ numGroups =>
      exact ⟨_, .clear b gate numGroups, hHot, hCold, hSnapshot, hThreshold, rfl, hL2, hL3, hPatchId⟩
  | leave _ _ numGroups =>
      exact ⟨b, .leave b gate numGroups, hHot, hCold, hSnapshot, hThreshold, hCache, hL2, hL3, hPatchId⟩
  | leaveFailed _ _ e =>
      exact ⟨b, .leaveFailed b gate e, hHot, hCold, hSnapshot, hThreshold, hCache, hL2, hL3, hPatchId⟩

/-- Nor does a compaction. -/
theorem CompactStep.ahead {minActiveBeginTs : TxnId} {phase phase' : CompactPhase}
    (h : CompactStep id minActiveBeginTs (phase, s, gate) (phase', s', gate')) (hAhead : b.Ahead puts s) :
    ∃ b', CompactStep id minActiveBeginTs (phase, b, gate) (phase', b', gate') ∧ b'.Ahead puts s' := by
  obtain ⟨hHot, hCold, hSnapshot, hThreshold, hCache, hL2, hL3, hPatchId⟩ := hAhead
  cases h with
  | enter _ _ hReaders hWriter =>
      exact ⟨b, .enter b gate hReaders hWriter, hHot, hCold, hSnapshot, hThreshold, hCache, hL2, hL3, hPatchId⟩
  | listCfs =>
      rw [hL2]
      exact ⟨b, .listCfs b gate, hHot, hCold, hSnapshot, hThreshold, hCache, hL2, hL3, hPatchId⟩
  | skip _ _ cfs reclaimed cf rest hEmpty =>
      rw [hL2] at hEmpty
      exact ⟨b, .skip b gate cfs reclaimed cf rest hEmpty,
        hHot, hCold, hSnapshot, hThreshold, hCache, hL2, hL3, hPatchId⟩
  | allVersions _ _ cfs reclaimed cf rest hFound =>
      rw [hL2] at hFound ⊢
      exact ⟨b, .allVersions b gate cfs reclaimed cf rest hFound,
        hHot, hCold, hSnapshot, hThreshold, hCache, hL2, hL3, hPatchId⟩
  | gcEntries _ _ cfs reclaimed cf versions rest retained stats hMerge =>
      exact ⟨b, .gcEntries b gate cfs reclaimed cf versions rest retained stats hMerge,
        hHot, hCold, hSnapshot, hThreshold, hCache, hL2, hL3, hPatchId⟩
  | nothingRetained _ _ cfs reclaimed cf rest =>
      exact ⟨b, .nothingRetained b gate cfs reclaimed cf rest,
        hHot, hCold, hSnapshot, hThreshold, hCache, hL2, hL3, hPatchId⟩
  | appendPatch _ _ cfs reclaimed cf retained rest written l3 hRetained hPatch =>
      rw [hL3, hPatchId] at hPatch
      refine ⟨_, .appendPatch b gate cfs reclaimed cf retained rest written l3 hRetained hPatch,
        hHot, hCold, hSnapshot, hThreshold, hCache, hL2, rfl, ?_⟩
      rw [hPatchId]
  | appendFails _ _ cfs reclaimed cf retained rest written l3 e hRetained hPatch =>
      rw [hL3, hPatchId] at hPatch
      refine ⟨_, .appendFails b gate cfs reclaimed cf retained rest written l3 e hRetained hPatch,
        hHot, hCold, hSnapshot, hThreshold, hCache, hL2, rfl, ?_⟩
      rw [hPatchId]
  | dropCf _ _ cfs reclaimed cf rest =>
      refine ⟨_, .dropCf b gate cfs reclaimed cf rest,
        hHot, hCold, hSnapshot, hThreshold, hCache, ?_, hL3, hPatchId⟩
      rw [hL2]
  | leave _ _ cfs reclaimed =>
      exact ⟨b, .leave b gate cfs reclaimed,
        hHot, hCold, hSnapshot, hThreshold, hCache, hL2, hL3, hPatchId⟩
  | leaveFailed _ _ e =>
      exact ⟨b, .leaveFailed b gate e, hHot, hCold, hSnapshot, hThreshold, hCache, hL2, hL3, hPatchId⟩

end Commute
end Z1Kv
