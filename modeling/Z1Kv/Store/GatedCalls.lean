import Z1Kv.Library.Linearizable
import Z1Kv.Store.LayerRefinement
import Z1Kv.Store.WriterSteps

/-! Any number of calls on the layers at the same time: puts, flushes, compactions, gets and
scans take their steps in any order that the migration gate allows. -/
namespace Z1Kv

/-- The arguments of a range scan. -/
structure ScanCall where
  snap : TxnSnapshot
  cf : UInt16
  start : Bytes
  endKey : Option Bytes

namespace ScanCall

def inL1 (call : ScanCall) (s : Store) : List (Bytes × Z1Entry) :=
  s.l1.rangeVisible call.snap call.cf call.start call.endKey

def cached (call : ScanCall) (s : Store) : List (Bytes × Z1Entry) :=
  (s.recentFlush.values.filter fun e =>
    inRange call.cf call.start call.endKey e.key && e.isVisibleAtCommit call.snap).map fun e =>
      (e.key.key, e)

def inL2 (call : ScanCall) (s : Store) : List (Bytes × Z1Entry) :=
  (s.l2.rangeVisible call.cf call.start call.endKey).filter (·.2.isVisibleAtCommit call.snap)

def inL3 (call : ScanCall) (s : Store) : List (Bytes × Z1Entry) :=
  (s.l3.rangeVisible call.cf call.start call.endKey).filter (·.2.isVisibleAtCommit call.snap)

end ScanCall

/-- What a scan returns of the best versions it has found. -/
def livePairs (best : FinMap Bytes Z1Entry) : List (Bytes × Bytes) :=
  best.ascending.filterMap fun pair => pair.2.value.map fun v => (pair.1, v)

/-- How far a scan has got, with the best version of each key so far. -/
inductive ScanPhase
  | idle
  | gated
  | readL1 (best : FinMap Bytes Z1Entry)
  | readCache (best : FinMap Bytes Z1Entry)
  | readL2 (best : FinMap Bytes Z1Entry)
  | readL3 (best : FinMap Bytes Z1Entry)
  | returned (pairs : List (Bytes × Bytes))

def ScanPhase.holdsGate : ScanPhase → Bool
  | idle | returned _ => false
  | _ => true

open ScanPhase in
/-- One step of the scan `id`. -/
inductive ScanStep (s : Store) (id : Nat) (call : ScanCall) :
    ScanPhase × MigrationGate → ScanPhase × MigrationGate → Prop
  | enter (gate : MigrationGate) (hWriter : gate.writer = none) :
      ScanStep s id call (idle, gate) (gated, { gate with readers := insert id gate.readers })
  | l1 (gate : MigrationGate) :
      ScanStep s id call (gated, gate)
        (readL1 (FinMap.keepMaxAll Z1Entry.txnId ∅ (call.inL1 s)), gate)
  | cache (gate : MigrationGate) (best : FinMap Bytes Z1Entry) :
      ScanStep s id call (readL1 best, gate)
        (readCache (best.keepMaxAll Z1Entry.txnId (call.cached s)), gate)
  | l2 (gate : MigrationGate) (best : FinMap Bytes Z1Entry) :
      ScanStep s id call (readCache best, gate)
        (readL2 (best.keepMaxAll Z1Entry.txnId (call.inL2 s)), gate)
  | l3 (gate : MigrationGate) (best : FinMap Bytes Z1Entry) :
      ScanStep s id call (readL2 best, gate)
        (readL3 (best.keepMaxAll Z1Entry.txnId (call.inL3 s)), gate)
  | leave (gate : MigrationGate) (best : FinMap Bytes Z1Entry) :
      ScanStep s id call (readL3 best, gate)
        (returned (livePairs best), { gate with readers := gate.readers.erase id })

/-- How far a put has got: the insertion and the count of bytes are two steps, and the
append to the log before them may fail. -/
inductive PutPhase
  | called
  | inserted
  | counted
  | failed (e : Z1Error)

/-- A call on the layers, with how far it has got. -/
inductive GatedCall
  | unused
  | put (e : Z1Entry) (phase : PutPhase)
  | flushL1ToL2 (phase : FlushPhase)
  | compactL2ToL3 (minActiveBeginTs : TxnId) (phase : CompactPhase)
  | getAt (call : ReadCall) (phase : ReadPhase)
  | scanAt (call : ScanCall) (phase : ScanPhase)
  | done

/-- What a client asks for; it has no say in what happens to the writes. -/
abbrev ClientOp := LayerOp Unit

abbrev ClientReply := Except Z1Error LayerReply

/-- The get works for this call. -/
def ReadPhase.Serves (call : ReadCall) : ReadPhase → Prop
  | .idle => True
  | .gated own | .readL1 own _ | .readCache own _ | .readL2 own _ | .readL3 own _
  | .returned own _ _ => own = call

namespace GatedCall

def start : ClientOp → GatedCall
  | .put e => .put e .called
  | .flushL1ToL2 _ => .flushL1ToL2 .idle
  | .compactL2ToL3 _ minActiveBeginTs => .compactL2ToL3 minActiveBeginTs .idle
  | .getAt snap cf key => .getAt ⟨snap, cf, key⟩ .idle
  | .scanAt snap cf start endKey => .scanAt ⟨snap, cf, start, endKey⟩ .idle

/-- What the client has asked for. -/
def op : GatedCall → Option ClientOp
  | .unused | .done => none
  | .put e _ => some (.put e)
  | .flushL1ToL2 _ => some (.flushL1ToL2 fun _ => ())
  | .compactL2ToL3 minActiveBeginTs _ => some (.compactL2ToL3 (fun _ => ()) minActiveBeginTs)
  | .getAt call _ => some (.getAt call.snap call.cf call.key)
  | .scanAt call _ => some (.scanAt call.snap call.cf call.start call.endKey)

/-- What a call at its end returns. -/
def returns : GatedCall → Option ClientReply
  | .put _ .counted => some (.ok .inserted)
  | .put _ (.failed e) => some (.error e)
  | .flushL1ToL2 (.returned result) => some (result.map LayerReply.flushed)
  | .compactL2ToL3 _ (.returned result) => some (result.map LayerReply.compacted)
  | .getAt _ (.returned _ _ value) => some (.ok (.value value))
  | .scanAt _ (.returned pairs) => some (.ok (.pairs pairs))
  | _ => none

end GatedCall

/-- The layers and the gate, with every call on them and what the clients have seen. -/
structure GatedStore where
  store : Store
  gate : MigrationGate := {}
  calls : Nat → GatedCall := fun _ => .unused
  history : List (CallEvent ClientOp ClientReply) := []

namespace GatedStore

/-- The call `i` has got this far. -/
def moved (g : GatedStore) (i : Nat) (call : GatedCall) (store : Store) (gate : MigrationGate) : GatedStore :=
  { g with store, gate, calls := Function.update g.calls i call }

/-- The clients see this of a call. -/
def observed (g : GatedStore) (event : CallEvent ClientOp ClientReply) : GatedStore :=
  { g with history := g.history ++ [event] }

inductive Step : GatedStore → GatedStore → Prop
  | invoke (g : GatedStore) (i : Nat) (op : ClientOp) (h : g.calls i = .unused) :
      Step g ((g.moved i (.start op) g.store g.gate).observed (.invoke i op))
  | logFails (g : GatedStore) (i : Nat) (e : Z1Entry) (err : Z1Error)
      (h : g.calls i = .put e .called) :
      Step g (g.moved i (.put e (.failed err)) g.store g.gate)
  | insert (g : GatedStore) (i : Nat) (e : Z1Entry) (h : g.calls i = .put e .called) :
      Step g
        (g.moved i (.put e .inserted)
          { g.store with l1 := { g.store.l1 with hot := g.store.l1.hot.put e } } g.gate)
  | count (g : GatedStore) (i : Nat) (e : Z1Entry) (h : g.calls i = .put e .inserted) :
      Step g
        (g.moved i (.put e .counted)
          { g.store with
            l1 := { g.store.l1 with hotSizeBytes := g.store.l1.hotSizeBytes + MemStore.estimateSize e } }
          g.gate)
  | flush (g : GatedStore) (i : Nat) (phase phase' : FlushPhase) (store : Store) (gate : MigrationGate)
      (h : g.calls i = .flushL1ToL2 phase)
      (hStep : FlushStep i (phase, g.store, g.gate) (phase', store, gate)) :
      Step g (g.moved i (.flushL1ToL2 phase') store gate)
  | compact (g : GatedStore) (i : Nat) (minActiveBeginTs : TxnId) (phase phase' : CompactPhase)
      (store : Store) (gate : MigrationGate) (h : g.calls i = .compactL2ToL3 minActiveBeginTs phase)
      (hStep : CompactStep i minActiveBeginTs (phase, g.store, g.gate) (phase', store, gate)) :
      Step g (g.moved i (.compactL2ToL3 minActiveBeginTs phase') store gate)
  | get (g : GatedStore) (i : Nat) (call : ReadCall) (phase phase' : ReadPhase) (gate : MigrationGate)
      (h : g.calls i = .getAt call phase)
      (hStep : ReadStep g.store i (phase, g.gate) (phase', gate)) (hServes : phase'.Serves call) :
      Step g (g.moved i (.getAt call phase') g.store gate)
  | scan (g : GatedStore) (i : Nat) (call : ScanCall) (phase phase' : ScanPhase) (gate : MigrationGate)
      (h : g.calls i = .scanAt call phase)
      (hStep : ScanStep g.store i call (phase, g.gate) (phase', gate)) :
      Step g (g.moved i (.scanAt call phase') g.store gate)
  | respond (g : GatedStore) (i : Nat) (ret : ClientReply) (h : (g.calls i).returns = some ret) :
      Step g ((g.moved i .done g.store g.gate).observed (.respond i ret))

end GatedStore

/-- What one call may answer when it has the layers to itself: what the layers of patches
answer, whatever happens to the writes; a put may fail in the log. -/
inductive LayerSpec (s : Store) : ClientOp → ClientReply → Store → Prop
  | answers {op : ClientOp} {op' : LayerOp PatchOutcome} (h : op.SameCall op') :
      LayerSpec s op (s.layerStep op').1 (s.layerStep op').2
  | logFails (e : Z1Entry) (err : Z1Error) : LayerSpec s (.put e) (.error err) s
end Z1Kv
