import Z1Kv.Wal.Replay

/-! The byte language of a WAL directory: which files replay accepts, what it reads
from them, and how much memory it asks for. A payload need not be the encoding of
what it decodes to, so a parse is kept at the level of payloads. -/
namespace Z1Kv

/-- What the last segment may end in: nothing, part of a header whose length field is
within the limit as far as it goes, or a header that declares more than there is. -/
def TornTail (tail : Bytes) : Prop :=
  tail = [] ∨
    (tail.length < 8 ∧
      Bytes.value ((tail ++ List.replicate (8 - tail.length) 0).take 4) ≤ maxWalRecordLen) ∨
    (8 ≤ tail.length ∧ Bytes.value (tail.take 4) ≤ maxWalRecordLen ∧
      tail.length < 8 + Bytes.value (tail.take 4))

structure ParsedSegment where
  payloads : List Bytes
  tail : Bytes

namespace ParsedSegment
variable (codec : Codec)

def bytes (segment : ParsedSegment) : Bytes :=
  segment.payloads.flatMap codec.framed ++ segment.tail

def entries (segment : ParsedSegment) : List WalEntry := segment.payloads.filterMap codec.decode

/-- The segment is a concatenation of valid frames, with a torn tail if it is the last. -/
structure Grammatical (isLast : Bool) (segment : ParsedSegment) : Prop where
  valid : ∀ payload ∈ segment.payloads, codec.Valid payload
  tail : segment.tail = [] ∨ isLast = true ∧ TornTail segment.tail

end ParsedSegment

/-- The contents of the segment files in the order of their numbers. -/
def WalDir.files (dir : WalDir) : List Bytes :=
  (dir.insertionSort fun a b => a.1 ≤ b.1).map Prod.snd

/-- A parse of the files, one segment for each. -/
structure ParsesAs (codec : Codec) (files : List Bytes) (parse : List ParsedSegment) : Prop where
  files : files = parse.map (ParsedSegment.bytes codec)
  whole : ∀ segment ∈ parse.dropLast, segment.Grammatical codec false
  last : ∀ segment ∈ parse.getLast?, segment.Grammatical codec true

section Buffers
variable (codec : Codec)

/-- `read_one_record` with the payload buffers it allocates. -/
def readOneRecordBuffers (rest : Bytes) :
    List Nat × Except Z1Error (Option (WalEntry × Bytes)) :=
  let header := rest.take 8
  if header.length = 0 then ([], .ok none)
  else if header.length ≠ 8 then ([], .error (.deserialize .truncatedHeader))
  else
    let len := Bytes.value (header.take 4)
    let storedCrc := UInt32.ofNat (Bytes.value (header.drop 4))
    if len > maxWalRecordLen then
      ([], .error (.deserialize (.lengthExceedsLimit len maxWalRecordLen)))
    else
      let body := rest.drop 8
      -- the buffer is allocated before the read can find the file too short
      ([len],
        if body.length < len then .error (.deserialize .truncatedPayload)
        else
          let payload := body.take len
          let actualCrc := codec.crc32 payload
          if actualCrc ≠ storedCrc then .error (.deserialize (.crcMismatch storedCrc actualCrc))
          else
            match codec.decode payload with
            | none => .error (.deserialize .decode)
            | some entry => .ok (some (entry, body.drop len)))

def replayLoopBuffers (isLastSegment : Bool) : Nat → Bytes → List Nat × Except Z1Error (List WalEntry)
  | 0, _ => ([], .ok [])
  | fuel + 1, rest =>
      let (requested, outcome) := readOneRecordBuffers codec rest
      match outcome with
      | .ok (some (entry, tail)) =>
          let (more, entries) := replayLoopBuffers isLastSegment fuel tail
          (requested ++ more, entries.map (entry :: ·))
      | .ok none => (requested, .ok [])
      | .error e =>
          (requested, if isLastSegment && structurallyTruncated rest then .ok [] else .error e)

def replaySegmentsBuffers : WalDir → List Nat × Except Z1Error (List WalEntry)
  | [] => ([], .ok [])
  | (_, bytes) :: later =>
      match replayLoopBuffers codec later.isEmpty (bytes.length + 1) bytes with
      | (requested, .error e) => (requested, .error e)
      | (requested, .ok here) =>
          let (more, entries) := replaySegmentsBuffers later
          (requested ++ more, entries.map (here ++ ·))

/-- `replay_all` with all the payload buffers it allocates. -/
def replayAllBuffers (dir : WalDir) : List Nat × Except Z1Error (List WalEntry) :=
  replaySegmentsBuffers codec (dir.insertionSort fun a b => a.1 ≤ b.1)

variable {codec}

theorem readOneRecordBuffers_result (rest : Bytes) :
    (readOneRecordBuffers codec rest).2 = readOneRecord codec rest := by
  simp only [readOneRecordBuffers, readOneRecord]
  split_ifs <;> rfl

theorem readOneRecordBuffers_inLimit {rest : Bytes} {n : Nat}
    (h : n ∈ (readOneRecordBuffers codec rest).1) : n ≤ maxWalRecordLen := by
  simp only [readOneRecordBuffers] at h
  split_ifs at h with h0 h8 hLimit
  · simp at h
  · simp at h
  · simp at h
  all_goals
    obtain rfl := List.mem_singleton.mp h
    exact Nat.not_lt.mp hLimit

theorem replayLoopBuffers_result (isLast : Bool) (fuel : Nat) (rest : Bytes) :
    (replayLoopBuffers codec isLast fuel rest).2 = replayLoop codec isLast fuel rest := by
  induction fuel generalizing rest with
  | zero => rfl
  | succ fuel ih =>
      rw [replayLoopBuffers, replayLoop, ← readOneRecordBuffers_result]
      rcases readOneRecordBuffers codec rest with ⟨requested, e | _ | ⟨entry, tail⟩⟩
      · rfl
      · rfl
      · simp only [ih]

theorem replayLoopBuffers_inLimit {isLast : Bool} {fuel : Nat} {rest : Bytes} {n : Nat}
    (h : n ∈ (replayLoopBuffers codec isLast fuel rest).1) : n ≤ maxWalRecordLen := by
  induction fuel generalizing rest with
  | zero => simp [replayLoopBuffers] at h
  | succ fuel ih =>
      have hHere := @readOneRecordBuffers_inLimit codec rest n
      rw [replayLoopBuffers] at h
      rcases hRead : readOneRecordBuffers codec rest with ⟨requested, e | _ | ⟨entry, tail⟩⟩
      all_goals simp only [hRead] at h hHere
      · exact hHere h
      · exact hHere h
      · rcases List.mem_append.mp h with h | h
        · exact hHere h
        · exact ih h

theorem replayAllBuffers_result (dir : WalDir) :
    (replayAllBuffers codec dir).2 = replayAll codec dir := by
  unfold replayAllBuffers replayAll
  induction dir.insertionSort fun a b => a.1 ≤ b.1 with
  | nil => rfl
  | cons file later ih =>
      obtain ⟨seq, bytes⟩ := file
      rw [replaySegmentsBuffers, replaySegments, replaySegment, ← replayLoopBuffers_result]
      rcases replayLoopBuffers codec later.isEmpty (bytes.length + 1) bytes with ⟨requested, e | here⟩
      · rfl
      · simp only [ih]
        cases replaySegments codec later <;> rfl

theorem replayAllBuffers_inLimit {dir : WalDir} {n : Nat}
    (h : n ∈ (replayAllBuffers codec dir).1) : n ≤ maxWalRecordLen := by
  unfold replayAllBuffers at h
  generalize dir.insertionSort (fun a b => a.1 ≤ b.1) = files at h
  induction files with
  | nil => simp [replaySegmentsBuffers] at h
  | cons file later ih =>
      obtain ⟨seq, bytes⟩ := file
      have hHere := @replayLoopBuffers_inLimit codec later.isEmpty (bytes.length + 1) bytes n
      rw [replaySegmentsBuffers] at h
      rcases hLoop : replayLoopBuffers codec later.isEmpty (bytes.length + 1) bytes with
        ⟨requested, e | here⟩
      all_goals simp only [hLoop] at h hHere
      · exact hHere h
      · rcases List.mem_append.mp h with h | h
        · exact hHere h
        · exact ih h

end Buffers

section Frames
variable {codec : Codec} {tail : Bytes}

/-- What is read is a valid frame at the front of the bytes. -/
theorem readOneRecord_eq_some {rest : Bytes} {entry : WalEntry}
    (h : readOneRecord codec rest = .ok (some (entry, tail))) :
    ∃ payload, codec.Valid payload ∧ codec.decode payload = some entry ∧
      rest = codec.framed payload ++ tail := by
  unfold readOneRecord at h
  dsimp only at h
  split_ifs at h with h0 h8 hLimit hBody hCrc
  · cases h
  · split at h
    · cases h
    · next entry' hDecode =>
      simp only [Except.ok.injEq, Option.some.injEq, Prod.mk.injEq] at h
      obtain ⟨rfl, rfl⟩ := h
      generalize hLen : Bytes.value ((rest.take 8).take 4) = len at hLimit hBody hCrc hDecode ⊢
      have hPayload : ((rest.drop 8).take len).length = len := by
        rw [List.length_take]
        omega
      refine ⟨(rest.drop 8).take len, ⟨?_, entry', hDecode⟩, hDecode, ?_⟩
      · rw [hPayload]
        exact Nat.not_lt.mp hLimit
      · have hFour : ((rest.take 8).take 4).length = 4 ∧ ((rest.take 8).drop 4).length = 4 := by
          simp only [List.length_take, List.length_drop] at h8 ⊢
          omega
        have hFirst : Bytes.le 4 len = (rest.take 8).take 4 := by
          have := Bytes.le_value ((rest.take 8).take 4)
          rwa [hFour.1, hLen] at this
        have hSecond : Bytes.le 4 (codec.crc32 ((rest.drop 8).take len)).toNat =
            (rest.take 8).drop 4 := by
          have hBound : Bytes.value ((rest.take 8).drop 4) < 2 ^ 32 := by
            have := Bytes.value_lt ((rest.take 8).drop 4)
            rw [hFour.2] at this
            omega
          have := Bytes.le_value ((rest.take 8).drop 4)
          rw [hFour.2] at this
          rw [not_not.mp hCrc, UInt32.toNat_ofNat', Nat.mod_eq_of_lt hBound]
          exact this
        rw [Codec.framed, hPayload, hFirst, hSecond, List.take_append_drop, List.append_assoc,
          List.take_append_drop, List.take_append_drop]

theorem readOneRecord_eq_none {rest : Bytes} (h : readOneRecord codec rest = .ok none) :
    rest = [] := by
  by_contra hNe
  unfold readOneRecord at h
  dsimp only at h
  split_ifs at h with h0 h8 hLimit hBody hCrc
  · simp [hNe] at h0
  · split at h <;> cases h

theorem structurallyTruncated_iff : structurallyTruncated tail = true ↔ TornTail tail := by
  simp only [structurallyTruncated, TornTail, Bool.and_eq_true, Bool.or_eq_true, decide_eq_true_eq,
    Bool.not_eq_true', decide_eq_false_iff_not, List.length_take]
  by_cases hShort : tail.length < 8
  · have hTake : tail.take 8 = tail := List.take_of_length_le (by omega)
    have hMin : min 8 tail.length = tail.length := by omega
    rw [hTake, hMin]
    constructor
    · rintro ⟨-, hLimit⟩
      exact .inr (.inl ⟨hShort, Nat.not_lt.mp hLimit⟩)
    · rintro (rfl | ⟨-, hLimit⟩ | ⟨hLong, -⟩)
      · simp [Bytes.value]
      · exact ⟨.inl hShort, Nat.not_lt.mpr hLimit⟩
      · omega
  · have hNe : tail ≠ [] := by
      rintro rfl
      simp at hShort
    have hMin : min 8 tail.length = 8 := by omega
    have hFour : (tail.take 8 ++ List.replicate (8 - 8) 0).take 4 = tail.take 4 := by
      simp [List.take_take]
    rw [hMin, hFour]
    simp only [hNe, hShort, lt_irrefl, false_or, false_and]
    omega

/-- Nothing can be read at a torn tail. -/
theorem readOneRecord_tornTail (h : TornTail tail) (hNe : tail ≠ []) :
    ∃ e, readOneRecord codec tail = .error e := by
  cases hRead : readOneRecord codec tail with
  | error e => exact ⟨e, rfl⟩
  | ok outcome =>
      exfalso
      cases outcome with
      | none => exact hNe (readOneRecord_eq_none hRead)
      | some found =>
          obtain ⟨payload, hValid, -, rfl⟩ := readOneRecord_eq_some hRead
          have hDeclared := @take_four_framed codec payload found.2
          have hLength := @framed_length codec payload
          rcases h with h | ⟨hShort, -⟩ | ⟨-, -, hPast⟩
          · exact hNe h
          · rw [List.length_append] at hShort
            omega
          · rw [hDeclared, Bytes.value_le_of_lt hValid.length_lt, List.length_append] at hPast
            omega

end Frames

namespace ParsedSegment.Grammatical
variable {codec : Codec} {isLast : Bool}

theorem tornTail {segment : ParsedSegment} (h : segment.Grammatical codec isLast) :
    TornTail segment.tail :=
  h.tail.elim .inl And.right

theorem cons {payload : Bytes} {payloads : List Bytes} {tail : Bytes} (h : codec.Valid payload)
    (hRest : Grammatical codec isLast ⟨payloads, tail⟩) :
    Grammatical codec isLast ⟨payload :: payloads, tail⟩ := by
  refine ⟨fun p hp => ?_, hRest.tail⟩
  rcases List.mem_cons.mp hp with rfl | hp
  · exact h
  · exact hRest.valid p hp

theorem of_cons {payload : Bytes} {payloads : List Bytes} {tail : Bytes}
    (h : Grammatical codec isLast ⟨payload :: payloads, tail⟩) :
    codec.Valid payload ∧ Grammatical codec isLast ⟨payloads, tail⟩ :=
  ⟨h.valid payload (by simp), fun p hp => h.valid p (by simp [hp]), h.tail⟩

end ParsedSegment.Grammatical

section Segments
variable {codec : Codec} {isLast : Bool}

theorem bytes_cons (payload : Bytes) (payloads : List Bytes) (tail : Bytes) :
    ParsedSegment.bytes codec ⟨payload :: payloads, tail⟩ =
      codec.framed payload ++ ParsedSegment.bytes codec ⟨payloads, tail⟩ := by
  simp [ParsedSegment.bytes]

/-- Replay reads a segment of the grammar as its payloads. -/
theorem replaySegment_grammatical {segment : ParsedSegment} (h : segment.Grammatical codec isLast) :
    replaySegment codec isLast (segment.bytes codec) = .ok (segment.entries codec) := by
  obtain ⟨payloads, tail⟩ := segment
  induction payloads with
  | nil =>
      simp only [ParsedSegment.bytes, List.flatMap_nil, List.nil_append, ParsedSegment.entries,
        List.filterMap_nil]
      by_cases hNe : tail = []
      · rw [hNe, replaySegment_nil]
      · obtain ⟨e, hRead⟩ := @readOneRecord_tornTail codec _ h.tornTail hNe
        have hLast : isLast = true := (h.tail.resolve_left hNe).1
        have hPeek : structurallyTruncated tail = true := structurallyTruncated_iff.mpr h.tornTail
        rw [replaySegment_eq, hRead]
        simp [hLast, hPeek]
  | cons payload payloads ih =>
      obtain ⟨hValid, hRest⟩ := h.of_cons
      obtain ⟨entry, hDecode⟩ := hValid.decodes
      rw [bytes_cons, replaySegment_eq, readOneRecord_framed hValid hDecode]
      simp only [ih hRest, Except.map, ParsedSegment.entries, List.filterMap_cons, hDecode]

/-- Replay of a segment succeeds only on the grammar. Every record read is shorter
than what was there before it. -/
theorem grammatical_of_replaySegment {bytes : Bytes} {entries : List WalEntry}
    (h : replaySegment codec isLast bytes = .ok entries) :
    ∃ segment : ParsedSegment, segment.Grammatical codec isLast ∧ bytes = segment.bytes codec := by
  induction hLength : bytes.length using Nat.strong_induction_on generalizing bytes entries with
  | _ n ih =>
      subst hLength
      rw [replaySegment_eq] at h
      cases hRead : readOneRecord codec bytes with
      | error e =>
          simp only [hRead] at h
          split at h
          · next hTorn =>
            rw [Bool.and_eq_true, structurallyTruncated_iff] at hTorn
            exact ⟨⟨[], bytes⟩, ⟨by simp, .inr hTorn⟩, rfl⟩
          · cases h
      | ok outcome =>
          cases outcome with
          | none => exact ⟨⟨[], []⟩, ⟨by simp, .inl rfl⟩, readOneRecord_eq_none hRead⟩
          | some found =>
              obtain ⟨entry, tail⟩ := found
              obtain ⟨payload, hValid, -, rfl⟩ := readOneRecord_eq_some hRead
              simp only [hRead] at h
              cases hTail : replaySegment codec isLast tail with
              | error e => simp [hTail, Except.map] at h
              | ok rest =>
                  obtain ⟨segment, hSegment, rfl⟩ :=
                    ih _ (readOneRecord_tail_length hRead) hTail rfl
                  exact ⟨⟨payload :: segment.payloads, segment.tail⟩, hSegment.cons hValid,
                    (bytes_cons _ _ _).symm⟩

theorem framed_append_inj {p p' a a' : Bytes} (hp : codec.Valid p) (hp' : codec.Valid p')
    (h : codec.framed p ++ a = codec.framed p' ++ a') : p = p' ∧ a = a' := by
  have hLength : p.length = p'.length := by
    have hFour := congrArg (fun bytes => Bytes.value (bytes.take 4)) h
    simpa only [take_four_framed, Bytes.value_le_of_lt hp.length_lt,
      Bytes.value_le_of_lt hp'.length_lt] using hFour
  have hBody := congrArg (List.drop 8) h
  rw [drop_eight_framed, drop_eight_framed] at hBody
  exact List.append_inj hBody hLength

theorem framed_not_torn {payload rest : Bytes} (h : codec.Valid payload) :
    ¬ TornTail (codec.framed payload ++ rest) := by
  intro hTorn
  obtain ⟨entry, hDecode⟩ := h.decodes
  have hNe : codec.framed payload ++ rest ≠ [] := by
    intro hNil
    have := congrArg List.length hNil
    simp [framed_length] at this
  obtain ⟨e, hRead⟩ := @readOneRecord_tornTail codec _ hTorn hNe
  rw [readOneRecord_framed h hDecode] at hRead
  cases hRead

theorem bytes_inj {first second : ParsedSegment} (hFirst : first.Grammatical codec isLast)
    (hSecond : second.Grammatical codec isLast) (h : first.bytes codec = second.bytes codec) :
    first = second := by
  obtain ⟨ps, tail⟩ := first
  obtain ⟨qs, tail'⟩ := second
  induction ps generalizing qs with
  | nil =>
      cases qs with
      | nil =>
          obtain rfl : tail = tail' := h
          rfl
      | cons q qs =>
          have hTorn : TornTail tail := hFirst.tornTail
          obtain rfl : tail = _ := h
          rw [bytes_cons] at hTorn
          exact absurd hTorn (framed_not_torn hSecond.of_cons.1)
  | cons p ps ih =>
      cases qs with
      | nil =>
          have hTorn : TornTail tail' := hSecond.tornTail
          obtain rfl : _ = tail' := h
          rw [bytes_cons] at hTorn
          exact absurd hTorn (framed_not_torn hFirst.of_cons.1)
      | cons q qs =>
          obtain ⟨hp, hps⟩ := hFirst.of_cons
          obtain ⟨hq, hqs⟩ := hSecond.of_cons
          rw [bytes_cons, bytes_cons] at h
          obtain ⟨rfl, hRest⟩ := framed_append_inj hp hq h
          cases ih hps qs hqs hRest
          rfl

end Segments

section Directory
variable {codec : Codec}

theorem parsesAs_nil {parse : List ParsedSegment} : ParsesAs codec [] parse ↔ parse = [] := by
  constructor
  · intro h
    exact List.map_eq_nil_iff.mp h.files.symm
  · rintro rfl
    exact ⟨rfl, by simp, by simp⟩

/-- The first of several files is parsed on its own, as the last one if nothing follows. -/
theorem parsesAs_cons {bytes : Bytes} {later : List Bytes} {parse : List ParsedSegment} :
    ParsesAs codec (bytes :: later) parse ↔ ∃ segment rest, parse = segment :: rest ∧
      bytes = segment.bytes codec ∧ segment.Grammatical codec later.isEmpty ∧
      ParsesAs codec later rest := by
  constructor
  · rintro ⟨hFiles, hWhole, hLast⟩
    obtain ⟨segment, rest, rfl⟩ : ∃ segment rest, parse = segment :: rest := by
      cases parse with
      | nil => simp at hFiles
      | cons segment rest => exact ⟨segment, rest, rfl⟩
    simp only [List.map_cons, List.cons.injEq] at hFiles
    obtain ⟨hBytes, rfl⟩ := hFiles
    refine ⟨segment, rest, rfl, hBytes, ?_, rfl, ?_, ?_⟩
    all_goals
      cases rest with
      | nil => simp_all
      | cons next rest => simp_all
  · rintro ⟨segment, rest, rfl, rfl, hSegment, rfl, hWhole, hLast⟩
    refine ⟨rfl, ?_, ?_⟩
    all_goals
      cases rest with
      | nil => simp_all
      | cons next rest => simp_all

theorem replaySegments_eq_ok {files : WalDir} {entries : List WalEntry} :
    replaySegments codec files = .ok entries ↔
      ∃ parse, ParsesAs codec (files.map Prod.snd) parse ∧
        entries = parse.flatMap (ParsedSegment.entries codec) := by
  induction files generalizing entries with
  | nil =>
      simp only [replaySegments, List.map_nil, parsesAs_nil, exists_eq_left, List.flatMap_nil,
        Except.ok.injEq]
      exact eq_comm
  | cons file later ih =>
      obtain ⟨seq, bytes⟩ := file
      have hEmpty : (later.map Prod.snd).isEmpty = later.isEmpty := by simp
      simp only [replaySegments, List.map_cons, parsesAs_cons, hEmpty]
      constructor
      · intro h
        cases hHere : replaySegment codec later.isEmpty bytes with
        | error e => simp [hHere, bind, Except.bind] at h
        | ok here =>
            cases hLater : replaySegments codec later with
            | error e => simp [hHere, hLater, bind, Except.bind] at h
            | ok more =>
                obtain ⟨segment, hSegment, rfl⟩ := grammatical_of_replaySegment hHere
                obtain ⟨parse, hParse, rfl⟩ := ih.mp hLater
                rw [replaySegment_grammatical hSegment] at hHere
                simp only [replaySegment_grammatical hSegment, hLater, bind, Except.bind,
                  Except.ok.injEq] at h
                exact ⟨segment :: parse, ⟨segment, parse, rfl, rfl, hSegment, hParse⟩, h.symm⟩
      · rintro ⟨parse, ⟨segment, rest, rfl, rfl, hSegment, hRest⟩, rfl⟩
        rw [replaySegment_grammatical hSegment, ih.mpr ⟨rest, hRest, rfl⟩]
        rfl

theorem parsesAs_unique {files : List Bytes} {first second : List ParsedSegment}
    (hFirst : ParsesAs codec files first) (hSecond : ParsesAs codec files second) :
    first = second := by
  induction files generalizing first second with
  | nil => rw [parsesAs_nil.mp hFirst, parsesAs_nil.mp hSecond]
  | cons bytes later ih =>
      obtain ⟨s, rest, rfl, hBytes, hs, hRest⟩ := parsesAs_cons.mp hFirst
      obtain ⟨s', rest', rfl, hBytes', hs', hRest'⟩ := parsesAs_cons.mp hSecond
      rw [bytes_inj hs hs' (hBytes.symm.trans hBytes'), ih hRest hRest']

/-- Replay accepts exactly the directories of the grammar and reads each as the
entries of its one parse; no payload buffer it asks for is above the limit. -/
theorem replayAll_grammar (codec : Codec) (dir : WalDir) :
    (∀ entries, replayAll codec dir = .ok entries ↔
      ∃ parse, ParsesAs codec dir.files parse ∧
        entries = parse.flatMap (ParsedSegment.entries codec)) ∧
    (∀ first second, ParsesAs codec dir.files first → ParsesAs codec dir.files second →
      first = second) ∧
    (replayAllBuffers codec dir).2 = replayAll codec dir ∧
    ∀ n ∈ (replayAllBuffers codec dir).1, n ≤ maxWalRecordLen :=
  ⟨fun _ => replaySegments_eq_ok, fun _ _ => parsesAs_unique, replayAllBuffers_result dir,
    fun _ => replayAllBuffers_inLimit⟩

end Directory

end Z1Kv
