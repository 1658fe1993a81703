import Mathlib.Logic.Function.Iterate
import Z1Kv.Wal.Record

/-! The wire format of `postcard` at `WalEntry` and the IEEE CRC-32: LEB128
varints, length-prefixed byte strings, one-byte option tags and a varint
variant index. Concrete runs of the WAL use this instance of `Codec`. -/
namespace Z1Kv.Postcard

/-- LEB128 digits of `n`; `fuel` bounds the number of continuation bytes. -/
def varintFuel : Nat → Nat → Bytes
  | 0, n => [UInt8.ofNat n]
  | fuel + 1, n =>
      if n < 128 then [UInt8.ofNat n]
      else UInt8.ofNat (n % 128 + 128) :: varintFuel fuel (n / 128)

/-- A number of at most 64 bits. The types of the source exclude others, which get an
encoding that is too long for every writer. -/
def varint (n : Nat) : Bytes := if n < 2 ^ 64 then varintFuel n n else List.replicate (2 ^ 32) 0

/-- At most so many digits, the last of them below 128. -/
def readDigits : Nat → Bytes → Option (Nat × Bytes)
  | 0, _ => none
  | _ + 1, [] => none
  | digits + 1, b :: rest =>
      if b.toNat < 128 then some (b.toNat, rest)
      else (readDigits digits rest).map fun (n, tail) => (b.toNat - 128 + 128 * n, tail)

/-- Read one varint of a type of this width, retaining the bytes behind it. -/
def readVarint (width : Nat) (input : Bytes) : Option (Nat × Bytes) := do
  let (n, rest) ← readDigits ((width + 6) / 7) input
  if n < 2 ^ width then some (n, rest) else none

theorem readDigits_varintFuel (digits fuel n : Nat) (rest : Bytes) (h : n ≤ fuel)
    (hDigits : n < 128 ^ (digits + 1)) :
    readDigits (digits + 1) (varintFuel fuel n ++ rest) = some (n, rest) := by
  induction fuel generalizing digits n with
  | zero =>
      obtain rfl : n = 0 := by omega
      rfl
  | succ fuel ih =>
      by_cases hn : n < 128
      · have hValue : (UInt8.ofNat n).toNat = n := by
          rw [UInt8.toNat_ofNat', Nat.mod_eq_of_lt (by omega)]
        simp [varintFuel, hn, readDigits, hValue]
      · have hValue : (UInt8.ofNat (n % 128 + 128)).toNat = n % 128 + 128 := by
          rw [UInt8.toNat_ofNat', Nat.mod_eq_of_lt (by omega)]
        cases digits with
        | zero => exact absurd hDigits (by omega)
        | succ digits =>
            have hQuotient : n / 128 < 128 ^ (digits + 1) :=
              Nat.div_lt_of_lt_mul (by rwa [Nat.pow_succ'] at hDigits)
            simp only [varintFuel, hn, if_false, List.cons_append, readDigits, hValue,
              ih digits (n / 128) (by omega) hQuotient, Option.map_some]
            rw [if_neg (by omega)]
            congr 2
            omega

theorem readVarint_varint {width n : Nat} (hWidth : 0 < width ∧ width ≤ 64) (h : n < 2 ^ width)
    (rest : Bytes) : readVarint width (varint n ++ rest) = some (n, rest) := by
  obtain ⟨digits, hDigits⟩ : ∃ digits, (width + 6) / 7 = digits + 1 := ⟨(width + 6) / 7 - 1, by omega⟩
  have hNumber : n < 2 ^ 64 := h.trans_le (Nat.pow_le_pow_right (by decide) hWidth.2)
  have hShort : n < 128 ^ (digits + 1) := by
    calc n < 2 ^ width := h
      _ ≤ 2 ^ (7 * (digits + 1)) := Nat.pow_le_pow_right (by decide) (by omega)
      _ = 128 ^ (digits + 1) := by rw [Nat.pow_mul]
  simp only [readVarint, varint, if_pos hNumber, hDigits, readDigits_varintFuel digits n n rest le_rfl hShort,
    Option.bind_eq_bind, Option.bind_some, if_pos h]

/-- What a writer accepts is a number of 64 bits. -/
theorem lt_of_varint_length {n : Nat} (h : (varint n).length < 2 ^ 32) : n < 2 ^ 64 := by
  by_contra hLarge
  rw [varint, if_neg hLarge, List.length_replicate] at h
  omega

theorem readVarint_of_length {n : Nat} (h : (varint n).length < 2 ^ 32) (rest : Bytes) :
    readVarint 64 (varint n ++ rest) = some (n, rest) :=
  readVarint_varint (by decide) (lt_of_varint_length h) rest

/-- A byte string: its length, then the bytes themselves. -/
def bytes (data : Bytes) : Bytes := varint data.length ++ data

def readBytes (input : Bytes) : Option (Bytes × Bytes) := do
  let (length, rest) ← readVarint 64 input
  if rest.length < length then none else some (rest.take length, rest.drop length)

theorem readBytes_bytes {data : Bytes} (h : (bytes data).length < 2 ^ 32) (rest : Bytes) :
    readBytes (bytes data ++ rest) = some (data, rest) := by
  rw [bytes, List.length_append] at h
  have hLength := @readVarint_of_length data.length (by omega) (data ++ rest)
  simp [readBytes, bytes, hLength]

def option (data : Option Bytes) : Bytes :=
  match data with
  | none => [0]
  | some data => 1 :: bytes data

def readOption (input : Bytes) : Option (Option Bytes × Bytes) :=
  match input with
  | 0 :: rest => some (none, rest)
  | 1 :: rest => (readBytes rest).map fun (data, tail) => (some data, tail)
  | _ => none

theorem readOption_option {data : Option Bytes} (h : (option data).length < 2 ^ 32) (rest : Bytes) :
    readOption (option data ++ rest) = some (data, rest) := by
  cases data with
  | none => rfl
  | some data =>
      rw [option, List.length_cons] at h
      simp [option, readOption, readBytes_bytes (Nat.lt_of_succ_lt h)]

def record (r : WalRecord) : Bytes :=
  match r with
  | .put cf key value => varint 0 ++ varint cf.toNat ++ bytes key ++ option value
  | .begin => varint 1
  | .commit commitTs insertedAt => varint 2 ++ varint commitTs ++ varint insertedAt
  | .rollback => varint 3
  | .checkpoint checkpointId => varint 4 ++ varint checkpointId

def readRecord (input : Bytes) : Option WalRecord := do
  let (tag, rest) ← readVarint 32 input
  match tag with
  | 0 => do
      let (cf, rest) ← readVarint 16 rest
      let (key, rest) ← readBytes rest
      let (value, _) ← readOption rest
      some (.put (UInt16.ofNat cf) key value)
  | 1 => some .begin
  | 2 => do
      let (commitTs, rest) ← readVarint 64 rest
      let (insertedAt, _) ← readVarint 64 rest
      some (.commit commitTs insertedAt)
  | 3 => some .rollback
  | 4 => do
      let (checkpointId, _) ← readVarint 64 rest
      some (.checkpoint checkpointId)
  | _ => none

def encode (entry : WalEntry) : Bytes := varint entry.txnId ++ record entry.record

def decode (input : Bytes) : Option WalEntry := do
  let (txnId, rest) ← readVarint 64 input
  let record ← readRecord rest
  some ⟨txnId, record⟩

theorem readRecord_record {r : WalRecord} (h : (record r).length < 2 ^ 32) :
    readRecord (record r) = some r := by
  have hTag {tag : Nat} (hLt : tag < 2 ^ 32) := readVarint_varint (by decide) hLt
  have hEnd {n : Nat} (hLength : (varint n).length < 2 ^ 32) : readVarint 64 (varint n) = some (n, []) := by
    simpa using readVarint_of_length hLength []
  cases r with
  | put cf key value =>
      simp only [record, List.length_append] at h
      have hCf := readVarint_varint (by decide) (UInt16.toNat_lt cf)
      have hKey := @readBytes_bytes key (by omega)
      have hValue := @readOption_option value (by omega) []
      rw [List.append_nil] at hValue
      simp [record, readRecord, List.append_assoc, hTag (show 0 < 2 ^ 32 by decide), hCf, hKey, hValue]
  | begin =>
      have hOnly := hTag (show 1 < 2 ^ 32 by decide) []
      rw [List.append_nil] at hOnly
      simp [record, readRecord, hOnly]
  | commit commitTs insertedAt =>
      simp only [record, List.length_append] at h
      simp [record, readRecord, List.append_assoc, hTag (show 2 < 2 ^ 32 by decide),
        @readVarint_of_length commitTs (by omega), @hEnd insertedAt (by omega)]
  | rollback =>
      have hOnly := hTag (show 3 < 2 ^ 32 by decide) []
      rw [List.append_nil] at hOnly
      simp [record, readRecord, hOnly]
  | checkpoint checkpointId =>
      simp only [record, List.length_append] at h
      simp [record, readRecord, hTag (show 4 < 2 ^ 32 by decide), @hEnd checkpointId (by omega)]

theorem decode_encode (entry : WalEntry) (h : (encode entry).length ≤ maxWalRecordLen) :
    decode (encode entry) = some entry := by
  simp only [encode, List.length_append, maxWalRecordLen] at h
  simp [decode, encode, @readVarint_of_length entry.txnId (by omega),
    @readRecord_record entry.record (by omega)]

/-- One bit of the reflected CRC-32 division. -/
def crcBit (crc : UInt32) : UInt32 :=
  if crc &&& 1 = 1 then (crc >>> 1) ^^^ 0xEDB88320 else crc >>> 1

def crcByte (crc : UInt32) (byte : UInt8) : UInt32 :=
  crcBit^[8] (crc ^^^ byte.toUInt32)

def crc32 (data : Bytes) : UInt32 := ~~~ data.foldl crcByte 0xFFFFFFFF

/-- The standard check value: the CRC-32 of the ASCII digits `123456789`. -/
example : crc32 [49, 50, 51, 52, 53, 54, 55, 56, 57] = 0xCBF43926 := by decide +kernel

/-- The engine's codec. -/
def codec : Codec where
  encode := encode
  decode := decode
  crc32 := crc32
  decode_encode := decode_encode

end Z1Kv.Postcard
