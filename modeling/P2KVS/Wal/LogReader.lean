import P2KVS.Foundation.Loop
import P2KVS.Wal.LogWriter

/-!
# Reading the log

`log::Reader` reads a file block by block, takes physical records out of its buffer and puts their
fragments together. The type of a physical record and the reasons why there is none share one
number, as in the source. `ReadRecord` is a loop that need not end, so it is `Loop.run` of its body;
`read_record_returns_or_hangs` says when it returns.
-/

namespace P2KVS.Log

open LittleEndian Crc32c

/-- `WALRecoveryMode`. -/
inductive RecoveryMode where
  | tolerateCorruptedTailRecords
  | absoluteConsistency
  | pointInTimeRecovery
  | skipAnyCorruptedRecords
  deriving DecidableEq, Repr

-- `ReadPhysicalRecord` returns the type byte of a header or one of the codes behind the types, as
-- one number: a byte of the file can also be such a code

/-- Reserved for preallocated files. -/
@[match_pattern] abbrev kZeroType : Nat := 0

/-- A whole record. -/
@[match_pattern] abbrev kFullType : Nat := 1

/-- The first fragment of a record. -/
@[match_pattern] abbrev kFirstType : Nat := 2

/-- A fragment in the middle of a record. -/
@[match_pattern] abbrev kMiddleType : Nat := 3

/-- The last fragment of a record. -/
@[match_pattern] abbrev kLastType : Nat := 4

/-- A whole record of a recycled log file. -/
@[match_pattern] abbrev kRecyclableFullType : Nat := 5

/-- The first fragment of a record of a recycled log file. -/
@[match_pattern] abbrev kRecyclableFirstType : Nat := 6

/-- A fragment in the middle of a record of a recycled log file. -/
@[match_pattern] abbrev kRecyclableMiddleType : Nat := 7

/-- The last fragment of a record of a recycled log file. -/
@[match_pattern] abbrev kRecyclableLastType : Nat := 8

/-- The end of the file. -/
@[match_pattern] abbrev kEof : Nat := 9

/-- An invalid physical record. -/
@[match_pattern] abbrev kBadRecord : Nat := 10

/-- A header that could not be read. -/
@[match_pattern] abbrev kBadHeader : Nat := 11

/-- A record of the log that was in the file before. -/
@[match_pattern] abbrev kOldRecord : Nat := 12

/-- A record with a bad length. -/
@[match_pattern] abbrev kBadRecordLen : Nat := 13

/-- A record with a bad checksum. -/
@[match_pattern] abbrev kBadRecordChecksum : Nat := 14

/-- `DecodeFixed32`. -/
def decodeFixed32 (data : Slice) : Nat :=
  value (data.take 4)

/-- A `char` as `unsigned int`: the sign is extended. -/
def toUnsigned (b : Byte) : Nat :=
  if b.val < 128 then b.val else b.val + (2 ^ 32 - 256)

/-- The file behind a `SequentialFileReader`. For each of the reads to come, `failures` says
whether it fails. What a read that fails has delivered is not looked at. -/
structure SequentialFile where
  unread : Slice
  failures : List Bool
  deriving DecidableEq, Repr

/-- `Read`. -/
def SequentialFile.read (f : SequentialFile) (n : Nat) : Option Slice × SequentialFile :=
  match f.failures with
  | true :: rest => (none, ⟨f.unread, rest⟩)
  | false :: rest => (some (f.unread.take n), ⟨f.unread.drop n, rest⟩)
  | [] => (some (f.unread.take n), ⟨f.unread.drop n, []⟩)

/-- A read that succeeds delivers the next bytes. -/
theorem SequentialFile.read_some {f f' : SequentialFile} {n : Nat} {data : Slice}
    (h : f.read n = (some data, f')) : data = f.unread.take n ∧ f'.unread = f.unread.drop n := by
  unfold read at h
  split at h <;> cases h <;> exact ⟨rfl, rfl⟩

/-- The status that the reporter gets. -/
inductive Reason where
  | corruption (text : String)
  | ioError
  deriving DecidableEq, Repr

/-- `log::Reader`, with the calls of its reporter. -/
structure Reader where
  file : SequentialFile
  checksum : Bool
  logNumber : Nat
  buffer : Slice
  eof : Bool
  readError : Bool
  lastRecordOffset : Nat
  endOfBufferOffset : Nat
  recycled : Bool
  reports : List (Nat × Reason)
  deriving DecidableEq, Repr

/-- What `ReadPhysicalRecord` returns: a type or a reason, the fragment, and the bytes dropped. -/
structure Physical where
  code : Nat
  fragment : Slice
  dropSize : Nat
  deriving DecidableEq, Repr

namespace Reader

/-- The constructor. -/
def new (contents : Slice) (failures : List Bool) (checksum : Bool) (logNumber : Nat) : Reader where
  file := ⟨contents, failures⟩
  checksum := checksum
  logNumber := logNumber
  buffer := []
  eof := false
  readError := false
  lastRecordOffset := 0
  endOfBufferOffset := 0
  recycled := false
  reports := []

/-- `ReportCorruption`. -/
def reportCorruption (r : Reader) (bytes : Nat) (text : String) : Reader :=
  { r with reports := r.reports ++ [(bytes, .corruption text)] }

/-- `ReadMore`: a reader to go on with, or the error, the bytes dropped and the reader. -/
def readMore (r : Reader) : Reader ⊕ (Nat × Nat × Reader) :=
  if r.eof = false ∧ r.readError = false then
    match r.file.read kBlockSize with
    | (none, file) =>
        .inr (kEof, 0, { r with
          file := file
          buffer := []
          readError := true
          reports := r.reports ++ [(kBlockSize, .ioError)] })
    | (some data, file) =>
        .inl { r with
          file := file
          buffer := data
          endOfBufferOffset := r.endOfBufferOffset + data.length
          eof := data.length < kBlockSize }
  else if 0 < r.buffer.length then .inr (kBadHeader, r.buffer.length, { r with buffer := [] })
  else .inr (kEof, 0, { r with buffer := [] })

/-- The type in the header at the front of the buffer. -/
def frontType (r : Reader) : Nat :=
  toUnsigned (r.buffer.getD 6 0)

/-- The length in the header at the front of the buffer. -/
def frontLength (r : Reader) : Nat :=
  (r.buffer.getD 4 0).val + 256 * (r.buffer.getD 5 0).val

/-- The header at the front of the buffer is of the recyclable form. -/
def frontRecyclable (r : Reader) : Bool :=
  kRecyclableFullType ≤ r.frontType && r.frontType ≤ kRecyclableLastType

/-- `recycled_` is set by a recyclable header at the start of the file. -/
def noteRecycled (r : Reader) : Reader :=
  if r.frontRecyclable ∧ r.endOfBufferOffset - r.buffer.length = 0 then { r with recycled := true }
  else r

/-- What `ReadPhysicalRecord` makes of a complete header. -/
def takeRecord (r : Reader) : Physical × Reader :=
  let headerSize := headerSize r.frontRecyclable
  let size := headerSize + r.frontLength
  if r.frontRecyclable ∧ decodeFixed32 (r.buffer.drop 7) ≠ r.logNumber then
    -- the record stays in the buffer
    (⟨kOldRecord, [], 0⟩, r)
  else if r.buffer.length < size then
    let code := if r.eof then if 0 < r.buffer.length then kBadHeader else kEof else kBadRecordLen
    (⟨code, [], r.buffer.length⟩, { r with buffer := [] })
  else if r.frontType = kZeroType ∧ r.frontLength = 0 then
    (⟨kBadRecord, [], 0⟩, { r with buffer := [] })
  else if r.checksum ∧ valueOf ((r.buffer.drop 6).take (size - 6)) ≠
      unmask (BitVec.ofNat 32 (decodeFixed32 r.buffer)) then
    (⟨kBadRecordChecksum, [], r.buffer.length⟩, { r with buffer := [] })
  else
    (⟨r.frontType, (r.buffer.drop headerSize).take r.frontLength, 0⟩,
      { r with buffer := r.buffer.drop size })

/-- The buffer is too short for the header at its front. -/
def needsMore (r : Reader) : Bool :=
  r.buffer.length < kHeaderSize || (r.frontRecyclable && r.buffer.length < kRecyclableHeaderSize)

/-- How much is left to read. -/
def rank (r : Reader) : Nat :=
  if r.eof ∨ r.readError then 0 else r.file.unread.length + 1

/-- The reader behind the look at the header. -/
def look (r : Reader) : Reader :=
  if r.buffer.length < kHeaderSize then r else r.noteRecycled

/-- The look at a header reads nothing. -/
@[simp] theorem look_file (r : Reader) : r.look.file = r.file := by
  simp only [look, noteRecycled]
  split_ifs <;> rfl

/-- The look at a header leaves as much to read. -/
theorem look_rank (r : Reader) : r.look.rank = r.rank := by
  simp only [look, noteRecycled]
  split_ifs <;> rfl

/-- What `ReadMore` does when it succeeds. -/
theorem readMore_inl {r r' : Reader} (h : r.readMore = .inl r') :
    r.eof = false ∧ r.readError = false ∧ ∃ file data, r.file.read kBlockSize = (some data, file) ∧
      r' = { r with
        file := file
        buffer := data
        endOfBufferOffset := r.endOfBufferOffset + data.length
        eof := data.length < kBlockSize } := by
  unfold readMore at h
  split_ifs at h with hopen
  rcases hread : r.file.read kBlockSize with ⟨data | data, file⟩
  · simp [hread] at h
  · rw [hread] at h
    exact ⟨hopen.1, hopen.2, file, data, rfl, (Sum.inl.inj h).symm⟩

/-- Reading more leaves less to read. -/
theorem readMore_rank {r r' : Reader} (h : r.readMore = .inl r') : r'.rank < r.rank := by
  obtain ⟨heof, herror, file, data, hread, rfl⟩ := readMore_inl h
  obtain ⟨rfl, hfile⟩ := SequentialFile.read_some hread
  have hblock : kBlockSize = 32768 := rfl
  have hrank : r.rank = r.file.unread.length + 1 := by simp [rank, heof, herror]
  rw [hrank]
  simp only [rank, herror, hfile, List.length_take, List.length_drop]
  by_cases hshort : r.file.unread.length < kBlockSize
  · simp [hshort]
  · simp [hshort]
    omega

/-- `ReadPhysicalRecord`. -/
def readPhysicalRecord (r : Reader) : Physical × Reader :=
  if r.needsMore then
    match _hmore : r.look.readMore with
    | .inl r' => readPhysicalRecord r'
    | .inr (code, dropSize, r') => (⟨code, [], dropSize⟩, r')
  else r.look.takeRecord
termination_by r.rank
decreasing_by
  rw [← look_rank r]
  exact readMore_rank _hmore

/-- The variables of `ReadRecord`. -/
structure Scan where
  reader : Reader
  inFragmentedRecord : Bool
  scratch : Slice
  prospectiveRecordOffset : Nat
  deriving DecidableEq, Repr

/-- `ReadRecord` returns without a record. -/
def Scan.giveUp (s : Scan) (mode : RecoveryMode) (r : Reader) : Option Slice × Reader :=
  (none, if s.inFragmentedRecord ∧ mode = .absoluteConsistency then
      r.reportCorruption s.scratch.length "error reading trailing data"
    else r)

/-- The fragments so far are dropped in the middle of a record. -/
def Scan.dropMiddle (s : Scan) (r : Reader) : Scan :=
  if s.inFragmentedRecord then
    { s with
      reader := r.reportCorruption s.scratch.length "error in middle of record"
      inFragmentedRecord := false
      scratch := [] }
  else { s with reader := r }

/-- A record starts although the one before has no end. -/
def Scan.startOver (s : Scan) (r : Reader) (text : String) : Reader :=
  if s.inFragmentedRecord ∧ s.scratch ≠ [] then r.reportCorruption s.scratch.length text else r

/-- One round of the loop of `ReadRecord`. -/
def Scan.body (mode : RecoveryMode) (s : Scan) : Scan ⊕ (Option Slice × Reader) :=
  let offset := s.reader.endOfBufferOffset - s.reader.buffer.length
  let (p, r) := s.reader.readPhysicalRecord
  match p.code with
  | kFullType | kRecyclableFullType =>
      .inr (some p.fragment,
        { s.startOver r "partial record without end(1)" with lastRecordOffset := offset })
  | kFirstType | kRecyclableFirstType =>
      .inl ⟨s.startOver r "partial record without end(2)", true, p.fragment, offset⟩
  | kMiddleType | kRecyclableMiddleType =>
      if s.inFragmentedRecord then
        .inl { s with reader := r, scratch := s.scratch ++ p.fragment }
      else .inl { s with
        reader := r.reportCorruption p.fragment.length "missing start of fragmented record(1)" }
  | kLastType | kRecyclableLastType =>
      if s.inFragmentedRecord then
        .inr (some (s.scratch ++ p.fragment),
          { r with lastRecordOffset := s.prospectiveRecordOffset })
      else .inl { s with
        reader := r.reportCorruption p.fragment.length "missing start of fragmented record(2)" }
  | kBadHeader =>
      .inr (s.giveUp mode
        (if mode = .absoluteConsistency then r.reportCorruption p.dropSize "truncated header"
        else r))
  | kEof => .inr (s.giveUp mode r)
  | kOldRecord =>
      if mode ≠ .skipAnyCorruptedRecords then .inr (s.giveUp mode r)
      else .inl (s.dropMiddle r)
  | kBadRecord => .inl (s.dropMiddle r)
  | kBadRecordLen | kBadRecordChecksum =>
      if r.recycled ∧ mode = .tolerateCorruptedTailRecords then .inr (none, r)
      else .inl (s.dropMiddle (r.reportCorruption p.dropSize
        (if p.code = kBadRecordLen then "bad record length" else "checksum mismatch")))
  | code =>
      let dropped := p.fragment.length + if s.inFragmentedRecord then s.scratch.length else 0
      .inl { s with
        reader := r.reportCorruption dropped ("unknown record type " ++ toString code)
        inFragmentedRecord := false
        scratch := [] }

/-- The bytes that the reader has not used up. -/
def remaining (r : Reader) : Nat :=
  r.buffer.length + r.file.unread.length

/-- `ReadRecord`: the record, if there is one, and the reader; `none` if it does not return. -/
def readRecord (r : Reader) (mode : RecoveryMode) : Option (Option Slice × Reader) :=
  Loop.run (Scan.body mode) (r.remaining + 1) ⟨r, false, [], 0⟩

/-- The record at the front of the buffer has another log number. -/
def OldFront (r : Reader) : Prop :=
  r.needsMore = false ∧ r.frontRecyclable = true ∧
    decodeFixed32 (r.buffer.drop 7) ≠ r.logNumber

/-- An old record is found by looking at the buffer. -/
instance (r : Reader) : Decidable r.OldFront := by
  unfold OldFront
  infer_instance

/-- An old record depends on the buffer and the log number only. -/
theorem OldFront.congr {r r' : Reader} (h : r.OldFront) (hbuf : r'.buffer = r.buffer)
    (hnum : r'.logNumber = r.logNumber) : r'.OldFront := by
  simp only [OldFront, needsMore, frontRecyclable, frontType, hbuf, hnum] at h ⊢
  exact h

/-- The look at a header keeps the buffer and the log number. -/
theorem look_fields (r : Reader) : r.look.buffer = r.buffer ∧ r.look.logNumber = r.logNumber := by
  simp only [look, noteRecycled]
  split_ifs <;> exact ⟨rfl, rfl⟩

/-- An old record is found again and again: it stays in the buffer. -/
theorem OldFront.readPhysicalRecord {r : Reader} (h : r.OldFront) :
    r.readPhysicalRecord = (⟨kOldRecord, [], 0⟩, r.look) := by
  have hlook := h.congr (look_fields r).1 (look_fields r).2
  rw [Reader.readPhysicalRecord, if_neg (by rw [h.1]; exact Bool.false_ne_true), takeRecord,
    if_pos ⟨hlook.2.1, hlook.2.2⟩]

/-- What `ReadPhysicalRecord` makes of a complete header uses up bytes or is an old record. -/
theorem takeRecord_progress {r : Reader} (hmore : r.needsMore = false) :
    r.takeRecord.2.remaining < r.remaining ∨
      r.takeRecord.1.code = kOldRecord ∧ r.takeRecord.2.OldFront := by
  have hlen : 7 ≤ r.buffer.length := by
    have hsize : kHeaderSize = 7 := rfl
    simp only [needsMore, Bool.or_eq_false_iff, decide_eq_false_iff_not] at hmore
    omega
  have hhead := Writer.headerSize_le r.frontRecyclable
  simp only [takeRecord]
  split_ifs with hold
  · exact .inr ⟨rfl, hmore, hold⟩
  all_goals
    left
    simp only [remaining, List.length_nil, List.length_drop]
    omega

/-- `ReadPhysicalRecord` uses up bytes, or finds an old record or the end of the file. -/
theorem readPhysicalRecord_progress (r : Reader) :
    r.readPhysicalRecord.2.remaining < r.remaining ∨
      r.readPhysicalRecord.1.code = kOldRecord ∧ r.readPhysicalRecord.2.OldFront ∨
      r.readPhysicalRecord.1.code = kEof ∨ r.readPhysicalRecord.1.code = kBadHeader := by
  fun_induction readPhysicalRecord r with
  | case1 r hneeds r' hmore ih =>
      obtain ⟨-, -, file, data, hread, rfl⟩ := readMore_inl hmore
      obtain ⟨rfl, hfile⟩ := SequentialFile.read_some hread
      refine ih.imp_left fun hlt => hlt.trans_le ?_
      simp only [remaining, hfile, look_file, List.length_take, List.length_drop]
      omega
  | case2 r hneeds code dropSize r' hmore =>
      refine .inr (.inr ?_)
      unfold readMore at hmore
      split_ifs at hmore
      · split at hmore <;> cases hmore
        exact .inl rfl
      · cases hmore
        exact .inr rfl
      · cases hmore
        exact .inl rfl
  | case3 r hneeds =>
      have hlook := look_fields r
      have hneeds' : r.look.needsMore = false := by
        simp only [needsMore, frontRecyclable, frontType, hlook.1] at hneeds ⊢
        simpa using hneeds
      have hrem : r.look.remaining = r.remaining := by
        rw [remaining, remaining, hlook.1, look_file]
      rcases takeRecord_progress hneeds' with hlt | hold
      · exact .inl (hrem ▸ hlt)
      · exact .inr (.inl hold)

/-- `ReadRecord` is about to find the same old record for ever. -/
def Scan.Stuck (mode : RecoveryMode) (s : Scan) : Prop :=
  mode = .skipAnyCorruptedRecords ∧ s.reader.OldFront

/-- A stuck call stays stuck. -/
theorem Scan.Stuck.body {mode : RecoveryMode} {s : Scan} (h : s.Stuck mode) :
    ∃ t, Scan.body mode s = .inl t ∧ t.Stuck mode := by
  obtain ⟨rfl, hold⟩ := h
  have hlook := look_fields s.reader
  refine ⟨s.dropMiddle s.reader.look, ?_, rfl, ?_⟩
  · simp only [Scan.body, hold.readPhysicalRecord, ne_eq, not_true_eq_false, if_false]
  · unfold Scan.dropMiddle
    split_ifs <;> exact hold.congr hlook.1 hlook.2

/-- A round of `ReadRecord` that goes on has found neither the end of the file nor, outside of one
mode, an old record. Its reader is that of `ReadPhysicalRecord` up to reports. -/
theorem body_inl {mode : RecoveryMode} {s t : Scan} (h : Scan.body mode s = .inl t) :
    (t.reader.buffer = s.reader.readPhysicalRecord.2.buffer ∧
      t.reader.file = s.reader.readPhysicalRecord.2.file ∧
      t.reader.logNumber = s.reader.readPhysicalRecord.2.logNumber) ∧
    s.reader.readPhysicalRecord.1.code ≠ kEof ∧ s.reader.readPhysicalRecord.1.code ≠ kBadHeader ∧
    (s.reader.readPhysicalRecord.1.code = kOldRecord → mode = .skipAnyCorruptedRecords) := by
  have hmiddle : ∀ r : Reader, (s.dropMiddle r).reader.buffer = r.buffer ∧
      (s.dropMiddle r).reader.file = r.file ∧ (s.dropMiddle r).reader.logNumber = r.logNumber := by
    intro r
    unfold Scan.dropMiddle
    split_ifs <;> exact ⟨rfl, rfl, rfl⟩
  have hover : ∀ (r : Reader) (text : String), (s.startOver r text).buffer = r.buffer ∧
      (s.startOver r text).file = r.file ∧ (s.startOver r text).logNumber = r.logNumber := by
    intro r text
    unfold Scan.startOver
    split_ifs <;> exact ⟨rfl, rfl, rfl⟩
  simp only [Scan.body] at h
  split at h <;> rename_i hcode <;> (try split_ifs at h) <;> cases h
  all_goals
    refine ⟨?_, fun hc => ?_, fun hc => ?_, fun hc => ?_⟩
    · first
      | exact ⟨rfl, rfl, rfl⟩
      | exact hmiddle _
      | exact hover _ _
    · first
      | exact absurd (hcode.symm.trans hc) (by decide)
      | contradiction
    · first
      | exact absurd (hcode.symm.trans hc) (by decide)
      | contradiction
    · first
      | exact absurd (hcode.symm.trans hc) (by decide)
      | contradiction
      | exact not_ne_iff.mp ‹_›

/-- A round of `ReadRecord` that goes on has used up bytes, or the next one is stuck. -/
theorem body_progress {mode : RecoveryMode} {s t : Scan} (h : Scan.body mode s = .inl t) :
    t.reader.remaining < s.reader.remaining ∨ t.Stuck mode := by
  obtain ⟨⟨hbuf, hfile, hnum⟩, heof, hhead, hskip⟩ := body_inl h
  rcases readPhysicalRecord_progress s.reader with hlt | ⟨hcode, hold⟩ | hend
  · left
    rwa [remaining, hbuf, hfile, ← remaining]
  · exact .inr ⟨hskip hcode, hold.congr hbuf hnum⟩
  · exact absurd hend (not_or.mpr ⟨heof, hhead⟩)

/-- What the loop of `ReadRecord` returns, `readRecord` returns. -/
theorem readRecord_of_returns {r : Reader} {mode : RecoveryMode} {result : Option Slice × Reader}
    (h : Loop.Returns (Scan.body mode) ⟨r, false, [], 0⟩ result) :
    r.readRecord mode = some result :=
  h.run_variant (I := Scan.Stuck mode) (fun s : Scan => s.reader.remaining)
    (fun _ hs => hs.body) (fun _ _ => body_progress)

/-- On every file, whatever its bytes and whichever reads fail, `ReadRecord` returns within a bound
given by the bytes left, except in the mode that skips corrupted records: there it can only return
within the bound or never, and an old record at the front of the buffer makes it never return. -/
theorem read_record_returns_or_hangs (r : Reader) (mode : RecoveryMode) :
    (mode ≠ .skipAnyCorruptedRecords → ∃ result, r.readRecord mode = some result) ∧
    (r.readRecord mode = none ↔
      ∀ rounds, Loop.run (Scan.body mode) rounds ⟨r, false, [], 0⟩ = none) ∧
    (r.OldFront → r.readRecord .skipAnyCorruptedRecords = none) := by
  have hrun := Loop.run_or_forever (I := Scan.Stuck mode) (fun s : Scan => s.reader.remaining)
    (fun _ hs => hs.body) (fun _ _ => body_progress) ⟨r, false, [], 0⟩
  refine ⟨fun hmode => ?_, ⟨fun hnone => ?_, fun hforever => hforever _⟩, fun hold => ?_⟩
  · rcases hrun with hsome | ⟨⟨t, hstuck⟩, -⟩
    · exact hsome
    · exact absurd hstuck.1 hmode
  · rcases hrun with ⟨result, hsome⟩ | ⟨-, hforever⟩
    · rw [readRecord, hsome] at hnone
      cases hnone
    · exact hforever
  · exact Loop.run_eq_none (I := Scan.Stuck .skipAnyCorruptedRecords) (fun _ hs => hs.body)
      ⟨rfl, hold⟩ _

/-- A record of log 5, and behind it a header that the file still has from log 0. -/
def recordThenOld : Slice :=
  [0, 0, 0, 0, 1, 0, 5, 5, 0, 0, 0, 42] ++ [0, 0, 0, 0, 0, 0, 5, 0, 0, 0, 0]

/-- The first call returns the record of log 5. Behind it, a call that skips corrupted records does
not return, and one in another mode does. -/
theorem read_record_returns_or_hangs_old :
    ∃ r, (Reader.new recordThenOld [] false 5).readRecord .skipAnyCorruptedRecords =
        some (some [42], r) ∧
      r.readRecord .skipAnyCorruptedRecords = none ∧
      ∃ result, r.readRecord .pointInTimeRecovery = some result := by
  have hfirst : ((Reader.new recordThenOld [] false 5).readRecord .skipAnyCorruptedRecords).map
      (fun p => (p.1, decide p.2.OldFront)) = some (some [42], true) := by
    decide +kernel
  obtain ⟨⟨record, r⟩, hread, heq⟩ := Option.map_eq_some_iff.mp hfirst
  obtain ⟨rfl, hold⟩ := Prod.mk.inj heq
  exact ⟨r, hread,
    (read_record_returns_or_hangs r .skipAnyCorruptedRecords).2.2 (of_decide_eq_true hold),
    (read_record_returns_or_hangs r .pointInTimeRecovery).1 (by decide)⟩

/-- The loop over the records of a log, as a caller makes it. -/
def readRecords (mode : RecoveryMode) : Nat → Reader → Option (List Slice × Reader)
  | 0, _ => none
  | fuel + 1, r =>
      match r.readRecord mode with
      | none => none
      | some (none, r') => some ([], r')
      | some (some record, r') => (readRecords mode fuel r').map fun p => (record :: p.1, p.2)

/-- All records of a log up to the first call that returns none. -/
def readLog (r : Reader) (mode : RecoveryMode) : Option (List Slice × Reader) :=
  readRecords mode (r.remaining + 1) r

end Reader

end P2KVS.Log
