import P2KVS.Wal.LogReader

/-!
# Reading what was written

`Stands r o rest` says that the reader is at place `o` of a block, with the bytes `rest` from there
to the end of the file. Where the bytes are a physical record of the writer, `ReadPhysicalRecord`
returns it and stands behind it; where they are cut off, it finds the end of the file.
-/

namespace P2KVS.Log

open LittleEndian Crc32c

/-- The log number in a header. -/
def numberBytes (recycle : Bool) (number : Nat) : Slice :=
  if recycle then encodeFixed32 number else []

/-- The log number is what a recyclable header has more. -/
theorem length_numberBytes (recycle : Bool) (number : Nat) :
    (numberBytes recycle number).length + 7 = headerSize recycle := by
  cases recycle <;> rfl

/-- A header in one line. -/
theorem header_eq (recycle isFirst isLast : Bool) (number : Nat) (payload : Slice) :
    header number (recordType recycle isFirst isLast) payload =
      encodeFixed32 (mask (valueOf ((recordType recycle isFirst isLast).code ::
          (numberBytes recycle number ++ payload)))).toNat ++
        (Fin.ofNat 256 payload.length :: Fin.ofNat 256 (payload.length / 256) ::
          (recordType recycle isFirst isLast).code :: numberBytes recycle number) := by
  generalize hcode : (recordType recycle isFirst isLast).code = code
  have hcrc : extend (extend (valueOf [code]) (numberBytes recycle number)) payload =
      valueOf (code :: (numberBytes recycle number ++ payload)) := by
    rw [valueOf, extend_extend, extend_extend]
    rfl
  rw [← hcrc, ← hcode]
  cases recycle
  · rw [valueOf, extend_extend]
    cases isFirst <;> cases isLast <;> rfl
  · cases isFirst <;> cases isLast <;> rfl

/-- The writer never writes the type of preallocated files. -/
theorem code_ne_zero (recycle isFirst isLast : Bool) :
    (recordType recycle isFirst isLast).code.val ≠ kZeroType := by
  cases recycle <;> cases isFirst <;> cases isLast <;> decide

namespace Reader

/-- The reader has not reported anything and is otherwise the same log. -/
structure Keeps (r r' : Reader) : Prop where
  checksum : r'.checksum = r.checksum
  number : r'.logNumber = r.logNumber
  reports : r'.reports = r.reports

/-- The reader stands at place `o` of a block before `rest`, and no read will fail. -/
structure Stands (r : Reader) (o : Nat) (rest : Slice) : Prop where
  buffer : r.buffer = rest.take (kBlockSize - o)
  unread : r.file.unread = rest.drop (kBlockSize - o)
  eof : r.eof = decide (rest.length < kBlockSize - o)
  error : r.readError = false
  steady : r.file.failures = []

/-- What the reader sees at the front of its buffer when the header of a fragment stands there,
with the bytes `behind` after it. -/
structure Front (r : Reader) (recycle isFirst isLast : Bool) (number : Nat)
    (payload behind : Slice) : Prop where
  type : r.frontType = (recordType recycle isFirst isLast).code.val
  length : r.frontLength = payload.length
  recyclable : r.frontRecyclable = recycle
  logNumber : recycle = true → decodeFixed32 (r.buffer.drop 7) = number % 2 ^ 32
  stored : unmask (BitVec.ofNat 32 (decodeFixed32 r.buffer)) =
    valueOf ((recordType recycle isFirst isLast).code :: (numberBytes recycle number ++ payload))
  message : r.buffer.drop 6 =
    (recordType recycle isFirst isLast).code :: (numberBytes recycle number ++ behind)
  rest : r.buffer.drop (headerSize recycle) = behind

/-- The header at the front of the buffer is read as it was written. -/
theorem front_header {r : Reader} {recycle isFirst isLast : Bool} {number : Nat}
    {payload behind : Slice} (hlen : payload.length < 65536)
    (hbuf : r.buffer = header number (recordType recycle isFirst isLast) payload ++ behind) :
    Front r recycle isFirst isLast number payload behind := by
  rw [header_eq] at hbuf
  generalize hmessage : valueOf ((recordType recycle isFirst isLast).code ::
    (numberBytes recycle number ++ payload)) = crc at hbuf
  -- the four bytes of the checksum one by one, so that the places of the header compute
  obtain ⟨c₀, c₁, c₂, c₃, hcrc⟩ : ∃ c₀ c₁ c₂ c₃,
      encodeFixed32 (mask crc).toNat = [c₀, c₁, c₂, c₃] := ⟨_, _, _, _, rfl⟩
  have hdecode : value [c₀, c₁, c₂, c₃] = (mask crc).toNat := by
    rw [← hcrc, encodeFixed32, value_littleEndian_of_lt]
    exact (mask crc).isLt
  rw [hcrc] at hbuf
  have htype : r.frontType = (recordType recycle isFirst isLast).code.val := by
    rw [frontType, hbuf]
    cases recycle <;> cases isFirst <;> cases isLast <;> rfl
  refine ⟨htype, ?_, ?_, ?_, ?_, ?_, ?_⟩
  · rw [frontLength, hbuf]
    show payload.length % 256 + 256 * (payload.length / 256 % 256) = payload.length
    omega
  · rw [frontRecyclable, htype]
    cases recycle <;> cases isFirst <;> cases isLast <;> rfl
  · rintro rfl
    rw [hbuf]
    show value (littleEndian 256 4 number) = _
    rw [value_littleEndian]
    rfl
  · have hfront : decodeFixed32 r.buffer = (mask crc).toNat := by
      rw [← hdecode, hbuf]
      rfl
    rw [hfront, hmessage, BitVec.ofNat_toNat, BitVec.setWidth_eq, unmask_mask]
  · rw [hbuf]
    rfl
  · rw [hbuf, ← length_numberBytes recycle number]
    show (numberBytes recycle number ++ behind).drop (numberBytes recycle number).length = behind
    rw [List.drop_left]

/-- Nothing changes. -/
theorem Keeps.refl (r : Reader) : Keeps r r := ⟨rfl, rfl, rfl⟩

/-- One change after the other. -/
theorem Keeps.trans {r s t : Reader} (h : Keeps r s) (h' : Keeps s t) : Keeps r t :=
  ⟨h'.checksum.trans h.checksum, h'.number.trans h.number, h'.reports.trans h.reports⟩

/-- A reader before its first read. -/
theorem stands_new (contents : Slice) (checksum : Bool) (number : Nat) :
    Stands (new contents [] checksum number) kBlockSize contents := by
  constructor <;> simp [new]

/-- The look at a header keeps the settings and the reports. -/
theorem look_keeps (r : Reader) : Keeps r r.look := by
  simp only [look, noteRecycled]
  split_ifs <;> exact ⟨rfl, rfl, rfl⟩

/-- The look at a header keeps the buffer. -/
theorem look_buffer (r : Reader) : r.look.buffer = r.buffer := by
  simp only [look, noteRecycled]
  split_ifs <;> rfl

/-- A header with the reader's own log number is not that of an old record. -/
theorem Front.not_old {r : Reader} {recycle isFirst isLast : Bool} {number : Nat}
    {payload behind : Slice} (h : Front r recycle isFirst isLast number payload behind)
    (hnumber : recycle = true → r.logNumber = number % 2 ^ 32) :
    ¬ (recycle = true ∧ decodeFixed32 (r.buffer.drop 7) ≠ r.logNumber) := by
  rintro ⟨hr, hne⟩
  exact hne ((h.logNumber hr).trans (hnumber hr).symm)

/-- The bytes that are checked: those of the header behind the length, and as many as the payload
had. -/
theorem Front.checked {r : Reader} {recycle isFirst isLast : Bool} {number : Nat}
    {payload found rest : Slice}
    (h : Front r recycle isFirst isLast number payload (found ++ rest))
    (hlen : found.length = payload.length) :
    (r.buffer.drop 6).take (headerSize recycle + payload.length - 6) =
      (recordType recycle isFirst isLast).code :: (numberBytes recycle number ++ found) := by
  have hhead := length_numberBytes recycle number
  rw [h.message, ← List.append_assoc, ← List.cons_append, List.take_left']
  rw [List.length_cons, List.length_append]
  omega

/-- Behind bytes that were taken from the buffer the reader stands before the rest. -/
theorem Stands.advance {r : Reader} {o : Nat} {front rest : Slice} (h : Stands r o (front ++ rest))
    (hfit : o + front.length ≤ kBlockSize) :
    Stands { r with buffer := r.buffer.drop front.length } (o + front.length) rest := by
  have hplace : kBlockSize - o = front.length + (kBlockSize - (o + front.length)) := by omega
  constructor
  · show r.buffer.drop front.length = _
    rw [h.buffer, hplace, List.take_length_add_append, List.drop_left]
  · show r.file.unread = _
    rw [h.unread, hplace, List.drop_length_add_append]
  · show r.eof = _
    rw [h.eof, hplace, List.length_append]
    congr 1
    simp only [eq_iff_iff]
    omega
  · exact h.error
  · exact h.steady

/-- Looking at the header does not move the reader. -/
theorem Stands.look {r : Reader} {o : Nat} {rest : Slice} (h : Stands r o rest) :
    Stands r.look o rest := by
  obtain ⟨hbuf, hun, heof, herr, hst⟩ := h
  constructor <;> simp only [Reader.look, noteRecycled] <;> split_ifs <;> assumption

/-- Behind the last bytes of a block `ReadMore` goes to the next one. -/
theorem Stands.readMore {r : Reader} {o : Nat} {rest : Slice} (h : Stands r o rest)
    (hfull : kBlockSize - o ≤ rest.length) :
    ∃ r', r.readMore = .inl r' ∧ Stands r' 0 (rest.drop (kBlockSize - o)) ∧ Keeps r r' := by
  have heof : r.eof = false := by rw [h.eof, decide_eq_false (by omega)]
  simp only [Reader.readMore, heof, h.error, SequentialFile.read, h.steady, h.unread, and_self,
    if_true]
  refine ⟨_, rfl, ?_, ⟨rfl, rfl, rfl⟩⟩
  constructor <;> simp

/-- At the end of the file `ReadMore` finds nothing or the rest of a header. -/
theorem Stands.readMore_end {r : Reader} {o : Nat} {rest : Slice} (h : Stands r o rest)
    (hshort : rest.length < kBlockSize - o) :
    ∃ code r', r.readMore = .inr (code, rest.length, r') ∧
      (code = kEof ∧ rest = [] ∨ code = kBadHeader ∧ rest ≠ []) ∧ Keeps r r' := by
  have heof : r.eof = true := by rw [h.eof, decide_eq_true hshort]
  have hbuf : r.buffer = rest := by rw [h.buffer, List.take_of_length_le hshort.le]
  simp only [Reader.readMore, heof, hbuf, Bool.true_eq_false, false_and, if_false]
  split_ifs with hpos
  · exact ⟨_, _, rfl, .inr ⟨rfl, List.ne_nil_of_length_pos hpos⟩, ⟨rfl, rfl, rfl⟩⟩
  · have hnil : rest = [] := List.eq_nil_of_length_eq_zero (by omega)
    subst hnil
    exact ⟨_, _, rfl, .inl ⟨rfl, rfl⟩, ⟨rfl, rfl, rfl⟩⟩

/-- The buffer has to have the header that its front announces. -/
theorem needsMore_eq {r : Reader} {recycle : Bool} (h : r.frontRecyclable = recycle) :
    r.needsMore = decide (r.buffer.length < headerSize recycle) := by
  rw [needsMore, h, Bool.eq_iff_iff]
  cases recycle
  · simp [headerSize]
  · have hshort : kHeaderSize = 7 := rfl
    have hlong : kRecyclableHeaderSize = 11 := rfl
    have hsize : headerSize true = 11 := rfl
    simp only [Bool.true_and, Bool.or_eq_true, decide_eq_true_eq]
    omega

/-- A whole physical record at the front is returned, and the reader stands behind it. -/
theorem Stands.readPhysicalRecord {r : Reader} {o number : Nat} {recycle isFirst isLast : Bool}
    {payload rest : Slice}
    (h : Stands r o (physical number (recordType recycle isFirst isLast) payload ++ rest))
    (hfit : o + headerSize recycle + payload.length ≤ kBlockSize)
    (hnumber : recycle = true → r.logNumber = number % 2 ^ 32) :
    ∃ r', r.readPhysicalRecord =
        (⟨(recordType recycle isFirst isLast).code.val, payload, 0⟩, r') ∧
      Stands r' (o + headerSize recycle + payload.length) rest ∧ Keeps r r' := by
  have hblock : kBlockSize = 32768 := rfl
  have hhead := Writer.headerSize_le recycle
  have hlen := length_physical recycle isFirst isLast number payload
  have hbuf : r.buffer = header number (recordType recycle isFirst isLast) payload ++
      (payload ++ rest.take (kBlockSize - (o + headerSize recycle + payload.length))) := by
    rw [h.buffer, List.take_append, List.take_of_length_le (by omega), hlen, physical,
      List.append_assoc]
    congr 3
    omega
  have hsize : headerSize recycle + payload.length ≤ r.buffer.length := by
    rw [hbuf, List.length_append, Writer.length_header, List.length_append]
    omega
  have hmore : r.needsMore = false := by
    rw [needsMore_eq (front_header (by omega) hbuf).recyclable]
    exact decide_eq_false (by omega)
  rw [Reader.readPhysicalRecord, hmore, if_neg Bool.false_ne_true]
  -- what the header says about the reader behind the look at it
  have hfront := front_header (by omega) ((look_buffer r).trans hbuf)
  have hold := hfront.not_old fun hr => (look_keeps r).number.trans (hnumber hr)
  have hcrc : valueOf ((r.look.buffer.drop 6).take (headerSize recycle + payload.length - 6)) =
      unmask (BitVec.ofNat 32 (decodeFixed32 r.look.buffer)) := by
    rw [hfront.stored, hfront.checked rfl]
  rw [takeRecord, hfront.recyclable, hfront.length, hfront.type, if_neg hold,
    if_neg (by rw [look_buffer]; omega), if_neg fun hz => code_ne_zero _ _ _ hz.1,
    if_neg (by simp [hcrc]), hfront.rest, List.take_left]
  refine ⟨_, rfl, ?_, ⟨(look_keeps r).checksum, (look_keeps r).number, (look_keeps r).reports⟩⟩
  have hst := h.look.advance (by omega)
  rwa [hlen, ← Nat.add_assoc] at hst

/-- The next physical record is read as from place `o` before `rest`. -/
def Ready (r : Reader) (o : Nat) (rest : Slice) : Prop :=
  ∃ r', r.readPhysicalRecord = r'.readPhysicalRecord ∧ Stands r' o rest ∧ Keeps r r'

/-- A reader that stands at a place is ready to read there. -/
theorem Stands.ready {r : Reader} {o : Nat} {rest : Slice} (h : Stands r o rest) :
    Ready r o rest :=
  ⟨r, rfl, h, .refl r⟩

/-- Fewer bytes at the end of a block than a header has are skipped. -/
theorem Stands.skip_short {r : Reader} {o : Nat} {rest : Slice} (h : Stands r o rest)
    (hshort : kBlockSize - o < kHeaderSize) (hfull : kBlockSize - o ≤ rest.length) :
    Ready r 0 (rest.drop (kBlockSize - o)) := by
  have hlen : r.buffer.length < kHeaderSize := by
    rw [h.buffer, List.length_take]
    omega
  have hlook : r.look = r := if_pos hlen
  have hneeds : r.needsMore = true := by simp [needsMore, hlen]
  obtain ⟨r', hmore, hst, hkeeps⟩ := h.readMore hfull
  refine ⟨r', ?_, hst, hkeeps⟩
  rw [Reader.readPhysicalRecord, if_pos hneeds, hlook]
  split
  next r'' heq =>
    rw [hmore] at heq
    rw [Sum.inl.inj heq]
  next heq =>
    rw [hmore] at heq
    cases heq

/-- Zero bytes at the front of the buffer that are enough for a header are no record. -/
theorem readPhysicalRecord_zeros {r : Reader} {n : Nat} (hbuf : r.buffer = List.replicate n 0)
    (hn : kHeaderSize ≤ n) :
    r.readPhysicalRecord = (⟨kBadRecord, [], 0⟩, { r with buffer := [] }) := by
  have hzero : ∀ i, r.buffer.getD i 0 = 0 := by
    intro i
    rw [hbuf, List.getD_eq_getElem?_getD, List.getElem?_replicate]
    split <;> rfl
  have htype : r.frontType = 0 := by
    rw [frontType, hzero]
    rfl
  have hlength : r.frontLength = 0 := by
    rw [frontLength, hzero, hzero]
    rfl
  have hrec : r.frontRecyclable = false := by
    rw [frontRecyclable, htype]
    rfl
  have hlen : r.buffer.length = n := by rw [hbuf, List.length_replicate]
  have hlook : r.look = r := by
    simp [look, noteRecycled, hrec]
  have hhead : headerSize false = kHeaderSize := rfl
  have hneeds : ¬ r.needsMore = true := by
    rw [needsMore_eq hrec, decide_eq_true_eq]
    omega
  rw [Reader.readPhysicalRecord, if_neg hneeds, hlook, takeRecord, hrec, htype, hlength,
    if_neg (by simp), if_neg (by omega), if_pos ⟨rfl, rfl⟩]

/-- Zero bytes at the end of a block that are enough for a short header end the block. -/
theorem Stands.skip_zeros {r : Reader} {o : Nat} {rest : Slice}
    (h : Stands r o (List.replicate (kBlockSize - o) 0 ++ rest))
    (hlong : kHeaderSize ≤ kBlockSize - o) :
    ∃ r', r.readPhysicalRecord = (⟨kBadRecord, [], 0⟩, r') ∧ Ready r' 0 rest ∧ Keeps r r' := by
  have hsize : kHeaderSize = 7 := rfl
  have hbuf : r.buffer = List.replicate (kBlockSize - o) 0 := by
    rw [h.buffer, List.take_left' (List.length_replicate)]
  refine ⟨_, readPhysicalRecord_zeros hbuf hlong, ?_, ⟨rfl, rfl, rfl⟩⟩
  have hlen : (List.replicate (kBlockSize - o) (0 : Byte)).length = kBlockSize - o :=
    List.length_replicate
  have hst := h.advance (by omega)
  rw [hbuf, List.drop_length, hlen, Nat.add_sub_cancel' (by omega)] at hst
  simpa using hst.skip_short (by omega) (by omega)

section Records

variable (mode : RecoveryMode) {s : Scan}

/-- The reader has not yet started a record, or is behind its first fragment. -/
def Scan.Expects (s : Scan) (isFirst : Bool) : Prop :=
  s.inFragmentedRecord = !isFirst ∧ (isFirst = true → s.scratch = [])

/-- A last fragment ends the record. -/
theorem body_last {r : Reader} {recycle isFirst : Bool} {payload : Slice} {dropSize : Nat}
    (hread : s.reader.readPhysicalRecord =
      (⟨(recordType recycle isFirst true).code.val, payload, dropSize⟩, r))
    (hexp : s.Expects isFirst) :
    ∃ offset, Scan.body mode s =
      .inr (some (s.scratch ++ payload), { r with lastRecordOffset := offset }) := by
  obtain ⟨hin, hscratch⟩ := hexp
  cases isFirst
  · simp only [Bool.not_false] at hin
    refine ⟨s.prospectiveRecordOffset, ?_⟩
    cases recycle <;> simp [Scan.body, hread, recordType, RecordType.code, hin]
  · simp only [Bool.not_true] at hin
    refine ⟨s.reader.endOfBufferOffset - s.reader.buffer.length, ?_⟩
    cases recycle <;>
      simp [Scan.body, hread, recordType, RecordType.code, hin, hscratch, Scan.startOver]

/-- A fragment that is not the last one joins the others. -/
theorem body_more {r : Reader} {recycle isFirst : Bool} {payload : Slice} {dropSize : Nat}
    (hread : s.reader.readPhysicalRecord =
      (⟨(recordType recycle isFirst false).code.val, payload, dropSize⟩, r))
    (hexp : s.Expects isFirst) :
    ∃ t : Scan, Scan.body mode s = .inl t ∧ t.reader = r ∧ t.Expects false ∧
      t.scratch = s.scratch ++ payload := by
  obtain ⟨hin, hscratch⟩ := hexp
  cases isFirst
  · simp only [Bool.not_false] at hin
    cases recycle <;>
      simp [Scan.body, hread, recordType, RecordType.code, hin, Scan.Expects]
  · simp only [Bool.not_true] at hin
    cases recycle <;>
      simp [Scan.body, hread, recordType, RecordType.code, hin, hscratch, Scan.startOver,
        Scan.Expects]

/-- What is no record is skipped before the start of a record. -/
theorem body_skip {r : Reader} {fragment : Slice} {dropSize : Nat}
    (hread : s.reader.readPhysicalRecord = (⟨kBadRecord, fragment, dropSize⟩, r))
    (hexp : s.Expects true) : Scan.body mode s = .inl { s with reader := r } := by
  obtain ⟨hin, -⟩ := hexp
  simp only [Bool.not_true] at hin
  simp [Scan.body, hread, Scan.dropMiddle, hin]

/-- `ReadRecord` gets over the padding of a block, with or without a round of its own. -/
theorem skip_padding {o : Nat} {rest : Slice} {isFirst : Bool}
    (hready : Ready s.reader o (List.replicate (kBlockSize - o) 0 ++ rest))
    (hplace : isFirst = true ∨ o = kBlockSize) (hexp : s.Expects isFirst) :
    ∃ t : Scan, (∀ res, Loop.Returns (Scan.body mode) t res → Loop.Returns (Scan.body mode) s res) ∧
      Ready t.reader 0 rest ∧ Keeps s.reader t.reader ∧ t.Expects isFirst ∧
      t.scratch = s.scratch := by
  obtain ⟨r, hsame, hst, hkeeps⟩ := hready
  by_cases hshort : kBlockSize - o < kHeaderSize
  · obtain ⟨r', hsame', hst', hkeeps'⟩ := hst.skip_short hshort (by simp)
    rw [List.drop_left' List.length_replicate] at hst'
    refine ⟨s, fun _ h => h, ?_, .refl _, hexp, rfl⟩
    exact ⟨r', hsame.trans hsame', hst', hkeeps.trans hkeeps'⟩
  · -- only the start of a record can have so much room before it
    have hsize : kHeaderSize = 7 := rfl
    obtain rfl : isFirst = true := by
      rcases hplace with h | h
      · exact h
      · omega
    obtain ⟨r', hread, hready', hkeeps'⟩ := hst.skip_zeros (Nat.not_lt.mp hshort)
    have hbody := body_skip mode (hsame.trans hread) hexp
    exact ⟨{ s with reader := r' }, fun _ h => .next hbody h, hready', hkeeps.trans hkeeps', hexp,
      rfl⟩

/-- `ReadRecord` returns the record that is laid out before it, whatever follows. -/
theorem returns_of_layout {recycle isFirst : Bool} {number o o' : Nat} {data bytes : Slice}
    (hlay : Layout recycle number o isFirst data bytes o') (rest : Slice)
    (hready : Ready s.reader o (bytes ++ rest))
    (hnumber : recycle = true → s.reader.logNumber = number % 2 ^ 32)
    (hexp : s.Expects isFirst) :
    ∃ r', Loop.Returns (Scan.body mode) s (some (s.scratch ++ data), r') ∧
      Stands r' o' rest ∧ Keeps s.reader r' := by
  induction hlay generalizing s with
  | last hfit =>
      obtain ⟨r, hsame, hst, hkeeps⟩ := hready
      obtain ⟨r', hread, hst', hkeeps'⟩ :=
        hst.readPhysicalRecord hfit fun hr => hkeeps.number.trans (hnumber hr)
      obtain ⟨offset, hbody⟩ := body_last mode (hsame.trans hread) hexp
      have hall := hkeeps.trans hkeeps'
      exact ⟨_, .done hbody, ⟨hst'.buffer, hst'.unread, hst'.eof, hst'.error, hst'.steady⟩,
        ⟨hall.checksum, hall.number, hall.reports⟩⟩
  | more hfit _ _ ih =>
      obtain ⟨r, hsame, hst, hkeeps⟩ := hready
      rw [List.append_assoc] at hst
      obtain ⟨r', hread, hst', hkeeps'⟩ :=
        hst.readPhysicalRecord hfit.le fun hr => hkeeps.number.trans (hnumber hr)
      obtain ⟨t, hbody, hreader, hexp', hscratch⟩ :=
        body_more mode (hsame.trans hread) hexp
      subst hreader
      have hall := hkeeps.trans hkeeps'
      rw [hfit] at hst'
      obtain ⟨r'', hret, hst'', hkeeps''⟩ :=
        ih hst'.ready (fun hr => hall.number.trans (hnumber hr)) hexp'
      rw [hscratch, List.append_assoc] at hret
      exact ⟨r'', .next hbody hret, hst'', hall.trans hkeeps''⟩
  | pad _ _ hplace _ ih =>
      rw [List.append_assoc] at hready
      obtain ⟨t, hback, hready', hkeeps, hexp', hscratch⟩ :=
        skip_padding mode hready hplace hexp
      obtain ⟨r', hret, hst, hkeeps'⟩ :=
        ih hready' (fun hr => hkeeps.number.trans (hnumber hr)) hexp'
      rw [hscratch] at hret
      exact ⟨r', hback _ hret, hst, hkeeps.trans hkeeps'⟩

end Records

/-- `ReadPhysicalRecord` finds the end of the file, with or without bytes before it. -/
def AtEnd (r : Reader) : Prop :=
  ∃ code dropSize r', r.readPhysicalRecord = (⟨code, [], dropSize⟩, r') ∧
    (code = kEof ∨ code = kBadHeader) ∧ Keeps r r'

/-- What `ReadPhysicalRecord` finds when it wants to read more at the end of the file. -/
theorem Stands.read_end {r : Reader} {o : Nat} {rest : Slice} (h : Stands r o rest)
    (hshort : rest.length < kBlockSize - o) (hneeds : r.needsMore = true) :
    ∃ code r', r.readPhysicalRecord = (⟨code, [], rest.length⟩, r') ∧
      (code = kEof ∧ rest = [] ∨ code = kBadHeader ∧ rest ≠ []) ∧ Keeps r r' := by
  obtain ⟨code, r', hmore, hcode, hkeeps⟩ := h.look.readMore_end hshort
  refine ⟨code, r', ?_, hcode, (look_keeps r).trans hkeeps⟩
  rw [Reader.readPhysicalRecord, if_pos hneeds]
  split
  next heq =>
    rw [hmore] at heq
    cases heq
  next heq =>
    rw [hmore] at heq
    cases heq
    rfl

/-- A reader that wants more than the file has is at the end. -/
theorem AtEnd.of_read_end {r : Reader} {o : Nat} {rest : Slice} (h : Stands r o rest)
    (hshort : rest.length < kBlockSize - o) (hneeds : r.needsMore = true) : AtEnd r := by
  obtain ⟨code, r', hread, hcode, hkeeps⟩ := h.read_end hshort hneeds
  exact ⟨code, rest.length, r', hread, hcode.imp And.left And.left, hkeeps⟩

/-- A reader that reads as one at the end is at the end. -/
theorem AtEnd.of_same {r r' : Reader} (hsame : r.readPhysicalRecord = r'.readPhysicalRecord)
    (hkeeps : Keeps r r') (h : AtEnd r') : AtEnd r := by
  obtain ⟨code, dropSize, r'', hread, hcode, hkeeps'⟩ := h
  exact ⟨code, dropSize, r'', hsame.trans hread, hcode, hkeeps.trans hkeeps'⟩

/-- Fewer bytes than a header has are the end of the file. -/
theorem Stands.atEnd {r : Reader} {o : Nat} {rest : Slice} (h : Stands r o rest)
    (hshort : rest.length < kBlockSize - o) (hfew : rest.length < kHeaderSize) : AtEnd r := by
  have hlen : r.buffer.length < kHeaderSize := by
    rw [h.buffer, List.length_take]
    omega
  exact .of_read_end h hshort (by simp [needsMore, hlen])

/-- The header at the front of the buffer is that of a physical record that is cut off behind it. -/
theorem front_cut {r : Reader} {recycle isFirst isLast : Bool} {number n : Nat} {payload : Slice}
    (hlen : payload.length < 65536) (hn : kHeaderSize ≤ n)
    (hbuf : r.buffer = (physical number (recordType recycle isFirst isLast) payload).take n) :
    r.frontLength = payload.length ∧ r.frontRecyclable = recycle ∧
    (recycle = true → kRecyclableHeaderSize ≤ n →
      decodeFixed32 (r.buffer.drop 7) = number % 2 ^ 32) := by
  have hsize : kHeaderSize = 7 := rfl
  have hlong : kRecyclableHeaderSize = 11 := rfl
  -- the same reader with the whole record in its buffer
  obtain ⟨-, hlength, hrec, hnum, -, -, -⟩ := front_header
    (r := { r with buffer := physical number (recordType recycle isFirst isLast) payload }) hlen rfl
  have hget : ∀ i < 7, r.buffer.getD i 0 =
      (physical number (recordType recycle isFirst isLast) payload).getD i 0 := by
    intro i hi
    rw [hbuf, List.getD_eq_getElem?_getD, List.getD_eq_getElem?_getD,
      List.getElem?_take_of_lt (by omega)]
  refine ⟨?_, ?_, fun hr hle => ?_⟩
  · rw [← hlength, frontLength, frontLength, hget 4 (by omega), hget 5 (by omega)]
  · rw [← hrec, frontRecyclable, frontRecyclable, frontType, frontType, hget 6 (by omega)]
  · rw [← hnum hr, decodeFixed32, decodeFixed32, hbuf, List.drop_take, List.take_take]
    congr 2
    omega

/-- A physical record that is cut off is the end of the file. -/
theorem Stands.atEnd_of_cut {r : Reader} {o number n : Nat} {recycle isFirst isLast : Bool}
    {payload : Slice}
    (h : Stands r o ((physical number (recordType recycle isFirst isLast) payload).take n))
    (hfit : o + headerSize recycle + payload.length ≤ kBlockSize)
    (hcut : n < headerSize recycle + payload.length)
    (hnumber : recycle = true → r.logNumber = number % 2 ^ 32) : AtEnd r := by
  have hblock : kBlockSize = 32768 := rfl
  have hhead := Writer.headerSize_le recycle
  have hlen :
      ((physical number (recordType recycle isFirst isLast) payload).take n).length = n := by
    rw [List.length_take, length_physical]
    omega
  have hshort : ((physical number (recordType recycle isFirst isLast) payload).take n).length <
      kBlockSize - o := by omega
  by_cases hfew : n < kHeaderSize
  · exact h.atEnd hshort (by omega)
  · have hbuf :
        r.buffer = (physical number (recordType recycle isFirst isLast) payload).take n := by
      rw [h.buffer, List.take_of_length_le hshort.le]
    obtain ⟨-, hrec, -⟩ := front_cut (by omega) (Nat.not_lt.mp hfew) hbuf
    by_cases hneeds : r.needsMore = true
    · exact .of_read_end h hshort hneeds
    · obtain ⟨hlength, hrec', hnum⟩ :=
        front_cut (r := r.look) (by omega) (Nat.not_lt.mp hfew) ((look_buffer r).trans hbuf)
      have hsize : headerSize recycle ≤ n := by
        rw [needsMore_eq hrec, decide_eq_true_eq, hbuf, hlen] at hneeds
        omega
      have hold : ¬ (recycle = true ∧
          decodeFixed32 (r.look.buffer.drop 7) ≠ r.look.logNumber) := by
        rintro ⟨rfl, hne⟩
        exact hne ((hnum rfl hsize).trans ((look_keeps r).number.trans (hnumber rfl)).symm)
      have heof : r.look.eof = true := by rw [h.look.eof, decide_eq_true hshort]
      refine ⟨kBadHeader, r.look.buffer.length, { r.look with buffer := [] }, ?_, .inr rfl,
        ⟨(look_keeps r).checksum, (look_keeps r).number, (look_keeps r).reports⟩⟩
      have hblen : r.look.buffer.length = n := by rw [look_buffer, hbuf, hlen]
      have hcode : (if r.look.eof = true then
            if 0 < r.look.buffer.length then kBadHeader else kEof
          else kBadRecordLen) = kBadHeader := by
        rw [if_pos heof, if_pos (by omega)]
      rw [Reader.readPhysicalRecord, if_neg hneeds, takeRecord, hrec', hlength, if_neg hold,
        if_pos (by omega), hcode]

section Cut

variable (mode : RecoveryMode) {s : Scan}

/-- At the end of the file there is no record, and only the strictest mode reports anything. -/
theorem returns_of_atEnd (h : AtEnd s.reader) :
    ∃ r', Loop.Returns (Scan.body mode) s (none, r') ∧
      (mode ≠ .absoluteConsistency → Keeps s.reader r') := by
  obtain ⟨code, dropSize, r, hread, hcode, hkeeps⟩ := h
  rcases hcode with rfl | rfl
  · have hbody : Scan.body mode s = .inr (s.giveUp mode r) := by simp only [Scan.body, hread]
    refine ⟨_, .done hbody, fun hmode => ?_⟩
    simpa [hmode] using hkeeps
  · have hbody : Scan.body mode s = .inr (s.giveUp mode (if mode = .absoluteConsistency then
        r.reportCorruption dropSize "truncated header" else r)) := by
      simp only [Scan.body, hread]
    refine ⟨_, .done hbody, fun hmode => ?_⟩
    simpa [hmode] using hkeeps

/-- Padding that is cut off is followed by the end of the file. -/
theorem returns_of_cut_padding {o n : Nat} {isFirst : Bool}
    (hready : Ready s.reader o (List.replicate n 0)) (hcut : n < kBlockSize - o)
    (hplace : isFirst = true ∨ o = kBlockSize) (hexp : s.Expects isFirst) :
    ∃ r', Loop.Returns (Scan.body mode) s (none, r') ∧
      (mode ≠ .absoluteConsistency → Keeps s.reader r') := by
  obtain ⟨r, hsame, hst, hkeeps⟩ := hready
  obtain rfl : isFirst = true := by
    rcases hplace with h | h
    · exact h
    · omega
  have hlen : (List.replicate n (0 : Byte)).length = n := List.length_replicate
  by_cases hfew : n < kHeaderSize
  · exact returns_of_atEnd mode (.of_same hsame hkeeps (hst.atEnd (by omega) (by omega)))
  · have hbuf : r.buffer = List.replicate n 0 := by
      rw [hst.buffer, List.take_of_length_le (by omega)]
    have hread := readPhysicalRecord_zeros hbuf (Nat.not_lt.mp hfew)
    have hbody := body_skip mode (hsame.trans hread) hexp
    rw [← List.append_nil (List.replicate n 0)] at hst
    have hst' := hst.advance (by omega)
    rw [hbuf, List.drop_length, hlen] at hst'
    have hend := hst'.atEnd (by simp; omega) (by decide)
    obtain ⟨r', hret, hkeeps'⟩ :=
      returns_of_atEnd mode (s := { s with reader := { r with buffer := [] } }) hend
    have hsilent : Keeps r { r with buffer := [] } := ⟨rfl, rfl, rfl⟩
    exact ⟨r', .next hbody hret, fun hmode => (hkeeps.trans hsilent).trans (hkeeps' hmode)⟩

/-- `ReadRecord` returns no record where the record laid out is cut off. -/
theorem returns_of_cut {recycle isFirst : Bool} {number o o' n : Nat} {data bytes : Slice}
    (hlay : Layout recycle number o isFirst data bytes o') (hcut : n < bytes.length)
    (hready : Ready s.reader o (bytes.take n))
    (hnumber : recycle = true → s.reader.logNumber = number % 2 ^ 32)
    (hexp : s.Expects isFirst) :
    ∃ r', Loop.Returns (Scan.body mode) s (none, r') ∧
      (mode ≠ .absoluteConsistency → Keeps s.reader r') := by
  induction hlay generalizing s n with
  | last hfit =>
      obtain ⟨r, hsame, hst, hkeeps⟩ := hready
      rw [length_physical] at hcut
      exact returns_of_atEnd mode (.of_same hsame hkeeps
        (hst.atEnd_of_cut hfit hcut fun hr => hkeeps.number.trans (hnumber hr)))
  | @more o o' isFirst fragment rest bytes hfit _ _ ih =>
      obtain ⟨r, hsame, hst, hkeeps⟩ := hready
      have hnum := fun hr => hkeeps.number.trans (hnumber hr)
      have hlen := length_physical recycle isFirst false number fragment
      rw [List.length_append] at hcut
      rw [List.take_append] at hst
      by_cases hin : n < headerSize recycle + fragment.length
      · rw [Nat.sub_eq_zero_of_le (by omega), List.take_zero, List.append_nil] at hst
        exact returns_of_atEnd mode (.of_same hsame hkeeps (hst.atEnd_of_cut hfit.le hin hnum))
      · rw [List.take_of_length_le (by omega)] at hst
        obtain ⟨r', hread, hst', hkeeps'⟩ := hst.readPhysicalRecord hfit.le hnum
        obtain ⟨t, hbody, hreader, hexp', -⟩ := body_more mode (hsame.trans hread) hexp
        subst hreader
        have hall := hkeeps.trans hkeeps'
        rw [hfit] at hst'
        obtain ⟨r'', hret, hkeeps''⟩ := ih (by omega) hst'.ready
          (fun hr => hall.number.trans (hnumber hr)) hexp'
        exact ⟨r'', .next hbody hret, fun hmode => hall.trans (hkeeps'' hmode)⟩
  | @pad o o' isFirst data bytes _ _ hplace _ ih =>
      rw [List.length_append, List.length_replicate] at hcut
      rw [List.take_append, List.length_replicate, List.take_replicate] at hready
      by_cases hin : n < kBlockSize - o
      · rw [Nat.sub_eq_zero_of_le hin.le, List.take_zero, List.append_nil,
          Nat.min_eq_left hin.le] at hready
        exact returns_of_cut_padding mode hready hin hplace hexp
      · rw [Nat.min_eq_right (Nat.not_lt.mp hin)] at hready
        obtain ⟨t, hback, hready', hkeeps, hexp', -⟩ :=
          skip_padding mode hready hplace hexp
        obtain ⟨r', hret, hkeeps'⟩ := ih (by omega) hready'
          (fun hr => hkeeps.number.trans (hnumber hr)) hexp'
        exact ⟨r', hback _ hret, fun hmode => hkeeps.trans (hkeeps' hmode)⟩

end Cut

end Reader

end P2KVS.Log
