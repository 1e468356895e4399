import P2KVS.Merge.Iterator
import P2KVS.Wal.Crc32c

/-!
# Writing the log

`log::Writer` cuts a record into fragments that do not cross a block and puts a header before each.
`Layout` says which bytes stand for a record from a given place in a block on;
`addRecord_layout` says that a call of `AddRecord` that succeeds appends such bytes, and that one
that fails appends a beginning of them.
-/

namespace P2KVS.Log

open LittleEndian Crc32c

/-- `EncodeFixed32`, which keeps the low 32 bits. -/
def encodeFixed32 (v : Nat) : Slice :=
  littleEndian 256 4 v

/-- `RecordType`. -/
inductive RecordType where
  | zero
  | full
  | first
  | middle
  | last
  | recyclableFull
  | recyclableFirst
  | recyclableMiddle
  | recyclableLast
  deriving DecidableEq, Repr

/-- The numbers of `RecordType`. -/
def RecordType.code : RecordType → Byte
  | .zero => 0
  | .full => 1
  | .first => 2
  | .middle => 3
  | .last => 4
  | .recyclableFull => 5
  | .recyclableFirst => 6
  | .recyclableMiddle => 7
  | .recyclableLast => 8

/-- `kBlockSize`. -/
def kBlockSize : Nat := 32768

/-- `kHeaderSize`. -/
def kHeaderSize : Nat := 4 + 2 + 1

/-- `kRecyclableHeaderSize`. -/
def kRecyclableHeaderSize : Nat := 4 + 2 + 1 + 4

/-- `header_size`. -/
def headerSize (recycle : Bool) : Nat :=
  if recycle then kRecyclableHeaderSize else kHeaderSize

/-- `type`, from `begin` and `end`. -/
def recordType (recycle isFirst isLast : Bool) : RecordType :=
  if isFirst && isLast then
    if recycle then .recyclableFull else .full
  else if isFirst then
    if recycle then .recyclableFirst else .first
  else if isLast then
    if recycle then .recyclableLast else .last
  else if recycle then .recyclableMiddle else .middle

/-- The file behind a `WritableFileWriter`. For each of the calls to come, `failures` says whether
it fails, and how many of the bytes an append that fails has written. -/
structure WritableFile where
  contents : Slice
  failures : List (Option Nat)
  deriving DecidableEq, Repr

/-- `Append`. -/
def WritableFile.append (f : WritableFile) (data : Slice) : Status × WritableFile :=
  match f.failures with
  | some k :: rest => (.ioError, ⟨f.contents ++ data.take k, rest⟩)
  | none :: rest => (.ok, ⟨f.contents ++ data, rest⟩)
  | [] => (.ok, ⟨f.contents ++ data, []⟩)

/-- `Flush`. -/
def WritableFile.flush (f : WritableFile) : Status × WritableFile :=
  match f.failures with
  | some _ :: rest => (.ioError, ⟨f.contents, rest⟩)
  | none :: rest => (.ok, ⟨f.contents, rest⟩)
  | [] => (.ok, f)

/-- `log::Writer`. -/
structure Writer where
  dest : WritableFile
  blockOffset : Nat
  logNumber : Nat
  recycleLogFiles : Bool
  manualFlush : Bool
  deriving DecidableEq, Repr

/-- The header that `EmitPhysicalRecord` puts before a fragment. -/
def header (logNumber : Nat) (t : RecordType) (payload : Slice) : Slice :=
  let number := if t.code < RecordType.recyclableFull.code then [] else encodeFixed32 logNumber
  let typeCrc := valueOf [t.code]
  let crc := if t.code < RecordType.recyclableFull.code then typeCrc else extend typeCrc number
  encodeFixed32 (mask (extend crc payload)).toNat ++
    [Fin.ofNat 256 payload.length, Fin.ofNat 256 (payload.length / 256), t.code] ++ number

namespace Writer

/-- The constructor, on an empty file. -/
def new (failures : List (Option Nat)) (logNumber : Nat) (recycle manualFlush : Bool) : Writer where
  dest := ⟨[], failures⟩
  blockOffset := 0
  logNumber := logNumber
  recycleLogFiles := recycle
  manualFlush := manualFlush

/-- `EmitPhysicalRecord`. The offset moves even when an append fails. -/
def emitPhysicalRecord (w : Writer) (t : RecordType) (payload : Slice) : Status × Writer :=
  let head := header w.logNumber t payload
  let offset := w.blockOffset + (head.length + payload.length)
  match w.dest.append head with
  | (.ok, dest) =>
      let (s, dest) := dest.append payload
      (s, { w with dest := dest, blockOffset := offset })
  | (s, dest) => (s, { w with dest := dest, blockOffset := offset })

/-- The beginning of a round of `AddRecord`: a block without room for a header is filled up. -/
def switchBlock (w : Writer) : Status × Writer :=
  let leftover := kBlockSize - w.blockOffset
  if leftover < headerSize w.recycleLogFiles then
    if 0 < leftover then
      match w.dest.append (List.replicate leftover 0) with
      | (.ok, dest) => (.ok, { w with dest := dest, blockOffset := 0 })
      | (s, dest) => (s, { w with dest := dest })
    else (.ok, { w with blockOffset := 0 })
  else (.ok, w)

/-- The sizes of the two headers. -/
theorem headerSize_le (recycle : Bool) : 7 ≤ headerSize recycle ∧ headerSize recycle ≤ 11 := by
  cases recycle <;> decide

/-- A header has the size of its kind. -/
theorem length_header (logNumber : Nat) (recycle isFirst isLast : Bool) (payload : Slice) :
    (header logNumber (recordType recycle isFirst isLast) payload).length = headerSize recycle := by
  cases recycle <;> cases isFirst <;> cases isLast <;> rfl

/-- What `switchBlock` leaves behind when it succeeds. -/
theorem switchBlock_fields {w w' : Writer} (h : w.switchBlock = (.ok, w')) :
    w'.recycleLogFiles = w.recycleLogFiles ∧ w'.logNumber = w.logNumber ∧
      w'.manualFlush = w.manualFlush ∧
      w'.blockOffset = if kBlockSize - w.blockOffset < headerSize w.recycleLogFiles then 0
        else w.blockOffset := by
  simp only [switchBlock] at h
  split_ifs at h with hsmall hpos
  · rcases happ : w.dest.append (List.replicate (kBlockSize - w.blockOffset) 0) with ⟨s, dest⟩
    rw [happ] at h
    cases s <;> simp at h
    rw [← h, if_pos hsmall]
    exact ⟨rfl, rfl, rfl, rfl⟩
  · cases h
    exact ⟨rfl, rfl, rfl, (if_pos hsmall).symm⟩
  · cases h
    exact ⟨rfl, rfl, rfl, (if_neg hsmall).symm⟩

/-- A physical record keeps the settings and moves the offset, also when the file fails. -/
theorem emit_fields (w : Writer) (t : RecordType) (payload : Slice) :
    (w.emitPhysicalRecord t payload).2.recycleLogFiles = w.recycleLogFiles ∧
    (w.emitPhysicalRecord t payload).2.logNumber = w.logNumber ∧
    (w.emitPhysicalRecord t payload).2.manualFlush = w.manualFlush ∧
    (w.emitPhysicalRecord t payload).2.blockOffset =
      w.blockOffset + ((header w.logNumber t payload).length + payload.length) := by
  simp only [emitPhysicalRecord]
  split <;> exact ⟨rfl, rfl, rfl, rfl⟩

/-- What makes the loop of `AddRecord` end: the bytes left, and a block to fill up. -/
def variant (w : Writer) (left : Slice) : Nat :=
  2 * left.length + if kBlockSize - w.blockOffset < headerSize w.recycleLogFiles then 0 else 1

/-- A round that does not take the last fragment lowers the variant. -/
theorem variant_lt {w v u : Writer} {left : Slice} {avail : Nat}
    (hswitch : w.switchBlock = (.ok, v))
    (havail : avail = kBlockSize - v.blockOffset - headerSize w.recycleLogFiles)
    (hrec : u.recycleLogFiles = v.recycleLogFiles)
    (hoff : u.blockOffset =
      v.blockOffset + (headerSize w.recycleLogFiles + (left.take avail).length))
    (hmore : avail < left.length) : u.variant (left.drop avail) < w.variant left := by
  obtain ⟨hrec', -, -, hoff'⟩ := switchBlock_fields hswitch
  have hhead := headerSize_le w.recycleLogFiles
  have hblock : kBlockSize = 32768 := rfl
  simp only [variant, List.length_drop, List.length_take] at hoff ⊢
  by_cases hzero : avail = 0
  · -- a fragment without bytes ends exactly at the end of its block
    have hroom : ¬ kBlockSize - w.blockOffset < headerSize w.recycleLogFiles := by
      intro hsmall
      rw [if_pos hsmall] at hoff'
      omega
    rw [if_neg hroom] at hoff' ⊢
    rw [if_pos (by rw [hrec, hrec', hoff]; omega)]
    omega
  · split_ifs <;> omega

/-- The loop of `AddRecord`. -/
def addRecordLoop (w : Writer) (isFirst : Bool) (left : Slice) : Status × Writer :=
  match _hswitch : w.switchBlock with
  | (.ok, v) =>
      let avail := kBlockSize - v.blockOffset - headerSize w.recycleLogFiles
      let t := recordType w.recycleLogFiles isFirst (left.length ≤ avail)
      let emitted := v.emitPhysicalRecord t (left.take avail)
      if emitted.1 = .ok ∧ avail < left.length then
        addRecordLoop emitted.2 false (left.drop avail)
      else emitted
  | r => r
termination_by w.variant left
decreasing_by
  rename_i hgo
  obtain ⟨hrec, -, -, hoff⟩ := emit_fields v t (left.take avail)
  rw [length_header] at hoff
  exact variant_lt _hswitch rfl hrec hoff hgo.2

/-- `AddRecord`. -/
def addRecord (w : Writer) (record : Slice) : Status × Writer :=
  match w.addRecordLoop true record with
  | (.ok, w) =>
      if w.manualFlush then (.ok, w)
      else
        let (s, dest) := w.dest.flush
        (s, { w with dest := dest })
  | r => r

end Writer

/-- A fragment with its header. -/
def physical (number : Nat) (t : RecordType) (payload : Slice) : Slice :=
  header number t payload ++ payload

/-- A fragment has its header and its payload. -/
theorem length_physical (recycle isFirst isLast : Bool) (number : Nat) (payload : Slice) :
    (physical number (recordType recycle isFirst isLast) payload).length =
      headerSize recycle + payload.length := by
  rw [physical, List.length_append, Writer.length_header]

/-- The bytes of a record, or of what is left of it behind a fragment, from the place `o` of a
block on, and the place behind them. -/
inductive Layout (recycle : Bool) (number : Nat) : Nat → Bool → Slice → Slice → Nat → Prop where
  | last {o : Nat} {isFirst : Bool} {data : Slice} :
      o + headerSize recycle + data.length ≤ kBlockSize →
      Layout recycle number o isFirst data
        (physical number (recordType recycle isFirst true) data)
        (o + headerSize recycle + data.length)
  | more {o o' : Nat} {isFirst : Bool} {fragment rest bytes : Slice} :
      o + headerSize recycle + fragment.length = kBlockSize → rest ≠ [] →
      Layout recycle number kBlockSize false rest bytes o' →
      Layout recycle number o isFirst (fragment ++ rest)
        (physical number (recordType recycle isFirst false) fragment ++ bytes) o'
  | pad {o o' : Nat} {isFirst : Bool} {data bytes : Slice} :
      o ≤ kBlockSize → kBlockSize < o + headerSize recycle → isFirst = true ∨ o = kBlockSize →
      Layout recycle number 0 isFirst data bytes o' →
      Layout recycle number o isFirst data (List.replicate (kBlockSize - o) 0 ++ bytes) o'

/-- A fragment that fills its block, and what is left of the data behind it. -/
theorem Layout.fill {recycle : Bool} {number o o' a : Nat} {data bytes : Slice} (isFirst : Bool)
    (hfit : o + headerSize recycle + a = kBlockSize) (hmore : a < data.length)
    (hrest : Layout recycle number kBlockSize false (data.drop a) bytes o') :
    Layout recycle number o isFirst data
      (physical number (recordType recycle isFirst false) (data.take a) ++ bytes) o' := by
  have htake : (data.take a).length = a := List.length_take_of_le hmore.le
  have hne : data.drop a ≠ [] := List.ne_nil_of_length_pos (by rw [List.length_drop]; omega)
  have hlay : Layout recycle number o isFirst (data.take a ++ data.drop a)
      (physical number (recordType recycle isFirst false) (data.take a) ++ bytes) o' :=
    .more (by rw [htake]; exact hfit) hne hrest
  rwa [List.take_append_drop] at hlay

/-- A record can be laid out from every place on, and what is left of it from every place with
room for a header and from the end of a block. -/
theorem exists_layout (recycle : Bool) (number : Nat) {o : Nat} (isFirst : Bool) (data : Slice)
    (ho : o ≤ kBlockSize)
    (hplace : o + headerSize recycle ≤ kBlockSize ∨ isFirst = true ∨ o = kBlockSize) :
    ∃ bytes o', Layout recycle number o isFirst data bytes o' := by
  have hhead := Writer.headerSize_le recycle
  have hblock : kBlockSize = 32768 := rfl
  -- enough for a place with room for a header, since padding leads to the start of a block
  suffices hroom : ∀ (n : Nat) (o : Nat) (isFirst : Bool) (data : Slice),
      2 * data.length + (if o = 0 then 0 else 1) = n → o + headerSize recycle ≤ kBlockSize →
      ∃ bytes o', Layout recycle number o isFirst data bytes o' by
    by_cases hfit : o + headerSize recycle ≤ kBlockSize
    · exact hroom _ o isFirst data rfl hfit
    · obtain ⟨bytes, o', hlay⟩ := hroom _ 0 isFirst data rfl (by omega)
      exact ⟨_, _, .pad ho (by omega) (hplace.resolve_left hfit) hlay⟩
  intro n
  induction n using Nat.strong_induction_on with
  | _ n ih =>
      intro o isFirst data hn hfit
      by_cases hlast : o + headerSize recycle + data.length ≤ kBlockSize
      · exact ⟨_, _, .last hlast⟩
      · have hlen : kBlockSize - o - headerSize recycle < data.length := by omega
        have hless : 2 * (data.drop (kBlockSize - o - headerSize recycle)).length +
            (if 0 = 0 then 0 else 1) < n := by
          simp only [List.length_drop, if_true]
          split_ifs at hn <;> omega
        obtain ⟨bytes, o', hlay⟩ := ih _ hless 0 false _ rfl (by omega)
        have hpad := Layout.pad (o := kBlockSize) (Nat.le_refl _) (by omega) (.inr rfl) hlay
        exact ⟨_, _, .fill isFirst (by omega) hlen hpad⟩

/-- What an append leaves in the file. -/
theorem WritableFile.append_contents (f : WritableFile) (data : Slice) :
    ((f.append data).1 = .ok → (f.append data).2.contents = f.contents ++ data) ∧
      ((f.append data).1 ≠ .ok → ∃ n, (f.append data).2.contents = f.contents ++ data.take n) := by
  unfold append
  split
  · exact ⟨nofun, fun _ => ⟨_, rfl⟩⟩
  · exact ⟨fun _ => rfl, fun h => absurd rfl h⟩
  · exact ⟨fun _ => rfl, fun h => absurd rfl h⟩

namespace Writer

/-- What a physical record adds to the file: all of it, or a part when the file fails. -/
theorem emit_contents (w : Writer) (t : RecordType) (payload : Slice) :
    ((w.emitPhysicalRecord t payload).1 = .ok →
      (w.emitPhysicalRecord t payload).2.dest.contents =
        w.dest.contents ++ physical w.logNumber t payload) ∧
    ((w.emitPhysicalRecord t payload).1 ≠ .ok → ∃ n,
      (w.emitPhysicalRecord t payload).2.dest.contents =
        w.dest.contents ++ (physical w.logNumber t payload).take n) := by
  have hhead := w.dest.append_contents (header w.logNumber t payload)
  simp only [emitPhysicalRecord]
  rcases happ : w.dest.append (header w.logNumber t payload) with ⟨s, dest⟩
  rw [happ] at hhead
  have hpay := dest.append_contents payload
  cases s with
  | ok =>
      have hdest := hhead.1 rfl
      refine ⟨fun h => ?_, fun h => ?_⟩
      · rw [hpay.1 h, hdest, physical, List.append_assoc]
      · obtain ⟨n, hn⟩ := hpay.2 h
        refine ⟨(header w.logNumber t payload).length + n, ?_⟩
        rw [hn, hdest, physical, List.take_length_add_append, List.append_assoc]
  | notFound | ioError =>
      refine ⟨nofun, fun _ => ?_⟩
      obtain ⟨n, hn⟩ := hhead.2 nofun
      refine ⟨min n (header w.logNumber t payload).length, ?_⟩
      rw [hn, physical, List.take_append_of_le_length (Nat.min_le_right _ _), ← List.take_take,
        List.take_length]

/-- What a call that writes to the log has done: on success the bytes are in the file, otherwise a
beginning of them. -/
structure Wrote (w w' : Writer) (status : Status) (bytes : Slice) (o : Nat) : Prop where
  recycle : w'.recycleLogFiles = w.recycleLogFiles
  number : w'.logNumber = w.logNumber
  whole : status = .ok → w'.dest.contents = w.dest.contents ++ bytes ∧ w'.blockOffset = o
  torn : status ≠ .ok → ∃ n, w'.dest.contents = w.dest.contents ++ bytes.take n

/-- What is in the file before a call comes in front of what the call writes. -/
theorem Wrote.after {w u w' : Writer} {status : Status} {front bytes : Slice} {o : Nat}
    (h : Wrote u w' status bytes o) (hrec : u.recycleLogFiles = w.recycleLogFiles)
    (hnum : u.logNumber = w.logNumber) (hfront : u.dest.contents = w.dest.contents ++ front) :
    Wrote w w' status (front ++ bytes) o where
  recycle := h.recycle.trans hrec
  number := h.number.trans hnum
  whole := fun hok => by
    obtain ⟨hall, hplace⟩ := h.whole hok
    refine ⟨?_, hplace⟩
    rw [hall, hfront, List.append_assoc]
  torn := fun hne => by
    obtain ⟨n, hn⟩ := h.torn hne
    refine ⟨front.length + n, ?_⟩
    rw [hn, hfront, List.take_length_add_append, List.append_assoc]

/-- A call that fails has written a beginning of everything that starts with its bytes. -/
theorem Wrote.extend {w w' : Writer} {status : Status} {bytes : Slice} {o : Nat}
    (h : Wrote w w' status bytes o) (hne : status ≠ .ok) (more : Slice) (o' : Nat) :
    Wrote w w' status (bytes ++ more) o' where
  recycle := h.recycle
  number := h.number
  whole := fun hok => absurd hok hne
  torn := fun _ => by
    obtain ⟨n, hn⟩ := h.torn hne
    refine ⟨min n bytes.length, ?_⟩
    rw [hn, List.take_append_of_le_length (Nat.min_le_right _ _), ← List.take_take,
      List.take_length]

/-- `EmitPhysicalRecord` writes the fragment with its header. -/
theorem wrote_emit (w : Writer) (t : RecordType) (payload : Slice) :
    Wrote w (w.emitPhysicalRecord t payload).2 (w.emitPhysicalRecord t payload).1
      (physical w.logNumber t payload)
      (w.blockOffset + ((header w.logNumber t payload).length + payload.length)) := by
  obtain ⟨hrec, hnum, -, hoff⟩ := w.emit_fields t payload
  obtain ⟨hwhole, htorn⟩ := w.emit_contents t payload
  exact ⟨hrec, hnum, fun hok => ⟨hwhole hok, hoff⟩, htorn⟩

/-- What `switchBlock` writes. -/
def padding (w : Writer) : Slice :=
  if kBlockSize - w.blockOffset < headerSize w.recycleLogFiles then
    List.replicate (kBlockSize - w.blockOffset) 0
  else []

/-- What the switch of a block adds to the file. -/
theorem switchBlock_contents (w : Writer) :
    (w.switchBlock.1 = .ok → w.switchBlock.2.dest.contents = w.dest.contents ++ w.padding) ∧
    (w.switchBlock.1 ≠ .ok → w.switchBlock.2.recycleLogFiles = w.recycleLogFiles ∧
      w.switchBlock.2.logNumber = w.logNumber ∧
      ∃ n, w.switchBlock.2.dest.contents = w.dest.contents ++ w.padding.take n) := by
  simp only [switchBlock, padding]
  split_ifs with hsmall hpos
  · have happ := w.dest.append_contents (List.replicate (kBlockSize - w.blockOffset) 0)
    rcases hres : w.dest.append (List.replicate (kBlockSize - w.blockOffset) 0) with ⟨s, dest⟩
    rw [hres] at happ
    cases s with
    | ok => exact ⟨happ.1, fun h => absurd rfl h⟩
    | notFound | ioError => exact ⟨nofun, fun h => ⟨rfl, rfl, happ.2 h⟩⟩
  · have hzero : kBlockSize - w.blockOffset = 0 := by omega
    simp [hzero]
  · simp

/-- A switch that succeeds has written the padding. -/
theorem contents_of_switchBlock {w v : Writer} (hswitch : w.switchBlock = (.ok, v)) :
    v.dest.contents = w.dest.contents ++ w.padding := by
  have hcontents := w.switchBlock_contents.1
  rw [hswitch] at hcontents
  exact hcontents rfl

/-- The padding belongs to the layout. -/
theorem layout_padding {w v : Writer} {isFirst : Bool} {left bytes : Slice} {o : Nat}
    (hswitch : w.switchBlock = (.ok, v)) (ho : w.blockOffset ≤ kBlockSize)
    (hplace : isFirst = true ∨ w.blockOffset = kBlockSize)
    (hlay : Layout w.recycleLogFiles w.logNumber v.blockOffset isFirst left bytes o) :
    Layout w.recycleLogFiles w.logNumber w.blockOffset isFirst left (w.padding ++ bytes) o := by
  obtain ⟨-, -, -, hoff⟩ := switchBlock_fields hswitch
  rw [padding]
  split_ifs at hoff ⊢ with hsmall
  · rw [hoff] at hlay
    exact .pad ho (by omega) hplace hlay
  · rwa [hoff] at hlay

/-- Behind `switchBlock` there is room for a header. -/
theorem room_of_switchBlock {w v : Writer} (hswitch : w.switchBlock = (.ok, v)) :
    v.blockOffset + headerSize w.recycleLogFiles ≤ kBlockSize := by
  obtain ⟨-, -, -, hoff⟩ := switchBlock_fields hswitch
  have hhead := headerSize_le w.recycleLogFiles
  have hblock : kBlockSize = 32768 := rfl
  split_ifs at hoff <;> omega

/-- The loop of `AddRecord` lays out what is left of the record. -/
theorem addRecordLoop_layout (w : Writer) (isFirst : Bool) (left : Slice)
    (ho : w.blockOffset ≤ kBlockSize) (hplace : isFirst = true ∨ w.blockOffset = kBlockSize) :
    ∃ bytes o, Layout w.recycleLogFiles w.logNumber w.blockOffset isFirst left bytes o ∧
      Wrote w (w.addRecordLoop isFirst left).2 (w.addRecordLoop isFirst left).1 bytes o := by
  fun_induction addRecordLoop w isFirst left with
  | case1 w isFirst left v hswitch avail t emitted hgo ih =>
      -- a fragment that fills its block, and the rounds behind it
      obtain ⟨hrec, hnum, -, -⟩ := switchBlock_fields hswitch
      obtain ⟨hrec', hnum', -, hoff⟩ := emit_fields v t (left.take avail)
      have hroom := room_of_switchBlock hswitch
      have hend : emitted.2.blockOffset = kBlockSize := by
        rw [hoff, length_header, List.length_take_of_le hgo.2.le]
        omega
      obtain ⟨bytes, o, hlay, hwrote⟩ := ih hend.le (.inr hend)
      rw [hrec', hrec, hnum', hnum, hend] at hlay
      have htype : t = recordType w.recycleLogFiles isFirst false := by
        simp only [t, decide_eq_false (Nat.not_le.mpr hgo.2)]
      have hmore := hlay.fill (o := v.blockOffset) isFirst (by omega) hgo.2
      rw [← htype] at hmore
      have hfragment := hwrote.after hrec' hnum' ((emit_contents v t (left.take avail)).1 hgo.1)
      rw [hnum] at hfragment
      exact ⟨_, o, layout_padding hswitch ho hplace hmore,
        hfragment.after hrec hnum (contents_of_switchBlock hswitch)⟩
  | case2 w isFirst left v hswitch avail t emitted hstop =>
      obtain ⟨hrec, hnum, -, -⟩ := switchBlock_fields hswitch
      have hroom := room_of_switchBlock hswitch
      have hcontents := contents_of_switchBlock hswitch
      by_cases hlast : left.length ≤ avail
      · have htype : t = recordType w.recycleLogFiles isFirst true := by
          simp only [t, decide_eq_true hlast]
        have hlay : Layout w.recycleLogFiles w.logNumber v.blockOffset isFirst left
            (physical w.logNumber (recordType w.recycleLogFiles isFirst true) left) _ :=
          .last (by omega)
        have hwhole : emitted = v.emitPhysicalRecord t left := by
          simp only [emitted, List.take_of_length_le hlast]
        have hemit := v.wrote_emit t left
        rw [hnum, ← hwhole, htype, length_header, ← Nat.add_assoc] at hemit
        exact ⟨_, _, layout_padding hswitch ho hplace hlay, hemit.after hrec hnum hcontents⟩
      · -- the fragment was not the last one, so its append has failed
        have hne : emitted.1 ≠ .ok := fun hok => hstop ⟨hok, by omega⟩
        have htype : t = recordType w.recycleLogFiles isFirst false := by
          simp only [t, decide_eq_false hlast]
        obtain ⟨bytes, o, hrest⟩ := exists_layout w.recycleLogFiles w.logNumber false
          (left.drop avail) (Nat.le_refl _) (.inr (.inr rfl))
        have hmore := hrest.fill (o := v.blockOffset) isFirst (by omega) (Nat.not_le.mp hlast)
        rw [← htype] at hmore
        have hemit := v.wrote_emit t (left.take avail)
        rw [hnum] at hemit
        exact ⟨_, o, layout_padding hswitch ho hplace hmore,
          (hemit.extend hne bytes o).after hrec hnum hcontents⟩
  | case3 w isFirst left hfail =>
      -- the trailer of the block could not be written
      have hne : w.switchBlock.1 ≠ .ok := fun hok => hfail w.switchBlock.2 (Prod.ext hok rfl)
      have hsmall : kBlockSize - w.blockOffset < headerSize w.recycleLogFiles := by
        by_contra hlarge
        simp [switchBlock, hlarge] at hne
      have hhead := headerSize_le w.recycleLogFiles
      have hblock : kBlockSize = 32768 := rfl
      obtain ⟨bytes, o, hlay⟩ := exists_layout w.recycleLogFiles w.logNumber (o := 0) isFirst left
        (Nat.zero_le _) (.inl (by omega))
      obtain ⟨hrec, hnum, htorn⟩ := w.switchBlock_contents.2 hne
      have hwrote : Wrote w w.switchBlock.2 w.switchBlock.1 w.padding 0 :=
        ⟨hrec, hnum, fun hok => absurd hok hne, fun _ => htorn⟩
      rw [show w.padding = List.replicate (kBlockSize - w.blockOffset) 0 from if_pos hsmall]
        at hwrote
      exact ⟨_, o, .pad ho (by omega) hplace hlay, hwrote.extend hne bytes o⟩

/-- A call of `AddRecord` lays out the record, or a beginning of it if it fails. -/
theorem addRecord_layout (w : Writer) (record : Slice) (ho : w.blockOffset ≤ kBlockSize) :
    ∃ bytes o, Layout w.recycleLogFiles w.logNumber w.blockOffset true record bytes o ∧
      Wrote w (w.addRecord record).2 (w.addRecord record).1 bytes o := by
  obtain ⟨bytes, o, hlay, hwrote⟩ := w.addRecordLoop_layout true record ho (.inl rfl)
  refine ⟨bytes, o, hlay, ?_⟩
  simp only [addRecord]
  rcases hloop : w.addRecordLoop true record with ⟨s, v⟩
  rw [hloop] at hwrote
  cases s with
  | notFound | ioError => exact hwrote
  | ok =>
      obtain ⟨hcontents, hplace⟩ := hwrote.whole rfl
      have hflush : v.dest.flush.2.contents = v.dest.contents := by
        unfold WritableFile.flush
        split <;> rfl
      dsimp only
      split
      · exact hwrote
      · refine ⟨hwrote.recycle, hwrote.number, fun _ => ⟨hflush.trans hcontents, hplace⟩,
          fun _ => ⟨bytes.length, ?_⟩⟩
        rw [List.take_length]
        exact hflush.trans hcontents

/-- The records added up to the first call that fails, and how many of the calls succeed. The caller
does not use a writer behind a failed call: a later record would stand behind a torn fragment. -/
def addRecords : Writer → List Slice → Nat × Writer
  | w, [] => (0, w)
  | w, record :: rest =>
      match w.addRecord record with
      | (.ok, v) => ((v.addRecords rest).1 + 1, (v.addRecords rest).2)
      | (_, v) => (0, v)

end Writer

/-- The bytes of a log, record by record. -/
inductive LogLayout (recycle : Bool) (number : Nat) : Nat → List (Slice × Slice) → Prop where
  | nil {o : Nat} : LogLayout recycle number o []
  | cons {o o' : Nat} {record bytes : Slice} {rest : List (Slice × Slice)} :
      Layout recycle number o true record bytes o' → LogLayout recycle number o' rest →
      LogLayout recycle number o ((record, bytes) :: rest)

/-- The bytes of the records. -/
def joined (pieces : List (Slice × Slice)) : Slice :=
  pieces.flatMap Prod.snd

/-- The records of which the first `n` bytes of a log have everything. -/
def survivors : Nat → List (Slice × Slice) → List Slice
  | _, [] => []
  | n, (record, bytes) :: rest =>
      if bytes.length ≤ n then record :: survivors (n - bytes.length) rest else []

/-- A layout ends inside of a block or at its end. -/
theorem Layout.le {recycle : Bool} {number o o' : Nat} {isFirst : Bool} {data bytes : Slice}
    (h : Layout recycle number o isFirst data bytes o') : o' ≤ kBlockSize := by
  induction h with
  | last hfit => exact hfit
  | more _ _ _ ih => exact ih
  | pad _ _ _ _ ih => exact ih

/-- The bytes of a record have at least a header. -/
theorem Layout.length_pos {recycle : Bool} {number o o' : Nat} {isFirst : Bool}
    {data bytes : Slice} (h : Layout recycle number o isFirst data bytes o') :
    kHeaderSize ≤ bytes.length := by
  have hhead := Writer.headerSize_le recycle
  have hsize : kHeaderSize = 7 := rfl
  induction h with
  | last | more =>
      simp only [List.length_append, length_physical]
      omega
  | pad _ _ _ _ ih =>
      rw [List.length_append]
      omega

/-- Every list of records can be laid out. -/
theorem exists_logLayout (recycle : Bool) (number : Nat) {o : Nat} (ho : o ≤ kBlockSize)
    (records : List Slice) :
    ∃ pieces, LogLayout recycle number o pieces ∧ pieces.map Prod.fst = records := by
  induction records generalizing o with
  | nil => exact ⟨[], .nil, rfl⟩
  | cons record rest ih =>
      obtain ⟨bytes, o', hlay⟩ := exists_layout recycle number true record ho
        (.inr (.inl rfl))
      obtain ⟨pieces, hlog, hmap⟩ := ih hlay.le
      exact ⟨(record, bytes) :: pieces, .cons hlay hlog, by rw [List.map_cons, hmap]⟩

/-- Nothing survives in no bytes. -/
theorem LogLayout.survivors_zero {recycle : Bool} {number o : Nat} {pieces : List (Slice × Slice)}
    (h : LogLayout recycle number o pieces) : survivors 0 pieces = [] := by
  cases h with
  | nil => rfl
  | cons hlay _ =>
      have hlen := hlay.length_pos
      have hsize : kHeaderSize = 7 := rfl
      exact if_neg (by omega)

/-- Every record that survives has a byte of its own. -/
theorem length_survivors_le {recycle : Bool} {number o : Nat} {pieces : List (Slice × Slice)}
    (hlog : LogLayout recycle number o pieces) (n : Nat) :
    (survivors n pieces).length ≤ ((joined pieces).take n).length := by
  induction hlog generalizing n with
  | nil => exact Nat.zero_le _
  | @cons o o' record bytes rest hlay _ ih =>
      have hlen := hlay.length_pos
      have hsize : kHeaderSize = 7 := rfl
      have hrest := ih (n - bytes.length)
      have hsplit : joined ((record, bytes) :: rest) = bytes ++ joined rest := rfl
      rw [survivors, hsplit, List.take_append, List.length_append]
      split_ifs with hwhole
      · rw [List.length_cons, List.length_take]
        omega
      · exact Nat.zero_le _

/-- The records that survive are the first ones. -/
theorem survivors_eq_take (n : Nat) (pieces : List (Slice × Slice)) :
    survivors n pieces = (pieces.map Prod.fst).take (survivors n pieces).length := by
  induction pieces generalizing n with
  | nil => rfl
  | cons piece rest ih =>
      rw [survivors]
      split_ifs
      · rw [List.length_cons, List.map_cons, List.take_succ_cons, ← ih]
      · rfl

/-- As many records survive as have their bytes in the first `n` ones. -/
theorem le_length_survivors_iff {pieces : List (Slice × Slice)} {n j : Nat}
    (hj : j ≤ pieces.length) :
    j ≤ (survivors n pieces).length ↔ (joined (pieces.take j)).length ≤ n := by
  induction pieces generalizing n j with
  | nil =>
      obtain rfl : j = 0 := Nat.le_zero.mp hj
      simp [joined]
  | cons piece rest ih =>
      cases j with
      | zero => simp [joined]
      | succ j =>
          have hsplit : (joined ((piece :: rest).take (j + 1))).length =
              piece.2.length + (joined (rest.take j)).length := List.length_append
          rw [hsplit, survivors]
          split_ifs with hwhole
          · rw [List.length_cons, Nat.succ_le_succ_iff, ih (Nat.succ_le_succ_iff.mp hj)]
            omega
          · simp only [List.length_nil]
            omega

/-- The file behind a sequence of calls has a beginning of the log that they lay out, with every
record of a call that succeeded and at most one more. Behind fewer calls it had the same bytes. -/
theorem Writer.addRecords_layout (w : Writer) (records : List Slice)
    (ho : w.blockOffset ≤ kBlockSize) :
    ∃ pieces n, LogLayout w.recycleLogFiles w.logNumber w.blockOffset pieces ∧
      pieces.map Prod.fst = records ∧
      (w.addRecords records).2.dest.contents = w.dest.contents ++ (joined pieces).take n ∧
      (w.addRecords records).1 ≤ (survivors n pieces).length ∧
      (survivors n pieces).length ≤ (w.addRecords records).1 + 1 ∧
      ∀ j ≤ (w.addRecords records).1, (w.addRecords (records.take j)).2.dest.contents =
        w.dest.contents ++ joined (pieces.take j) := by
  induction records generalizing w with
  | nil => exact ⟨[], 0, .nil, rfl, by simp [addRecords], by simp [addRecords], by simp [survivors],
      by simp [addRecords, joined]⟩
  | cons record rest ih =>
      obtain ⟨bytes, o, hlay, hwrote⟩ := w.addRecord_layout record ho
      rcases hadd : w.addRecord record with ⟨s, v⟩
      rw [hadd] at hwrote
      have hrec : v.recycleLogFiles = w.recycleLogFiles := hwrote.recycle
      have hnum : v.logNumber = w.logNumber := hwrote.number
      cases s with
      | ok =>
          obtain ⟨hcontents, hplace⟩ := hwrote.whole rfl
          obtain ⟨pieces, n, hlog, hmap, hfile, hmin, hmax, hbefore⟩ := ih v (hplace ▸ hlay.le)
          rw [hrec, hnum, hplace] at hlog
          have hsurv : survivors (bytes.length + n) ((record, bytes) :: pieces) =
              record :: survivors n pieces := by
            rw [survivors, if_pos (by omega), Nat.add_sub_cancel_left]
          simp only [addRecords, hadd]
          refine ⟨(record, bytes) :: pieces, bytes.length + n, .cons hlay hlog,
            by rw [List.map_cons, hmap], ?_, ?_, ?_, ?_⟩
          · simp only [joined, List.flatMap_cons, List.take_length_add_append]
            rw [hfile, hcontents, List.append_assoc]
            rfl
          · rw [hsurv, List.length_cons]
            omega
          · rw [hsurv, List.length_cons]
            omega
          · intro j hj
            cases j with
            | zero => simp [addRecords, joined]
            | succ j =>
                simp only [List.take_succ_cons, addRecords, hadd]
                rw [hbefore j (by omega), hcontents, List.append_assoc]
                rfl
      | notFound | ioError =>
          obtain ⟨n, hn⟩ := hwrote.torn nofun
          obtain ⟨pieces, hlog, hmap⟩ := exists_logLayout w.recycleLogFiles w.logNumber hlay.le rest
          have hsurv : (survivors (min n bytes.length) ((record, bytes) :: pieces)).length ≤ 1 := by
            rw [survivors]
            split_ifs
            · rw [Nat.sub_eq_zero_of_le (Nat.min_le_right _ _), hlog.survivors_zero]
              rfl
            · exact Nat.zero_le _
          simp only [addRecords, hadd]
          refine ⟨(record, bytes) :: pieces, min n bytes.length, .cons hlay hlog,
            by rw [List.map_cons, hmap], ?_, Nat.zero_le _, hsurv, ?_⟩
          · simp only [joined, List.flatMap_cons]
            rw [List.take_append_of_le_length (Nat.min_le_right _ _), ← List.take_take,
              List.take_length]
            exact hn
          · intro j hj
            obtain rfl : j = 0 := Nat.le_zero.mp hj
            simp [addRecords, joined]

namespace Writer

end Writer

end P2KVS.Log
