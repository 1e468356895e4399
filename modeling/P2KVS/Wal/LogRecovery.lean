import P2KVS.Wal.LogRoundTrip

/-!
# What is recovered from a log

A log that was written without failures is read back as it is, in every mode and in both forms of
the header. Of a log whose writer failed or that lost its end in a crash, exactly the records that
are complete in the file are read. A recycled log with a number that does not fit into its header
is read as empty.
-/

namespace P2KVS.Log

open LittleEndian Crc32c

namespace Reader

/-- A call of `ReadRecord` in the middle of the loop over the records. -/
theorem readRecords_some {mode : RecoveryMode} {r r' : Reader} {record : Slice}
    (h : r.readRecord mode = some (some record, r')) (fuel : Nat) :
    readRecords mode (fuel + 1) r =
      (readRecords mode fuel r').map fun p => (record :: p.1, p.2) := by
  simp only [readRecords, h]

/-- A call of `ReadRecord` that ends the loop over the records. -/
theorem readRecords_none {mode : RecoveryMode} {r r' : Reader}
    (h : r.readRecord mode = some (none, r')) (fuel : Nat) :
    readRecords mode (fuel + 1) r = some ([], r') := by
  simp only [readRecords, h]

/-- Where nothing is left, the file ends. -/
theorem Stands.read_nil {r : Reader} {o : Nat} (h : Stands r o []) :
    ∃ r', r.readPhysicalRecord = (⟨kEof, [], 0⟩, r') ∧ Keeps r r' := by
  have hend : ∀ {r : Reader} {o : Nat}, Stands r o [] → 0 < kBlockSize - o →
      ∃ r', r.readPhysicalRecord = (⟨kEof, [], 0⟩, r') ∧ Keeps r r' := by
    intro r o h hroom
    have hneeds : r.needsMore = true := by
      rw [needsMore, h.buffer, List.take_nil]
      rfl
    obtain ⟨code, r', hread, ⟨rfl, -⟩ | ⟨-, hne⟩, hkeeps⟩ := h.read_end hroom hneeds
    · exact ⟨r', hread, hkeeps⟩
    · exact absurd rfl hne
  by_cases hroom : 0 < kBlockSize - o
  · exact hend h hroom
  · -- the end of a block: the next one is empty
    have hzero : kBlockSize - o = 0 := by omega
    obtain ⟨r', hsame, hst, hkeeps⟩ := h.skip_short (by rw [hzero]; decide) (by simp [hzero])
    rw [List.drop_nil] at hst
    obtain ⟨r'', hread, hkeeps'⟩ := hend hst (by decide)
    exact ⟨r'', hsame.trans hread, hkeeps.trans hkeeps'⟩

/-- At the end of a log `ReadRecord` returns no record and reports nothing, in every mode. -/
theorem Stands.readRecord_nil {r : Reader} {o : Nat} (h : Stands r o []) (mode : RecoveryMode) :
    ∃ r', r.readRecord mode = some (none, r') ∧ Keeps r r' := by
  obtain ⟨r', hread, hkeeps⟩ := h.read_nil
  refine ⟨r', readRecord_of_returns (.done ?_), hkeeps⟩
  simp [Scan.body, hread, Scan.giveUp]

/-- A record that is laid out before the reader is returned, whatever bytes follow it. -/
theorem Stands.readRecord_layout (mode : RecoveryMode) {recycle : Bool} {number o o' : Nat}
    {record bytes tail : Slice} {r : Reader} (hst : Stands r o (bytes ++ tail))
    (hlay : Layout recycle number o true record bytes o')
    (hnumber : recycle = true → r.logNumber = number % 2 ^ 32) :
    ∃ r', r.readRecord mode = some (some record, r') ∧ Stands r' o' tail ∧ Keeps r r' := by
  obtain ⟨r', hret, hst', hkeeps⟩ := returns_of_layout mode (s := ⟨r, false, [], 0⟩) hlay tail
    hst.ready hnumber ⟨rfl, fun _ => rfl⟩
  exact ⟨r', readRecord_of_returns hret, hst', hkeeps⟩

/-- Of a log that is cut off, the records that are complete are read, and nothing is reported
except in the strictest mode. -/
theorem readRecords_cut {mode : RecoveryMode} (hmode : mode ≠ .absoluteConsistency)
    {recycle : Bool} {number o n : Nat} {pieces : List (Slice × Slice)}
    (hlog : LogLayout recycle number o pieces) {r : Reader}
    (hst : Stands r o ((joined pieces).take n))
    (hnumber : recycle = true → r.logNumber = number % 2 ^ 32) {fuel : Nat}
    (hfuel : (survivors n pieces).length < fuel) :
    ∃ r', readRecords mode fuel r = some (survivors n pieces, r') ∧ Keeps r r' := by
  induction hlog generalizing r n fuel with
  | nil =>
      obtain ⟨k, rfl⟩ : ∃ k, fuel = k + 1 := ⟨fuel - 1, by omega⟩
      rw [joined, List.flatMap_nil, List.take_nil] at hst
      obtain ⟨r', hread, hkeeps⟩ := hst.readRecord_nil mode
      exact ⟨r', readRecords_none hread k, hkeeps⟩
  | @cons o o' record bytes rest hlay hrest ih =>
      obtain ⟨k, rfl⟩ : ∃ k, fuel = k + 1 := ⟨fuel - 1, by omega⟩
      have hsplit : joined ((record, bytes) :: rest) = bytes ++ joined rest := rfl
      rw [hsplit, List.take_append] at hst
      by_cases hwhole : bytes.length ≤ n
      · rw [List.take_of_length_le hwhole] at hst
        rw [survivors, if_pos hwhole, List.length_cons] at hfuel
        obtain ⟨r', hfirst, hst', hkeeps⟩ := hst.readRecord_layout mode hlay hnumber
        obtain ⟨r'', hread, hkeeps'⟩ := ih hst' (fun hr => hkeeps.number.trans (hnumber hr))
          (Nat.lt_of_succ_lt_succ hfuel)
        refine ⟨r'', ?_, hkeeps.trans hkeeps'⟩
        rw [readRecords_some hfirst, hread, survivors, if_pos hwhole]
        rfl
      · rw [Nat.sub_eq_zero_of_le (by omega), List.take_zero, List.append_nil] at hst
        obtain ⟨r', hret, hkeeps⟩ := returns_of_cut mode
          (s := ⟨r, false, [], 0⟩) hlay (Nat.not_le.mp hwhole) hst.ready hnumber
          ⟨rfl, fun _ => rfl⟩
        refine ⟨r', ?_, hkeeps hmode⟩
        rw [readRecords_none (readRecord_of_returns hret), survivors, if_neg hwhole]

/-- A log that starts a block can as well be said to follow a full one, as a new reader sees it. -/
theorem logLayout_next_block {recycle : Bool} {number : Nat} {pieces : List (Slice × Slice)}
    (h : LogLayout recycle number 0 pieces) : LogLayout recycle number kBlockSize pieces := by
  cases h with
  | nil => exact .nil
  | cons hlay hrest =>
      have hhead := Writer.headerSize_le recycle
      have hpad := Layout.pad (Nat.le_refl kBlockSize) (by omega) (.inr rfl) hlay
      rw [Nat.sub_self, List.replicate_zero, List.nil_append] at hpad
      exact .cons hpad hrest

/-- What is read from the first `n` bytes of a log. -/
theorem readLog_cut {mode : RecoveryMode} (hmode : mode ≠ .absoluteConsistency)
    {recycle : Bool} {number : Nat} (hnumber : recycle = true → number < 2 ^ 32)
    {pieces : List (Slice × Slice)} (hlog : LogLayout recycle number 0 pieces) (n : Nat)
    (checksum : Bool) :
    ∃ r', (new ((joined pieces).take n) [] checksum number).readLog mode =
        some (survivors n pieces, r') ∧ r'.reports = [] := by
  have hfuel : (survivors n pieces).length <
      (new ((joined pieces).take n) [] checksum number).remaining + 1 := by
    have hle := length_survivors_le hlog n
    simp only [remaining, new, List.length_nil]
    omega
  obtain ⟨r', hread, hkeeps⟩ := readRecords_cut hmode (logLayout_next_block hlog)
    (stands_new _ checksum number) (fun hr => (Nat.mod_eq_of_lt (hnumber hr)).symm) hfuel
  exact ⟨r', hread, hkeeps.reports⟩

end Reader

/-- Behind a failure of a writer that started on a new file and stopped there, and behind a crash
that loses the end of the file, the records that are read are the first ones. They include every
record whose call succeeded and whose bytes are in the file, and at most one record whose call
failed; nothing is reported except in the strictest mode. -/
theorem log_survives_crash (failures : List (Option Nat)) (number : Nat)
    (recycle manualFlush : Bool) (records : List Slice) (k : Nat) (checksum : Bool)
    (mode : RecoveryMode) (hmode : mode ≠ .absoluteConsistency)
    (hnumber : recycle = true → number < 2 ^ 32) :
    let w := Writer.new failures number recycle manualFlush
    ∃ m r', (Reader.new ((w.addRecords records).2.dest.contents.take k) [] checksum
        number).readLog mode = some (records.take m, r') ∧
      r'.reports = [] ∧ m ≤ (w.addRecords records).1 + 1 ∧
      ∀ j ≤ (w.addRecords records).1,
        (w.addRecords (records.take j)).2.dest.contents.length ≤ k → j ≤ m := by
  intro w
  obtain ⟨pieces, n, hlog, hmap, hfile, hmin, hmax, hbefore⟩ :=
    w.addRecords_layout records (Nat.zero_le _)
  have hcontents : (w.addRecords records).2.dest.contents.take k =
      (joined pieces).take (min k n) := by
    rw [hfile, ← List.take_take]
    rfl
  obtain ⟨r', hread, hreports⟩ :=
    Reader.readLog_cut hmode hnumber hlog (min k n) checksum
  have hlen : ∀ n, (survivors n pieces).length ≤ pieces.length := by
    intro n
    rw [survivors_eq_take, List.length_take, List.length_map]
    exact Nat.min_le_right _ _
  refine ⟨(survivors (min k n) pieces).length, r', ?_, hreports, ?_, fun j hj hk => ?_⟩
  · rw [hcontents, hread, ← hmap, ← survivors_eq_take]
  · -- fewer bytes have fewer records
    have hle := (le_length_survivors_iff (hlen (min k n))).mp (Nat.le_refl _)
    have := (le_length_survivors_iff (n := n) (hlen (min k n))).mpr (by omega)
    omega
  · have hjlen : j ≤ pieces.length := by
      have := hlen n
      omega
    rw [hbefore j hj] at hk
    have hn := (le_length_survivors_iff (n := n) hjlen).mp (by omega)
    exact (le_length_survivors_iff hjlen).mpr (Nat.le_min.mpr ⟨hk, hn⟩)

/-- The payload of the second record fails behind two bytes, and the file loses all but 20 bytes. -/
theorem log_survives_crash_torn :
    let w := Writer.new [none, none, none, none, some 2] 7 false false
    ∃ m r', (Reader.new ((w.addRecords [[1], [2, 3, 4]]).2.dest.contents.take 20) [] true
        7).readLog .pointInTimeRecovery = some ([[1], [2, 3, 4]].take m, r') ∧
      r'.reports = [] ∧ m ≤ (w.addRecords [[1], [2, 3, 4]]).1 + 1 ∧
      ∀ j ≤ (w.addRecords [[1], [2, 3, 4]]).1,
        (w.addRecords ([[1], [2, 3, 4]].take j)).2.dest.contents.length ≤ 20 → j ≤ m :=
  log_survives_crash [none, none, none, none, some 2] 7 false false [[1], [2, 3, 4]] 20 true
    .pointInTimeRecovery (by decide) (fun h => absurd h (by decide))

namespace Reader

/-- A fragment whose payload has another checksum than its header is dropped with the rest of the
block. -/
theorem readPhysicalRecord_mismatch {r : Reader} {recycle isFirst isLast : Bool} {number : Nat}
    {payload found rest : Slice} (hcheck : r.checksum = true)
    (hbuf : r.buffer = header number (recordType recycle isFirst isLast) payload ++
      (found ++ rest))
    (hsize : payload.length < 65536) (hlen : found.length = payload.length)
    (hnumber : recycle = true → r.logNumber = number % 2 ^ 32)
    (hcrc : valueOf ((recordType recycle isFirst isLast).code ::
        (numberBytes recycle number ++ found)) ≠
      valueOf ((recordType recycle isFirst isLast).code ::
        (numberBytes recycle number ++ payload))) :
    r.readPhysicalRecord =
      (⟨kBadRecordChecksum, [], r.buffer.length⟩, { r.look with buffer := [] }) := by
  have hfull : headerSize recycle + payload.length ≤ r.buffer.length := by
    simp only [hbuf, List.length_append, Writer.length_header]
    omega
  have hmore : ¬ r.needsMore = true := by
    rw [needsMore_eq (front_header hsize hbuf).recyclable, decide_eq_true_eq]
    omega
  have hlook := look_buffer r
  have hfront := front_header hsize (hlook.trans hbuf)
  have hold := hfront.not_old fun hr => (look_keeps r).number.trans (hnumber hr)
  -- the checked bytes have the payload that is found, the stored checksum that of the written one
  have hdiffer : valueOf ((r.look.buffer.drop 6).take (headerSize recycle + payload.length - 6)) ≠
      unmask (BitVec.ofNat 32 (decodeFixed32 r.look.buffer)) := by
    rwa [hfront.stored, hfront.checked hlen]
  rw [Reader.readPhysicalRecord, if_neg hmore, takeRecord, hfront.recyclable, hfront.length,
    hfront.type, if_neg hold, if_neg (by rw [hlook]; omega),
    if_neg fun hz => code_ne_zero _ _ _ hz.1,
    if_pos ⟨(look_keeps r).checksum.trans hcheck, hdiffer⟩, hlook]

/-- A round of `ReadRecord` that finds a wrong checksum ends without a record, or reports it and
keeps no fragment. -/
theorem body_mismatch (mode : RecoveryMode) {s : Scan} {r : Reader} {fragment : Slice}
    {dropSize : Nat}
    (hread : s.reader.readPhysicalRecord = (⟨kBadRecordChecksum, fragment, dropSize⟩, r)) :
    (∃ r', Scan.body mode s = .inr (none, r')) ∨
      ∃ t, Scan.body mode s = .inl t ∧ t.inFragmentedRecord = false ∧
        (dropSize, .corruption "checksum mismatch") ∈ t.reader.reports := by
  have hcode : ¬ kBadRecordChecksum = kBadRecordLen := by decide
  simp only [Scan.body, hread, if_neg hcode]
  split_ifs with hstop
  · exact .inl ⟨_, rfl⟩
  · refine .inr ⟨_, rfl, ?_⟩
    unfold Scan.dropMiddle
    split_ifs with hin
    · exact ⟨rfl, by simp [reportCorruption]⟩
    · exact ⟨by simpa using hin, by simp [reportCorruption]⟩

end Reader

/-- When up to four consecutive bytes of the payload of a fragment change in the file, the fragment
is not returned: the rest of the block is dropped, and the loop of `ReadRecord` ends without a
record or reports a mismatch of the checksum. -/
theorem corrupted_payload_is_dropped {r : Reader} {recycle isFirst isLast : Bool} {number : Nat}
    {before x y behind rest : Slice} (hcheck : r.checksum = true)
    (hbuf : r.buffer = header number (recordType recycle isFirst isLast) (before ++ x ++ behind) ++
      ((before ++ y ++ behind) ++ rest))
    (hsize : (before ++ x ++ behind).length < 65536)
    (hnumber : recycle = true → r.logNumber = number % 2 ^ 32)
    (hlen : x.length = y.length) (hfour : x.length ≤ 4) (hne : x ≠ y) :
    r.readPhysicalRecord =
        (⟨kBadRecordChecksum, [], r.buffer.length⟩, { r.look with buffer := [] }) ∧
      ∀ (mode : RecoveryMode) (s : Reader.Scan), s.reader = r →
        (∃ r', Reader.Scan.body mode s = .inr (none, r')) ∨
        ∃ t, Reader.Scan.body mode s = .inl t ∧ t.inFragmentedRecord = false ∧
          (r.buffer.length, .corruption "checksum mismatch") ∈ t.reader.reports := by
  have hsame : (before ++ y ++ behind).length = (before ++ x ++ behind).length := by
    simp only [List.length_append]
    omega
  have hburst := valueOf_ne
    ((recordType recycle isFirst isLast).code :: (numberBytes recycle number ++ before)) behind
    hlen.symm (hlen ▸ hfour) hne.symm
  have hread := Reader.readPhysicalRecord_mismatch hcheck hbuf hsize hsame hnumber
    (by simpa only [List.cons_append, List.append_assoc] using hburst)
  refine ⟨hread, fun mode s hs => ?_⟩
  subst hs
  exact Reader.body_mismatch mode hread

/-- A file with two records. In the payload of the second one, a byte has changed from 2 to 3. -/
def corruptedSecond : Slice :=
  physical 0 (recordType false true true) [7] ++
    (header 0 (recordType false true true) ([1] ++ [2] ++ []) ++ (([1] ++ [3] ++ []) ++ []))

/-- The first record is read, and the second one is dropped. -/
theorem corrupted_payload_is_dropped_one :
    let first := (Reader.new corruptedSecond [] true 0).readPhysicalRecord
    let r := first.2
    first.1 = ⟨kFullType, [7], 0⟩ ∧ r.readPhysicalRecord =
      (⟨kBadRecordChecksum, [], r.buffer.length⟩, { r.look with buffer := [] }) := by
  intro first r
  have hfirst : first.1 = ⟨kFullType, [7], 0⟩ := by decide +kernel
  have hchecked : r.checksum = true := by decide +kernel
  have hbuf : r.buffer = header 0 (recordType false true true) ([1] ++ [2] ++ []) ++
      (([1] ++ [3] ++ []) ++ []) := by
    decide +kernel
  exact ⟨hfirst, (corrupted_payload_is_dropped hchecked hbuf (by decide) nofun rfl (by decide)
    (by decide)).1⟩

end P2KVS.Log
