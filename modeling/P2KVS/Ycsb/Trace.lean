import Mathlib.Algebra.Group.Int.Defs
import P2KVS.Ycsb.Kinds

/-!
# The trace file of `ycsb.cpp`

`main` reads the trace line by line into one buffer and turns every line into a `command`: its first
character, a number from the seventh character on, and for a scan the number behind the next blank.
The buffer is reused, so a short line is continued by what an earlier line has left.

A scan length travels as the `int` of `atoi`, the `short` of `command` and the `int` of
`async_requests`, where `-1` says that the request is no scan. `request_kinds_preserved` says which
lengths survive.
-/

namespace P2KVS.Ycsb

open Channel Transition

/-- What `getline` leaves in the buffer: the line, its terminator, and behind it what was there. -/
def getline (line buf : List Char) : List Char :=
  line ++ '\x00' :: buf.drop (line.length + 1)

/-- The C string at the start of a memory area, undefined if it is not terminated. -/
def cString (memory : List Char) : Option (List Char) :=
  if '\x00' ∈ memory then some (memory.takeWhile (· ≠ '\x00')) else none

/-- `isspace(c)`. -/
def isSpace (c : Char) : Bool :=
  c = ' ' || 9 ≤ c.toNat && c.toNat ≤ 13

/-- The number that `n` and the digits at the start of the text denote. -/
def decimal (n : Nat) : List Char → Nat
  | [] => n
  | c :: rest => if c.isDigit then decimal (10 * n + (c.toNat - '0'.toNat)) rest else n

/-- `strtol(s, NULL, 10)`: blanks, a sign and digits. The value saturates at the bounds of
`long`. -/
def strtol (s : List Char) : Int :=
  let value : Int := match s.dropWhile isSpace with
    | '-' :: rest => -(decimal 0 rest : Int)
    | '+' :: rest => decimal 0 rest
    | rest => decimal 0 rest
  max (-2 ^ 63) (min value (2 ^ 63 - 1))

/-- `atol(s)`. -/
def atol (s : List Char) : Int64 :=
  Int64.ofInt (strtol s)

/-- `atoi(s)`, which converts the result of `strtol` to `int`. -/
def atoi (s : List Char) : Int32 :=
  Int32.ofInt (strtol s)

/-- `strchr(s, c)`, where `none` is `NULL`. -/
def strchr (s : List Char) (c : Char) : Option (List Char) :=
  match s.dropWhile (· ≠ c) with
  | [] => none
  | found => some found

/-- `atoi(strchr(keybuf, ' ') + 1)`, undefined if there is no blank. -/
def scanLength (keybuf : List Char) : Option Int32 :=
  (strchr keybuf ' ').map fun found => atoi (found.drop 1)

/-- The command of the line in the buffer. The static `cmds` keeps a `scan_size` of zero unless the
line is a scan. -/
def parseLine (buf : List Char) : Option Command := do
  let cmd ← buf.head?
  let keybuf ← cString (buf.drop 6)
  let key := (atol keybuf).toUInt64
  if cmd = 'S' then
    let length ← scanLength keybuf
    some ⟨key, length.toInt16, cmd⟩
  else some ⟨key, 0, cmd⟩

/-- The loop that reads the trace, at line `lineNum`: it stops when `getline` returns nothing, and a
store behind the end of `cmds` is undefined. -/
def readTrace (totalNum : Nat) : Nat → List Char → List (List Char) → Option (List Command)
  | _, _, [] => some []
  | lineNum, buf, line :: rest =>
      if line.length = 0 then some []
      else if lineNum < totalNum then do
        let c ← parseLine (getline line buf)
        let cmds ← readTrace totalNum (lineNum + 1) (getline line buf) rest
        some (c :: cmds)
      else none

/-- The buffer behind the `getline` of line `i`. -/
def bufferAt (buf : List Char) (lines : List (List Char)) (i : Nat) : List Char :=
  (lines.take (i + 1)).foldl (fun buf line => getline line buf) buf

/-- What `atoi` returns for the scan length of the line in the buffer. -/
def lineLength (buf : List Char) : Option Int32 := do
  let keybuf ← cString (buf.drop 6)
  scanLength keybuf

/-- Command `i` is the one of line `i`. -/
theorem parse_of_readTrace {totalNum lineNum : Nat} {buf : List Char} {lines : List (List Char)}
    {cmds : List Command} (h : readTrace totalNum lineNum buf lines = some cmds) {i : Nat}
    {c : Command} (hc : cmds[i]? = some c) : parseLine (bufferAt buf lines i) = some c := by
  induction lines generalizing lineNum buf cmds i with
  | nil =>
      cases h
      simp at hc
  | cons line rest ih =>
      unfold readTrace at h
      split_ifs at h with hempty hroom
      · cases h
        simp at hc
      · simp only [bind, Option.bind_eq_some_iff] at h
        obtain ⟨first, hfirst, later, hlater, heq⟩ := h
        cases heq
        cases i with
        | zero =>
            cases hc
            exact hfirst
        | succ i => exact ih hlater hc

/-- What a scan line is parsed to. -/
theorem parse_scan {buf : List Char} {c : Command} {n : Int32} (hparse : parseLine buf = some c)
    (hcmd : buf.head? = some 'S') (hlength : lineLength buf = some n) :
    c.cmd = 'S' ∧ c.scanSize = n.toInt16 := by
  simp only [lineLength, bind, Option.bind_eq_some_iff] at hlength
  obtain ⟨keybuf, hkeybuf, hn⟩ := hlength
  simp only [parseLine, bind, hcmd, hkeybuf, hn, Option.bind_some, if_true,
    Option.some.injEq] at hparse
  subst hparse
  exact ⟨rfl, rfl⟩

/-- The first character of the line becomes the command. -/
theorem cmd_of_parse {buf : List Char} {c : Command} (hparse : parseLine buf = some c) :
    buf.head? = some c.cmd := by
  simp only [parseLine, bind, Option.bind_eq_some_iff] at hparse
  obtain ⟨cmd, hcmd, keybuf, _, hrest⟩ := hparse
  split_ifs at hrest
  · obtain ⟨length, _, heq⟩ := Option.bind_eq_some_iff.mp hrest
    cases heq
    exact hcmd
  · cases hrest
    exact hcmd

/-- The narrowing to `short` keeps exactly the values of `short`. -/
theorem toInt16_eq_iff (n : Int32) :
    n.toInt16.toInt = n.toInt ↔ -2 ^ 15 ≤ n.toInt ∧ n.toInt < 2 ^ 15 := by
  rw [Int32.toInt_toInt16]
  constructor
  · intro hsame
    have hlow : -((2 ^ 16 : Nat) / 2 : Int) ≤ n.toInt.bmod (2 ^ 16) :=
      Int.le_bmod (Nat.two_pow_pos 16)
    have hhigh : n.toInt.bmod (2 ^ 16) < ((2 ^ 16 : Nat) + 1) / 2 :=
      Int.bmod_lt (Nat.two_pow_pos 16)
    rw [hsame] at hlow hhigh
    omega
  · intro hrange
    exact Int.bmod_eq_of_le (by omega) (by omega)

section Dispatch

variable {cfg : Config} {q i : Nat} {c : Command}

/-- A scan command is executed as a scan of its length, unless the length is `-1`. -/
theorem kind_of_scan (hcmd : c.cmd = 'S') :
    (request cfg q i c).map AsyncRequest.kind =
      some (if c.scanSize.toInt = -1 then .point else .scan c.scanSize.toInt) := by
  have hput : c.isPut = false := by simp [Command.isPut, hcmd]
  simp [request, hcmd, hput, fillScan, AsyncRequest.kind]

/-- A read command is executed by the worker of its key, as a point query. -/
theorem kind_of_read (hcmd : c.cmd = 'R') :
    (request cfg q i c).map AsyncRequest.kind =
      if cfg.queueOf c.key = q then some .point else none := by
  by_cases hqueue : cfg.queueOf c.key = q
  · simp [request, hcmd, hqueue, fillPoint, AsyncRequest.blank, AsyncRequest.kind]
  · simp [request, hcmd, hqueue]

end Dispatch

/-- In every completed run, a scan line for which `atoi` returns `n` is executed by every worker as
a range scan of `n` keys exactly if `n` is a `short` other than `-1`; a read line is executed by
exactly one worker, as a point query. -/
theorem request_kinds_preserved {cfg : Config} {buf : List Char} {lines : List (List Char)}
    {cmds : List Command} (hread : readTrace cfg.totalNum 0 buf lines = some cmds)
    {init : Nat → Instance} (hfit : (pipeline cfg cmds init).Fits)
    {s : State AsyncRequest Worker}
    (h : (pipeline cfg cmds init).system.Reachable (fun _ _ => True) s)
    (hdone : ∀ q < cfg.queueNum, (s.workers q).pc = .exited) {i : Nat} (hi : i < cmds.length) :
    (∀ n, (bufferAt buf lines i).head? = some 'S' → lineLength (bufferAt buf lines i) = some n →
      ((∀ q < cfg.queueNum, executed (pipeline cfg cmds init) s q i = [.scan n.toInt]) ↔
        -2 ^ 15 ≤ n.toInt ∧ n.toInt < 2 ^ 15 ∧ n.toInt ≠ -1)) ∧
    ((bufferAt buf lines i).head? = some 'R' →
      ∃ q < cfg.queueNum, executed (pipeline cfg cmds init) s q i = [.point] ∧
        ∀ r < cfg.queueNum, r ≠ q → executed (pipeline cfg cmds init) s r i = []) := by
  have hc : cmds[i]? = some cmds[i] := List.getElem?_eq_getElem hi
  have hparse := parse_of_readTrace hread hc
  have hexecuted : ∀ q < cfg.queueNum, executed (pipeline cfg cmds init) s q i =
      ((request cfg q i cmds[i]).map AsyncRequest.kind).toList :=
    fun q hq => executed_eq hfit h hq (hdone q hq) hc
  constructor
  · intro n hcmd hlength
    obtain ⟨hscan, hsize⟩ := parse_scan hparse hcmd hlength
    have hkind : ∀ q < cfg.queueNum, (executed (pipeline cfg cmds init) s q i = [.scan n.toInt] ↔
        n.toInt16.toInt ≠ -1 ∧ n.toInt16.toInt = n.toInt) := by
      intro q hq
      rw [hexecuted q hq, kind_of_scan hscan, hsize]
      generalize n.toInt16.toInt = m
      by_cases hpoint : m = -1 <;> simp [hpoint]
    have hshort := toInt16_eq_iff n
    constructor
    · intro hall
      obtain ⟨hne, hsame⟩ := (hkind 0 cfg.queueNum_pos).mp (hall 0 cfg.queueNum_pos)
      obtain ⟨hlow, hhigh⟩ := hshort.mp hsame
      exact ⟨hlow, hhigh, hsame ▸ hne⟩
    · rintro ⟨hlow, hhigh, hne⟩ q hq
      have hsame := hshort.mpr ⟨hlow, hhigh⟩
      exact (hkind q hq).mpr ⟨hsame.symm ▸ hne, hsame⟩
  · intro hcmd
    have hpoint : cmds[i].cmd = 'R' := by
      rw [cmd_of_parse hparse] at hcmd
      exact Option.some.inj hcmd
    refine ⟨cfg.queueOf cmds[i].key, cfg.queueOf_lt _, ?_, fun r hr hne => ?_⟩
    · rw [hexecuted _ (cfg.queueOf_lt _), kind_of_read hpoint, if_pos rfl]
      rfl
    · rw [hexecuted r hr, kind_of_read hpoint, if_neg (Ne.symm hne)]
      rfl

/-- `SCAN  0` with a length, in a buffer that was empty. -/
def scanLine (length : List Char) : List (List Char) :=
  [['S', 'C', 'A', 'N', ' ', ' ', '0', ' '] ++ length ++ ['\n']]

/-- The dispatcher runs to its end; then the workers empty their queues. -/
def scanLineRun : List (Action Choice) :=
  List.replicate 8 .dispatch ++ taking [(0, 2), (0, 2), (1, 2), (1, 2)]

/-- A scan of length 10 is executed as a scan of length 10 by both workers. -/
theorem request_kinds_preserved_ten :
    let program := pipeline smallConfig [⟨0, 10, 'S'⟩] fun _ => .empty
    readTrace 4 0 [] (scanLine ['1', '0']) = some [⟨0, 10, 'S'⟩] ∧
      ∀ q < 2, executed program (program.system.after scanLineRun) q 0 = [.scan 10] := by
  intro program
  have hread : readTrace smallConfig.totalNum 0 [] (scanLine ['1', '0']) =
      some [⟨0, 10, 'S'⟩] := by decide
  have hreach : program.system.Reachable (fun _ _ => True) (program.system.after scanLineRun) :=
    System.reachable_after_free (by decide)
  have hdone : ∀ q < smallConfig.queueNum,
      ((program.system.after scanLineRun).workers q).pc = .exited := by decide
  have hlaw := request_kinds_preserved hread (by decide) hreach hdone (i := 0) (by decide)
  exact ⟨hread, (hlaw.1 10 (by decide) (by decide)).mpr (by decide)⟩

/-- A scan of 65535 keys becomes a point query of every worker. -/
theorem request_kinds_preserved_sentinel :
    let program := pipeline smallConfig [⟨0, -1, 'S'⟩] fun _ => .empty
    let s := program.system.after scanLineRun
    readTrace smallConfig.totalNum 0 [] (scanLine ['6', '5', '5', '3', '5']) =
        some [⟨0, -1, 'S'⟩] ∧
      lineLength (bufferAt [] (scanLine ['6', '5', '5', '3', '5']) 0) = some 65535 ∧
      program.Fits ∧ program.system.Reachable (fun _ _ => True) s ∧
      (∀ q < smallConfig.queueNum, (s.workers q).pc = .exited) ∧
      ∀ q < smallConfig.queueNum, executed program s q 0 = [.point] := by
  intro program s
  refine ⟨by decide, by decide, by decide, System.reachable_after_free (by decide), by decide,
    by decide⟩

end P2KVS.Ycsb
