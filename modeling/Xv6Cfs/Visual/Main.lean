import Mathlib
import Xv6Cfs.Kernel.Proc

/-!
# The log analyser

`visual.c`: the log is read in pieces while it grows, each piece is cut into tokens,
the records among the tokens are entered into a table, and the table is drawn after
each piece. An index outside an array and a division by zero are faults. The lines
that `draw_chart` prints are its result.

What the scheduler prints into the log is here too.
-/

namespace Xv6Cfs.Visual

def MAX_PROCESSES : Int := 100
def MAX_TIME : Int := 1000
def TIME_SLICE_STEP : Int := 180
def BUFFER_SIZE : Nat := 8192

/-- A record: the process `p` was on a CPU from `start` to `finish`. -/
structure Record where
  p : Int
  start : Int
  finish : Int
  deriving DecidableEq, Repr

/-! ## Reading -/

/-- `strtok` with the delimiters `>`: the tokens, the first of which has begun with `cur`. -/
def tokensFrom (cur : List Char) : List Char → List (List Char)
  | [] => if cur = [] then [] else [cur]
  | c :: s =>
      if c = '>' then
        if cur = [] then tokensFrom [] s else cur :: tokensFrom [] s
      else tokensFrom (cur ++ [c]) s

/-- What is in a buffer, as a string. -/
def cString (buffer : List Char) : List Char := buffer.takeWhile (· ≠ '\x00')

/-- The tokens of a buffer. -/
def tokens (buffer : List Char) : List (List Char) := tokensFrom [] (cString buffer)

/-- `isspace`. -/
def isSpace (c : Char) : Bool :=
  c = ' ' || c = '\t' || c = '\n' || c = '\x0b' || c = '\x0c' || c = '\r'

/-- `sscanf`, a character of the format that stands for itself. -/
def scanChar (c : Char) : List Char → Option (List Char)
  | [] => none
  | d :: s => if d = c then some s else none

/-- `strtol`, the digits. -/
def scanDigits (s : List Char) : Option (Int × List Char) :=
  let digits := s.takeWhile Char.isDigit
  if digits = [] then none
  else some (Nat.ofDigitChars 10 digits 0, s.dropWhile Char.isDigit)

/-- `strtol`, before the range of `long` is looked at. -/
def scanNumber (s : List Char) : Option (Int × List Char) :=
  match s.dropWhile isSpace with
  | '-' :: s => (scanDigits s).map fun x => (-x.1, x.2)
  | '+' :: s => scanDigits s
  | s => scanDigits s

/-- `strtol` gives the nearest `long`, of which `sscanf` stores the lower half in the `int`. -/
def storeInt (i : Int) : Int := int32 (max (-2 ^ 63) (min i (2 ^ 63 - 1)))

/-- `sscanf`, `%d`. -/
def scanInt (s : List Char) : Option (Int × List Char) :=
  (scanNumber s).map fun x => (storeInt x.1, x.2)

/-- `sscanf(token, "{p%d,s%d,e%d}", ..) == 3`. Whether the closing brace is there does not count. -/
def scanRecord (token : List Char) : Option Record := do
  let s ← scanChar '{' token
  let s ← scanChar 'p' s
  let (p, s) ← scanInt s
  let s ← scanChar ',' s
  let s ← scanChar 's' s
  let (start, s) ← scanInt s
  let s ← scanChar ',' s
  let s ← scanChar 'e' s
  let (finish, _) ← scanInt s
  return ⟨p, start, finish⟩

/-- The records of a piece. -/
def decode (buffer : List Char) : List Record := (tokens buffer).filterMap scanRecord

/-- The stream `file`, and `last_read_position`. -/
structure Reader where
  position : Nat
  eof : Bool
  lastReadPosition : Int
  deriving DecidableEq, Repr

/-- The file has been opened. -/
def Reader.init : Reader := ⟨0, false, 0⟩

/-- `fseek(file, last_read_position, SEEK_SET)`: with a negative position it fails, and leaves the
stream as it is. -/
def Reader.seek (s : Reader) : Reader :=
  if 0 ≤ s.lastReadPosition then
    { s with position := s.lastReadPosition.toNat, eof := false }
  else s

/-- `fread`: the next piece of the file, but nothing once its end has been seen. -/
def readBuffer (file : List Char) (s : Reader) : List Char :=
  if s.eof then [] else (file.drop s.position).take (BUFFER_SIZE - 1)

/-- The stream after a poll that has read `buffer`: the end of the file has been seen if there was
less than it wanted. `ftell` gives a `long`, and `last_read_position` is an `int`. -/
def Reader.next (s : Reader) (buffer : List Char) : Reader where
  position := s.position + buffer.length
  eof := buffer.length < BUFFER_SIZE - 1
  lastReadPosition := int32 (s.position + buffer.length : Nat)

/-- The pieces that the polls read; each poll finds the file as it is then. -/
def readPolls (s : Reader) : List (List Char) → List (List Char)
  | [] => []
  | file :: files =>
      let s := s.seek
      let buffer := readBuffer file s
      buffer :: readPolls (s.next buffer) files

/-! ## The table -/

inductive Fault where
  | outOfBounds
  | divByZero
  deriving DecidableEq, Repr

/-- `processDetails[p]`. -/
structure Details where
  start : Int
  last : Int
  burst : Int
  deriving DecidableEq, Repr

/-- What `main` keeps. -/
@[ext] structure Chart where
  active : Int → Int → Bool
  processDetails : Int → Details
  processAvailable : Int → Bool
  maxProcess : Int
  currentTime : Int

/-- What `main` starts with. -/
def Chart.init : Chart where
  active := fun _ _ => false
  processDetails := fun _ => ⟨999999999, 0, 0⟩
  processAvailable := fun _ => false
  maxProcess := 0
  currentTime := 0

/-- An index is within the bound. -/
def checkIndex (bound i : Int) : Except Fault Unit :=
  if 0 ≤ i ∧ i < bound then .ok () else .error .outOfBounds

namespace Chart

variable (s : Chart)

@[simps] def setDetails (p : Int) (d : Details) : Chart :=
  { s with processDetails := Function.update s.processDetails p d }

@[simps] def setAvailable (p : Int) : Chart :=
  { s with processAvailable := Function.update s.processAvailable p true }

@[simps] def setActive (p t : Int) : Chart :=
  { s with active := Function.update s.active p (Function.update (s.active p) t true) }

/-- The highest process and time. -/
@[simps] def raise (p finish : Int) : Chart :=
  { s with
    maxProcess := if p > s.maxProcess then p else s.maxProcess
    currentTime := if finish > s.currentTime then finish else s.currentTime }

end Chart

/-- The body of the loop over the slots of a record. -/
def markSlot (s : Chart) (p start t : Int) : Except Fault Chart := do
  checkIndex MAX_PROCESSES p
  checkIndex MAX_TIME t
  let d := s.processDetails p
  let d := if s.active p t then d else { d with burst := d.burst + 1 }
  let d := { d with last := if d.last < start then start else d.last }
  return (s.setActive p t).setDetails p d

/-- The loop, for `n` slots from `t` on. -/
def markSlots (p start : Int) : Nat → Int → Chart → Except Fault Chart
  | 0, _, s => .ok s
  | n + 1, t, s => do
      let s ← markSlot s p start t
      markSlots p start n (t + 1) s

/-- A record is entered into the table. -/
def enter (s : Chart) (r : Record) : Except Fault Chart := do
  checkIndex MAX_PROCESSES r.p
  let s := s.setAvailable r.p
  let d := s.processDetails r.p
  let s := s.setDetails r.p { d with start := if d.start < r.start then d.start else r.start }
  let s := s.raise r.p r.finish
  -- where this leaves the range of int, the slot is outside the array
  let finish := if r.start = r.finish then r.finish + 1 else r.finish
  markSlots r.p r.start (finish - r.start).toNat r.start s

/-- The records are entered in turn. -/
def enterAll (s : Chart) (rs : List Record) : Except Fault Chart := rs.foldlM enter s

/-! ## Drawing -/

/-- The waiting time that `draw_chart` prints. -/
def waitingTime (d : Details) : Int :=
  let processWaitingTime := d.last - d.start - d.burst
  if processWaitingTime > 0 then processWaitingTime else 0

/-- `from, from + 1, …, to`. -/
def span (a b : Int) : List Int := (List.range (b + 1 - a).toNat).map fun i : Nat => a + i

/-- The line of a process. -/
structure Line where
  p : Int
  slots : List Bool
  deriving DecidableEq, Repr

/-- The statistics of a process. -/
structure Stat where
  p : Int
  turnaround : Int
  waiting : Int
  deriving DecidableEq, Repr

/-- What is printed. -/
structure Drawing where
  lines : List Line
  stats : List Stat
  average : Int
  deriving DecidableEq, Repr

/-- The line of `p`, if it has been seen. -/
def drawLine (s : Chart) (startTime endTime p : Int) : Except Fault (List Line) := do
  checkIndex MAX_PROCESSES p
  if s.processAvailable p then
    let slots ← (span startTime endTime).mapM fun t => do
      checkIndex MAX_TIME t
      return s.active p t
    return [⟨p, slots⟩]
  else
    return []

/-- The statistics of `p`, if it has been seen. -/
def drawStat (s : Chart) (p : Int) : Except Fault (List Stat) := do
  checkIndex MAX_PROCESSES p
  if s.processAvailable p then
    let d := s.processDetails p
    return [⟨p, d.last - d.start, waitingTime d⟩]
  else
    return []

/-- `draw_chart`. -/
def drawChart (s : Chart) (startTime endTime : Int) : Except Fault Drawing := do
  let lines ← (span 0 s.maxProcess).mapM (drawLine s startTime endTime)
  let stats ← (span 0 s.maxProcess).mapM (drawStat s)
  let stats := stats.flatten
  let avgWaitingTime := (stats.map Stat.waiting).sum
  let num : Int := stats.length
  if num = 0 then .error .divByZero
  else return ⟨lines.flatten, stats, avgWaitingTime.tdiv num⟩

/-- One round of the loop of `main`, after the read. -/
def round (s : Chart) (buffer : List Char) : Except Fault (Chart × Drawing) := do
  let s ← enterAll s (decode buffer)
  let startTime := if s.currentTime > TIME_SLICE_STEP then s.currentTime - TIME_SLICE_STEP else 0
  let drawing ← drawChart s startTime s.currentTime
  return (s, drawing)

/-- The rounds. -/
def rounds (s : Chart) : List (List Char) → Except Fault Chart
  | [] => .ok s
  | buffer :: buffers => do
      let (s, _) ← round s buffer
      rounds s buffers

/-- `main`, for as many polls as there are in `files`. -/
def main (files : List (List Char)) : Except Fault Chart :=
  rounds Chart.init (readPolls .init files)

/-! ## The log -/

/-- A number, as `printf` prints it with `%d`. -/
def printInt (i : Int) : List Char :=
  if i < 0 then '-' :: Nat.toDigits 10 i.natAbs else Nat.toDigits 10 i.natAbs

/-- The part of a printed record that `sscanf` needs. -/
def body (r : Record) : List Char :=
  ['{', 'p'] ++ printInt r.p ++ [',', 's'] ++ printInt r.start ++ [',', 'e'] ++ printInt r.finish

/-- `scheduler`: `printf(">>{p%d,s%d,e%d}", p->pid, startTick, endTick)`. -/
def printRecord (r : Record) : List Char := ['>', '>'] ++ body r ++ ['}']

/-- A part of the log: a record, or what else is printed on the console. -/
inductive Segment where
  | record (r : Record)
  | text (x : List Char)
  deriving DecidableEq, Repr

def Segment.bytes : Segment → List Char
  | .record r => printRecord r
  | .text x => x

/-- The log. -/
def bytes (log : List Segment) : List Char := log.flatMap Segment.bytes

def Segment.record? : Segment → Option Record
  | .record r => some r
  | .text _ => none

/-- The records in the log. -/
def records (log : List Segment) : List Record := log.filterMap Segment.record?

end Xv6Cfs.Visual
