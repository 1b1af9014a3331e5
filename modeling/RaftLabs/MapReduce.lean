import RaftLabs.KeyGroups
import RaftLabs.MapSpec
import RaftLabs.TransitionSystem

/-!
# MapReduce

The coordinator, its workers and the files they leave for each other, and the
sequential program that does the same job alone.

A worker may stop between any two of its steps and may be as slow as it likes; the
coordinator gives a task to somebody else when its time is up, so that a task may be
done several times, also at the same time.  A file that is renamed appears as a
whole; one that is being written has a name of its own for every process.  A file
that was opened is read as it was then, since renaming puts another file in its place.

There is one directory, in which a name stands for at most one file and no two names for
the same: the input files are opened in it when a map task begins, and the files of the
job are written to it.
`encoding/json` is a parameter.
-/

namespace RaftLabs.MR

open KeyGroups

/-! ### The job -/

/-- A `Key` and its `Value`. -/
abbrev KeyValue := Str × Str

/-- FNV-1a of 32 bits, without the highest bit. -/
def ihash (key : Str) : Nat :=
  let sum := key.foldl (fun (h : UInt32) b => (h ^^^ b.toUInt32) * 16777619) 2166136261
  (sum &&& 0x7fffffff).toNat

/-- The format `"%v %v\n"`. -/
def line (key output : Str) : Str := key ++ [32] ++ output ++ [10]

/-- `encoding/json`: what `Encode` writes for a pair, and the pairs that `Decode` gives
    before its first error. -/
structure Json where
  encode : KeyValue → Str
  decode : Str → List KeyValue

/-- What the program is started with: the plugin, the names of the input files and the
    number of reduce tasks. -/
structure Job where
  json : Json
  mapf : Str → Str → List KeyValue
  reducef : Str → List Str → Str
  files : List Str
  nReduce : Nat

/-- `sort.Sort` by key, which is not stable. -/
def Sorts (intermediate sorted : List KeyValue) : Prop :=
  sorted.Perm intermediate ∧ sorted.Pairwise fun x y => x.1 ≤ y.1

instance (intermediate sorted : List KeyValue) : Decidable (Sorts intermediate sorted) :=
  inferInstanceAs (Decidable (_ ∧ _))

/-- The loop over the sorted pairs: one line for each run of equal keys. -/
def reduceLoop (reducef : Str → List Str → Str) (intermediate : List KeyValue) : List Str :=
  (runs intermediate).map fun run => line run.1 (reducef run.1 run.2)

/-! ### Files -/

/-- The files that can be read, by name. -/
abbrev Files := Str → Option Str

def ascii (text : List Char) : Str := text.map fun c => UInt8.ofNat c.toNat

/-- The files that the job writes; temporary files have the number of their process in
    their names. -/
inductive JobFile where
  | intermediate (m r : Nat)
  | out (r : Nat)
  | mapTmp (pid m r : Nat)
  | outTmp (pid r : Nat)
deriving DecidableEq

namespace JobFile

/-- `mr-%d-%d`, `mr-out-%d`, `.mr-map-tmp-%d-%d-%d` and `.mr-out-tmp-%d-%d`. -/
def text : JobFile → List Char
  | .intermediate m r => ['m', 'r', '-'] ++ Nat.toDigits 10 m ++ '-' :: Nat.toDigits 10 r
  | .out r => ['m', 'r', '-', 'o', 'u', 't', '-'] ++ Nat.toDigits 10 r
  | .mapTmp pid m r => ['.', 'm', 'r', '-', 'm', 'a', 'p', '-', 't', 'm', 'p', '-'] ++
      Nat.toDigits 10 pid ++ '-' :: (Nat.toDigits 10 m ++ '-' :: Nat.toDigits 10 r)
  | .outTmp pid r => ['.', 'm', 'r', '-', 'o', 'u', 't', '-', 't', 'm', 'p', '-'] ++
      Nat.toDigits 10 pid ++ '-' :: Nat.toDigits 10 r

def name (f : JobFile) : Str := ascii f.text

end JobFile

namespace Files

def read (fs : Files) (f : JobFile) : Option Str := fs f.name

def write (fs : Files) (f : JobFile) (content : Option Str) : Files :=
  Function.update fs f.name content

end Files

/-- The lines of a text, each with its newline; text after the last newline is a line
    too. -/
def linesOf : Str → List Str
  | [] => []
  | b :: rest =>
    if b = 10 then [b] :: linesOf rest
    else
      match linesOf rest with
      | [] => [[b]]
      | l :: lines => (b :: l) :: lines

/-! ### The sequential program -/

/-- The output of all maps, if all files can be read. -/
def Job.intermediate (j : Job) (fs : Files) : Option (List KeyValue) :=
  j.files.foldlM (fun acc filename => do
    let content ← fs filename
    some (acc ++ j.mapf filename content)) []

/-- `mrsequential`, run in the directory `fs`, writes this text. -/
def Job.Sequential (j : Job) (fs : Files) (text : Str) : Prop :=
  ∃ intermediate sorted, j.intermediate fs = some intermediate ∧ Sorts intermediate sorted ∧
    text = (reduceLoop j.reducef sorted).flatten

/-! ### The coordinator -/

inductive TaskState where
  | idle
  | inProgress
  | done
deriving DecidableEq

/-- In nanoseconds. -/
def taskTimeout : Nat := 10 * 1000000000

structure TaskInfo where
  state : TaskState
  startTime : Nat

inductive TaskType where
  | none
  | map
  | reduce
  | exit
deriving DecidableEq

structure RequestTaskReply where
  type : TaskType
  taskId : Nat
  file : Str
  nMap : Nat
  nReduce : Nat

structure Coordinator where
  files : List Str
  nMap : Nat
  nReduce : Nat
  mapTasks : List TaskInfo
  reduceTasks : List TaskInfo
  mapDone : Nat
  reduceDone : Nat

/-- Whether a task may be given out. -/
def TaskInfo.available (now : Nat) (t : TaskInfo) : Bool :=
  t.state = .idle ∨ t.state = .inProgress ∧ taskTimeout < now - t.startTime

/-- The first task that may be given out, and the tasks after that. -/
def issue (now : Nat) (tasks : List TaskInfo) : Option (Nat × List TaskInfo) :=
  (tasks.findIdx? (TaskInfo.available now)).map fun i =>
    (i, tasks.set i { state := .inProgress, startTime := now })

namespace Coordinator

def make (files : List Str) (nReduce : Nat) : Coordinator where
  files := files
  nMap := files.length
  nReduce := nReduce
  mapTasks := List.replicate files.length { state := .idle, startTime := 0 }
  reduceTasks := List.replicate nReduce { state := .idle, startTime := 0 }
  mapDone := 0
  reduceDone := 0

def requestTask (c : Coordinator) (now : Nat) : Coordinator × RequestTaskReply :=
  if c.mapDone < c.nMap then
    match issue now c.mapTasks with
    | some (i, mapTasks) =>
      ({ c with mapTasks := mapTasks },
        { type := .map, taskId := i, file := (c.files[i]?).getD [], nMap := c.nMap,
          nReduce := c.nReduce })
    | none => (c, { type := .none, taskId := 0, file := [], nMap := 0, nReduce := 0 })
  else if c.reduceDone < c.nReduce then
    match issue now c.reduceTasks with
    | some (i, reduceTasks) =>
      ({ c with reduceTasks := reduceTasks },
        { type := .reduce, taskId := i, file := [], nMap := c.nMap, nReduce := c.nReduce })
    | none => (c, { type := .none, taskId := 0, file := [], nMap := 0, nReduce := 0 })
  else (c, { type := .exit, taskId := 0, file := [], nMap := 0, nReduce := 0 })

/-- Marks a task as done; the flag says that it was not done before.  There is no
    result for a task that does not exist, which would be a panic. -/
def complete (tasks : List TaskInfo) (id : Nat) : Option (List TaskInfo × Bool) :=
  (tasks[id]?).map fun t =>
    if t.state ≠ .done then (tasks.set id { t with state := .done }, true) else (tasks, false)

def reportTask (c : Coordinator) (type : TaskType) (id : Nat) : Option Coordinator :=
  match type with
  | .map => (complete c.mapTasks id).map fun (tasks, new) =>
      { c with mapTasks := tasks, mapDone := if new then c.mapDone + 1 else c.mapDone }
  | .reduce => (complete c.reduceTasks id).map fun (tasks, new) =>
      { c with reduceTasks := tasks, reduceDone := if new then c.reduceDone + 1 else c.reduceDone }
  | .none => some c
  | .exit => some c

def done (c : Coordinator) : Bool := c.reduceDone = c.nReduce

end Coordinator

/-! ### The workers -/

/-- `doMap` divides what the map function gives by the hash of the keys. -/
def partition (nReduce : Nat) (kva : List KeyValue) : List (List KeyValue) :=
  kva.foldl (fun buckets kv => buckets.modify (ihash kv.1 % nReduce) (· ++ [kv]))
    (List.replicate nReduce [])

/-- Where a worker is. -/
inductive Phase where
  /-- Before `requestTask`. -/
  | idle
  /-- At the beginning of `doMap`, before the input file is opened. -/
  | assigned (reply : RequestTaskReply)
  /-- In the loop of `doMap`, at bucket `r`; while the temporary file is open, with the
      pairs that are still to be written. -/
  | mapping (reply : RequestTaskReply) (buckets : List (List KeyValue)) (r : Nat)
      (todo : Option (List KeyValue))
  /-- In the first loop of `doReduce`, before the file of map task `m`. -/
  | reading (reply : RequestTaskReply) (m : Nat) (intermediate : List KeyValue)
  /-- In the second loop of `doReduce`, with the lines that are still to be printed. -/
  | printing (reply : RequestTaskReply) (todo : List Str)
  /-- Before `reportTask`. -/
  | reporting (type : TaskType) (id : Nat)
  | stopped

structure State where
  coordinator : Coordinator
  now : Nat
  workers : Nat → Phase
  files : Files

inductive Action where
  | tick (d : Nat)
  /-- A process begins. -/
  | start (w : Nat)
  /-- A process ends, wherever it is. -/
  | crash (w : Nat)
  | request (w : Nat)
  /-- `doMap` opens and reads its input file and runs the map function. -/
  | load (w : Nat)
  /-- The head of the loop of `doMap`: the temporary file is created, or the loop ends. -/
  | create (w : Nat)
  | encode (w : Nat)
  | rename (w : Nat)
  | read (w : Nat)
  /-- `doReduce` sorts what it has read and creates the temporary file. -/
  | sort (w : Nat) (sorted : List KeyValue)
  | print (w : Nat)
  | publish (w : Nat)
  /-- The report may be lost. -/
  | report (w : Nat) (delivered : Bool)

/-- All the lines of `mr-out-0` to `mr-out-(nReduce-1)`. -/
def Files.output (fs : Files) (nReduce : Nat) : Option (List Str) :=
  (List.range nReduce).foldlM (fun acc r => (fs.read (.out r)).map (acc ++ linesOf ·)) []

namespace State

/-- Worker `w` goes on to `phase`. -/
def setWorker (s : State) (w : Nat) (phase : Phase) : State :=
  { s with workers := Function.update s.workers w phase }

/-- Worker `w` changes files and goes on to `phase`. -/
def work (s : State) (w : Nat) (files : Files) (phase : Phase) : State :=
  { s with files := files, workers := Function.update s.workers w phase }

def step (j : Job) (s : State) : Action → Option State
  | .tick d => some { s with now := s.now + d }
  | .start w =>
    match s.workers w with
    | .stopped => some (s.work w s.files .idle)
    | _ => none
  | .crash w => some (s.work w s.files .stopped)
  | .request w =>
    match s.workers w with
    | .idle =>
      let (coordinator, reply) := s.coordinator.requestTask s.now
      let s := { s with coordinator := coordinator }
      match reply.type with
      | .map => some (s.setWorker w (.assigned reply))
      | .reduce => some (s.setWorker w (.reading reply 0 []))
      | .none => some s
      | .exit => some (s.setWorker w .stopped)
    | _ => none
  | .load w =>
    match s.workers w with
    | .assigned reply =>
      match s.files reply.file with
      | some content => some (s.work w s.files (.mapping reply
          (partition reply.nReduce (j.mapf reply.file content)) 0 none))
      | none => some (s.work w s.files .stopped) -- `log.Fatalf`
    | _ => none
  | .create w =>
    match s.workers w with
    | .mapping reply buckets r none =>
      if r < reply.nReduce then
        some (s.work w (s.files.write (.mapTmp w reply.taskId r) (some []))
          (.mapping reply buckets r (some ((buckets[r]?).getD []))))
      else some (s.work w s.files (.reporting .map reply.taskId))
    | _ => none
  | .encode w =>
    match s.workers w with
    | .mapping reply buckets r (some (kv :: todo)) =>
      let written := (s.files.read (.mapTmp w reply.taskId r)).map (· ++ j.json.encode kv)
      some (s.work w (s.files.write (.mapTmp w reply.taskId r) written)
        (.mapping reply buckets r (some todo)))
    | _ => none
  | .rename w =>
    match s.workers w with
    | .mapping reply buckets r (some []) =>
      let content := s.files.read (.mapTmp w reply.taskId r)
      let files := s.files.write (.intermediate reply.taskId r) content
      some (s.work w (files.write (.mapTmp w reply.taskId r) none)
        (.mapping reply buckets (r + 1) none))
    | _ => none
  | .read w =>
    match s.workers w with
    | .reading reply m intermediate =>
      if m < reply.nMap then -- a missing file is skipped
        let kvs := ((s.files.read (.intermediate m reply.taskId)).map j.json.decode).getD []
        some (s.work w s.files (.reading reply (m + 1) (intermediate ++ kvs)))
      else none
    | _ => none
  | .sort w sorted =>
    match s.workers w with
    | .reading reply m intermediate =>
      if m < reply.nMap then none
      else if Sorts intermediate sorted then
        some (s.work w (s.files.write (.outTmp w reply.taskId) (some []))
          (.printing reply (reduceLoop j.reducef sorted)))
      else none
    | _ => none
  | .print w =>
    match s.workers w with
    | .printing reply (l :: todo) =>
      let written := (s.files.read (.outTmp w reply.taskId)).map (· ++ l)
      some (s.work w (s.files.write (.outTmp w reply.taskId) written) (.printing reply todo))
    | _ => none
  | .publish w =>
    match s.workers w with
    | .printing reply [] =>
      let files := s.files.write (.out reply.taskId) (s.files.read (.outTmp w reply.taskId))
      some (s.work w (files.write (.outTmp w reply.taskId) none)
        (.reporting .reduce reply.taskId))
    | _ => none
  | .report w delivered =>
    match s.workers w with
    | .reporting type id =>
      if delivered then do
        let coordinator ← s.coordinator.reportTask type id
        some ({ s with coordinator := coordinator }.setWorker w .idle)
      else some (s.work w s.files .idle)
    | _ => none

end State

/-- The job, started in the directory `fs`. -/
def mapReduce (j : Job) (fs : Files) : System State Action where
  init :=
    { coordinator := .make j.files j.nReduce
      now := 0
      workers := fun _ => .stopped
      files := fs }
  step := State.step j

end RaftLabs.MR
