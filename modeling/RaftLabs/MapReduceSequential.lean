import RaftLabs.MapReduceSpec

/-!
# MapReduce does what the sequential program does

Every file that a worker renames into place holds the right records, whoever did the
task and how often it was done.  A reduce task is given out only when every map task
has been reported, and then all intermediate files are there; they may be replaced
later, but by the same records.  So every output file that is there for a task that was
reported has one line for each key of its bucket, with all the values of the key.

This is so as long as no input file has the name of a file that the job writes.
Otherwise a map task may read what another task has put in the place of its input.
-/

namespace RaftLabs.MR

open KeyGroups

variable {j : Job} {dir fs fs' : Files} {w m r : Nat}

/-! ### What the files should hold -/

namespace Job

/-- The files that this job writes, with whatever numbers its processes have. -/
def Writes (j : Job) : JobFile → Prop
  | .intermediate m r => m < j.files.length ∧ r < j.nReduce
  | .out r => r < j.nReduce
  | .mapTmp _ m r => m < j.files.length ∧ r < j.nReduce
  | .outTmp _ r => r < j.nReduce

/-- No input file has the name of a file that the job writes. -/
def Separate (j : Job) : Prop := ∀ filename ∈ j.files, ∀ f, j.Writes f → filename ≠ f.name

/-- `Decode` inverts `Encode` on what the map function emits. -/
def Inverts (j : Job) : Prop := ∀ filename content kvs,
  kvs.Sublist (j.mapf filename content) → j.json.decode (kvs.flatMap j.json.encode) = kvs

/-- What map task `m` emits, if its file can be read in the directory `dir`. -/
def emitted (j : Job) (dir : Files) (m : Nat) : Option (List KeyValue) := do
  let filename ← j.files[m]?
  let content ← dir filename
  some (j.mapf filename content)

/-- What the first `m` map tasks emit for reduce task `r`. -/
def gathered (j : Job) (dir : Files) (m r : Nat) : List KeyValue :=
  (List.range m).flatMap fun k => bucket j.nReduce r ((j.emitted dir k).getD [])

/-- All input files can be read. -/
def Readable (j : Job) (dir : Files) : Prop :=
  ∀ m < j.files.length, ∃ kva, j.emitted dir m = some kva

theorem gathered_succ (j : Job) (dir : Files) (m r : Nat) :
    j.gathered dir (m + 1) r =
      j.gathered dir m r ++ bucket j.nReduce r ((j.emitted dir m).getD []) := by
  simp [gathered, List.range_succ]

theorem emitted_eq {reply : RequestTaskReply} {content : Str}
    (hfile : j.files[reply.taskId]? = some reply.file) (hcontent : dir reply.file = some content) :
    j.emitted dir reply.taskId = some (j.mapf reply.file content) := by
  simp [emitted, hfile, hcontent]

/-- The pairs of a bucket can be read back. -/
theorem Inverts.decode_bucket (h : j.Inverts) {kva : List KeyValue}
    (hkva : j.emitted dir m = some kva) (r : Nat) :
    j.json.decode ((bucket j.nReduce r kva).flatMap j.json.encode) = bucket j.nReduce r kva := by
  simp only [emitted, Option.bind_eq_bind, Option.bind_eq_some_iff, Option.some.injEq] at hkva
  obtain ⟨filename, -, content, -, rfl⟩ := hkva
  exact h filename content _ List.filter_sublist

end Job

/-- `mr-m-r` is there and right. -/
def MapOut (j : Job) (dir fs : Files) (m r : Nat) : Prop :=
  ∃ kva, j.emitted dir m = some kva ∧
    fs.read (.intermediate m r) = some ((bucket j.nReduce r kva).flatMap j.json.encode)

/-- `mr-out-r` is there and right. -/
def ReduceOut (j : Job) (dir fs : Files) (r : Nat) : Prop :=
  j.Readable dir ∧ ∃ sorted, Sorts (j.gathered dir j.files.length r) sorted ∧
    fs.read (.out r) = some (reduceLoop j.reducef sorted).flatten

/-- All intermediate files are there and right. -/
def AllMapped (j : Job) (dir fs : Files) : Prop :=
  ∀ m < j.files.length, ∀ r < j.nReduce, MapOut j dir fs m r

theorem AllMapped.readable (h : AllMapped j dir fs) (hr : r < j.nReduce) : j.Readable dir := by
  intro m hm
  obtain ⟨kva, hkva, -⟩ := h m hm r hr
  exact ⟨kva, hkva⟩

/-! ### The invariant -/

/-- What holds of worker `w`, wherever it is. -/
def WorkerOk (j : Job) (dir fs : Files) (w : Nat) : Phase → Prop
  | .idle => True
  | .stopped => True
  | .assigned reply =>
    j.files[reply.taskId]? = some reply.file ∧ reply.nReduce = j.nReduce
  | .mapping reply buckets r todo =>
    reply.taskId < j.files.length ∧ reply.nReduce = j.nReduce ∧
    (∃ kva, j.emitted dir reply.taskId = some kva ∧ buckets = partition j.nReduce kva) ∧
    (∀ k < r, k < j.nReduce → MapOut j dir fs reply.taskId k) ∧
    ∀ rest, todo = some rest → r < j.nReduce ∧ ∃ written,
      fs.read (.mapTmp w reply.taskId r) = some (written.flatMap j.json.encode) ∧
        buckets[r]? = some (written ++ rest)
  | .reading reply m intermediate =>
    reply.taskId < j.nReduce ∧ reply.nMap = j.files.length ∧ AllMapped j dir fs ∧
      m ≤ j.files.length ∧ intermediate = j.gathered dir m reply.taskId
  | .printing reply todo =>
    reply.taskId < j.nReduce ∧ j.Readable dir ∧ ∃ written sorted,
      fs.read (.outTmp w reply.taskId) = some (List.flatten written) ∧
      Sorts (j.gathered dir j.files.length reply.taskId) sorted ∧
      written ++ todo = reduceLoop j.reducef sorted
  | .reporting .map id => id < j.files.length ∧ ∀ r < j.nReduce, MapOut j dir fs id r
  | .reporting .reduce id => id < j.nReduce ∧ ReduceOut j dir fs id
  | .reporting .none _ => False
  | .reporting .exit _ => False

/-- The coordinator counts what is done. -/
structure CoordinatorOk (j : Job) (c : Coordinator) : Prop where
  files : c.files = j.files
  nMap : c.nMap = j.files.length
  nReduce : c.nReduce = j.nReduce
  mapTasks : c.mapTasks.length = j.files.length
  reduceTasks : c.reduceTasks.length = j.nReduce
  mapDone : c.mapDone = doneCount c.mapTasks
  reduceDone : c.reduceDone = doneCount c.reduceTasks

structure JobInv (j : Job) (dir : Files) (s : State) : Prop where
  coordinator : CoordinatorOk j s.coordinator
  inputs : ∀ filename ∈ j.files, s.files filename = dir filename
  mapped : ∀ m, Done s.coordinator.mapTasks m → ∀ r < j.nReduce, MapOut j dir s.files m r
  reduced : ∀ r, Done s.coordinator.reduceTasks r → ReduceOut j dir s.files r
  workers : ∀ w, WorkerOk j dir s.files w (s.workers w)

/-- What a change of files keeps: input files stay as they are, and a right file stays
    right. -/
structure Keeps (j : Job) (dir fs fs' : Files) : Prop where
  inputs : ∀ filename ∈ j.files, fs' filename = fs filename
  mapOut : ∀ m r, MapOut j dir fs m r → MapOut j dir fs' m r
  reduceOut : ∀ r, ReduceOut j dir fs r → ReduceOut j dir fs' r

theorem Keeps.refl : Keeps j dir fs fs where
  inputs _ _ := rfl
  mapOut _ _ h := h
  reduceOut _ h := h

theorem Keeps.trans {fs'' : Files} (h : Keeps j dir fs fs') (h' : Keeps j dir fs' fs'') :
    Keeps j dir fs fs'' where
  inputs filename hmem := (h'.inputs filename hmem).trans (h.inputs filename hmem)
  mapOut m r hok := h'.mapOut m r (h.mapOut m r hok)
  reduceOut r hok := h'.reduceOut r (h.reduceOut r hok)

/-- A file of the job is written, and is right if it is one that others read. -/
theorem keeps_write (hseparate : j.Separate) {f : JobFile} (hwrites : j.Writes f)
    {content : Option Str}
    (hmap : ∀ m r, f = .intermediate m r → MapOut j dir (fs.write f content) m r)
    (hreduce : ∀ r, f = .out r → ReduceOut j dir (fs.write f content) r) :
    Keeps j dir fs (fs.write f content) where
  inputs filename hmem := Files.write_of_ne (hseparate filename hmem f hwrites)
  mapOut m r h := by
    by_cases heq : f = .intermediate m r
    · exact hmap m r heq
    · obtain ⟨kva, hkva, hfile⟩ := h
      exact ⟨kva, hkva, (Files.read_write_of_ne (Ne.symm heq)).trans hfile⟩
  reduceOut r h := by
    by_cases heq : f = .out r
    · exact hreduce r heq
    · obtain ⟨hreadable, sorted, hsorts, hfile⟩ := h
      exact ⟨hreadable, sorted, hsorts, (Files.read_write_of_ne (Ne.symm heq)).trans hfile⟩

theorem keeps_write_mapTmp (hseparate : j.Separate) (hm : m < j.files.length) (hr : r < j.nReduce)
    (content : Option Str) : Keeps j dir fs (fs.write (.mapTmp w m r) content) :=
  keeps_write hseparate (f := .mapTmp w m r) ⟨hm, hr⟩ (by simp) (by simp)

theorem keeps_write_outTmp (hseparate : j.Separate) (hr : r < j.nReduce) (content : Option Str) :
    Keeps j dir fs (fs.write (.outTmp w r) content) :=
  keeps_write hseparate (f := .outTmp w r) hr (by simp) (by simp)

/-- The temporary files of worker `w` are the same. -/
def SameTmp (w : Nat) (fs fs' : Files) : Prop :=
  (∀ m r, fs'.read (.mapTmp w m r) = fs.read (.mapTmp w m r)) ∧
    ∀ r, fs'.read (.outTmp w r) = fs.read (.outTmp w r)

theorem sameTmp_write {f : JobFile} (hmap : ∀ m r, .mapTmp w m r ≠ f)
    (hout : ∀ r, .outTmp w r ≠ f) (content : Option Str) : SameTmp w fs (fs.write f content) :=
  ⟨fun m r => Files.read_write_of_ne (hmap m r), fun r => Files.read_write_of_ne (hout r)⟩

theorem SameTmp.trans {fs'' : Files} (h : SameTmp w fs fs') (h' : SameTmp w fs' fs'') :
    SameTmp w fs fs'' :=
  ⟨fun m r => (h'.1 m r).trans (h.1 m r), fun r => (h'.2 r).trans (h.2 r)⟩

theorem WorkerOk.keeps (hkeeps : Keeps j dir fs fs') (hsame : SameTmp w fs fs') {phase : Phase}
    (h : WorkerOk j dir fs w phase) : WorkerOk j dir fs' w phase := by
  cases phase with
  | idle => trivial
  | stopped => trivial
  | assigned reply => exact h
  | mapping reply buckets r todo =>
    obtain ⟨hid, hn, hbuckets, hout, htmp⟩ := h
    refine ⟨hid, hn, hbuckets, fun k hk hkn => hkeeps.mapOut _ _ (hout k hk hkn), ?_⟩
    rw [hsame.1]
    exact htmp
  | reading reply m intermediate =>
    obtain ⟨hid, hn, hmapped, hm, hintermediate⟩ := h
    exact ⟨hid, hn, fun m hm r hr => hkeeps.mapOut _ _ (hmapped m hm r hr), hm, hintermediate⟩
  | printing reply todo =>
    obtain ⟨hid, hreadable, written, sorted, hwritten, hsorted⟩ := h
    exact ⟨hid, hreadable, written, sorted, (hsame.2 _).trans hwritten, hsorted⟩
  | reporting type id =>
    cases type with
    | map => exact ⟨h.1, fun r hr => hkeeps.mapOut _ _ (h.2 r hr)⟩
    | reduce => exact ⟨h.1, hkeeps.reduceOut _ h.2⟩
    | none => exact h
    | exit => exact h

/-! ### Steps of the workers -/

section Steps

variable (hseparate : j.Separate)
include hseparate

/-- An intermediate file is renamed into place. -/
theorem WorkerOk.renamed {reply : RequestTaskReply} {buckets : List (List KeyValue)}
    (hok : WorkerOk j dir fs w (.mapping reply buckets r (some []))) :
    Keeps j dir fs ((fs.write (.intermediate reply.taskId r)
        (fs.read (.mapTmp w reply.taskId r))).write (.mapTmp w reply.taskId r) none) ∧
      WorkerOk j dir ((fs.write (.intermediate reply.taskId r)
        (fs.read (.mapTmp w reply.taskId r))).write (.mapTmp w reply.taskId r) none) w
        (.mapping reply buckets (r + 1) none) := by
  obtain ⟨hid, hn, ⟨kva, hkva, rfl⟩, hout, htmp⟩ := hok
  obtain ⟨hr, written, hwritten, hbucket⟩ := htmp _ rfl
  rw [List.append_nil, partition_getElem? hr, Option.some.injEq] at hbucket
  have hnew : MapOut j dir (fs.write (.intermediate reply.taskId r)
      (fs.read (.mapTmp w reply.taskId r))) reply.taskId r :=
    ⟨kva, hkva, by rw [Files.read_write_self, hwritten, hbucket]⟩
  have hplaced : Keeps j dir fs (fs.write (.intermediate reply.taskId r)
      (fs.read (.mapTmp w reply.taskId r))) := by
    refine keeps_write hseparate (f := .intermediate reply.taskId r) ⟨hid, hr⟩ ?_ (by simp)
    intro m r heq
    cases heq
    exact hnew
  have hkeeps := hplaced.trans (keeps_write_mapTmp (w := w) hseparate hid hr none)
  refine ⟨hkeeps, hid, hn, ⟨kva, hkva, rfl⟩, ?_, by simp⟩
  intro k hk hkn
  rcases Nat.lt_or_eq_of_le (Nat.le_of_lt_succ hk) with hlt | rfl
  · exact hkeeps.mapOut _ _ (hout k hlt hkn)
  · exact (keeps_write_mapTmp hseparate hid hr none).mapOut _ _ hnew

/-- An output file is renamed into place. -/
theorem WorkerOk.published {reply : RequestTaskReply}
    (hok : WorkerOk j dir fs w (.printing reply [])) :
    Keeps j dir fs ((fs.write (.out reply.taskId)
        (fs.read (.outTmp w reply.taskId))).write (.outTmp w reply.taskId) none) ∧
      WorkerOk j dir ((fs.write (.out reply.taskId)
        (fs.read (.outTmp w reply.taskId))).write (.outTmp w reply.taskId) none) w
        (.reporting .reduce reply.taskId) := by
  obtain ⟨hid, hreadable, written, sorted, hwritten, hsorts, hlines⟩ := hok
  rw [List.append_nil] at hlines
  have hnew : ReduceOut j dir (fs.write (.out reply.taskId)
      (fs.read (.outTmp w reply.taskId))) reply.taskId :=
    ⟨hreadable, sorted, hsorts, by rw [Files.read_write_self, hwritten, hlines]⟩
  have hplaced : Keeps j dir fs (fs.write (.out reply.taskId)
      (fs.read (.outTmp w reply.taskId))) := by
    refine keeps_write hseparate (f := .out reply.taskId) hid (by simp) ?_
    intro r heq
    cases heq
    exact hnew
  have hkeeps := hplaced.trans (keeps_write_outTmp (w := w) hseparate hid none)
  exact ⟨hkeeps, hid, (keeps_write_outTmp hseparate hid none).reduceOut _ hnew⟩

/-- A step of a worker leaves the files right. -/
theorem Works.workerOk (hinverts : j.Inverts)
    (hinputs : ∀ filename ∈ j.files, fs filename = dir filename) {phase phase' : Phase}
    (h : Works j fs w phase fs' phase') (hok : WorkerOk j dir fs w phase) :
    Keeps j dir fs fs' ∧ WorkerOk j dir fs' w phase' := by
  cases h with
  | started => exact ⟨.refl, trivial⟩
  | crashed => exact ⟨.refl, trivial⟩
  | loaded reply content eq =>
    obtain ⟨hfile, hn⟩ := hok
    rw [hinputs _ (List.mem_of_getElem? hfile)] at eq
    refine ⟨.refl, (List.getElem?_eq_some_iff.mp hfile).1, hn,
      ⟨_, Job.emitted_eq hfile eq, by rw [hn]⟩, fun k hk => absurd hk (Nat.not_lt_zero k), by simp⟩
  | created reply buckets r lt =>
    obtain ⟨hid, hn, hbuckets, hout, -⟩ := hok
    rw [hn] at lt
    have hkeeps : Keeps j dir fs (fs.write (.mapTmp w reply.taskId r) (some [])) :=
      keeps_write_mapTmp hseparate hid lt _
    refine ⟨hkeeps, hid, hn, hbuckets, fun k hk hkn => hkeeps.mapOut _ _ (hout k hk hkn), ?_⟩
    rintro rest heq
    cases heq
    obtain ⟨kva, -, rfl⟩ := hbuckets
    refine ⟨lt, [], Files.read_write_self, ?_⟩
    rw [partition_getElem? lt]
    rfl
  | mapped reply buckets r ge =>
    obtain ⟨hid, hn, -, hout, -⟩ := hok
    exact ⟨.refl, hid, fun k hk => hout k (by omega) hk⟩
  | encoded reply buckets r kv todo =>
    obtain ⟨hid, hn, hbuckets, hout, htmp⟩ := hok
    obtain ⟨hr, written, hwritten, hbucket⟩ := htmp _ rfl
    have hkeeps : Keeps j dir fs (fs.write (.mapTmp w reply.taskId r)
        ((fs.read (.mapTmp w reply.taskId r)).map (· ++ j.json.encode kv))) :=
      keeps_write_mapTmp hseparate hid hr _
    refine ⟨hkeeps, hid, hn, hbuckets, fun k hk hkn => hkeeps.mapOut _ _ (hout k hk hkn), ?_⟩
    rintro rest heq
    cases heq
    refine ⟨hr, written ++ [kv], by simp [hwritten], ?_⟩
    rw [hbucket, List.append_assoc, List.singleton_append]
  | renamed reply buckets r => exact hok.renamed hseparate
  | read reply m intermediate lt =>
    obtain ⟨hid, hn, hmapped, -, rfl⟩ := hok
    rw [hn] at lt
    obtain ⟨kva, hkva, hfile⟩ := hmapped m lt reply.taskId hid
    refine ⟨.refl, hid, hn, hmapped, lt, ?_⟩
    rw [Job.gathered_succ, hfile, hkva, Option.map_some, Option.getD_some, Option.getD_some,
      hinverts.decode_bucket hkva]
  | sorted reply m intermediate sorted ge sorts =>
    obtain ⟨hid, hn, hmapped, hm, rfl⟩ := hok
    have hall : m = j.files.length := by omega
    subst hall
    exact ⟨keeps_write_outTmp hseparate hid _, hid, hmapped.readable hid, [], sorted,
      Files.read_write_self, sorts, rfl⟩
  | printed reply l todo =>
    obtain ⟨hid, hreadable, written, sorted, hwritten, hsorts, hlines⟩ := hok
    refine ⟨keeps_write_outTmp hseparate hid _, hid, hreadable, written ++ [l], sorted, ?_, hsorts,
      ?_⟩
    · simp [hwritten]
    · rw [← hlines, List.append_assoc, List.singleton_append]
  | published reply => exact hok.published hseparate
  | lost => exact ⟨.refl, trivial⟩

end Steps

/-- A step of a worker does not touch the temporary files of others. -/
theorem Works.sameTmp {phase phase' : Phase} (h : Works j fs w phase fs' phase') {w' : Nat}
    (hw : w' ≠ w) : SameTmp w' fs fs' := by
  cases h with
  | created => exact sameTmp_write (by simp [hw]) (by simp) _
  | encoded => exact sameTmp_write (by simp [hw]) (by simp) _
  | renamed =>
    exact (sameTmp_write (by simp) (by simp) _).trans (sameTmp_write (by simp [hw]) (by simp) _)
  | sorted => exact sameTmp_write (by simp) (by simp [hw]) _
  | printed => exact sameTmp_write (by simp) (by simp [hw]) _
  | published =>
    exact (sameTmp_write (by simp) (by simp) _).trans (sameTmp_write (by simp) (by simp [hw]) _)
  | started => exact ⟨fun _ _ => rfl, fun _ => rfl⟩
  | crashed => exact ⟨fun _ _ => rfl, fun _ => rfl⟩
  | loaded => exact ⟨fun _ _ => rfl, fun _ => rfl⟩
  | mapped => exact ⟨fun _ _ => rfl, fun _ => rfl⟩
  | read => exact ⟨fun _ _ => rfl, fun _ => rfl⟩
  | lost => exact ⟨fun _ _ => rfl, fun _ => rfl⟩

/-! ### Steps of the whole -/

namespace JobInv

variable {s s' : State}

theorem initial (j : Job) (dir : Files) : JobInv j dir (mapReduce j dir).init where
  coordinator :=
    { files := rfl
      nMap := rfl
      nReduce := rfl
      mapTasks := List.length_replicate
      reduceTasks := List.length_replicate
      mapDone := (doneCount_replicate _ _).symm
      reduceDone := (doneCount_replicate _ _).symm }
  inputs _ _ := rfl
  mapped m h := by
    obtain ⟨t, ht, hdone⟩ := h
    rw [mapReduce, Coordinator.make] at ht
    rw [(List.mem_replicate.mp (List.mem_of_getElem? ht)).2] at hdone
    cases hdone
  reduced r h := by
    obtain ⟨t, ht, hdone⟩ := h
    rw [mapReduce, Coordinator.make] at ht
    rw [(List.mem_replicate.mp (List.mem_of_getElem? ht)).2] at hdone
    cases hdone
  workers w := trivial

/-- One worker goes on while the files stay as they are. -/
theorem setWorker {workers : Nat → Phase} (h : ∀ w, WorkerOk j dir fs w (workers w)) {w : Nat}
    {phase : Phase} (hphase : WorkerOk j dir fs w phase) (w' : Nat) :
    WorkerOk j dir fs w' (Function.update workers w phase w') := by
  by_cases hw : w' = w
  · subst hw
    rw [Function.update_self]
    exact hphase
  · rw [Function.update_of_ne hw]
    exact h w'

theorem work (h : JobInv j dir s) (hseparate : j.Separate) (hinverts : j.Inverts) {w : Nat}
    {files : Files} {phase : Phase} (hworks : Works j s.files w (s.workers w) files phase) :
    JobInv j dir (s.work w files phase) := by
  obtain ⟨hkeeps, hphase⟩ := hworks.workerOk hseparate hinverts h.inputs (h.workers w)
  refine
    { coordinator := h.coordinator
      inputs := fun filename hmem =>
        (hkeeps.inputs filename hmem).trans (h.inputs filename hmem)
      mapped := fun m hm r hr => hkeeps.mapOut m r (h.mapped m hm r hr)
      reduced := fun r hr => hkeeps.reduceOut r (h.reduced r hr)
      workers := fun w' => ?_ }
  by_cases hw : w' = w
  · subst hw
    simpa [State.work] using hphase
  · simp only [State.work, Function.update_of_ne hw]
    exact (h.workers w').keeps hkeeps (hworks.sameTmp hw)

/-- Once all map tasks are counted, all intermediate files are there. -/
theorem allMapped (h : JobInv j dir s) (hle : s.coordinator.nMap ≤ s.coordinator.mapDone) :
    AllMapped j dir s.files := by
  have hc := h.coordinator
  intro m hm r hr
  have hcount : doneCount s.coordinator.mapTasks = s.coordinator.mapTasks.length := by
    refine Nat.le_antisymm List.countP_le_length ?_
    rw [← hc.mapDone, hc.mapTasks, ← hc.nMap]
    exact hle
  exact h.mapped m (done_of_doneCount hcount (hc.mapTasks ▸ hm)) r hr

theorem givenMap (h : JobInv j dir s) {w i : Nat} {tasks : List TaskInfo}
    (hissued : issue s.now s.coordinator.mapTasks = some (i, tasks)) {phase : Phase}
    (hphase : WorkerOk j dir s.files w phase) :
    JobInv j dir ({ s with coordinator := { s.coordinator with mapTasks := tasks } }.setWorker w
      phase) := by
  obtain ⟨-, hlength, hcount, hdone⟩ := issue_spec hissued
  exact
    { coordinator :=
        { h.coordinator with
          mapTasks := hlength.trans h.coordinator.mapTasks
          mapDone := h.coordinator.mapDone.trans hcount.symm }
      inputs := h.inputs
      mapped := fun m hm => h.mapped m (hdone m hm)
      reduced := h.reduced
      workers := setWorker h.workers hphase }

theorem givenReduce (h : JobInv j dir s) {w i : Nat} {tasks : List TaskInfo}
    (hissued : issue s.now s.coordinator.reduceTasks = some (i, tasks)) {phase : Phase}
    (hphase : WorkerOk j dir s.files w phase) :
    JobInv j dir ({ s with coordinator := { s.coordinator with reduceTasks := tasks } }.setWorker w
      phase) := by
  obtain ⟨-, hlength, hcount, hdone⟩ := issue_spec hissued
  exact
    { coordinator :=
        { h.coordinator with
          reduceTasks := hlength.trans h.coordinator.reduceTasks
          reduceDone := h.coordinator.reduceDone.trans hcount.symm }
      inputs := h.inputs
      mapped := h.mapped
      reduced := fun r hr => h.reduced r (hdone r hr)
      workers := setWorker h.workers hphase }

theorem reported (h : JobInv j dir s) {w id : Nat} {type : TaskType} {coordinator : Coordinator}
    (hphase : s.workers w = .reporting type id)
    (hreport : s.coordinator.reportTask type id = some coordinator) :
    JobInv j dir ({ s with coordinator := coordinator }.setWorker w .idle) := by
  have hok := h.workers w
  have hc := h.coordinator
  have hworkers : ∀ w', WorkerOk j dir s.files w' (Function.update s.workers w .idle w') :=
    setWorker h.workers trivial
  rw [hphase] at hok
  cases type with
  | map =>
    simp only [Coordinator.reportTask, Option.map_eq_some_iff] at hreport
    obtain ⟨⟨tasks, new⟩, hcomplete, rfl⟩ := hreport
    obtain ⟨hlength, hcount, hdone⟩ := complete_spec hcomplete
    rw [← hc.mapDone] at hcount
    refine
      { coordinator :=
          { hc with
            mapTasks := hlength.trans hc.mapTasks
            mapDone := hcount.symm }
        inputs := h.inputs
        mapped := fun m hm => ?_
        reduced := h.reduced
        workers := hworkers }
    rcases hdone m hm with hm | rfl
    · exact h.mapped m hm
    · exact hok.2
  | reduce =>
    simp only [Coordinator.reportTask, Option.map_eq_some_iff] at hreport
    obtain ⟨⟨tasks, new⟩, hcomplete, rfl⟩ := hreport
    obtain ⟨hlength, hcount, hdone⟩ := complete_spec hcomplete
    rw [← hc.reduceDone] at hcount
    refine
      { coordinator :=
          { hc with
            reduceTasks := hlength.trans hc.reduceTasks
            reduceDone := hcount.symm }
        inputs := h.inputs
        mapped := h.mapped
        reduced := fun r hr => ?_
        workers := hworkers }
    rcases hdone r hr with hr | rfl
    · exact h.reduced r hr
    · exact hok.2
  | none => exact hok.elim
  | exit => exact hok.elim

theorem happens (h : JobInv j dir s) (hseparate : j.Separate) (hinverts : j.Inverts)
    (hstep : Happens j s s') : JobInv j dir s' := by
  have hc := h.coordinator
  cases hstep with
  | ticked d => exact { h with }
  | worked w files phase works => exact h.work hseparate hinverts works
  | givenMap w i tasks issued =>
    refine h.givenMap issued ⟨?_, hc.nReduce⟩
    have hlt : i < j.files.length := hc.mapTasks ▸ (issue_spec issued).1
    simp only [hc.files, List.getElem?_eq_getElem hlt, Option.getD_some]
  | givenReduce w i tasks mapped issued =>
    refine h.givenReduce issued ⟨?_, hc.nMap, h.allMapped mapped, Nat.zero_le _, rfl⟩
    exact hc.reduceTasks ▸ (issue_spec issued).1
  | givenNothing => exact h
  | reported w type id coordinator phase eq => exact h.reported phase eq

theorem of_reachable (hseparate : j.Separate) (hinverts : j.Inverts)
    (h : (mapReduce j dir).Reachable System.anyStep s) : JobInv j dir s :=
  h.invariant (initial j dir) fun _ _ _ _ hinv _ hstep =>
    hinv.happens hseparate hinverts (MR.happens hstep)

/-- A report names a task that exists. -/
theorem reportTask_isSome (h : JobInv j dir s) {w id : Nat} {type : TaskType}
    (hphase : s.workers w = .reporting type id) :
    (s.coordinator.reportTask type id).isSome = true := by
  have hok := h.workers w
  rw [hphase] at hok
  cases type with
  | map =>
    simp only [Coordinator.reportTask, Option.isSome_map]
    exact complete_isSome (h.coordinator.mapTasks ▸ hok.1)
  | reduce =>
    simp only [Coordinator.reportTask, Option.isSome_map]
    exact complete_isSome (h.coordinator.reduceTasks ▸ hok.1)
  | none => rfl
  | exit => rfl

/-- When the coordinator is done, all output files are there. -/
theorem reduceOut (h : JobInv j dir s) (hdone : s.coordinator.done = true) (hr : r < j.nReduce) :
    ReduceOut j dir s.files r := by
  have hc := h.coordinator
  have hcount : doneCount s.coordinator.reduceTasks = s.coordinator.reduceTasks.length := by
    rw [← hc.reduceDone, hc.reduceTasks, ← hc.nReduce]
    exact of_decide_eq_true hdone
  exact h.reduced r (done_of_doneCount hcount (hc.reduceTasks ▸ hr))

end JobInv

/-! ### Jobs whose pairs are made of digits -/

namespace PlainJson

/-- `{"Key":"`, `","Value":"` and `"}` with its newline. -/
def opening : Str := [123, 34, 75, 101, 121, 34, 58, 34]

def middle : Str := [34, 44, 34, 86, 97, 108, 117, 101, 34, 58, 34]

def closing : Str := [34, 125, 10]

def encode (kv : KeyValue) : Str := opening ++ kv.1 ++ middle ++ kv.2 ++ closing

/-- What is left of a text that begins so. -/
def expect (start text : Str) : Option Str :=
  if start.isPrefixOf text then some (text.drop start.length) else none

def readRecord (text : Str) : Option (KeyValue × Str) := do
  let text ← expect opening text
  let text' ← expect middle (text.dropWhile (· != 34))
  let rest ← expect closing (text'.dropWhile (· != 34))
  some ((text.takeWhile (· != 34), text'.takeWhile (· != 34)), rest)

def readRecords : Nat → Str → List KeyValue
  | 0, _ => []
  | fuel + 1, text =>
    match readRecord text with
    | some (kv, rest) => kv :: readRecords fuel rest
    | none => []

/-- A text without quotes. -/
def Plain (text : Str) : Prop := ∀ b ∈ text, (b != 34) = true

theorem plain_ascii_toDigits (n : Nat) : Plain (ascii (Nat.toDigits 10 n)) := by
  intro b hb
  obtain ⟨c, hc, rfl⟩ := List.mem_map.mp hb
  have hdigit := isDigit_of_mem_toDigits hc
  simp only [Char.isDigit, Bool.and_eq_true, decide_eq_true_eq] at hdigit
  have hlow : 48 ≤ c.toNat := UInt32.le_iff_toNat_le.mp hdigit.1
  have hhigh : c.toNat ≤ 57 := UInt32.le_iff_toNat_le.mp hdigit.2
  have hquote : (34 : UInt8).toNat = 34 := rfl
  simp only [bne_iff_ne, ne_eq, ← UInt8.toNat_inj, UInt8.toNat_ofNat', hquote]
  omega

theorem expect_append (start rest : Str) : expect start (start ++ rest) = some rest := by
  simp [expect]

theorem takeWhile_quote {text : Str} (h : Plain text) (rest : Str) :
    (text ++ 34 :: rest).takeWhile (· != 34) = text := by
  simp [List.takeWhile_append_of_pos h]

theorem dropWhile_quote {text : Str} (h : Plain text) (rest : Str) :
    (text ++ 34 :: rest).dropWhile (· != 34) = 34 :: rest := by
  simp [List.dropWhile_append_of_pos h]

theorem readRecord_encode {kv : KeyValue} (hkey : Plain kv.1) (hvalue : Plain kv.2) (rest : Str) :
    readRecord (encode kv ++ rest) = some (kv, rest) := by
  have hmiddle : ∀ text, middle ++ text = 34 :: (middle.tail ++ text) := fun _ => rfl
  have hclosing : ∀ text, closing ++ text = 34 :: (closing.tail ++ text) := fun _ => rfl
  simp only [readRecord, encode, List.append_assoc, expect_append, Option.bind_eq_bind,
    Option.bind_some]
  rw [hmiddle, dropWhile_quote hkey, takeWhile_quote hkey, ← hmiddle, expect_append,
    Option.bind_some, hclosing, dropWhile_quote hvalue, takeWhile_quote hvalue, ← hclosing,
    expect_append, Option.bind_some]

theorem readRecords_flatMap_encode {kvs : List KeyValue} (h : ∀ kv ∈ kvs, Plain kv.1 ∧ Plain kv.2)
    {fuel : Nat} (hfuel : kvs.length < fuel) : readRecords fuel (kvs.flatMap encode) = kvs := by
  induction kvs generalizing fuel with
  | nil =>
    cases fuel with
    | zero => rfl
    | succ fuel => rfl
  | cons kv kvs ih =>
    obtain ⟨fuel, rfl⟩ := Nat.exists_eq_succ_of_ne_zero (Nat.ne_zero_of_lt hfuel)
    obtain ⟨hkey, hvalue⟩ := h kv List.mem_cons_self
    rw [List.flatMap_cons, readRecords, readRecord_encode hkey hvalue]
    dsimp only
    rw [ih (fun kv hkv => h kv (List.mem_cons_of_mem _ hkv)) (Nat.lt_of_succ_lt_succ hfuel)]

theorem length_le_length_flatMap (kvs : List KeyValue) :
    kvs.length ≤ (kvs.flatMap encode).length := by
  induction kvs with
  | nil => exact Nat.le_refl _
  | cons kv kvs ih =>
    simp only [List.flatMap_cons, List.length_append, List.length_cons, encode, opening]
    omega

end PlainJson

open PlainJson in
/-- `encoding/json` on texts in which nothing has to be escaped. -/
def plainJson : Json where
  encode := encode
  decode text := readRecords (text.length + 1) text

theorem inverts_of_plain {j : Job} (hjson : j.json = plainJson)
    (h : ∀ filename content, ∀ kv ∈ j.mapf filename content,
      PlainJson.Plain kv.1 ∧ PlainJson.Plain kv.2) : j.Inverts := by
  intro filename content kvs hsub
  rw [hjson]
  exact PlainJson.readRecords_flatMap_encode (fun kv hkv => h _ _ kv (hsub.subset hkv))
    (Nat.lt_succ_of_le (PlainJson.length_le_length_flatMap kvs))

/-- A reduce function that counts the values. -/
def count (_ : Str) (values : List Str) : Str := ascii (Nat.toDigits 10 values.length)

theorem count_perm (key : Str) (values values' : List Str) (h : values.Perm values') :
    count key values = count key values' := by
  rw [count, count, h.length_eq]

/-! ### The result -/

/-- What the sequential program passes to its sort. -/
theorem Job.Readable.intermediate_eq (h : j.Readable dir) : j.intermediate dir =
    some ((List.range j.files.length).flatMap fun m => (j.emitted dir m).getD []) := by
  have htake : ∀ k ≤ j.files.length, (j.files.take k).foldlM (fun acc filename => do
      let content ← dir filename
      some (acc ++ j.mapf filename content)) [] =
        some ((List.range k).flatMap fun m => (j.emitted dir m).getD []) := by
    intro k hk
    induction k with
    | zero => rfl
    | succ k ih =>
      obtain ⟨kva, hkva⟩ := h k hk
      have hget := List.getElem?_eq_getElem (Nat.lt_of_succ_le hk)
      simp only [Job.emitted, hget, Option.bind_eq_bind, Option.bind_some, Option.bind_eq_some_iff,
        Option.some.injEq] at hkva
      obtain ⟨content, hcontent, rfl⟩ := hkva
      rw [List.take_add_one, hget, Option.toList_some, List.foldlM_append,
        ih (Nat.le_of_succ_le hk)]
      simp [List.range_succ, Job.emitted, hget, hcontent]
  have hall := htake j.files.length (Nat.le_refl _)
  rwa [List.take_length] at hall

theorem Job.gathered_eq (j : Job) (dir : Files) (m r : Nat) : j.gathered dir m r =
    bucket j.nReduce r ((List.range m).flatMap fun k => (j.emitted dir k).getD []) := by
  rw [bucket, List.filter_flatMap]
  rfl

theorem output_eq {nReduce : Nat} {text : Nat → Str}
    (h : ∀ r < nReduce, fs.read (.out r) = some (text r)) :
    fs.output nReduce = some ((List.range nReduce).flatMap fun r => linesOf (text r)) := by
  have hupto : ∀ n ≤ nReduce,
      (List.range n).foldlM (fun acc r => (fs.read (.out r)).map (acc ++ linesOf ·)) [] =
        some ((List.range n).flatMap fun r => linesOf (text r)) := by
    intro n hn
    induction n with
    | zero => rfl
    | succ n ih =>
      rw [List.range_succ, List.foldlM_append, ih (Nat.le_of_succ_le hn)]
      simp [h n hn]
  exact hupto nReduce (Nat.le_refl _)

/-- What the loop prints for each key, in some order. -/
theorem reduceLoop_perm {reducef : Str → List Str → Str}
    (hreducef : ∀ key values values', values.Perm values' →
      reducef key values = reducef key values') {intermediate sorted : List KeyValue}
    (h : Sorts intermediate sorted) : (reduceLoop reducef sorted).Perm
      (reduceBy (fun key values => line key (reducef key values)) intermediate) := by
  have hruns := map_runs_perm (r := (· ≤ ·)) (fun key values => line key (reducef key values)) h.2
  refine hruns.trans (reduceBy_perm ?_ h.1)
  intro key values values' hperm
  rw [hreducef key values values' hperm]

theorem linesOf_reduceLoop (reducef : Str → List Str → Str) (sorted : List KeyValue) :
    linesOf (reduceLoop reducef sorted).flatten = (reduceLoop reducef sorted).flatMap linesOf := by
  rw [reduceLoop, linesOf_flatten_map_line, List.flatMap_map]

theorem exists_sorts (intermediate : List KeyValue) : ∃ sorted, Sorts intermediate sorted := by
  refine ⟨intermediate.mergeSort fun x y => decide (x.1 ≤ y.1), List.mergeSort_perm _ _, ?_⟩
  have htrans : ∀ x y z : KeyValue, decide (x.1 ≤ y.1) = true → decide (y.1 ≤ z.1) = true →
      decide (x.1 ≤ z.1) = true := by
    intro x y z hxy hyz
    rw [decide_eq_true_eq] at *
    exact List.le_trans hxy hyz
  have htotal : ∀ x y : KeyValue, (decide (x.1 ≤ y.1) || decide (y.1 ≤ x.1)) = true := by
    intro x y
    rw [Bool.or_eq_true, decide_eq_true_eq, decide_eq_true_eq]
    exact List.le_total x.1 y.1
  have hsorted := List.pairwise_mergeSort htrans htotal intermediate
  exact hsorted.imp fun h => of_decide_eq_true h

/-- The sequential program has a result if all files can be read. -/
theorem exists_sequential {intermediate : List KeyValue}
    (h : j.intermediate dir = some intermediate) : ∃ text, j.Sequential dir text := by
  obtain ⟨sorted, hsorts⟩ := exists_sorts intermediate
  exact ⟨_, intermediate, sorted, h, hsorts, rfl⟩

/-- The lines that the sequential program writes. -/
theorem Job.Sequential.linesOf_perm {text : Str} (h : j.Sequential dir text)
    (hreducef : ∀ key values values', values.Perm values' →
      j.reducef key values = j.reducef key values') {intermediate : List KeyValue}
    (hall : j.intermediate dir = some intermediate) : (linesOf text).Perm
      ((reduceBy (fun key values => line key (j.reducef key values)) intermediate).flatMap
        linesOf) := by
  obtain ⟨intermediate', sorted, hall', hsorts, rfl⟩ := h
  rw [hall] at hall'
  cases hall'
  rw [linesOf_reduceLoop]
  exact (reduceLoop_perm hreducef hsorts).flatMap_right linesOf

/-- What the output files hold when the coordinator is done. -/
theorem JobInv.output_eq {s : State} (h : JobInv j dir s) (hn : 0 < j.nReduce)
    (hreducef : ∀ key values values', values.Perm values' →
      j.reducef key values = j.reducef key values') (hdone : s.coordinator.done = true)
    {intermediate : List KeyValue} (hall : j.intermediate dir = some intermediate) :
    ∃ records : List Str, s.files.output j.nReduce = some (records.flatMap linesOf) ∧
      records.Perm
        (reduceBy (fun key values => line key (j.reducef key values)) intermediate) := by
  have hintermediate := ((h.reduceOut hdone hn).1.intermediate_eq).symm.trans hall
  -- the texts of one file
  have hfile : ∀ r, ∃ records : List Str, linesOf records.flatten = records.flatMap linesOf ∧
      (r < j.nReduce → s.files.read (.out r) = some records.flatten ∧
        records.Perm (reduceBy (fun key values => line key (j.reducef key values))
          (bucket j.nReduce r intermediate))) := by
    intro r
    by_cases hr : r < j.nReduce
    · obtain ⟨-, sorted, hsorts, hout⟩ := h.reduceOut hdone hr
      rw [Job.gathered_eq, Option.some.inj hintermediate] at hsorts
      exact ⟨_, linesOf_reduceLoop _ _, fun _ => ⟨hout, reduceLoop_perm hreducef hsorts⟩⟩
    · exact ⟨[], rfl, fun hlt => absurd hlt hr⟩
  choose records hlines hrecords using hfile
  refine ⟨(List.range j.nReduce).flatMap records, ?_, ?_⟩
  · rw [MR.output_eq fun r hr => (hrecords r hr).1, List.flatMap_assoc]
    simp only [hlines]
  · refine (List.Perm.flatMap_left _ fun r hr => (hrecords r (List.mem_range.mp hr)).2).trans ?_
    exact flatMap_reduceBy_perm (h := fun key => ihash key % j.nReduce) _ fun x _ =>
      Nat.mod_lt _ hn

/-- In every run, on top of whatever files are there from before, once the coordinator
    is done: the lines of the output files together are those that the sequential
    program writes, up to order.  There is one record for each key that was emitted, from
    all the values that were emitted for it.  No input file may have the name of a file
    that the job writes. -/
theorem mapReduce_eq_sequential (j : Job) (fs : Files) (s : State) (hn : 0 < j.nReduce)
    (hseparate : j.Separate) (hinverts : j.Inverts)
    (hreducef : ∀ key values values', values.Perm values' →
      j.reducef key values = j.reducef key values')
    (hs : (mapReduce j fs).Reachable System.anyStep s) (hdone : s.coordinator.done = true) :
    ∃ (records : List Str) (intermediate : List KeyValue),
      s.files.output j.nReduce = some (records.flatMap linesOf) ∧
      j.intermediate fs = some intermediate ∧
      records.Perm ((keys intermediate).map fun key =>
        line key (j.reducef key (valuesOf key intermediate))) ∧
      (∃ text, j.Sequential fs text) ∧
      ∀ text, j.Sequential fs text → (records.flatMap linesOf).Perm (linesOf text) := by
  have hinv := JobInv.of_reachable hseparate hinverts hs
  have hall := (hinv.reduceOut hdone hn).1.intermediate_eq
  obtain ⟨records, houtput, hperm⟩ := hinv.output_eq hn hreducef hdone hall
  refine ⟨records, _, houtput, hall, hperm, exists_sequential hall, ?_⟩
  intro text htext
  exact (hperm.flatMap_right linesOf).trans (htext.linesOf_perm hreducef hall).symm

/-- Counts the bytes of two files, with two reduce tasks. -/
def countBytes : Job where
  json := plainJson
  mapf _ content := content.map fun b => (ascii (Nat.toDigits 10 b.toNat), [49])
  reducef := count
  files := [[97], [98]]
  nReduce := 2

/-- The two input files, and files of some earlier job. -/
def stale : Files := fun filename =>
  if filename = [97] then some [1, 2] else if filename = [98] then some [2]
  else if filename = (JobFile.intermediate 1 0).name then some (plainJson.encode ([57], [57]))
  else if filename = (JobFile.out 0).name then some (line [57] [57])
  else if filename = (JobFile.mapTmp 1 0 0).name then some [57]
  else none

/-- Worker 0 is slow with map task 0, which worker 1 then does as well, and crashes in
    the middle of reduce task 1. -/
def untilDone : List Action :=
  [.start 0, .start 1, .request 0, .load 0, .create 0, .encode 0, .rename 0, .create 0, .encode 0,
    .tick 11000000000, .request 1, .load 1, .create 1, .encode 1, .rename 1, .create 1, .encode 1,
    .rename 1, .create 1, .report 1 true, .request 1, .load 1, .create 1, .rename 1, .create 1,
    .encode 1, .rename 1, .create 1, .report 1 true, .request 1, .read 1, .read 1,
    .sort 1 [([49], [49])], .print 1, .publish 1, .report 1 true, .rename 0, .create 0,
    .report 0 true, .request 0, .read 0, .read 0, .sort 0 [([50], [49]), ([50], [49])], .print 0,
    .crash 0, .tick 11000000000, .request 1, .read 1, .read 1,
    .sort 1 [([50], [49]), ([50], [49])], .print 1, .publish 1, .report 1 true]

theorem mapReduce_eq_sequential_countBytes : ∃ s lines,
    (mapReduce countBytes stale).Reachable System.anyStep s ∧ s.coordinator.done = true ∧
      s.files.output 2 = some lines ∧ lines = [line [49] [49], line [50] [50]] ∧
      ∀ text, countBytes.Sequential stale text → lines.Perm (linesOf text) := by
  obtain ⟨s, hs, hcheck⟩ := (mapReduce countBytes stale).exists_reachable_of_run System.anyStep
    untilDone (fun s => decide (s.coordinator.done = true ∧
      s.files.output 2 = some [line [49] [49], line [50] [50]]))
    (by decide +kernel)
  obtain ⟨hdone, houtput⟩ := of_decide_eq_true hcheck
  have hseparate : countBytes.Separate := by
    intro filename hmem f _
    refine JobFile.ne_name_of_length ?_ f
    revert filename
    decide
  have hinverts : countBytes.Inverts := by
    refine inverts_of_plain rfl fun filename content kv hkv => ?_
    obtain ⟨b, -, rfl⟩ := List.mem_map.mp hkv
    exact ⟨PlainJson.plain_ascii_toDigits _, by simp [PlainJson.Plain]⟩
  obtain ⟨records, -, hrecords, -, -, -, hperm⟩ :=
    mapReduce_eq_sequential countBytes stale s (by decide) hseparate hinverts count_perm hs hdone
  have heq := Option.some.inj (hrecords.symm.trans houtput)
  exact ⟨s, _, hs, hdone, hrecords, heq, hperm⟩

/-- Counts the files of each length; the second input file has the name of the
    intermediate file of the first map task. -/
def countLengths : Job where
  json := plainJson
  mapf _ content := [(ascii (Nat.toDigits 10 content.length), [49])]
  reducef := count
  files := [[97], (JobFile.intermediate 0 0).name]
  nReduce := 1

def twoInputs : Files := fun filename =>
  if filename = [97] then some [1]
  else if filename = (JobFile.intermediate 0 0).name then some [1, 2]
  else none

/-- One worker does the whole job. -/
def untilCounted : List Action :=
  [.start 0, .request 0, .load 0, .create 0, .encode 0, .rename 0, .create 0, .report 0 true,
    .request 0, .load 0, .create 0, .encode 0, .rename 0, .create 0, .report 0 true, .request 0,
    .read 0, .read 0, .sort 0 [([49], [49]), ([50, 52], [49])], .print 0, .print 0, .publish 0,
    .report 0 true]

/-- If an input file has the name of an intermediate file, then the job may read what it
    has written itself, and its result is another one than that of the sequential
    program. -/
theorem mapReduce_reads_own_output : 0 < countLengths.nReduce ∧ countLengths.Inverts ∧
    (∀ key values values', values.Perm values' →
      countLengths.reducef key values = countLengths.reducef key values') ∧
    ∃ s, (mapReduce countLengths twoInputs).Reachable System.anyStep s ∧
      s.coordinator.done = true ∧
      s.files.output 1 = some [line [49] [49], line [50, 52] [49]] ∧
      (∃ text, countLengths.Sequential twoInputs text) ∧
      ∀ text, countLengths.Sequential twoInputs text →
        (linesOf text).Perm [line [49] [49], line [50] [49]] ∧
        ¬ [line [49] [49], line [50, 52] [49]].Perm (linesOf text) := by
  have hinverts : countLengths.Inverts := by
    refine inverts_of_plain rfl fun filename content kv hkv => ?_
    cases List.mem_singleton.mp hkv
    exact ⟨PlainJson.plain_ascii_toDigits _, by simp [PlainJson.Plain]⟩
  obtain ⟨s, hs, hcheck⟩ := (mapReduce countLengths twoInputs).exists_reachable_of_run
    System.anyStep untilCounted (fun s => decide (s.coordinator.done = true ∧
      s.files.output 1 = some [line [49] [49], line [50, 52] [49]]))
    (by decide +kernel)
  obtain ⟨hdone, houtput⟩ := of_decide_eq_true hcheck
  have hall : countLengths.intermediate twoInputs = some [([49], [49]), ([50], [49])] := by
    decide +kernel
  refine ⟨by decide, hinverts, count_perm, s, hs, hdone, houtput, exists_sequential hall, ?_⟩
  intro text htext
  have hlines : (linesOf text).Perm [line [49] [49], line [50] [49]] :=
    htext.linesOf_perm count_perm hall
  refine ⟨hlines, fun hperm => ?_⟩
  have hboth := hperm.trans hlines
  revert hboth
  decide +kernel

end RaftLabs.MR
