import RaftLabs.MapReduce
import Mathlib.Data.List.Induction

/-!
# What the parts of MapReduce do

Different files of the job have different names.  One lemma for each function of the
coordinator, and what a step of the whole can be.
-/

namespace RaftLabs.MR

open KeyGroups

/-! ### Names of files -/

/-- A text up to a byte that it does not have can be read back. -/
theorem append_cons_inj {l l' x y : List Char} {c : Char} (hl : c ∉ l) (hl' : c ∉ l')
    (h : l ++ c :: x = l' ++ c :: y) : l = l' ∧ x = y := by
  induction l generalizing l' with
  | nil =>
    cases l' with
    | nil => exact ⟨rfl, (List.cons.inj h).2⟩
    | cons a l' => exact absurd ((List.cons.inj h).1 ▸ List.mem_cons_self) hl'
  | cons a l ih =>
    cases l' with
    | nil => exact absurd ((List.cons.inj h).1 ▸ List.mem_cons_self) hl
    | cons b l' =>
      obtain ⟨rfl, htail⟩ := List.cons.inj h
      obtain ⟨rfl, rfl⟩ := ih (fun hc => hl (List.mem_cons_of_mem _ hc))
        (fun hc => hl' (List.mem_cons_of_mem _ hc)) htail
      exact ⟨rfl, rfl⟩

theorem isDigit_of_mem_toDigits {n : Nat} {c : Char} (h : c ∈ Nat.toDigits 10 n) :
    c.isDigit = true :=
  Nat.isDigit_of_mem_toDigits (by decide) (by decide) h

theorem toDigits_injective {n m : Nat} (h : Nat.toDigits 10 n = Nat.toDigits 10 m) : n = m := by
  rw [← Nat.ofDigitChars_ten_toDigits (n := n), h, Nat.ofDigitChars_ten_toDigits]

theorem dash_notMem_toDigits (n : Nat) : '-' ∉ Nat.toDigits 10 n := fun h =>
  absurd (isDigit_of_mem_toDigits h) (by decide)

/-- A number, a dash and the rest can be read back. -/
theorem toDigits_dash_inj {n m : Nat} {x y : List Char}
    (h : Nat.toDigits 10 n ++ '-' :: x = Nat.toDigits 10 m ++ '-' :: y) : n = m ∧ x = y := by
  obtain ⟨hdigits, htail⟩ := append_cons_inj (dash_notMem_toDigits n) (dash_notMem_toDigits m) h
  exact ⟨toDigits_injective hdigits, htail⟩

/-- A number does not begin like `out`. -/
theorem toDigits_ne_cons {n : Nat} {c : Char} (hc : c.isDigit = false) (x y : List Char) :
    Nat.toDigits 10 n ++ x ≠ c :: y := by
  intro h
  cases hdigits : Nat.toDigits 10 n with
  | nil => exact Nat.toDigits_ne_nil hdigits
  | cons d ds =>
    rw [hdigits] at h
    have hd := isDigit_of_mem_toDigits (n := n) (c := d) (hdigits ▸ List.mem_cons_self)
    rw [(List.cons.inj h).1, hc] at hd
    cases hd

theorem map_ofNat_ascii {text : List Char} (h : ∀ c ∈ text, c.toNat < 256) :
    (ascii text).map (fun b => Char.ofNat b.toNat) = text := by
  rw [ascii, List.map_map]
  refine (List.map_congr_left fun c hc => ?_).trans (List.map_id _)
  have hbyte : (UInt8.ofNat c.toNat).toNat = c.toNat := UInt8.toNat_ofNat_of_lt (h c hc)
  simp only [Function.comp_apply, hbyte, Char.ofNat_toNat, id_eq]

namespace JobFile

theorem text_injective {f g : JobFile} (h : f.text = g.text) : f = g := by
  cases f with
  | intermediate m r =>
    cases g with
    | intermediate m' r' =>
      obtain ⟨rfl, hr⟩ := toDigits_dash_inj (by simpa [text] using h)
      rw [toDigits_injective hr]
    | out r' => exact absurd (by simpa [text] using h) (toDigits_ne_cons (by decide) _ _)
    | mapTmp => simp [text] at h
    | outTmp => simp [text] at h
  | out r =>
    cases g with
    | intermediate m' r' =>
      exact absurd (by simpa [text] using h.symm) (toDigits_ne_cons (by decide) _ _)
    | out r' =>
      have hr : r = r' := toDigits_injective (by simpa [text] using h)
      rw [hr]
    | mapTmp => simp [text] at h
    | outTmp => simp [text] at h
  | mapTmp pid m r =>
    cases g with
    | mapTmp pid' m' r' =>
      obtain ⟨rfl, hrest⟩ := toDigits_dash_inj (by simpa [text] using h)
      obtain ⟨rfl, hr⟩ := toDigits_dash_inj hrest
      rw [toDigits_injective hr]
    | intermediate => simp [text] at h
    | out => simp [text] at h
    | outTmp => simp [text] at h
  | outTmp pid r =>
    cases g with
    | outTmp pid' r' =>
      obtain ⟨rfl, hr⟩ := toDigits_dash_inj (by simpa [text] using h)
      rw [toDigits_injective hr]
    | intermediate => simp [text] at h
    | out => simp [text] at h
    | mapTmp => simp [text] at h

theorem toNat_lt_of_mem_text {f : JobFile} {c : Char} (h : c ∈ f.text) : c.toNat < 256 := by
  have hdigit : ∀ n, c ∈ Nat.toDigits 10 n → c.toNat < 256 := by
    intro n hc
    have hrange := isDigit_of_mem_toDigits hc
    simp only [Char.isDigit, Bool.and_eq_true, decide_eq_true_eq] at hrange
    exact Nat.lt_of_le_of_lt (UInt32.le_iff_toNat_le.mp hrange.2) (by decide)
  cases f with
  | intermediate m r =>
    simp only [text, List.mem_append, List.mem_cons, List.not_mem_nil, or_false] at h
    rcases h with ((rfl | rfl | rfl) | h) | rfl | h
    any_goals decide
    · exact hdigit m h
    · exact hdigit r h
  | out r =>
    simp only [text, List.mem_append, List.mem_cons, List.not_mem_nil, or_false] at h
    rcases h with (rfl | rfl | rfl | rfl | rfl | rfl | rfl) | h
    any_goals decide
    exact hdigit r h
  | mapTmp pid m r =>
    simp only [text, List.mem_append, List.mem_cons, List.not_mem_nil, or_false] at h
    rcases h with ((rfl | rfl | rfl | rfl | rfl | rfl | rfl | rfl | rfl | rfl | rfl | rfl) | h) |
      rfl | h | rfl | h
    any_goals decide
    · exact hdigit pid h
    · exact hdigit m h
    · exact hdigit r h
  | outTmp pid r =>
    simp only [text, List.mem_append, List.mem_cons, List.not_mem_nil, or_false] at h
    rcases h with ((rfl | rfl | rfl | rfl | rfl | rfl | rfl | rfl | rfl | rfl | rfl | rfl) | h) |
      rfl | h
    any_goals decide
    · exact hdigit pid h
    · exact hdigit r h

/-- Different files of the job have different names. -/
theorem name_injective {f g : JobFile} (h : f.name = g.name) : f = g := by
  have hback := congrArg (List.map fun b : UInt8 => Char.ofNat b.toNat) h
  rw [name, name, map_ofNat_ascii fun c => toNat_lt_of_mem_text,
    map_ofNat_ascii fun c => toNat_lt_of_mem_text] at hback
  exact text_injective hback

/-- The names of these files are not very short. -/
theorem ne_name_of_length {filename : Str} (h : filename.length ≤ 3) (f : JobFile) :
    filename ≠ f.name := by
  rintro rfl
  have hlength : 4 ≤ f.text.length := by
    cases f with
    | intermediate | out | mapTmp | outTmp =>
      simp only [text, List.length_append, List.length_cons, List.length_nil]
      omega
  simp only [name, ascii, List.length_map] at h
  omega

end JobFile

namespace Files

variable {fs : Files} {f g : JobFile} {content : Option Str}

@[simp] theorem read_write_self : (fs.write f content).read f = content :=
  Function.update_self ..

theorem read_write_of_ne (h : g ≠ f) : (fs.write f content).read g = fs.read g :=
  Function.update_of_ne (fun heq => h (JobFile.name_injective heq)) ..

/-- A file with another name stays as it is. -/
theorem write_of_ne {filename : Str} (h : filename ≠ f.name) :
    fs.write f content filename = fs filename :=
  Function.update_of_ne h ..

end Files

/-! ### Lines -/

/-- A text that ends with a newline is cut from what follows it. -/
theorem linesOf_append (x y : Str) :
    linesOf (x ++ 10 :: y) = linesOf (x ++ [10]) ++ linesOf y := by
  induction x with
  | nil => simp [linesOf]
  | cons b x ih =>
    by_cases hb : b = 10
    · simp [linesOf, hb, ih]
    · simp only [List.cons_append, linesOf, if_neg hb, ih]
      cases hlines : linesOf (x ++ [10]) with
      | nil =>
        cases x with
        | nil => simp [linesOf] at hlines
        | cons c x =>
          simp only [List.cons_append, linesOf] at hlines
          split at hlines
          · cases hlines
          · split at hlines <;> cases hlines
      | cons l lines => rfl

theorem linesOf_line_append (key output text : Str) :
    linesOf (line key output ++ text) = linesOf (line key output) ++ linesOf text := by
  have hcut := linesOf_append (key ++ [32] ++ output) text
  simpa [line] using hcut

/-- What the loop prints, cut into lines. -/
theorem linesOf_flatten_map_line {α : Type} (key output : α → Str) (xs : List α) :
    linesOf ((xs.map fun x => line (key x) (output x)).flatten) =
      xs.flatMap fun x => linesOf (line (key x) (output x)) := by
  induction xs with
  | nil => rfl
  | cons x xs ih =>
    rw [List.map_cons, List.flatten_cons, linesOf_line_append, ih, List.flatMap_cons]

/-! ### Buckets -/

/-- The pairs that belong to reduce task `r`. -/
def bucket (nReduce r : Nat) (kva : List KeyValue) : List KeyValue :=
  kva.filter fun kv => ihash kv.1 % nReduce = r

theorem partition_getElem? {nReduce r : Nat} (hr : r < nReduce) (kva : List KeyValue) :
    (partition nReduce kva)[r]? = some (bucket nReduce r kva) := by
  induction kva using List.reverseRecOn with
  | nil => simp [partition, bucket, hr]
  | append_singleton kva kv ih =>
    have hsnoc : partition nReduce (kva ++ [kv]) =
        (partition nReduce kva).modify (ihash kv.1 % nReduce) (· ++ [kv]) := by
      simp [partition]
    rw [hsnoc, List.getElem?_modify, ih]
    by_cases hkv : ihash kv.1 % nReduce = r
    · simp [bucket, hkv]
    · simp [bucket, hkv]

/-! ### Tasks -/

/-- Task `k` is done. -/
def Done (tasks : List TaskInfo) (k : Nat) : Prop := ∃ t, tasks[k]? = some t ∧ t.state = .done

def doneCount (tasks : List TaskInfo) : Nat := tasks.countP fun t => t.state = .done

theorem done_of_doneCount {tasks : List TaskInfo} (h : doneCount tasks = tasks.length) {k : Nat}
    (hk : k < tasks.length) : Done tasks k := by
  have hall := List.countP_eq_length.mp h
  exact ⟨tasks[k], List.getElem?_eq_getElem hk, by simpa using hall _ (List.getElem_mem hk)⟩

theorem doneCount_replicate (n startTime : Nat) :
    doneCount (List.replicate n { state := .idle, startTime := startTime }) = 0 := by
  simp [doneCount, List.countP_replicate]

/-- A task that is given out was not done, and nothing else changes. -/
theorem issue_spec {now i : Nat} {tasks tasks' : List TaskInfo}
    (h : issue now tasks = some (i, tasks')) : i < tasks.length ∧
      tasks'.length = tasks.length ∧ doneCount tasks' = doneCount tasks ∧
      ∀ k, Done tasks' k → Done tasks k := by
  simp only [issue, Option.map_eq_some_iff, Prod.mk.injEq] at h
  obtain ⟨i, hfind, rfl, rfl⟩ := h
  obtain ⟨hlt, havailable, -⟩ := List.findIdx?_eq_some_iff_getElem.mp hfind
  have hnot : tasks[i].state ≠ .done := by
    intro hdone
    simp [TaskInfo.available, hdone] at havailable
  refine ⟨hlt, List.length_set, ?_, ?_⟩
  · simp [doneCount, List.countP_set hlt, hnot]
  · rintro k ⟨t, ht, hdone⟩
    by_cases hk : i = k
    · subst hk
      rw [List.getElem?_set_self hlt] at ht
      cases ht
      cases hdone
    · rw [List.getElem?_set_ne hk] at ht
      exact ⟨t, ht, hdone⟩

/-- A report makes its task done, and is counted if it was not. -/
theorem complete_spec {tasks tasks' : List TaskInfo} {id : Nat} {new : Bool}
    (h : Coordinator.complete tasks id = some (tasks', new)) : tasks'.length = tasks.length ∧
      doneCount tasks' = (if new then doneCount tasks + 1 else doneCount tasks) ∧
      ∀ k, Done tasks' k → Done tasks k ∨ k = id := by
  simp only [Coordinator.complete, Option.map_eq_some_iff] at h
  obtain ⟨t, ht, heq⟩ := h
  obtain ⟨hlt, rfl⟩ := List.getElem?_eq_some_iff.mp ht
  split at heq
  · next hnot =>
    cases heq
    refine ⟨List.length_set, ?_, ?_⟩
    · simp [doneCount, List.countP_set hlt, hnot]
    · rintro k ⟨t, ht, hdone⟩
      by_cases hk : id = k
      · exact .inr hk.symm
      · rw [List.getElem?_set_ne hk] at ht
        exact .inl ⟨t, ht, hdone⟩
  · cases heq
    exact ⟨rfl, rfl, fun k => .inl⟩

theorem complete_isSome {tasks : List TaskInfo} {id : Nat} (h : id < tasks.length) :
    (Coordinator.complete tasks id).isSome = true := by
  simp [Coordinator.complete, List.getElem?_eq_getElem h]

/-- What the coordinator does with a request. -/
inductive Requested (c : Coordinator) (now : Nat) : Coordinator → RequestTaskReply → Prop where
  | map (i : Nat) (tasks : List TaskInfo) (issued : issue now c.mapTasks = some (i, tasks)) :
      Requested c now { c with mapTasks := tasks }
        { type := .map, taskId := i, file := (c.files[i]?).getD [], nMap := c.nMap,
          nReduce := c.nReduce }
  | reduce (i : Nat) (tasks : List TaskInfo) (mapped : c.nMap ≤ c.mapDone)
      (issued : issue now c.reduceTasks = some (i, tasks)) :
      Requested c now { c with reduceTasks := tasks }
        { type := .reduce, taskId := i, file := [], nMap := c.nMap, nReduce := c.nReduce }
  | none : Requested c now c { type := .none, taskId := 0, file := [], nMap := 0, nReduce := 0 }
  | exit : Requested c now c { type := .exit, taskId := 0, file := [], nMap := 0, nReduce := 0 }

theorem requested (c : Coordinator) (now : Nat) :
    Requested c now (c.requestTask now).1 (c.requestTask now).2 := by
  unfold Coordinator.requestTask
  split
  · split
    · next i tasks issued => exact .map i tasks issued
    · exact .none
  · next hmapped =>
    split
    · split
      · next i tasks issued => exact .reduce i tasks (Nat.le_of_not_lt hmapped) issued
      · exact .none
    · exact .exit

/-! ### What a step can be -/

/-- A step of worker `w` by itself. -/
inductive Works (j : Job) (fs : Files) (w : Nat) : Phase → Files → Phase → Prop where
  | started : Works j fs w .stopped fs .idle
  | crashed (phase : Phase) : Works j fs w phase fs .stopped
  | loaded (reply : RequestTaskReply) (content : Str) (eq : fs reply.file = some content) :
      Works j fs w (.assigned reply) fs
        (.mapping reply (partition reply.nReduce (j.mapf reply.file content)) 0 none)
  | created (reply : RequestTaskReply) (buckets : List (List KeyValue)) (r : Nat)
      (lt : r < reply.nReduce) :
      Works j fs w (.mapping reply buckets r none)
        (fs.write (.mapTmp w reply.taskId r) (some []))
        (.mapping reply buckets r (some ((buckets[r]?).getD [])))
  | mapped (reply : RequestTaskReply) (buckets : List (List KeyValue)) (r : Nat)
      (ge : reply.nReduce ≤ r) :
      Works j fs w (.mapping reply buckets r none) fs (.reporting .map reply.taskId)
  | encoded (reply : RequestTaskReply) (buckets : List (List KeyValue)) (r : Nat) (kv : KeyValue)
      (todo : List KeyValue) :
      Works j fs w (.mapping reply buckets r (some (kv :: todo)))
        (fs.write (.mapTmp w reply.taskId r)
          ((fs.read (.mapTmp w reply.taskId r)).map (· ++ j.json.encode kv)))
        (.mapping reply buckets r (some todo))
  | renamed (reply : RequestTaskReply) (buckets : List (List KeyValue)) (r : Nat) :
      Works j fs w (.mapping reply buckets r (some []))
        ((fs.write (.intermediate reply.taskId r) (fs.read (.mapTmp w reply.taskId r))).write
          (.mapTmp w reply.taskId r) none)
        (.mapping reply buckets (r + 1) none)
  | read (reply : RequestTaskReply) (m : Nat) (intermediate : List KeyValue)
      (lt : m < reply.nMap) :
      Works j fs w (.reading reply m intermediate) fs (.reading reply (m + 1) (intermediate ++
        ((fs.read (.intermediate m reply.taskId)).map j.json.decode).getD []))
  | sorted (reply : RequestTaskReply) (m : Nat) (intermediate sorted : List KeyValue)
      (ge : reply.nMap ≤ m) (sorts : Sorts intermediate sorted) :
      Works j fs w (.reading reply m intermediate) (fs.write (.outTmp w reply.taskId) (some []))
        (.printing reply (reduceLoop j.reducef sorted))
  | printed (reply : RequestTaskReply) (l : Str) (todo : List Str) :
      Works j fs w (.printing reply (l :: todo))
        (fs.write (.outTmp w reply.taskId) ((fs.read (.outTmp w reply.taskId)).map (· ++ l)))
        (.printing reply todo)
  | published (reply : RequestTaskReply) :
      Works j fs w (.printing reply [])
        ((fs.write (.out reply.taskId) (fs.read (.outTmp w reply.taskId))).write
          (.outTmp w reply.taskId) none)
        (.reporting .reduce reply.taskId)
  | lost (type : TaskType) (id : Nat) : Works j fs w (.reporting type id) fs .idle

inductive Happens (j : Job) (s : State) : State → Prop where
  | ticked (d : Nat) : Happens j s { s with now := s.now + d }
  | worked (w : Nat) (files : Files) (phase : Phase)
      (works : Works j s.files w (s.workers w) files phase) :
      Happens j s (s.work w files phase)
  | givenMap (w i : Nat) (tasks : List TaskInfo)
      (issued : issue s.now s.coordinator.mapTasks = some (i, tasks)) :
      Happens j s ({ s with coordinator := { s.coordinator with mapTasks := tasks } }.setWorker w
        (.assigned
          { type := .map, taskId := i, file := (s.coordinator.files[i]?).getD [],
            nMap := s.coordinator.nMap, nReduce := s.coordinator.nReduce }))
  | givenReduce (w i : Nat) (tasks : List TaskInfo)
      (mapped : s.coordinator.nMap ≤ s.coordinator.mapDone)
      (issued : issue s.now s.coordinator.reduceTasks = some (i, tasks)) :
      Happens j s ({ s with coordinator := { s.coordinator with reduceTasks := tasks } }.setWorker w
        (.reading
          { type := .reduce, taskId := i, file := [], nMap := s.coordinator.nMap,
            nReduce := s.coordinator.nReduce } 0 []))
  | givenNothing : Happens j s s
  | reported (w : Nat) (type : TaskType) (id : Nat) (coordinator : Coordinator)
      (phase : s.workers w = .reporting type id)
      (eq : s.coordinator.reportTask type id = some coordinator) :
      Happens j s ({ s with coordinator := coordinator }.setWorker w .idle)

theorem happens_request {j : Job} {s s' : State} {w : Nat}
    (h : s.step j (.request w) = some s') : Happens j s s' := by
  simp only [State.step] at h
  split at h
  · next hphase =>
    have hrequested := requested s.coordinator s.now
    revert h hrequested
    generalize s.coordinator.requestTask s.now = x
    obtain ⟨coordinator, reply⟩ := x
    intro h hrequested
    cases hrequested with
    | map i tasks issued =>
      cases h
      exact .givenMap w i tasks issued
    | reduce i tasks mapped issued =>
      cases h
      exact .givenReduce w i tasks mapped issued
    | none =>
      cases h
      exact .givenNothing
    | exit =>
      cases h
      exact .worked w _ _ (.crashed _)
  · cases h

theorem happens_load {j : Job} {s s' : State} {w : Nat}
    (h : s.step j (.load w) = some s') : Happens j s s' := by
  simp only [State.step] at h
  split at h
  · next reply hphase =>
    split at h
    · next content hcontent =>
      cases h
      exact .worked w _ _ (hphase ▸ .loaded reply content hcontent)
    · cases h
      exact .worked w _ _ (.crashed _)
  · cases h

theorem happens_create {j : Job} {s s' : State} {w : Nat}
    (h : s.step j (.create w) = some s') : Happens j s s' := by
  simp only [State.step] at h
  split at h
  · next reply buckets r hphase =>
    split at h
    · next hlt =>
      cases h
      exact .worked w _ _ (hphase ▸ .created reply buckets r hlt)
    · next hge =>
      cases h
      exact .worked w _ _ (hphase ▸ .mapped reply buckets r (Nat.le_of_not_lt hge))
  · cases h

theorem happens_read {j : Job} {s s' : State} {w : Nat}
    (h : s.step j (.read w) = some s') : Happens j s s' := by
  simp only [State.step] at h
  split at h
  · next reply m intermediate hphase =>
    split at h
    · next hlt =>
      cases h
      exact .worked w _ _ (hphase ▸ .read reply m intermediate hlt)
    · cases h
  · cases h

theorem happens_sort {j : Job} {s s' : State} {w : Nat} {sorted : List KeyValue}
    (h : s.step j (.sort w sorted) = some s') : Happens j s s' := by
  simp only [State.step] at h
  split at h
  · next reply m intermediate hphase =>
    split at h
    · cases h
    · next hge =>
      split at h
      · next hsorts =>
        cases h
        exact .worked w _ _
          (hphase ▸ .sorted reply m intermediate sorted (Nat.le_of_not_lt hge) hsorts)
      · cases h
  · cases h

theorem happens_report {j : Job} {s s' : State} {w : Nat} {delivered : Bool}
    (h : s.step j (.report w delivered) = some s') : Happens j s s' := by
  simp only [State.step] at h
  split at h
  · next type id hphase =>
    split at h
    · simp only [Option.bind_eq_bind, Option.bind_eq_some_iff, Option.some.injEq] at h
      obtain ⟨coordinator, hreport, rfl⟩ := h
      exact .reported w type id coordinator hphase hreport
    · cases h
      exact .worked w _ _ (hphase ▸ .lost type id)
  · cases h

theorem happens {j : Job} {s s' : State} {act : Action} (h : s.step j act = some s') :
    Happens j s s' := by
  cases act with
  | tick d =>
    cases h
    exact .ticked d
  | start w =>
    simp only [State.step] at h
    split at h
    · next hphase =>
      cases h
      exact .worked w _ _ (hphase ▸ .started)
    · cases h
  | crash w =>
    cases h
    exact .worked w _ _ (.crashed _)
  | request w => exact happens_request h
  | load w => exact happens_load h
  | create w => exact happens_create h
  | encode w =>
    simp only [State.step] at h
    split at h
    · next reply buckets r kv todo hphase =>
      cases h
      exact .worked w _ _ (hphase ▸ .encoded reply buckets r kv todo)
    · cases h
  | rename w =>
    simp only [State.step] at h
    split at h
    · next reply buckets r hphase =>
      cases h
      exact .worked w _ _ (hphase ▸ .renamed reply buckets r)
    · cases h
  | read w => exact happens_read h
  | sort w sorted => exact happens_sort h
  | print w =>
    simp only [State.step] at h
    split at h
    · next reply l todo hphase =>
      cases h
      exact .worked w _ _ (hphase ▸ .printed reply l todo)
    · cases h
  | publish w =>
    simp only [State.step] at h
    split at h
    · next reply hphase =>
      cases h
      exact .worked w _ _ (hphase ▸ .published reply)
    · cases h
  | report w delivered => exact happens_report h

end RaftLabs.MR
