import Mathlib.Algebra.Order.BigOperators.Group.List
import Mathlib.Logic.Relation
import Mathlib.Tactic.Ring

/-!
# Depth-first search with a memory

A search from a start towards a goal that tries the moves of a configuration in
order, takes a move back when it has failed, and does not enter a configuration
that looks the same as one it has entered before.  A configuration is remembered
when it is entered, not when it has failed, so what the memory excludes need not
be known to fail: it may still be on the path.  The search is right all the same,
because every move brings the configuration one closer to the bottom, and a
configuration on the path lies higher than the one that is tried.
-/

namespace RaftLabs.BacktrackSearch

/-- Where the search starts, what it looks for, which moves it tries and in which
    order, what they lead to, and which configurations it takes for the same. -/
structure Problem (κ ι : Type) where
  start : κ
  goal : κ → Bool
  moves : κ → List ι
  child : κ → ι → Option κ
  same : κ → κ → Bool

/-- A configuration on the path: the move taken there and those left to try. -/
structure Frame (κ ι : Type) where
  config : κ
  move : ι
  todo : List ι

/-- The path, where it ends and what is left to try there, what was entered so far,
    and the moves of the paths from which the search turned back. -/
structure State (κ ι : Type) where
  path : List (Frame κ ι)
  config : κ
  todo : List ι
  visited : List κ
  dead : List (List ι)

inductive Outcome (κ ι : Type) where
  | found
  | failed
  | going (s : State κ ι)

variable {κ ι : Type}

/-- Go back up to the last configuration on the path. -/
def pop (s : State κ ι) (fs : List (Frame κ ι)) (f : Frame κ ι) : State κ ι where
  path := fs
  config := f.config
  todo := f.todo
  visited := s.visited
  dead := s.dead ++ [s.path.map Frame.move]

namespace Problem

variable (P : Problem κ ι)

def init : State κ ι where
  path := []
  config := P.start
  todo := P.moves P.start
  visited := []
  dead := []

/-- Go down to `c` by move `x`. -/
def push (s : State κ ι) (x : ι) (todo : List ι) (c : κ) : State κ ι where
  path := s.path ++ [⟨s.config, x, todo⟩]
  config := c
  todo := P.moves c
  visited := s.visited ++ [c]
  dead := s.dead

/-- One step of the search. -/
def step (s : State κ ι) : Outcome κ ι :=
  if P.goal s.config then .found
  else match s.todo with
    | x :: todo =>
      match P.child s.config x with
      | none => .going { s with todo := todo }
      | some c =>
        if s.visited.any (P.same c) then .going { s with todo := todo }
        else .going (P.push s x todo c)
    | [] =>
      match s.path.getLast? with
      | none => .failed
      | some f => .going (pop s s.path.dropLast f)

/-- The moves `xs`, each possible where it is made, lead from `c` to `d`. -/
inductive Path (c : κ) : List ι → κ → Prop
  | nil : Path c [] c
  | snoc {xs : List ι} {d e : κ} {x : ι} (h : Path c xs d) (hx : x ∈ P.moves d)
      (he : P.child d x = some e) : Path c (xs ++ [x]) e

/-- No moves lead from `c` to a goal. -/
def Hopeless (c : κ) : Prop := ∀ xs d, P.Path c xs d → P.goal d = false

/-- What makes the search right: moves go down, and configurations that look the
    same are at the same height and what one can do the other can. -/
structure Lawful (height : κ → Nat) : Prop where
  child_height : ∀ c x d, x ∈ P.moves c → P.child c x = some d → height d + 1 = height c
  same_height : ∀ c d, P.same c d = true → height c = height d
  same_goal : ∀ c d, P.same c d = true → P.goal c = true → P.goal d = true
  same_child : ∀ c d x c', P.same c d = true → x ∈ P.moves c → P.child c x = some c' →
    x ∈ P.moves d ∧ ∃ d', P.child d x = some d' ∧ P.same c' d' = true

end Problem

variable {P : Problem κ ι}

/-! ### Paths -/

/-- A path is empty or begins with a move. -/
theorem Problem.Path.cases_head {c e : κ} {xs : List ι} (h : P.Path c xs e) :
    (xs = [] ∧ c = e) ∨ ∃ x ys d, xs = x :: ys ∧ x ∈ P.moves c ∧ P.child c x = some d ∧
      P.Path d ys e := by
  induction h with
  | nil => exact .inl ⟨rfl, rfl⟩
  | @snoc xs d e y h hy he ih =>
    rcases ih with ⟨rfl, rfl⟩ | ⟨x, ys, d', rfl, hx, hd', hrest⟩
    · exact .inr ⟨y, [], e, rfl, hy, he, .nil⟩
    · exact .inr ⟨x, ys ++ [y], d', rfl, hx, hd', hrest.snoc hy he⟩

/-- A configuration is hopeless if it is no goal and its moves lead nowhere else. -/
theorem hopeless_of_moves {c : κ} (hgoal : P.goal c = false)
    (hmoves : ∀ x ∈ P.moves c, ∀ d, P.child c x = some d → P.Hopeless d) : P.Hopeless c := by
  intro xs e h
  rcases h.cases_head with ⟨-, rfl⟩ | ⟨x, ys, d, -, hx, hd, hrest⟩
  · exact hgoal
  · exact hmoves x hx d hd ys e hrest

variable {height : κ → Nat}

namespace Problem.Lawful

/-- What leads somewhere from one of two configurations that look the same leads to
    one that looks the same from the other. -/
theorem path_same (hP : P.Lawful height) {c d e : κ} {xs : List ι} (hcd : P.same c d = true)
    (h : P.Path c xs e) : ∃ e', P.Path d xs e' ∧ P.same e e' = true := by
  induction h with
  | nil => exact ⟨d, .nil, hcd⟩
  | snoc _ hx he ih =>
    obtain ⟨d', hd', hsame⟩ := ih
    obtain ⟨hx', e', he', hsame'⟩ := hP.same_child _ d' _ _ hsame hx he
    exact ⟨e', hd'.snoc hx' he', hsame'⟩

theorem hopeless_of_same (hP : P.Lawful height) {c d : κ} (hcd : P.same c d = true)
    (hd : P.Hopeless d) : P.Hopeless c := by
  intro xs e h
  obtain ⟨e', he', hsame⟩ := hP.path_same hcd h
  by_contra hgoal
  have hgoal' := hP.same_goal e e' hsame (by simpa using hgoal)
  rw [hd xs e' he'] at hgoal'
  cases hgoal'

end Problem.Lawful

/-! ### Steps -/

/-- What a step can do: pass over a move, enter a configuration, or turn back. -/
inductive Moves (P : Problem κ ι) : State κ ι → State κ ι → Prop
  | skip {s : State κ ι} {x : ι} {todo : List ι} (hgoal : P.goal s.config = false)
      (htodo : s.todo = x :: todo)
      (hchild : ∀ c, P.child s.config x = some c → s.visited.any (P.same c) = true) :
      Moves P s { s with todo := todo }
  | enter {s : State κ ι} {x : ι} {todo : List ι} {c : κ} (hgoal : P.goal s.config = false)
      (htodo : s.todo = x :: todo) (hchild : P.child s.config x = some c) :
      Moves P s (P.push s x todo c)
  | back {s : State κ ι} {fs : List (Frame κ ι)} {f : Frame κ ι}
      (hgoal : P.goal s.config = false) (htodo : s.todo = []) (hpath : s.path = fs ++ [f]) :
      Moves P s (pop s fs f)

variable {s s' : State κ ι}

theorem step_going (h : P.step s = .going s') : Moves P s s' := by
  unfold Problem.step at h
  split at h
  · cases h
  · next hgoal =>
    have hgoal : P.goal s.config = false := by simpa using hgoal
    split at h
    · next x todo htodo =>
      split at h
      · next hchild =>
        cases h
        exact .skip hgoal htodo (by simp [hchild])
      · next c hchild =>
        split at h
        · next hv =>
          cases h
          refine .skip hgoal htodo fun d hd => ?_
          cases hchild.symm.trans hd
          exact hv
        · cases h
          exact .enter hgoal htodo hchild
    · next htodo =>
      split at h
      · cases h
      · next f hf =>
        cases h
        exact .back hgoal htodo (List.dropLast_append_getLast? f hf).symm

theorem step_found (h : P.step s = .found) : P.goal s.config = true := by
  unfold Problem.step at h
  split at h
  · next hgoal => exact hgoal
  · split at h <;> (split at h <;> try split at h) <;> cases h

theorem step_failed (h : P.step s = .failed) :
    P.goal s.config = false ∧ s.todo = [] ∧ s.path = [] := by
  unfold Problem.step at h
  split at h
  · cases h
  · next hgoal =>
    split at h
    · split at h
      · cases h
      · split at h <;> cases h
    · next htodo =>
      split at h
      · next hpath => exact ⟨by simpa using hgoal, htodo, List.getLast?_eq_none_iff.mp hpath⟩
      · cases h

/-! ### The invariant -/

/-- The frames lead from `c` to `d`, and what was tried before the move that was
    taken has the property `T`. -/
inductive Leads (P : Problem κ ι) (T : κ → Prop) (c : κ) : List (Frame κ ι) → κ → Prop
  | nil : Leads P T c [] c
  | snoc {fs : List (Frame κ ι)} {d e : κ} {x : ι} {tried todo : List ι} (h : Leads P T c fs d)
      (hmoves : P.moves d = tried ++ x :: todo)
      (htried : ∀ y ∈ tried, ∀ d', P.child d y = some d' → T d')
      (he : P.child d x = some e) : Leads P T c (fs ++ [⟨d, x, todo⟩]) e

/-- All moves before the ones that are left to try have been tried. -/
def Tried (P : Problem κ ι) (T : κ → Prop) (c : κ) (todo : List ι) : Prop :=
  ∃ tried, P.moves c = tried ++ todo ∧ ∀ y ∈ tried, ∀ d, P.child c y = some d → T d

variable {T T' : κ → Prop} {c d e : κ} {x : ι} {todo : List ι} {fs : List (Frame κ ι)}
  {f : Frame κ ι}

theorem Leads.mono (h : Leads P T c fs e) (hT : ∀ d, T d → T' d) : Leads P T' c fs e := by
  induction h with
  | nil => exact .nil
  | snoc _ hmoves htried he ih =>
    exact .snoc ih hmoves (fun y hy d' hd' => hT d' (htried y hy d' hd')) he

theorem Leads.path (h : Leads P T c fs e) : P.Path c (fs.map Frame.move) e := by
  induction h with
  | nil => exact .nil
  | snoc _ hmoves _ he ih =>
    rw [List.map_append]
    exact ih.snoc (by simp [hmoves]) he

theorem Leads.eq_of_nil (h : Leads P T c [] e) : e = c := by
  generalize hfs : ([] : List (Frame κ ι)) = fs at h
  cases h with
  | nil => rfl
  | snoc => simp at hfs

/-- The last frame of a path, and the path up to it. -/
theorem Leads.last (h : Leads P T c (fs ++ [f]) e) :
    Leads P T c fs f.config ∧ Tried P T f.config (f.move :: f.todo) ∧
      P.child f.config f.move = some e := by
  generalize hgs : fs ++ [f] = gs at h
  cases h with
  | nil => simp at hgs
  | snoc h hmoves htried he =>
    obtain ⟨rfl, hlast⟩ := List.append_inj' hgs rfl
    cases hlast
    exact ⟨h, ⟨_, hmoves, htried⟩, he⟩

/-- The configurations on the path lie above the last one. -/
theorem Leads.height_lt (hP : P.Lawful height) (h : Leads P T c fs e) :
    ∀ f ∈ fs, height e < height f.config := by
  induction h with
  | nil => simp
  | @snoc fs d e x tried todo _ hmoves _ he ih =>
    have hstep := hP.child_height d x e (by simp [hmoves]) he
    intro f hf
    rcases List.mem_append.mp hf with hf | hf
    · have := ih f hf
      omega
    · rw [List.mem_singleton.mp hf]
      dsimp only
      omega

theorem Tried.mono (h : Tried P T c todo) (hT : ∀ d, T d → T' d) : Tried P T' c todo := by
  obtain ⟨tried, hmoves, htried⟩ := h
  exact ⟨tried, hmoves, fun y hy d hd => hT d (htried y hy d hd)⟩

theorem Tried.mem (h : Tried P T c (x :: todo)) : x ∈ P.moves c := by
  obtain ⟨tried, hmoves, -⟩ := h
  simp [hmoves]

/-- One more move has been tried. -/
theorem Tried.next (h : Tried P T c (x :: todo)) (hx : ∀ d, P.child c x = some d → T d) :
    Tried P T c todo := by
  obtain ⟨tried, hmoves, htried⟩ := h
  refine ⟨tried ++ [x], by simp [hmoves], fun y hy => ?_⟩
  rcases List.mem_append.mp hy with hy | hy
  · exact htried y hy
  · rw [List.mem_singleton.mp hy]
    exact hx

/-- All moves have been tried. -/
theorem Tried.all (h : Tried P T c []) : ∀ y ∈ P.moves c, ∀ d, P.child c y = some d → T d := by
  obtain ⟨tried, hmoves, htried⟩ := h
  intro y hy
  rw [hmoves, List.append_nil] at hy
  exact htried y hy

/-- What was tried is hopeless, and what was entered is hopeless or on the path. -/
structure Inv (P : Problem κ ι) (s : State κ ι) : Prop where
  leads : Leads P P.Hopeless P.start s.path s.config
  above : ∀ f ∈ s.path, P.goal f.config = false
  tried : Tried P P.Hopeless s.config s.todo
  visited : ∀ v ∈ s.visited, P.Hopeless v ∨ v ∈ s.path.map Frame.config ∨ v = s.config

theorem Inv.init : Inv P P.init where
  leads := .nil
  above := by simp [Problem.init]
  tried := ⟨[], rfl, by simp⟩
  visited := by simp [Problem.init]

/-- What the memory excludes is hopeless: it looks the same as a configuration that
    is hopeless or on the path, and those lie higher. -/
theorem Inv.hopeless_of_visited (h : Inv P s) (hP : P.Lawful height)
    (hx : x ∈ P.moves s.config) (hc : P.child s.config x = some c)
    (hv : s.visited.any (P.same c) = true) : P.Hopeless c := by
  obtain ⟨v, hv, hsame⟩ := List.any_eq_true.mp hv
  have hheight := hP.same_height c v hsame
  have hdown := hP.child_height s.config x c hx hc
  rcases h.visited v hv with hhopeless | hpath | rfl
  · exact hP.hopeless_of_same hsame hhopeless
  · obtain ⟨f, hf, rfl⟩ := List.mem_map.mp hpath
    have := h.leads.height_lt hP f hf
    omega
  · omega

theorem Inv.step (hP : P.Lawful height) (h : Inv P s) (hst : Moves P s s') : Inv P s' := by
  cases hst with
  | @skip x todo hgoal htodo hchild =>
    have htried := h.tried
    rw [htodo] at htried
    refine ⟨h.leads, h.above, htried.next fun c hc => ?_, h.visited⟩
    exact h.hopeless_of_visited hP htried.mem hc (hchild c hc)
  | @enter x todo c hgoal htodo hchild =>
    obtain ⟨tried, hmoves, htried⟩ := h.tried
    rw [htodo] at hmoves
    refine ⟨h.leads.snoc hmoves htried hchild, ?_, ⟨[], rfl, by simp⟩, ?_⟩
    · intro f hf
      rcases List.mem_append.mp hf with hf | hf
      · exact h.above f hf
      · rw [List.mem_singleton.mp hf]
        exact hgoal
    · intro v hv
      simp only [Problem.push, List.map_append, List.map_cons, List.map_nil, List.mem_append,
        List.mem_singleton] at hv ⊢
      rcases hv with hv | rfl
      · rcases h.visited v hv with hhopeless | hpath | rfl
        · exact .inl hhopeless
        · exact .inr (.inl (.inl hpath))
        · exact .inr (.inl (.inr rfl))
      · exact .inr (.inr rfl)
  | @back fs f hgoal htodo hpath =>
    -- all moves of the last configuration have been tried, so it is hopeless
    have htried := h.tried
    rw [htodo] at htried
    have hhopeless : P.Hopeless s.config := hopeless_of_moves hgoal htried.all
    have hleads := h.leads
    have habove := h.above
    rw [hpath] at hleads habove
    obtain ⟨hleads, htried, hchild⟩ := hleads.last
    refine ⟨hleads, fun g hg => habove g (List.mem_append_left _ hg), htried.next ?_, ?_⟩
    · intro d hd
      cases hchild.symm.trans hd
      exact hhopeless
    · intro v hv
      rcases h.visited v hv with hv | hv | rfl
      · exact .inl hv
      · rw [hpath, List.map_append, List.mem_append] at hv
        rcases hv with hv | hv
        · exact .inr (.inl hv)
        · exact .inr (.inr (List.mem_singleton.mp hv))
      · exact .inl hhopeless

/-- If the search fails, no moves lead to a goal. -/
theorem Inv.failed (h : Inv P s) (hend : P.step s = .failed) : P.Hopeless P.start := by
  obtain ⟨hgoal, htodo, hpath⟩ := step_failed hend
  have hleads := h.leads
  have htried := h.tried
  rw [hpath] at hleads
  rw [htodo] at htried
  rw [← hleads.eq_of_nil]
  exact hopeless_of_moves hgoal htried.all

/-! ### What a search that fails has seen -/

/-- Linked by configurations of which each looks the same as the next. -/
def Problem.Alike (P : Problem κ ι) : κ → κ → Prop :=
  Relation.ReflTransGen fun c d => P.same c d = true

/-- A configuration like `c` was entered. -/
def Seen (P : Problem κ ι) (visited : List κ) (c : κ) : Prop := ∃ v ∈ visited, P.Alike c v

/-- The configurations on the path and at its end. -/
def configs (s : State κ ι) : List κ := s.path.map Frame.config ++ [s.config]

/-- What was tried was seen, and the search turned back from every configuration
    that was entered and is not on the path, having tried all its moves. -/
structure Explored (P : Problem κ ι) (s : State κ ι) : Prop where
  leads : Leads P (Seen P s.visited) P.start s.path s.config
  tried : Tried P (Seen P s.visited) s.config s.todo
  entered : ∀ c ∈ (configs s).tail, c ∈ s.visited
  back : ∀ v ∈ s.visited, v ∈ configs s ∨
    (∃ xs ∈ s.dead, P.Path P.start xs v) ∧ Tried P (Seen P s.visited) v []
  dead : ∀ xs ∈ s.dead, ∃ c, P.Path P.start xs c

theorem Seen.of_mem {vs : List κ} (h : c ∈ vs) : Seen P vs c := ⟨c, h, .refl⟩

theorem Seen.mono {vs ws : List κ} (h : Seen P vs c) : Seen P (vs ++ ws) c := by
  obtain ⟨v, hv, hcv⟩ := h
  exact ⟨v, List.mem_append_left ws hv, hcv⟩

theorem Explored.init : Explored P P.init where
  leads := .nil
  tried := ⟨[], rfl, by simp⟩
  entered := by simp [configs, Problem.init]
  back := by simp [Problem.init]
  dead := by simp [Problem.init]

theorem configs_push (s : State κ ι) (x : ι) (todo : List ι) (c : κ) :
    configs (P.push s x todo c) = configs s ++ [c] := by
  simp [configs, Problem.push]

theorem configs_ne_nil (s : State κ ι) : configs s ≠ [] := by
  simp [configs]

/-- The path before the last configuration was entered. -/
theorem configs_pop (hpath : s.path = fs ++ [f]) :
    configs s = configs (pop s fs f) ++ [s.config] := by
  simp [configs, pop, hpath]

theorem Explored.step (h : Explored P s) (hst : Moves P s s') : Explored P s' := by
  cases hst with
  | @skip x todo hgoal htodo hchild =>
    have htried := h.tried
    rw [htodo] at htried
    refine ⟨h.leads, htried.next fun c hc => ?_, h.entered, h.back, h.dead⟩
    obtain ⟨v, hv, hsame⟩ := List.any_eq_true.mp (hchild c hc)
    exact ⟨v, hv, .single hsame⟩
  | @enter x todo c hgoal htodo hchild =>
    obtain ⟨tried, hmoves, htried⟩ := h.tried
    rw [htodo] at hmoves
    have hmono : ∀ d, Seen P s.visited d → Seen P (s.visited ++ [c]) d := fun _ hd => hd.mono
    refine ⟨?_, ⟨[], rfl, by simp⟩, ?_, ?_, h.dead⟩
    · exact (h.leads.mono hmono).snoc hmoves (fun y hy d hd => hmono d (htried y hy d hd)) hchild
    · intro d hd
      rw [configs_push, List.tail_append_of_ne_nil (configs_ne_nil s)] at hd
      rcases List.mem_append.mp hd with hd | hd
      · exact List.mem_append_left _ (h.entered d hd)
      · exact List.mem_append_right _ hd
    · intro v hv
      rw [configs_push]
      rcases List.mem_append.mp hv with hv | hv
      · rcases h.back v hv with hpath | ⟨hdead, hall⟩
        · exact .inl (List.mem_append_left _ hpath)
        · exact .inr ⟨hdead, hall.mono hmono⟩
      · exact .inl (List.mem_append_right _ hv)
  | @back fs f hgoal htodo hpath =>
    have htried := h.tried
    have hleads := h.leads
    have hentered := h.entered
    rw [htodo] at htried
    rw [hpath] at hleads
    rw [configs_pop hpath, List.tail_append_of_ne_nil (configs_ne_nil _)] at hentered
    obtain ⟨hleads, hlast, hchild⟩ := hleads.last
    refine ⟨hleads, hlast.next ?_, fun c hc => hentered c (List.mem_append_left _ hc), ?_, ?_⟩
    · intro d hd
      cases hchild.symm.trans hd
      exact .of_mem (hentered _ (List.mem_append_right _ (List.mem_singleton_self _)))
    · -- the configuration that is left has been searched, and its path is recorded
      have hleft : (∃ xs ∈ s.dead ++ [s.path.map Frame.move], P.Path P.start xs s.config) ∧
          Tried P (Seen P s.visited) s.config [] :=
        ⟨⟨_, List.mem_append_right _ (List.mem_singleton_self _), h.leads.path⟩, htried⟩
      intro v hv
      rcases h.back v hv with hon | ⟨⟨xs, hxs, hpath'⟩, hall⟩
      · rw [configs_pop hpath] at hon
        rcases List.mem_append.mp hon with hon | hon
        · exact .inl hon
        · rw [List.mem_singleton.mp hon]
          exact .inr hleft
      · exact .inr ⟨⟨xs, List.mem_append_left _ hxs, hpath'⟩, hall⟩
    · intro xs hxs
      rcases List.mem_append.mp hxs with hxs | hxs
      · exact h.dead xs hxs
      · exact ⟨s.config, List.mem_singleton.mp hxs ▸ h.leads.path⟩

namespace Problem.Lawful

theorem child_alike (hP : P.Lawful height) {c' : κ} (hcd : P.Alike c d) (hx : x ∈ P.moves c)
    (hc : P.child c x = some c') :
    x ∈ P.moves d ∧ ∃ d', P.child d x = some d' ∧ P.Alike c' d' := by
  induction hcd with
  | refl => exact ⟨hx, c', hc, .refl⟩
  | tail _ hsame ih =>
    obtain ⟨hx', e', he', halike⟩ := ih
    obtain ⟨hx'', d', hd', hsame'⟩ := hP.same_child _ _ x e' hsame hx' he'
    exact ⟨hx'', d', hd', halike.tail hsame'⟩

theorem alike_height (hP : P.Lawful height) (hcd : P.Alike c d) : height c = height d := by
  induction hcd with
  | refl => rfl
  | tail _ hsame ih => exact ih.trans (hP.same_height _ _ hsame)

theorem path_height (hP : P.Lawful height) {xs : List ι} (h : P.Path c xs d) :
    height d + xs.length = height c := by
  induction h with
  | nil => rfl
  | snoc _ hx he ih =>
    have := hP.child_height _ _ _ hx he
    rw [List.length_append, List.length_singleton]
    omega

end Problem.Lawful

/-- A search that fails has turned back from a configuration like every one that can
    be reached, and has recorded the moves it came by. -/
theorem Explored.failed (hinv : Explored P s) (hP : P.Lawful height)
    (hend : P.step s = .failed) {xs : List ι} (hpath : P.Path P.start xs c) (hne : xs ≠ []) :
    ∃ v, P.Alike c v ∧ ∃ ys ∈ s.dead, P.Path P.start ys v := by
  obtain ⟨-, htodo, hnil⟩ := step_failed hend
  have hleads := hinv.leads
  have htried := hinv.tried
  rw [hnil] at hleads
  rw [htodo, hleads.eq_of_nil] at htried
  have hcases : ∀ v ∈ s.visited, v = P.start ∨
      (∃ ys ∈ s.dead, P.Path P.start ys v) ∧ Tried P (Seen P s.visited) v [] := by
    intro v hv
    rcases hinv.back v hv with hon | hback
    · rw [configs, hnil, hleads.eq_of_nil] at hon
      exact .inl (by simpa using hon)
    · exact .inr hback
  have hseen : Seen P s.visited c := by
    induction hpath with
    | nil => exact absurd rfl hne
    | @snoc xs d e x hpath hx he ih =>
      rcases List.eq_nil_or_concat xs with rfl | ⟨zs, z, rfl⟩
      · obtain rfl : d = P.start := by
          rcases hpath.cases_head with ⟨-, rfl⟩ | ⟨x, ys, d', hcons, -⟩
          · rfl
          · cases hcons
        exact htried.all x hx e he
      · obtain ⟨v, hv, halike⟩ := ih (by simp)
        obtain ⟨hx', e', he', halike'⟩ := hP.child_alike halike hx he
        have hall : Tried P (Seen P s.visited) v [] := by
          rcases hcases v hv with rfl | ⟨-, hall⟩
          · exact htried
          · exact hall
        obtain ⟨w, hw, hew⟩ := hall.all x hx' e' he'
        exact ⟨w, hw, halike'.trans hew⟩
  obtain ⟨v, hv, halike⟩ := hseen
  rcases hcases v hv with rfl | ⟨hdead, -⟩
  · -- nothing below the start is like it
    have hdown := hP.path_height hpath
    have hsame := hP.alike_height halike
    have := List.length_pos_iff.mpr hne
    omega
  · exact ⟨v, halike, hdead⟩

/-! ### Termination -/

/-- A bound on the steps below a configuration of height less than `h` when no
    configuration has more than `b` moves. -/
def cost (b : Nat) : Nat → Nat
  | 0 => 0
  | h + 1 => 1 + b * (1 + cost b h)

/-- The steps that are left at a configuration with `todo` moves to try. -/
def weight (b h todo : Nat) : Nat := 1 + todo * (1 + cost b h)

/-- The steps that are left. -/
def measure (b : Nat) (height : κ → Nat) (s : State κ ι) : Nat :=
  weight b (height s.config) s.todo.length +
    (s.path.map fun f => weight b (height f.config) f.todo.length).sum

theorem weight_le_cost {b h todo : Nat} (hle : todo ≤ b) : weight b h todo ≤ cost b (h + 1) :=
  Nat.add_le_add_left (Nat.mul_le_mul_right _ hle) 1

theorem weight_succ (b h todo : Nat) :
    weight b h (todo + 1) = weight b h todo + (1 + cost b h) := by
  unfold weight
  ring

/-- Every step uses one up. -/
theorem Inv.measure_lt (h : Inv P s) (hP : P.Lawful height) {b : Nat}
    (hb : ∀ c, (P.moves c).length ≤ b) (hst : Moves P s s') :
    measure b height s' < measure b height s := by
  cases hst with
  | @skip x todo hgoal htodo hchild =>
    simp only [measure, htodo, List.length_cons, weight_succ]
    omega
  | @enter x todo c hgoal htodo hchild =>
    have htried := h.tried
    rw [htodo] at htried
    have hdown := hP.child_height s.config x c htried.mem hchild
    have hcost := weight_le_cost (h := height c) (hb c)
    rw [hdown] at hcost
    simp only [measure, Problem.push, htodo, List.length_cons, weight_succ, List.map_append,
      List.map_cons, List.map_nil, List.sum_append, List.sum_singleton]
    omega
  | @back fs f hgoal htodo hpath =>
    simp only [measure, pop, hpath, List.map_append, List.map_cons, List.map_nil, List.sum_append,
      List.sum_singleton]
    unfold weight
    omega

theorem measure_init_le {b : Nat} (hb : ∀ c, (P.moves c).length ≤ b) :
    measure b height P.init ≤ cost b (height P.start + 1) := by
  simpa [measure, Problem.init] using weight_le_cost (hb P.start)

end RaftLabs.BacktrackSearch
