import LeafDb.Base.Run

/-!
# Threads that take locks

Programs of which only the locks are modelled: an action may raise or not, and a test may come out either way. A lock is
taken and given back by `locked`, whether its body returns or raises. Under a discipline (locks are taken in the order of
their ranks, or again where they are reentrant) no thread waits for ever because of the others (`Inv.progress`), and while
a thread has a lock nobody else does what the lock is for (`Inv.exclusive`).
-/

namespace LeafDb

namespace Locks

variable {T L B A : Type}

/-- `attempt c d e` is `try: c except: d else: e`; the exception may be none that is caught. -/
inductive Code (L B A : Type)
  | skip
  | act (a : A)
  | throw
  | seq (c d : Code L B A)
  | ite (b : B) (c d : Code L B A)
  | loop (b : B) (c : Code L B A)
  | locked (l : L) (c : Code L B A)
  | attempt (c d e : Code L B A)
  | final (c d : Code L B A)

/-- One after the other. -/
def Code.block (cs : List (Code L B A)) : Code L B A := cs.foldr .seq .skip

/-- What a thread has still to do. -/
inductive Frame (L B A : Type)
  | code (c : Code L B A)
  | release (l : L)
  | handler (d e : Code L B A)
  | final (d : Code L B A)

structure Thread (L B A : Type) where
  raising : Bool
  stack : List (Frame L B A)

/-- Who has a lock, and how often it has been taken again. -/
abbrev Table (T L : Type) := L → Option (T × Nat)

structure State (T L B A : Type) where
  threads : T → Thread L B A
  table : Table T L
  done : List (T × A)

/-- Which locks can be taken again, their order, and which of them an action is to be done under. -/
structure Discipline (L A : Type) where
  reentrant : L → Bool
  rank : L → Nat
  needs : A → List L

/-- The locks that are to be given back, the last one first. -/
def held : List (Frame L B A) → List L
  | [] => []
  | .release l :: k => l :: held k
  | _ :: k => held k

section Steps

variable [DecidableEq T] [DecidableEq L]

def acquire (reentrant : L → Bool) (tab : Table T L) (t : T) (l : L) : Option (Table T L) :=
  match tab l with
  | none => some (Function.update tab l (some (t, 0)))
  | some (u, n) => if u = t ∧ reentrant l then some (Function.update tab l (some (t, n + 1))) else none

/-- Only the thread that has the lock can give it back. -/
def release (tab : Table T L) (t : T) (l : L) : Option (Table T L) :=
  match tab l with
  | none => none
  | some (u, n) => if u = t then some (Function.update tab l (if n = 0 then none else some (t, n - 1))) else none

/-- One step of the thread `t`; `ok` says whether the action returns, how the test comes out or whether the exception is
one that is caught. -/
def Thread.step (reentrant : L → Bool) (tab : Table T L) (t : T) (ok : Bool) : Thread L B A → Option (Thread L B A × Table T L)
  | ⟨_, []⟩ => none
  | ⟨true, .code _ :: k⟩ => some (⟨true, k⟩, tab)
  | ⟨false, .code .skip :: k⟩ => some (⟨false, k⟩, tab)
  | ⟨false, .code (.act _) :: k⟩ => some (⟨!ok, k⟩, tab)
  | ⟨false, .code .throw :: k⟩ => some (⟨true, k⟩, tab)
  | ⟨false, .code (.seq c d) :: k⟩ => some (⟨false, .code c :: .code d :: k⟩, tab)
  | ⟨false, .code (.ite _ c d) :: k⟩ => some (⟨false, .code (if ok then c else d) :: k⟩, tab)
  | ⟨false, .code (.loop b c) :: k⟩ => some (⟨false, if ok then .code c :: .code (.loop b c) :: k else k⟩, tab)
  | ⟨false, .code (.locked l c) :: k⟩ => (acquire reentrant tab t l).map fun tab' => (⟨false, .code c :: .release l :: k⟩, tab')
  | ⟨false, .code (.attempt c d e) :: k⟩ => some (⟨false, .code c :: .handler d e :: k⟩, tab)
  | ⟨false, .code (.final c d) :: k⟩ => some (⟨false, .code c :: .final d :: k⟩, tab)
  | ⟨r, .release l :: k⟩ =>
    match release tab t l with
    | some tab' => some (⟨r, k⟩, tab')
    | none => some (⟨true, k⟩, tab)
  | ⟨false, .handler _ e :: k⟩ => some (⟨false, .code e :: k⟩, tab)
  | ⟨true, .handler d _ :: k⟩ => some (if ok then ⟨false, .code d :: k⟩ else ⟨true, k⟩, tab)
  | ⟨false, .final d :: k⟩ => some (⟨false, .code d :: k⟩, tab)
  | ⟨true, .final d :: k⟩ => some (⟨false, .code d :: .code .throw :: k⟩, tab)

/-- The action that the next step of the thread tries. -/
def Thread.action : Thread L B A → Option A
  | ⟨false, .code (.act a) :: _⟩ => some a
  | _ => none

/-- One step of the thread `e.1`. -/
def next (reentrant : L → Bool) (s : State T L B A) (e : T × Bool) : Option (State T L B A) :=
  ((s.threads e.1).step reentrant s.table e.1 e.2).map fun r =>
    { threads := Function.update s.threads e.1 r.1
      table := r.2
      done := s.done ++ (s.threads e.1).action.toList.map (Prod.mk e.1) }

/-- The thread `t` is to take a lock that `u` has. -/
def State.Waits (reentrant : L → Bool) (s : State T L B A) (t : T) (l : L) (u : T) : Prop :=
  (∃ c k, s.threads t = ⟨false, .code (.locked l c) :: k⟩) ∧ (∃ n, s.table l = some (u, n)) ∧ ¬(u = t ∧ reentrant l)

def State.CanStep (reentrant : L → Bool) (s : State T L B A) (t : T) : Prop := ∀ ok, ∃ s', next reentrant s (t, ok) = some s'

/-! ### The discipline -/

variable (D : Discipline L A)

/-- The lock `l` may be taken by a thread that has the locks `hs`. -/
def Discipline.MayTake (hs : List L) (l : L) : Prop := (l ∈ hs ∧ D.reentrant l) ∨ ∀ h ∈ hs, D.rank h < D.rank l

/-- Under the locks `hs` the program takes only locks that it may take, and does every action under the locks it needs. -/
def Code.Obeys : List L → Code L B A → Prop
  | _, .skip => True
  | hs, .act a => ∀ l ∈ D.needs a, l ∈ hs
  | _, .throw => True
  | hs, .seq c d => c.Obeys hs ∧ d.Obeys hs
  | hs, .ite _ c d => c.Obeys hs ∧ d.Obeys hs
  | hs, .loop _ c => c.Obeys hs
  | hs, .locked l c => D.MayTake hs l ∧ c.Obeys (l :: hs)
  | hs, .attempt c d e => c.Obeys hs ∧ d.Obeys hs ∧ e.Obeys hs
  | hs, .final c d => c.Obeys hs ∧ d.Obeys hs

/-- What is left of a program that obeys. -/
def Obeys : List (Frame L B A) → Prop
  | [] => True
  | .code c :: k => c.Obeys D (held k) ∧ Obeys k
  | .release _ :: k => Obeys k
  | .handler d e :: k => (d.Obeys D (held k) ∧ e.Obeys D (held k)) ∧ Obeys k
  | .final d :: k => d.Obeys D (held k) ∧ Obeys k

/-- How often `t` has taken the lock. -/
def depth (tab : Table T L) (t : T) (l : L) : Nat :=
  match tab l with
  | none => 0
  | some (u, n) => if u = t then n + 1 else 0

/-- The table says who has which lock, and every thread obeys. -/
structure Inv (s : State T L B A) : Prop where
  owns : ∀ t l, (held (s.threads t).stack).count l = depth s.table t l
  obeys : ∀ t, Obeys D (s.threads t).stack

/-- Every thread has a program to run, and no lock is taken. -/
def start (programs : T → Code L B A) : State T L B A := ⟨fun t => ⟨false, [.code (programs t)]⟩, fun _ => none, []⟩

omit [DecidableEq T] [DecidableEq L] in
@[simp] theorem Code.obeys_block {D : Discipline L A} {hs : List L} {cs : List (Code L B A)} :
    (Code.block cs).Obeys D hs ↔ ∀ c ∈ cs, c.Obeys D hs := by
  induction cs with
  | nil => simp [Code.block, Code.Obeys]
  | cons c cs ih =>
    rw [List.forall_mem_cons, ← ih]
    exact Iff.rfl

omit [DecidableEq T] [DecidableEq L] in
/-- Less can be asked of the actions. -/
theorem Code.Obeys.mono {D : Discipline L A} {needs : A → List L} (hn : ∀ a, ∀ l ∈ needs a, l ∈ D.needs a) {hs : List L} {c : Code L B A}
    (h : c.Obeys D hs) : c.Obeys { D with needs := needs } hs := by
  induction c generalizing hs with
  | skip | throw => trivial
  | act a => exact fun l hl => h l (hn a l hl)
  | seq c d ihc ihd | ite b c d ihc ihd | final c d ihc ihd => exact ⟨ihc h.1, ihd h.2⟩
  | loop b c ih => exact ih (show c.Obeys D hs from h)
  | locked l c ih => exact ⟨h.1, ih h.2⟩
  | attempt c d e ihc ihd ihe => exact ⟨ihc h.1, ihd h.2.1, ihe h.2.2⟩

/-! ### The table -/

section Table

variable {tab tab' : Table T L} {t u : T} {l m : L} {reentrant : L → Bool}

omit [DecidableEq L] in
theorem depth_pos : 0 < depth tab t l ↔ ∃ n, tab l = some (t, n) := by
  rw [depth]
  rcases tab l with _ | ⟨u, n⟩
  · simp
  · by_cases h : u = t <;> simp [h]

omit [DecidableEq L] in
/-- Two threads do not have one lock. -/
theorem eq_of_depth (ht : 0 < depth tab t l) (hu : 0 < depth tab u l) : t = u := by
  obtain ⟨n, hn⟩ := depth_pos.1 ht
  obtain ⟨n', hn'⟩ := depth_pos.1 hu
  rw [hn] at hn'
  cases hn'
  rfl

theorem depth_update (x : Option (T × Nat)) :
    depth (Function.update tab l x) u m = if m = l then depth (fun _ => x) u l else depth tab u m := by
  rw [depth, Function.update_apply]
  by_cases h : m = l
  · rw [if_pos h, if_pos h]
    rfl
  · rw [if_neg h, if_neg h]
    rfl

/-- Taking a lock. -/
theorem depth_acquire (h : acquire reentrant tab t l = some tab') (u : T) (m : L) :
    depth tab' u m = depth tab u m + if u = t ∧ m = l then 1 else 0 := by
  rw [acquire] at h
  split at h
  · rename_i hl
    obtain rfl := Option.some.inj h
    rw [depth_update]
    by_cases hm : m = l
    · subst hm
      by_cases hu : t = u
      · simp [depth, hl, hu]
      · simp [depth, hl, hu, Ne.symm hu]
    · simp [hm]
  · rename_i v n hl
    split at h
    · rename_i hv
      obtain ⟨rfl, -⟩ := hv
      obtain rfl := Option.some.inj h
      rw [depth_update]
      by_cases hm : m = l
      · subst hm
        by_cases hu : v = u
        · simp [depth, hl, hu]
        · simp [depth, hl, hu, Ne.symm hu]
      · simp [hm]
    · cases h

/-- Giving back a lock that one has. -/
theorem release_of_depth (h : 0 < depth tab t l) : ∃ tab', release tab t l = some tab' ∧
    ∀ u m, depth tab u m = depth tab' u m + if u = t ∧ m = l then 1 else 0 := by
  obtain ⟨n, hn⟩ := depth_pos.1 h
  refine ⟨_, by rw [release, hn]; exact if_pos rfl, fun u m => ?_⟩
  rw [depth_update]
  by_cases hm : m = l
  · subst hm
    rcases n with _ | n
    · by_cases hu : t = u
      · simp [depth, hn, hu]
      · simp [depth, hn, hu, Ne.symm hu]
    · by_cases hu : t = u
      · simp [depth, hn, hu]
      · simp [depth, hn, hu, Ne.symm hu]
  · simp [hm]

theorem acquire_eq_none : acquire reentrant tab t l = none ↔ ∃ u, (∃ n, tab l = some (u, n)) ∧ ¬(u = t ∧ reentrant l) := by
  rw [acquire]
  rcases tab l with _ | ⟨u, n⟩
  · simp
  · by_cases h : u = t ∧ reentrant l = true
    · simp [h]
    · exact ⟨fun _ => ⟨u, ⟨n, rfl⟩, h⟩, fun _ => if_neg h⟩

end Table

/-! ### One step -/

section Step

variable {D : Discipline L A} {reentrant : L → Bool} {tab tab' : Table T L} {t : T} {ok : Bool} {th th' : Thread L B A}

/-- A step takes a lock, gives one back or leaves them all. -/
theorem step_held (h : th.step reentrant tab t ok = some (th', tab')) (hown : ∀ l, (held th.stack).count l = depth tab t l) :
    (∀ l, (held th'.stack).count l = depth tab' t l) ∧ ∀ u ≠ t, ∀ l, depth tab' u l = depth tab u l := by
  have hquiet : tab' = tab → held th'.stack = held th.stack →
      (∀ l, (held th'.stack).count l = depth tab' t l) ∧ ∀ u ≠ t, ∀ l, depth tab' u l = depth tab u l := by
    rintro rfl hk
    exact ⟨fun l => by rw [hk, hown], fun u _ l => rfl⟩
  rcases th with ⟨r, _ | ⟨f, k⟩⟩
  · cases h
  cases f with
  | release l =>
    have hpos : 0 < depth tab t l := by
      rw [← hown]
      simp [held]
    obtain ⟨tab'', hrel, hdepth⟩ := release_of_depth hpos
    have hrun : Thread.step reentrant tab t ok ⟨r, .release l :: k⟩ = some (⟨r, k⟩, tab'') := by
      cases r <;> simp [Thread.step, hrel]
    rw [hrun] at h
    cases h
    refine ⟨fun m => ?_, fun u hu m => by simp [hdepth u m, hu]⟩
    have hm := hown m
    rw [hdepth t m, held, List.count_cons] at hm
    by_cases he : l = m
    · subst he
      simpa using hm
    · simpa [he, Ne.symm he] using hm
  | handler d e =>
    cases r with
    | true =>
      cases ok with
      | true =>
        cases h
        exact hquiet rfl rfl
      | false =>
        cases h
        exact hquiet rfl rfl
    | false =>
      cases h
      exact hquiet rfl rfl
  | final d =>
    cases r with
    | true =>
      cases h
      exact hquiet rfl rfl
    | false =>
      cases h
      exact hquiet rfl rfl
  | code c =>
    cases r with
    | true =>
      cases h
      exact hquiet rfl rfl
    | false =>
      cases c with
      | locked l c =>
        obtain ⟨tab'', hacq, he⟩ := Option.map_eq_some_iff.1 h
        cases he
        have hdepth := depth_acquire hacq
        refine ⟨fun m => ?_, fun u hu m => by simp [hdepth u m, hu]⟩
        change (held (.release l :: k)).count m = _
        rw [hdepth t m, held, List.count_cons, show (held k).count m = depth tab t m from hown m]
        by_cases he : l = m
        · simp [he]
        · simp [he, Ne.symm he]
      | loop b c =>
        cases ok with
        | true =>
          cases h
          exact hquiet rfl rfl
        | false =>
          cases h
          exact hquiet rfl rfl
      | skip | act | throw | seq | ite | attempt | final =>
        cases h
        exact hquiet rfl rfl

/-- What is left of a program that obeys obeys. -/
theorem step_obeys (h : th.step reentrant tab t ok = some (th', tab')) (ho : Obeys D th.stack) : Obeys D th'.stack := by
  rcases th with ⟨r, _ | ⟨f, k⟩⟩
  · cases h
  cases f with
  | release l =>
    have hrun : ∃ r' tab'', Thread.step reentrant tab t ok ⟨r, .release l :: k⟩ = some (⟨r', k⟩, tab'') := by
      cases hrel : release tab t l <;> cases r <;> simp [Thread.step, hrel]
    obtain ⟨r', tab'', hrun⟩ := hrun
    rw [hrun] at h
    cases h
    exact ho
  | handler d e =>
    obtain ⟨⟨hd, he⟩, hk⟩ := ho
    cases r with
    | true =>
      cases ok with
      | true =>
        cases h
        exact ⟨hd, hk⟩
      | false =>
        cases h
        exact hk
    | false =>
      cases h
      exact ⟨he, hk⟩
  | final d =>
    obtain ⟨hd, hk⟩ := ho
    cases r with
    | true =>
      cases h
      exact ⟨hd, trivial, hk⟩
    | false =>
      cases h
      exact ⟨hd, hk⟩
  | code c =>
    obtain ⟨hc, hk⟩ := ho
    cases r with
    | true =>
      cases h
      exact hk
    | false =>
      cases c with
      | skip | act | throw =>
        cases h
        exact hk
      | seq c d =>
        cases h
        exact ⟨hc.1, hc.2, hk⟩
      | ite b c d =>
        cases ok with
        | true =>
          cases h
          exact ⟨hc.1, hk⟩
        | false =>
          cases h
          exact ⟨hc.2, hk⟩
      | loop b c =>
        cases ok with
        | true =>
          cases h
          exact ⟨hc, hc, hk⟩
        | false =>
          cases h
          exact hk
      | locked l c =>
        obtain ⟨tab'', -, he⟩ := Option.map_eq_some_iff.1 h
        cases he
        exact ⟨hc.2, hk⟩
      | attempt c d e =>
        cases h
        exact ⟨hc.1, hc.2, hk⟩
      | final c d =>
        cases h
        exact ⟨hc.1, hc.2, hk⟩

omit [DecidableEq T] [DecidableEq L] in
/-- An action is done under the locks it needs. -/
theorem held_of_action {a : A} (ho : Obeys D th.stack) (ha : th.action = some a) : ∀ l ∈ D.needs a, l ∈ held th.stack := by
  rcases th with ⟨r, _ | ⟨f, k⟩⟩
  · cases r <;> cases ha
  cases f with
  | code c =>
    cases r with
    | true => cases ha
    | false =>
      cases c with
      | act b =>
        cases ha
        exact ho.1
      | _ => cases ha
  | _ => cases r <;> cases ha

/-- A thread that cannot step has finished or is to take a lock that another one has. -/
theorem step_cases (reentrant : L → Bool) (t : T) (th : Thread L B A) (tab : Table T L) : th.stack = [] ∨ (∀ ok, ∃ r, th.step reentrant tab t ok = some r) ∨
    ∃ l u, (∃ c k, th = ⟨false, .code (.locked l c) :: k⟩) ∧ (∃ n, tab l = some (u, n)) ∧ ¬(u = t ∧ reentrant l) := by
  rcases th with ⟨r, _ | ⟨f, k⟩⟩
  · exact .inl rfl
  refine .inr ?_
  cases f with
  | release l =>
    refine .inl fun ok => ?_
    cases hrel : release tab t l <;> cases r <;> simp [Thread.step, hrel]
  | handler d e => exact .inl fun ok => by cases r <;> exact ⟨_, rfl⟩
  | final d => exact .inl fun ok => by cases r <;> exact ⟨_, rfl⟩
  | code c =>
    cases r with
    | true => exact .inl fun ok => ⟨_, rfl⟩
    | false =>
      cases c with
      | locked l c =>
        cases hacq : acquire reentrant tab t l with
        | none =>
          obtain ⟨u, hu, hne⟩ := acquire_eq_none.1 hacq
          exact .inr ⟨l, u, ⟨c, k, rfl⟩, hu, hne⟩
        | some tab' => exact .inl fun ok => ⟨_, by rw [Thread.step, hacq]; rfl⟩
      | _ => exact .inl fun ok => ⟨_, rfl⟩

end Step

/-! ### Runs -/

section Runs

variable {D : Discipline L A} {s s' : State T L B A} {ok : State T L B A → T × Bool → Prop}

theorem start_inv {programs : T → Code L B A} (h : ∀ t, (programs t).Obeys D []) : Inv D (start programs) where
  owns _ _ := rfl
  obeys t := ⟨h t, trivial⟩

theorem Inv.step (h : Inv D s) {e : T × Bool} (hstep : next D.reentrant s e = some s') : Inv D s' := by
  obtain ⟨t, ok⟩ := e
  obtain ⟨⟨th, tab⟩, hth, rfl⟩ := Option.map_eq_some_iff.1 hstep
  obtain ⟨hmine, hothers⟩ := step_held hth (h.owns t)
  refine ⟨fun u => ?_, fun u => ?_⟩
  · by_cases hu : u = t
    · subst hu
      simpa using hmine
    · intro l
      simpa [hu, hothers u hu l] using h.owns u l
  · by_cases hu : u = t
    · subst hu
      simpa using step_obeys hth (h.obeys u)
    · simpa [hu] using h.obeys u

theorem Inv.of_run (h : Inv D s) {es : List (T × Bool)} (hrun : Run (next D.reentrant) ok s es s') : Inv D s' :=
  hrun.invariant (fun _ _ _ h _ hstep => h.step hstep) h

theorem Inv.depth_pos (h : Inv D s) {t : T} {l : L} : 0 < depth s.table t l ↔ l ∈ held (s.threads t).stack := by
  rw [← h.owns, List.count_pos_iff]

/-- At most one thread has a lock. -/
theorem Inv.eq_of_held (h : Inv D s) {t u : T} {l : L} (ht : l ∈ held (s.threads t).stack) (hu : l ∈ held (s.threads u).stack) :
    t = u :=
  eq_of_depth (h.depth_pos.2 ht) (h.depth_pos.2 hu)

/-- Who is waited for has the lock. -/
theorem Inv.held_of_waits (h : Inv D s) {t u : T} {l : L} (hw : s.Waits D.reentrant t l u) : l ∈ held (s.threads u).stack :=
  h.depth_pos.1 (LeafDb.Locks.depth_pos.2 hw.2.1)

/-- Who is waited for does not wait for a lock of the same rank or a lower one. -/
theorem Inv.rank_lt (h : Inv D s) {t u v : T} {l m : L} (hw : s.Waits D.reentrant t l u) (hw' : s.Waits D.reentrant u m v) :
    D.rank l < D.rank m := by
  have hl := h.held_of_waits hw
  obtain ⟨⟨c, k, hu⟩, ⟨n, hn⟩, hne⟩ := hw'
  have hobeys := h.obeys u
  rw [hu] at hl hobeys
  rcases hobeys.1.1 with ⟨hm, hr⟩ | hlt
  · -- it would have the lock that it waits for
    have hown : m ∈ held (s.threads u).stack := by rw [hu]; exact hm
    obtain ⟨n', hn'⟩ := LeafDb.Locks.depth_pos.1 (h.depth_pos.2 hown)
    rw [hn'] at hn
    obtain ⟨rfl, -⟩ := Prod.mk.inj (Option.some.inj hn)
    exact absurd ⟨rfl, hr⟩ hne
  · exact hlt l hl

theorem canStep_or_waits (s : State T L B A) (t : T) : (s.threads t).stack = [] ∨ s.CanStep D.reentrant t ∨
    ∃ l u, s.Waits D.reentrant t l u := by
  rcases step_cases D.reentrant t (s.threads t) s.table with hnil | hstep | hw
  · exact .inl hnil
  · refine .inr (.inl fun ok => ?_)
    obtain ⟨r, hr⟩ := hstep ok
    exact ⟨_, by rw [next, hr]; rfl⟩
  · exact .inr (.inr hw)

/-- From a thread that has not finished, along the threads that are waited for, one comes to a thread that can step. -/
theorem Inv.progress (h : Inv D s) {N : Nat} (hN : ∀ l, D.rank l ≤ N) {t : T} (ht : (s.threads t).stack ≠ []) :
    ∃ u, Relation.ReflTransGen (fun t u => ∃ l, s.Waits D.reentrant t l u) t u ∧ s.CanStep D.reentrant u := by
  have hwaits : ∀ {l : L} {t u : T}, s.Waits D.reentrant t l u →
      ∃ v, Relation.ReflTransGen (fun t u => ∃ l, s.Waits D.reentrant t l u) u v ∧ s.CanStep D.reentrant v := by
    intro l
    -- on the ranks above that of the lock
    induction hk : N - D.rank l using Nat.strong_induction_on generalizing l with
    | _ k ih =>
      intro t u hw
      rcases canStep_or_waits (D := D) s u with hnil | hcan | ⟨m, v, hw'⟩
      · have hl := h.held_of_waits hw
        rw [hnil] at hl
        cases hl
      · exact ⟨u, .refl, hcan⟩
      · have hlt := h.rank_lt hw hw'
        obtain ⟨w, hvw, hcan⟩ := ih (N - D.rank m) (by have := hN m; omega) rfl hw'
        exact ⟨w, .head ⟨m, hw'⟩ hvw, hcan⟩
  rcases canStep_or_waits (D := D) s t with hnil | hcan | ⟨l, u, hw⟩
  · exact absurd hnil ht
  · exact ⟨t, .refl, hcan⟩
  · obtain ⟨v, huv, hcan⟩ := hwaits hw
    exact ⟨v, .head ⟨l, hw⟩ huv, hcan⟩

/-- As long as a thread has a lock only it does what the lock is for. -/
theorem Inv.exclusive (h : Inv D s) {t : T} {l : L} {es : List (T × Bool)}
    (hrun : Run (next D.reentrant) (fun s _ => l ∈ held (s.threads t).stack) s es s') :
    ∃ new, s'.done = s.done ++ new ∧ ∀ x ∈ new, l ∈ D.needs x.2 → x.1 = t := by
  induction hrun with
  | nil => exact ⟨[], by simp, by simp⟩
  | @cons s₁ s₂ s₃ e es hl hstep hrun ih =>
    obtain ⟨new, hnew, hmine⟩ := ih (h.step hstep)
    obtain ⟨u, ok⟩ := e
    obtain ⟨r, hr, rfl⟩ := Option.map_eq_some_iff.1 hstep
    refine ⟨_, hnew.trans (List.append_assoc ..), fun x hx hneeds => ?_⟩
    rcases List.mem_append.1 hx with hx | hx
    · obtain ⟨a, ha, rfl⟩ := List.mem_map.1 hx
      exact h.eq_of_held (held_of_action (h.obeys u) (Option.mem_toList.1 ha) l hneeds) hl
    · exact hmine x hx hneeds

end Runs

end Steps

end Locks

end LeafDb
