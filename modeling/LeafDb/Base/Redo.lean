import LeafDb.Base.ByteFile

/-!
# Redoing blind writes

Writes at fixed offsets and extensions to fixed sizes do not depend on what the file holds. An interrupted run
changes bytes only where a write of the sequence puts them again and makes the file no longer than the whole
sequence does, so running the sequence from there gives what one uninterrupted run gives (`run_interrupted`).
-/

namespace LeafDb

inductive BlindOp
  | write (off : Nat) (data : Bytes)
  /-- The file gets at least this size. -/
  | extend (size : Nat)

namespace BlindOp

def apply (f : Bytes) : BlindOp → Bytes
  | .write off data => writeAt f off data
  | .extend size => if f.length < size then writeAt f (size - 1) [0] else f

def run (f : Bytes) (ops : List BlindOp) : Bytes := ops.foldl apply f

/-- What a change of `f` into `g` that is cut off can leave: a size between the two, and every byte as before or as
after the change. -/
structure Between (f g x : Bytes) : Prop where
  length_ge : f.length ≤ x.length
  length_le : x.length ≤ g.length
  byte : ∀ i, x.getD i 0 = f.getD i 0 ∨ x.getD i 0 = g.getD i 0

/-- The files a run that dies can leave. -/
inductive Interrupted (f : Bytes) (ops : List BlindOp) : Bytes → Prop
  | after (done rest : List BlindOp) : ops = done ++ rest → Interrupted f ops (run f done)
  | during (done : List BlindOp) (op : BlindOp) (rest : List BlindOp) {x : Bytes} : ops = done ++ op :: rest →
      Between (run f done) (apply (run f done) op) x → Interrupted f ops x

/-! ### One operation -/

/-- The size an operation makes the file have at least. -/
def reach : BlindOp → Nat
  | .write off data => if data.isEmpty then 0 else off + data.length
  | .extend size => size

/-- The byte an operation puts at `i`. -/
def value (i : Nat) : BlindOp → Option UInt8
  | .write off data => if off ≤ i ∧ i < off + data.length then some (data.getD (i - off) 0) else none
  | .extend _ => none

theorem length_apply (f : Bytes) (op : BlindOp) : (apply f op).length = max f.length op.reach := by
  cases op with
  | write off data =>
    rcases data with _ | ⟨b, data⟩
    · simp [apply, reach, writeAt]
    · exact length_writeAt f off (b :: data) (List.cons_ne_nil _ _)
  | extend size =>
    simp only [apply, reach]
    split
    · rw [length_writeAt _ _ _ (List.cons_ne_nil _ _), List.length_singleton]
      omega
    · omega

theorem getD_apply (f : Bytes) (op : BlindOp) (i : Nat) :
    (apply f op).getD i 0 = (op.value i).getD (f.getD i 0) := by
  cases op with
  | write off data =>
    simp only [apply, value]
    rw [getD_writeAt]
    split <;> rfl
  | extend size =>
    simp only [apply, value]
    split
    · rename_i hlt
      rw [getD_writeAt]
      split
      · -- the byte written is a zero behind the end
        rename_i hi
        obtain rfl : i = size - 1 := by
          rw [List.length_singleton] at hi
          omega
        rw [Nat.sub_self, List.getD_eq_default f _ (by omega)]
        rfl
      · rfl
    · rfl

/-- On an empty file, the beginning of what an operation writes. -/
theorem between_take (op : BlindOp) (k : Nat) : Between [] (apply [] op) ((apply [] op).take k) where
  length_ge := Nat.zero_le _
  length_le := List.length_take_le' _ _
  byte i := by
    by_cases hi : i < k
    · exact .inr (by rw [List.getD_eq_getElem?_getD, List.getElem?_take_of_lt hi, List.getD_eq_getElem?_getD])
    · exact .inl (List.getD_eq_default _ _ ((List.length_take_le _ _).trans (not_lt.1 hi)))

/-! ### Runs -/

@[simp] theorem run_nil (f : Bytes) : run f [] = f := rfl

@[simp] theorem run_cons (f : Bytes) (op : BlindOp) (ops : List BlindOp) : run f (op :: ops) = run (apply f op) ops := rfl

theorem run_append (f : Bytes) (ops ops' : List BlindOp) : run f (ops ++ ops') = run (run f ops) ops' :=
  List.foldl_append ..

def reachAll (ops : List BlindOp) : Nat := (ops.map reach).foldr max 0

/-- The byte the last operation that writes at `i` puts there. -/
def lastValue (i : Nat) : List BlindOp → Option UInt8
  | [] => none
  | op :: ops => (lastValue i ops).or (op.value i)

theorem length_run (f : Bytes) (ops : List BlindOp) : (run f ops).length = max f.length (reachAll ops) := by
  induction ops generalizing f with
  | nil => simp [reachAll]
  | cons op ops ih =>
    rw [run_cons, ih, length_apply, Nat.max_assoc]
    rfl

theorem getD_run (f : Bytes) (ops : List BlindOp) (i : Nat) :
    (run f ops).getD i 0 = (lastValue i ops).getD (f.getD i 0) := by
  induction ops generalizing f with
  | nil => rfl
  | cons op ops ih =>
    rw [run_cons, ih, getD_apply, lastValue]
    cases lastValue i ops <;> rfl

theorem reachAll_append (ops ops' : List BlindOp) : reachAll (ops ++ ops') = max (reachAll ops) (reachAll ops') := by
  induction ops with
  | nil => simp [reachAll]
  | cons op ops ih =>
    show max op.reach (reachAll (ops ++ ops')) = max (max op.reach (reachAll ops)) (reachAll ops')
    rw [ih, Nat.max_assoc]

theorem lastValue_append (i : Nat) (ops ops' : List BlindOp) :
    lastValue i (ops ++ ops') = (lastValue i ops').or (lastValue i ops) := by
  induction ops with
  | nil => exact (Option.or_none).symm
  | cons op ops ih => rw [List.cons_append, lastValue, lastValue, ih, Option.or_assoc]

/-! ### Interrupted runs -/

/-- `x` differs from `f` only where a run of `ops` writes, and is no longer than the run makes `f`. -/
structure Overlay (ops : List BlindOp) (f x : Bytes) : Prop where
  length_ge : f.length ≤ x.length
  length_le : x.length ≤ max f.length (reachAll ops)
  byte : ∀ i, lastValue i ops = none → x.getD i 0 = f.getD i 0

variable {ops : List BlindOp} {f x y : Bytes}

theorem Overlay.run_eq (h : Overlay ops f x) : run x ops = run f ops := by
  refine ext_getD ?_ fun i => ?_
  · have := h.length_ge
    have := h.length_le
    rw [length_run, length_run]
    omega
  · rw [getD_run, getD_run]
    cases hv : lastValue i ops with
    | none => exact h.byte i hv
    | some b => rfl

theorem overlay_run (done rest : List BlindOp) (f : Bytes) : Overlay (done ++ rest) f (run f done) where
  length_ge := by
    rw [length_run]
    exact Nat.le_max_left _ _
  length_le := by
    rw [length_run, reachAll_append]
    omega
  byte i hi := by
    rw [lastValue_append, Option.or_eq_none_iff] at hi
    rw [getD_run, hi.2]
    rfl

theorem Interrupted.overlay (h : Interrupted f ops x) : Overlay ops f x := by
  cases h with
  | after done rest heq =>
    subst heq
    exact overlay_run done rest f
  | during done op rest heq hx =>
    subst heq
    have hbefore := overlay_run done (op :: rest) f
    have hafter := overlay_run (done ++ [op]) rest f
    rw [List.append_assoc, List.singleton_append, run_append, run_cons, run_nil] at hafter
    refine ⟨hbefore.length_ge.trans hx.length_ge, hx.length_le.trans hafter.length_le, fun i hi => ?_⟩
    rcases hx.byte i with hb | hb
    · rw [hb, hbefore.byte i hi]
    · rw [hb, hafter.byte i hi]

/-- After any number of interrupted runs, one more gives what a single run gives. -/
theorem run_interrupted (h : Relation.ReflTransGen (fun x y => Interrupted x ops y) f x) : run x ops = run f ops := by
  induction h with
  | refl => rfl
  | tail _ hxy ih => rw [hxy.overlay.run_eq, ih]

end BlindOp

end LeafDb
