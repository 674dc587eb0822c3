import LeafDb.PageCount
import LeafDb.PagerWrites

/-!
# The file objects of the sessions

A session reads and writes the data file through a file object of its own, which keeps a buffer: a write may wait in it
until it is written out (`unwritten`), and a read may get what was read ahead (`ahead`). When either happens is not
documented, so `spill` and `fill` may come at any time; a flush, a close and a question for the size of the file write
out what is there. `made` is the data file as it would be if every write had reached it at once.

As long as no read and no write is seen too late (`Coherent`), the sessions do what they would do if every write
reached the data file at once (`direct_step`).
-/

namespace LeafDb

structure FileObject where
  ahead : List (Nat × Bytes)
  unwritten : List (Nat × Bytes)

/-- The data file as it is seen through a file object. -/
def FileObject.view (o : FileObject) (file : Bytes) : Bytes :=
  Pager.writePages (Pager.writePages file o.ahead) o.unwritten

/-- A write that finds no image of page `n` in the pool or the shadow asks for the size of the data file. -/
def Pager.asksSize (p : Pager) (n : Nat) : Bool := p.touched.isSome ∧ n ∉ p.shadow ∧ (p.cached n).isNone

namespace System

def withFile (s : System) (f : Bytes) : System := { s with file := f }

/-- The pages an action writes to the data file. -/
def writes (s : System) : Action → List (Nat × Bytes)
  | .refresh i reads =>
    match s.sess.lookup i with
    | none => []
    | some x =>
      let stop := s.sharedEnd.getD x.walPos
      if x.inTxn ∨ stop ≤ x.walPos then []
      else
        match Wal.readBatchesFrom s.log x.walPos stop with
        | .error _ => []
        | .ok batches => (s.pagerOf x).adoptAllWrites batches reads
  | .get i n => match s.sess.lookup i with
    | none => []
    | some x => (s.pagerOf x).getWrites n
  | .checkpoint i => match s.sess.lookup i with
    | none => []
    | some x => (s.pagerOf x).flushWrites
  | .close i _ => match s.sess.lookup i with
    | none => []
    | some x => (s.closing x).flushWrites
  | .open _ _ | .begin _ | .write _ _ _ | .allocate _ | .commit _ | .rollback _ => []

def asksSize (s : System) : Action → Bool
  | .write i n _ => match s.sess.lookup i with
    | none => false
    | some x => (s.pagerOf x).asksSize n
  | .allocate i => match s.sess.lookup i with
    | none => false
    | some x => (s.pagerOf x).asksSize x.mem.numPages
  | _ => false

/-- What an action of `s` reads of the data file is the same in `g`. -/
def ReadsAs (s : System) (g : Bytes) : Action → Prop
  | .refresh i reads => ∀ x, s.sess.lookup i = some x → ∀ batches,
      Wal.readBatchesFrom s.log x.walPos (s.sharedEnd.getD x.walPos) = .ok batches →
      Pager.AdoptsOk (Pager.ReadsSame s.file g) batches reads (s.pagerOf x)
  | .get i n => ∀ x, s.sess.lookup i = some x → Pager.GetsOk (Pager.ReadsSame s.file g) (s.pagerOf x) [n]
  | .write i n _ => ∀ x, s.sess.lookup i = some x → Pager.AsksSame s.file g (s.pagerOf x) n
  | .allocate i => ∀ x, s.sess.lookup i = some x → Pager.AsksSame s.file g (s.pagerOf x) x.mem.numPages
  | .open _ _ => s.file = g
  | .begin _ | .commit _ | .rollback _ | .checkpoint _ | .close _ _ => True

/-! ### The same action on another data file -/

variable {s t : System} {i : Nat} {x : Session} {f g : Bytes} {unread : List Batch}

theorem length_located_pages {pos : Nat} {bs : List Batch} :
    ∀ b ∈ Wal.located pos bs, ∀ e ∈ b.2.1, e.2.length = pageSize := by
  induction bs generalizing pos with
  | nil => exact fun b hb => absurd hb List.not_mem_nil
  | cons b bs ih =>
    intro c hc
    rcases List.mem_cons.1 hc with rfl | hc
    · exact b.page_length
    · exact ih c hc

theorem sound_withFile (h : Sound s) (f : Bytes) : Sound (s.withFile f) :=
  sound_congr h rfl rfl rfl (Nat.le_refl _) h.current

/-- The action `a` takes `s` to `t`, and does the same on the data file `g`. -/
structure OnFileToo (s : System) (g : Bytes) (a : Action) (t : System) : Prop where
  step : (s.withFile g).step a = some (t.withFile (Pager.writePages g (s.writes a)))
  file : t.file = Pager.writePages s.file (s.writes a)
  length : ∀ e ∈ s.writes a, e.2.length = pageSize

/-- Actions that neither read nor write the data file. -/
theorem onFileToo_of_eq {a : Action} (h : (s.withFile g).step a = (s.step a).map fun t => t.withFile g)
    (hfile : t.file = s.file) (hwrites : s.writes a = []) (ht : s.step a = some t) : OnFileToo s g a t := by
  refine ⟨?_, ?_, ?_⟩ <;> rw [hwrites]
  · rw [h, ht]
    rfl
  · exact hfile
  · exact fun _ he => absurd he List.not_mem_nil

theorem onFileToo_refresh {reads : List (List Nat)} (hs : Sound s) (hok : ReadsAs s g (.refresh i reads))
    (ht : s.refresh i reads = some t) : OnFileToo s g (.refresh i reads) t := by
  cases hx : s.sess.lookup i with
  | none =>
    rw [refresh, hx] at ht
    cases ht
  | some x =>
    obtain ⟨unread, htr⟩ := hs.tracks i x hx
    by_cases hread : x.inTxn ∨ s.sharedEnd.getD x.walPos ≤ x.walPos
    · have hwrites : s.writes (.refresh i reads) = [] := by
        simp only [writes, hx]
        exact if_pos hread
      have heq : ∀ f, (s.withFile f).refresh i reads = (s.refresh i reads).map fun t => t.withFile f := by
        intro f
        unfold refresh
        rw [show (s.withFile f).sess = s.sess from rfl, hx]
        by_cases hin : x.inTxn
        · simp only [hin, if_true]
          rfl
        · have hle := hread.resolve_left hin
          simp only [hin, Bool.false_eq_true, if_false, show (s.withFile f).sharedEnd = s.sharedEnd from rfl, hle, if_true]
          rfl
      have hself := heq s.file
      rw [show s.withFile s.file = s from rfl, ht] at hself
      have hself : some t = some (t.withFile s.file) := hself
      refine onFileToo_of_eq (heq g) ?_ hwrites ht
      rw [Option.some.inj hself]
      rfl
    · obtain ⟨hin, hlt⟩ := not_or.1 hread
      have hin : x.inTxn = false := by simpa using hin
      have hlt := Nat.lt_of_not_le hlt
      have hbatches := hs.readBatches htr hlt
      have hwrites : s.writes (.refresh i reads) =
          (s.pagerOf x).adoptAllWrites (Wal.located x.walPos unread) reads := by
        simp only [writes, hx, hbatches]
        exact if_neg hread
      have hstop : s.log.length ≤ s.sharedEnd.getD x.walPos := (hs.length_le htr).elim (fun h => h.trans hlt.le) id
      have hstep := step_refresh reads hx hin htr.position hlt hstop
      obtain rfl := Option.some.inj (hstep.symm.trans ht)
      have hw : Pager.Writing s.file g (s.pagerOf x) [] := ⟨htr.pager s, rfl, fun _ he => absurd he List.not_mem_nil⟩
      obtain ⟨h', heq⟩ := hw.adoptAll (htr.touched_eq_none hin) length_located_pages (hok x hx _ hbatches) x.walPos
      have hstep' := step_refresh (s := s.withFile g) reads hx hin htr.position hlt hstop
      rw [show ((s.withFile g).pagerOf x).adoptAll _ _ _ = _ from heq] at hstep'
      refine ⟨?_, ?_, ?_⟩ <;> rw [hwrites]
      · exact hstep'
      · exact h'.file
      · exact h'.length

theorem onFileToo_get {n : Nat} (hs : Sound s) (hok : ReadsAs s g (.get i n)) (ht : s.get i n = some t) :
    OnFileToo s g (.get i n) t := by
  obtain ⟨x, im, p, hx, hg, rfl⟩ := get_cases ht
  obtain ⟨unread, htr⟩ := hs.tracks i x hx
  have hw : Pager.Writing s.file g (s.pagerOf x) [] := ⟨htr.pager s, rfl, fun _ he => absurd he List.not_mem_nil⟩
  obtain ⟨h', hg'⟩ := hw.get hg ((hok x hx) im p hg).1
  have hwrites : s.writes (.get i n) = (s.pagerOf x).getWrites n := by
    simp only [writes, hx]
  refine ⟨?_, ?_, ?_⟩ <;> rw [hwrites]
  · exact step_get (s := s.withFile g) hx hg'
  · exact h'.file
  · exact h'.length

theorem rollback_withFile (s : System) (i : Nat) (g : Bytes) :
    (s.withFile g).rollback i = (s.rollback i).map fun t => t.withFile g := by
  unfold rollback
  rw [show (s.withFile g).sess = s.sess from rfl]
  cases s.sess.lookup i with
  | none => rfl
  | some x =>
    simp only
    split <;> rfl

theorem commit_withFile (s : System) (i : Nat) (g : Bytes) :
    (s.withFile g).commit i = (s.commit i).map fun t => t.withFile g := by
  unfold commit Pager.collectCommit
  rw [show (s.withFile g).sess = s.sess from rfl]
  cases s.sess.lookup i with
  | none => rfl
  | some x =>
    simp only [pagerOf, withFile]
    split
    swap
    · rfl
    cases Pager.poolImages x.mem.pool ((x.mem.touched.getD []).insertionSort (· ≤ ·)) with
    | error e => rfl
    | ok images =>
      simp only [Except.map]
      split
      · rfl
      · cases Wal.appendBatch s.log images x.mem.numPages <;> rfl

theorem onFileToo_checkpoint (hs : Sound s) (ht : s.checkpoint i = some t) : OnFileToo s g (.checkpoint i) t := by
  obtain ⟨x, p, hx, hin, halone, hf, rfl⟩ := checkpoint_cases ht
  obtain ⟨unread, htr⟩ := hs.tracks i x hx
  obtain ⟨hf', hfile⟩ := Pager.flush_withFile hf g
  have hwrites : s.writes (.checkpoint i) = (s.pagerOf x).flushWrites := by
    simp only [writes, hx]
  refine ⟨?_, ?_, ?_⟩ <;> rw [hwrites]
  · exact checkpoint_eq (s := s.withFile g) hx hin halone hf'
  · exact hfile
  · exact fun e he => Pager.length_flushWrites (htr.pager s) he

theorem drop_withFile (hx : s.sess.lookup i = some x) (ht : s.drop i = some t) :
    (s.withFile g).drop i = some (t.withFile (Pager.writePages g (s.pagerOf x).flushWrites)) ∧
      t.file = Pager.writePages s.file (s.pagerOf x).flushWrites := by
  obtain ⟨x', p, hx', hf, rfl⟩ := drop_cases ht
  obtain rfl : x = x' := Option.some.inj (hx.symm.trans hx')
  obtain ⟨hf', hfile⟩ := Pager.flush_withFile hf g
  exact ⟨drop_eq (s := s.withFile g) hx hf', hfile⟩

theorem drop_withFile_clean (hx : s.sess.lookup i = some x) (hd : x.mem.pool.dirty = []) (ht : s.drop i = some t) :
    (s.withFile g).drop i = some (t.withFile g) ∧ t.file = s.file := by
  have h := drop_withFile (g := g) hx ht
  rw [Pager.flushWrites_of_dirty hd] at h
  exact h

theorem onFileToo_close {checkpoint : Bool} (hs : Sound s) (ht : s.close i checkpoint = some t) :
    OnFileToo s g (.close i checkpoint) t := by
  obtain ⟨x, s1, s2, hx, h1, h2, h3⟩ := close_cases ht
  have hwrites : s.writes (.close i checkpoint) = (s.closing x).flushWrites := by
    simp only [writes, hx]
  have h1' : (if x.inTxn then (s.withFile g).rollback i else some (s.withFile g)) = some (s1.withFile g) := by
    rcases h1 with ⟨hin, h1⟩ | ⟨hin, rfl⟩
    · rw [if_pos hin, rollback_withFile, h1]
      rfl
    · rw [if_neg (by simp [hin])]
  obtain ⟨hs1, x1, hx1, hp1, hfile1⟩ : Sound s1 ∧ ∃ x1, s1.sess.lookup i = some x1 ∧ s1.pagerOf x1 = s.closing x ∧
      s1.file = s.file := by
    rcases h1 with ⟨hin, h1⟩ | ⟨hin, rfl⟩
    · obtain ⟨y, hy, -, rfl⟩ := rollback_cases h1
      obtain rfl : x = y := Option.some.inj (hx.symm.trans hy)
      exact ⟨sound_rollback hs h1, _, AList.lookup_insert _, by rw [closing, if_pos hin]; rfl, rfl⟩
    · exact ⟨hs, x, hx, by rw [closing, hin]; rfl, rfl⟩
  obtain ⟨unread, htr1⟩ := hs1.tracks i x1 hx1
  have hclose : ∀ u, (if checkpoint = true ∧ s1.alone i = true then (s1.withFile g).checkpoint i else some (s1.withFile g)) =
      some u → (s.withFile g).close i checkpoint = u.drop i := by
    intro u hu
    unfold close
    rw [show (s.withFile g).sess.lookup i = some x from hx]
    simp only [h1', Option.bind_some]
    rw [show (s1.withFile g).alone i = s1.alone i from rfl, hu]
    rfl
  obtain ⟨u, hu, hdrop, hfile⟩ : ∃ u,
      (if checkpoint = true ∧ s1.alone i = true then (s1.withFile g).checkpoint i else some (s1.withFile g)) = some u ∧
      u.drop i = some (t.withFile (Pager.writePages g (s1.pagerOf x1).flushWrites)) ∧
      t.file = Pager.writePages s1.file (s1.pagerOf x1).flushWrites := by
    rcases h2 with ⟨hc, h2⟩ | ⟨hc, rfl⟩
    · have hck := onFileToo_checkpoint (g := g) hs1 h2
      have hw1 : s1.writes (.checkpoint i) = (s1.pagerOf x1).flushWrites := by simp only [writes, hx1]
      rw [if_pos hc]
      refine ⟨_, hck.step, ?_⟩
      rw [← hw1, ← hck.file]
      -- nothing is dirty after the checkpoint
      obtain ⟨y, p, hy, -, -, hf, rfl⟩ := checkpoint_cases h2
      obtain rfl : x1 = y := Option.some.inj (hx1.symm.trans hy)
      exact drop_withFile_clean (AList.lookup_insert _) (Pager.flush_fields (htr1.pager s1) hf).2.1 h3
    · rw [if_neg hc]
      exact ⟨_, rfl, drop_withFile hx1 h3⟩
  refine ⟨?_, ?_, ?_⟩ <;> rw [hwrites, ← hp1]
  · exact (hclose u hu).trans hdrop
  · rw [hfile, hfile1]
  · exact fun e he => Pager.length_flushWrites (htr1.pager s1) he

theorem onFileToo {a : Action} (hs : Sound s) (hopen : ∀ i cacheSize, a ≠ .open i cacheSize) (hok : ReadsAs s g a)
    (ht : s.step a = some t) : OnFileToo s g a t := by
  cases a with
  | «open» i cacheSize => exact (hopen i cacheSize rfl).elim
  | refresh i reads => exact onFileToo_refresh hs hok ht
  | get i n => exact onFileToo_get hs hok ht
  | begin i =>
    obtain ⟨x, hx, hin, hnone, rfl⟩ := begin_cases ht
    refine ⟨step_begin (s := s.withFile g) hx hin hnone, rfl, fun _ he => absurd he List.not_mem_nil⟩
  | write i n data =>
    obtain ⟨x, p, hx, hin, hw, rfl⟩ := write_cases ht
    obtain ⟨unread, htr⟩ := hs.tracks i x hx
    have htouched := htr.touched_isSome hin
    refine ⟨step_write (s := s.withFile g) hx hin (Pager.write_withFile htouched (hok x hx) hw),
      (Pager.writes_write (htr.pager s) htouched hw).file_eq, fun _ he => absurd he List.not_mem_nil⟩
  | allocate i =>
    obtain ⟨x, hx, hin, rfl⟩ := allocate_cases ht
    obtain ⟨unread, htr⟩ := hs.tracks i x hx
    have htouched := htr.touched_isSome hin
    have hpager := Pager.allocate_withFile (p := s.pagerOf x) htouched (hok x hx)
    refine ⟨?_, (Pager.writes_allocate (htr.pager s) htouched).file_eq, fun _ he => absurd he List.not_mem_nil⟩
    have : (s.withFile g).allocate i = some ((s.withFile g).store i x ((s.withFile g).pagerOf x).allocate.2) := by
      unfold allocate
      rw [show (s.withFile g).sess.lookup i = some x from hx]
      simp only [hin, if_true]
    rw [show ((s.withFile g).pagerOf x).allocate.2 = _ from hpager] at this
    exact this
  | commit i =>
    refine onFileToo_of_eq (commit_withFile s i g) ?_ rfl ht
    obtain ⟨x, -, -, ⟨-, rfl⟩ | ⟨b, -, -, -, rfl⟩⟩ := commit_cases hs ht <;> rfl
  | rollback i =>
    refine onFileToo_of_eq (rollback_withFile s i g) ?_ rfl ht
    obtain ⟨x, -, -, rfl⟩ := rollback_cases ht
    rfl
  | checkpoint i => exact onFileToo_checkpoint hs ht
  | close i checkpoint => exact onFileToo_close hs ht

theorem lookup_actor {a : Action} (hs : Sound s) (hclose : ∀ i ckpt, a ≠ .close i ckpt) (ht : s.step a = some t) :
    (t.sess.lookup a.actor).isSome := by
  have hstored : ∀ {s : System} {i : Nat} {x : Session} {p : Pager}, ((s.store i x p).sess.lookup i).isSome := by
    intro s i x p
    rw [lookup_store, if_pos rfl]
    rfl
  cases a with
  | «open» i cacheSize =>
    obtain ⟨u, -, ht⟩ := openSession_cases ht
    obtain ⟨x, im, p, -, -, rfl⟩ := get_cases ht
    exact hstored
  | refresh i reads =>
    obtain ⟨x, unread, hx, -, ⟨-, rfl⟩ | ⟨-, -, e, -, rfl⟩ | ⟨-, r, -, -, rfl⟩⟩ := refresh_cases hs ht
    · exact Option.isSome_iff_exists.2 ⟨x, hx⟩
    · exact Option.isSome_iff_exists.2 ⟨x, hx⟩
    · exact hstored
  | get i n =>
    obtain ⟨x, im, p, -, -, rfl⟩ := get_cases ht
    exact hstored
  | begin i =>
    obtain ⟨x, -, -, -, rfl⟩ := begin_cases ht
    exact hstored
  | write i n data =>
    obtain ⟨x, p, -, -, -, rfl⟩ := write_cases ht
    exact hstored
  | allocate i =>
    obtain ⟨x, -, -, rfl⟩ := allocate_cases ht
    exact hstored
  | commit i =>
    obtain ⟨x, -, -, ⟨-, rfl⟩ | ⟨b, -, -, -, rfl⟩⟩ := commit_cases hs ht <;> exact hstored
  | rollback i =>
    obtain ⟨x, -, -, rfl⟩ := rollback_cases ht
    exact hstored
  | checkpoint i =>
    obtain ⟨x, p, -, -, -, -, rfl⟩ := checkpoint_cases ht
    exact hstored
  | close i ckpt => exact (hclose i ckpt rfl).elim

end System

structure Disk where
  sys : System
  files : Nat → FileObject
  made : Bytes

namespace Disk
open LeafDb.System (Action Sound)

inductive Event
  | act (a : Action)
  /-- The file object of a session writes out what waits in it. -/
  | spill (i : Nat)
  /-- It reads the pages `ns`. -/
  | fill (i : Nat) (ns : List Nat)

/-- The system as session `i` sees it. -/
def seen (d : Disk) (i : Nat) : System := d.sys.withFile ((d.files i).view d.sys.file)

/-- The system after the file object of session `i` has written out what waits in it. -/
def spilled (d : Disk) (i : Nat) : System := d.sys.withFile (Pager.writePages d.sys.file (d.files i).unwritten)

/-- The system in which every write has reached the data file at once. -/
def direct (d : Disk) : System := d.sys.withFile d.made

def madeAfter (d : Disk) (a : Action) : Bytes := ((d.direct.step a).map System.file).getD d.made

/-- An action that reads and writes through the buffer. -/
def buffered (d : Disk) (a : Action) : Option Disk :=
  let o := d.files a.actor
  ((d.seen a.actor).step a).map fun s =>
    ⟨s.withFile d.sys.file,
      Function.update d.files a.actor { o with unwritten := o.unwritten ++ (d.seen a.actor).writes a }, d.madeAfter a⟩

/-- The system an action works on that leaves nothing in the buffer. Recovery has a file object of its own, and the
session it opens gets a new one; a flush and a question for the size of the data file write out what waits. -/
def base (d : Disk) : Action → Option System
  | .open _ _ => some d.sys
  | .checkpoint i | .close i _ => some (d.spilled i)
  | a => if d.sys.asksSize a then some (d.spilled a.actor) else none

def act (d : Disk) (a : Action) : Option Disk :=
  match d.base a with
  | some s => (s.step a).map fun s => ⟨s, Function.update d.files a.actor ⟨[], []⟩, d.madeAfter a⟩
  | none => d.buffered a

def step (d : Disk) : Event → Option Disk
  | .act a => d.act a
  | .spill i =>
    let o := d.files i
    if (d.sys.sess.lookup i).isSome then
      some ⟨d.spilled i, Function.update d.files i ⟨o.ahead ++ o.unwritten, []⟩, d.made⟩
    else none
  | .fill i ns =>
    let o : FileObject := ⟨ns.map fun n => (n, readPage d.sys.file n), (d.files i).unwritten⟩
    if (d.sys.sess.lookup i).isSome then some { d with files := Function.update d.files i o } else none

def init (file log : Bytes) : Disk := ⟨.init file log, fun _ => ⟨[], []⟩, file⟩

/-- What the file object of session `i` writes out is the last write to those pages. -/
def WritesLast (d : Disk) (i : Nat) : Prop :=
  ∀ n ∈ (d.files i).unwritten.map Prod.fst, readPage (d.spilled i).file n = readPage d.made n

/-- What is read of the data file is the last write to it, and so is what a file object writes out. -/
def Coherent (d : Disk) : Event → Prop
  | .act a =>
    match d.base a with
    | some s => d.WritesLast a.actor ∧ s.ReadsAs d.made a
    | none => (d.seen a.actor).ReadsAs d.made a
  | .spill i => d.WritesLast i
  | .fill _ _ => True

/-! ### What a coherent run does -/

variable {d d' : Disk} {e : Event} {i n : Nat}

theorem base_open {cacheSize : Nat} : d.base (.open i cacheSize) = some d.sys := rfl

theorem base_eq {a : Action} (hopen : ∀ i cacheSize, a ≠ .open i cacheSize) {s : System} (h : d.base a = some s) :
    s = d.spilled a.actor := by
  cases a with
  | «open» i cacheSize => exact (hopen i cacheSize rfl).elim
  | checkpoint | close => exact (Option.some.inj h).symm
  | _ =>
    simp only [base] at h
    split at h
    · exact (Option.some.inj h).symm
    · cases h

theorem madeAfter_eq {a : Action} {t : System} (h : d.direct.step a = some t) : d.madeAfter a = t.file := by
  rw [madeAfter, h]
  rfl

/-- Away from an open an action does the same to the system it works on and to the one without buffers. -/
theorem onFileToo_direct {a : Action} (hs : Sound d.direct) (hopen : ∀ i cacheSize, a ≠ .open i cacheSize) {f : Bytes}
    (hok : (d.sys.withFile f).ReadsAs d.made a) {t : System} (ht : (d.sys.withFile f).step a = some t) :
    System.OnFileToo (d.sys.withFile f) d.made a t ∧ d.direct.step a = some (t.withFile (d.madeAfter a)) := by
  have h := System.onFileToo (System.sound_withFile hs f) hopen hok ht
  refine ⟨h, ?_⟩
  have hstep : d.direct.step a = _ := h.step
  rw [madeAfter_eq hstep]
  exact hstep

theorem sess_base {a : Action} {s : System} (h : d.base a = some s) : s.sess = d.sys.sess := by
  by_cases hopen : ∃ i c, a = .open i c
  · obtain ⟨i, c, rfl⟩ := hopen
    rw [← Option.some.inj h]
  · rw [base_eq (fun i c ha => hopen ⟨i, c, ha⟩) h]
    rfl

/-- An action leaves nothing in the buffer of its session, or works on what the file object shows. -/
theorem act_cases {a : Action} (ht : d.step (.act a) = some d') :
    (∃ s t, d.base a = some s ∧ s.step a = some t ∧
      d' = ⟨t, Function.update d.files a.actor ⟨[], []⟩, d.madeAfter a⟩) ∨
    ∃ t, d.base a = none ∧ (d.seen a.actor).step a = some t ∧
      d' = ⟨t.withFile d.sys.file, Function.update d.files a.actor
        ⟨(d.files a.actor).ahead, (d.files a.actor).unwritten ++ (d.seen a.actor).writes a⟩, d.madeAfter a⟩ := by
  simp only [step, act] at ht
  cases hb : d.base a with
  | none =>
    rw [hb] at ht
    obtain ⟨t, hstep, rfl⟩ := Option.map_eq_some_iff.1 ht
    exact .inr ⟨t, rfl, hstep, rfl⟩
  | some s =>
    rw [hb] at ht
    obtain ⟨t, hstep, rfl⟩ := Option.map_eq_some_iff.1 ht
    exact .inl ⟨s, t, rfl, hstep, rfl⟩

/-- A coherent action does what it does when every write reaches the data file at once. -/
theorem direct_step {a : Action} (hs : Sound d.direct) (hok : d.Coherent (.act a)) (ht : d.step (.act a) = some d') :
    d.direct.step a = some d'.direct := by
  simp only [Coherent] at hok
  rcases act_cases ht with ⟨s, t, hb, hstep, rfl⟩ | ⟨t, hb, hstep, rfl⟩
  · rw [hb] at hok
    by_cases hopen : ∃ i c, a = .open i c
    · obtain ⟨i, c, rfl⟩ := hopen
      obtain rfl := Option.some.inj hb
      -- the data file is as if every write had reached it
      have hfile : d.sys.file = d.made := hok.2
      have hdirect : d.direct = d.sys := by
        rw [direct, ← hfile]
        rfl
      rw [hdirect, hstep]
      refine congrArg some ?_
      rw [direct, madeAfter, hdirect, hstep]
      rfl
    · have hopen : ∀ i c, a ≠ .open i c := fun i c h => hopen ⟨i, c, h⟩
      obtain rfl := base_eq hopen hb
      exact (onFileToo_direct hs hopen hok.2 hstep).2
  · rw [hb] at hok
    refine (onFileToo_direct hs (fun i c h => ?_) hok hstep).2
    rw [h] at hb
    cases hb

theorem direct_spill (h : d.step (.spill i) = some d') : d'.direct = d.direct := by
  simp only [step] at h
  split at h
  · rw [← Option.some.inj h]
    rfl
  · cases h

theorem direct_fill {ns : List Nat} (h : d.step (.fill i ns) = some d') : d'.direct = d.direct := by
  simp only [step] at h
  split at h
  · rw [← Option.some.inj h]
    rfl
  · cases h

/-- `e` is coherent and, if it is an action, meets `ok` with every write in the data file. -/
def Meets (ok : System → Action → Prop) (d : Disk) (e : Event) : Prop :=
  d.Coherent e ∧ ∀ a, e = .act a → ok d.direct a

variable {ok : System → Action → Prop} {P : System → Prop} {es : List Event}

theorem Meets.keeps (hP : ∀ s a t, P s → ok s a → s.step a = some t → P t) (hs : Sound d.direct) (h : P d.direct)
    (hok : Meets ok d e) (ht : d.step e = some d') : P d'.direct := by
  cases e with
  | act a => exact hP _ a _ h (hok.2 a rfl) (direct_step hs hok.1 ht)
  | spill i => rwa [direct_spill ht]
  | fill i ns => rwa [direct_fill ht]

/-- What the actions keep with every write in the data file holds at the end of every coherent run. -/
theorem direct_run (hP : ∀ s a t, P s → ok s a → s.step a = some t → P t) (hsound : ∀ s, P s → Sound s)
    (hrun : Run step (Meets ok) d es d') (h : P d.direct) : P d'.direct :=
  hrun.invariant (P := fun d => P d.direct) (fun _ _ _ h hok ht => hok.keeps hP (hsound _ h) h ht) h

/-! ### What reaches the data file -/

/-- A page is on the data file as if every write had reached it, or a write of it waits in a file object. -/
structure Settled (d : Disk) : Prop where
  closed : ∀ i, d.sys.sess.lookup i = none → (d.files i).unwritten = []
  page : ∀ n, readPage d.sys.file n = readPage d.made n ∨ ∃ i, n ∈ (d.files i).unwritten.map Prod.fst
  length : ∀ i, ∀ e ∈ (d.files i).unwritten, e.2.length = pageSize

theorem Settled.readPage_spilled (h : Settled d) (hlast : d.WritesLast i) (n : Nat) :
    readPage (d.spilled i).file n = readPage d.made n ∨ ∃ j, j ≠ i ∧ n ∈ (d.files j).unwritten.map Prod.fst := by
  by_cases hn : n ∈ (d.files i).unwritten.map Prod.fst
  · exact .inl (hlast n hn)
  · have hread : readPage (d.spilled i).file n = readPage d.sys.file n :=
      (readPage_writePages_images (h.length i) n).trans (imageAfter_of_notMem hn _)
    rw [hread]
    refine (h.page n).imp_right fun ⟨j, hj⟩ => ⟨j, ?_, hj⟩
    rintro rfl
    exact hn hj

/-- The file object of session `i` goes on as `o`. -/
theorem Settled.update (h : Settled d) {s : System} {o : FileObject} {made : Bytes}
    (hothers : ∀ j, j ≠ i → s.sess.lookup j = d.sys.sess.lookup j) (hself : s.sess.lookup i = none → o.unwritten = [])
    (hlen : ∀ e ∈ o.unwritten, e.2.length = pageSize)
    (hpage : ∀ n, readPage s.file n = readPage made n ∨ n ∈ o.unwritten.map Prod.fst ∨
      ∃ j, j ≠ i ∧ n ∈ (d.files j).unwritten.map Prod.fst) : Settled ⟨s, Function.update d.files i o, made⟩ := by
  refine ⟨fun j hj => ?_, fun n => ?_, fun j => ?_⟩
  · show (Function.update d.files i o j).unwritten = []
    by_cases hji : j = i
    · subst hji
      rw [Function.update_self]
      exact hself hj
    · rw [Function.update_of_ne hji]
      exact h.closed j ((hothers j hji).symm.trans hj)
  · rcases hpage n with hn | hn | ⟨j, hji, hn⟩
    · exact .inl hn
    · refine .inr ⟨i, ?_⟩
      show n ∈ (Function.update d.files i o i).unwritten.map Prod.fst
      rwa [Function.update_self]
    · refine .inr ⟨j, ?_⟩
      show n ∈ (Function.update d.files i o j).unwritten.map Prod.fst
      rwa [Function.update_of_ne hji]
  · show ∀ e ∈ (Function.update d.files i o j).unwritten, e.2.length = pageSize
    by_cases hji : j = i
    · subst hji
      rwa [Function.update_self]
    · rw [Function.update_of_ne hji]
      exact h.length j

theorem settled_spill (h : Settled d) (hok : d.WritesLast i) (ht : d.step (.spill i) = some d') : Settled d' := by
  simp only [step] at ht
  split at ht
  · obtain rfl := Option.some.inj ht
    exact h.update (fun _ _ => rfl) (fun _ => rfl) (fun e he => absurd he List.not_mem_nil) fun n =>
      (h.readPage_spilled hok n).imp_right .inr
  · cases ht

theorem settled_fill {ns : List Nat} (h : Settled d) (ht : d.step (.fill i ns) = some d') : Settled d' := by
  simp only [step] at ht
  split at ht
  · obtain rfl := Option.some.inj ht
    refine h.update (fun _ _ => rfl) (h.closed i) (h.length i) fun n => (h.page n).imp_right fun ⟨j, hn⟩ => ?_
    by_cases hji : j = i
    · subst hji
      exact .inl hn
    · exact .inr ⟨j, hji, hn⟩
  · cases ht

theorem settled_act {a : Action} (hs : Sound d.direct) (h : Settled d) (hok : d.Coherent (.act a))
    (ht : d.step (.act a) = some d') : Settled d' := by
  simp only [Coherent] at hok
  rcases act_cases ht with ⟨s, t, hb, hstep, rfl⟩ | ⟨t, hb, hstep, rfl⟩
  · -- nothing of the session that acts waits afterwards
    rw [hb] at hok
    refine h.update (fun j hj => ?_) (fun _ => rfl) (fun e he => absurd he List.not_mem_nil) fun n => ?_
    · rw [← sess_base hb]
      exact System.lookup_step hstep hj.symm
    by_cases hopen : ∃ i c, a = .open i c
    · obtain ⟨i, c, rfl⟩ := hopen
      obtain rfl := Option.some.inj hb
      have hdirect : d.direct = d.sys := by
        rw [direct, ← show d.sys.file = d.made from hok.2]
        rfl
      rw [madeAfter, hdirect, hstep]
      exact .inl rfl
    · have hopen : ∀ i c, a ≠ .open i c := fun i c h => hopen ⟨i, c, h⟩
      obtain rfl := base_eq hopen hb
      obtain ⟨hon, -⟩ := onFileToo_direct hs hopen hok.2 hstep
      rw [madeAfter_eq hon.step, hon.file]
      exact (h.readPage_spilled hok.1 n).imp (Pager.readPage_writePages_congr hon.length) .inr
  · rw [hb] at hok
    have hopen : ∀ i c, a ≠ .open i c := by
      rintro i c rfl
      cases hb
    obtain ⟨hon, -⟩ := onFileToo_direct hs hopen hok hstep
    refine h.update (fun j hj => (System.lookup_step hstep hj.symm : t.sess.lookup j = _)) (fun hnone => ?_)
      (fun e he => (List.mem_append.1 he).elim (h.length _ e) (hon.length e)) fun n => ?_
    · have hsome := System.lookup_actor (System.sound_withFile hs _) (fun i c h => by rw [h] at hb; cases hb) hstep
      rw [show t.sess.lookup a.actor = none from hnone] at hsome
      cases hsome
    · rw [madeAfter_eq hon.step]
      show readPage d.sys.file n = readPage (Pager.writePages d.made ((d.seen a.actor).writes a)) n ∨ _
      have hread : readPage (Pager.writePages d.made ((d.seen a.actor).writes a)) n =
          imageAfter ((d.seen a.actor).writes a) (readPage d.made n) n := readPage_writePages_images hon.length n
      rw [List.map_append, List.mem_append, hread]
      by_cases hn : n ∈ ((d.seen a.actor).writes a).map Prod.fst
      · exact .inr (.inl (.inr hn))
      · rw [imageAfter_of_notMem hn]
        refine (h.page n).imp_right fun ⟨j, hj⟩ => ?_
        by_cases hji : j = a.actor
        · subst hji
          exact .inl (.inl hj)
        · exact .inr ⟨j, hji, hj⟩

theorem settled_event (hs : Sound d.direct) (h : Settled d) (hok : d.Coherent e) (ht : d.step e = some d') : Settled d' := by
  cases e with
  | act a => exact settled_act hs h hok ht
  | spill i => exact settled_spill h hok ht
  | fill i ns => exact settled_fill h ht

theorem settled_init (file log : Bytes) : Settled (init file log) :=
  ⟨fun _ _ => rfl, fun _ => .inl rfl, fun _ _ he => absurd he List.not_mem_nil⟩

/-- When no session is open, every write has reached the data file. -/
theorem Settled.readPage_eq (h : Settled d) (hclosed : d.sys.sess.keys = []) (n : Nat) :
    readPage d.sys.file n = readPage d.made n := by
  refine (h.page n).resolve_right fun ⟨i, hn⟩ => ?_
  rw [h.closed i (System.lookup_of_keys hclosed i)] at hn
  exact List.not_mem_nil hn

/-! ### Runs that leave nothing in the buffers -/

/-- Nothing waits in a file object, and nothing was read ahead. -/
def still (s : System) : Disk := ⟨s, fun _ => ⟨[], []⟩, s.file⟩

theorem direct_still (s : System) : (still s).direct = s := rfl

theorem init_eq_still (file log : Bytes) : init file log = still (.init file log) := rfl

variable {s t : System} {as : List Action}

theorem readsAs_self (s : System) (a : Action) : s.ReadsAs s.file a := by
  have hsame : ∀ p p', Pager.ReadsSame s.file s.file p p' := fun p p' n _ _ => rfl
  cases a with
  | refresh i reads => exact fun x _ batches _ => Pager.adoptsOk_of_forall hsame batches reads _
  | get i n => exact fun x _ => Pager.getsOk_of_forall hsame _ _
  | write i n data => exact fun x _ _ _ => ⟨rfl, Iff.rfl⟩
  | allocate i => exact fun x _ _ _ => ⟨rfl, Iff.rfl⟩
  | «open» => exact rfl
  | _ => trivial

theorem base_still {a : Action} {u : System} (h : (still s).base a = some u) : u = s := by
  cases a with
  | «open» | checkpoint | close => exact (Option.some.inj h).symm
  | _ =>
    simp only [base] at h
    split at h
    · exact (Option.some.inj h).symm
    · cases h

theorem coherent_still (s : System) (a : Action) : (still s).Coherent (.act a) := by
  have hlast : (still s).WritesLast a.actor := fun n hn => absurd hn List.not_mem_nil
  simp only [Coherent]
  cases hb : (still s).base a with
  | none => exact readsAs_self s a
  | some u =>
    rw [base_still hb]
    exact ⟨hlast, readsAs_self s a⟩

theorem update_still (i : Nat) : Function.update (fun _ : Nat => (⟨[], []⟩ : FileObject)) i ⟨[], []⟩ = fun _ => ⟨[], []⟩ :=
  Function.update_eq_self i _

theorem step_still {a : Action} (hs : Sound s) (hw : (still s).base a = none → s.writes a = []) (ht : s.step a = some t) :
    (still s).step (.act a) = some (still t) := by
  have hmade : (still s).madeAfter a = t.file := by
    rw [madeAfter, direct_still, ht]
    rfl
  simp only [step, act]
  cases hb : (still s).base a with
  | some u =>
    simp only [base_still hb, ht, hmade, Option.map_some]
    refine congrArg (fun files => some (⟨t, files, t.file⟩ : Disk)) (update_still a.actor)
  | none =>
    have hopen : ∀ i c, a ≠ .open i c := by
      rintro i c rfl
      cases hb
    have hfile : t.file = s.file := by
      rw [(System.onFileToo hs hopen (readsAs_self s a) ht).file, hw hb]
      rfl
    have hseen : (still s).seen a.actor = s := rfl
    simp only [buffered, hseen, ht, hmade, hw hb, Option.map_some]
    rw [show (still s).sys.file = t.file from hfile.symm]
    exact congrArg (fun files => some (⟨t, files, t.file⟩ : Disk)) (update_still a.actor)

/-- A run of such actions is one with the file objects left alone. -/
theorem run_still (ok : System → Action → Prop) {okDisk : Disk → Event → Prop} (hs : Sound s) (hopen : ∀ s a, ok s a → s.OpenAlone a)
    (hok : ∀ s a t, Sound s → ok s a → s.step a = some t → okDisk (still s) (.act a))
    (hrun : Run System.step (fun s a => ok s a ∧ ((still s).base a = none → s.writes a = [])) s as t) :
    Run step okDisk (still s) (as.map .act) (still t) := by
  induction hrun with
  | nil s => exact .nil _
  | cons hstill hstep _ ih =>
    exact .cons (hok _ _ _ hs hstill.1 hstep) (step_still hs hstill.2 hstep)
      (ih (System.sound_step hs (hopen _ _ hstill.1) hstep))

theorem meets_still {a : Action} (h : ok s a) : Meets ok (still s) (.act a) := by
  refine ⟨coherent_still s a, fun b hb => ?_⟩
  cases hb
  exact h

end Disk

end LeafDb
