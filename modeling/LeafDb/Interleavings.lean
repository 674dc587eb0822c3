import LeafDb.FreshRead
import LeafDb.LostUpdate
import LeafDb.PyTree

/-!
# Transactions through node caches and file objects

`Engines` are the sessions with what a `Schedule` leaves out: the file object of each session, and the node cache of its
tree. A load returns the cached node when it was decoded from the very image in the pool, so after a rollback, which puts
the old images back, it can return an object that was changed meanwhile. As long as it returns what the image decodes to,
and no read or write of the data file is seen too late, the transactions do what they do in the `Schedule`.
-/

namespace LeafDb

namespace Disk
open LeafDb.System (Action Sound FreshOk Current)
variable {d d' : Disk} {e : Event} {i : Nat}

/-! ### The log over the data file -/

/-- A page is in a batch of the log, or on the data file as it was committed. -/
def LogCovers (d : Disk) : Prop := ∀ n, Behind d.sys.log Wal.header.length n ∨ readPage d.sys.file n = d.sys.committed n

/-- What an event writes to the data file is the last write to those pages. -/
theorem readPage_event (hs : Sound d.direct) (h : Settled d) (hok : d.Coherent e) (ht : d.step e = some d') (n : Nat) :
    readPage d'.sys.file n = readPage d'.made n ∨ readPage d'.sys.file n = readPage d.sys.file n := by
  have hspilled : ∀ i, d.WritesLast i → readPage (d.spilled i).file n = readPage d.made n ∨
      readPage (d.spilled i).file n = readPage d.sys.file n := by
    intro i hlast
    by_cases hn : n ∈ (d.files i).unwritten.map Prod.fst
    · exact .inl (hlast n hn)
    · exact .inr ((readPage_writePages_images (h.length i) n).trans (imageAfter_of_notMem hn _))
  cases e with
  | spill i =>
    simp only [step] at ht
    split at ht
    · obtain rfl := Option.some.inj ht
      exact hspilled i hok
    · cases ht
  | fill i ns =>
    simp only [step] at ht
    split at ht
    · obtain rfl := Option.some.inj ht
      exact .inr rfl
    · cases ht
  | act a =>
    simp only [Coherent] at hok
    rcases act_cases ht with ⟨s, t, hb, hstep, rfl⟩ | ⟨t, -, -, rfl⟩
    swap
    · exact .inr rfl
    rw [hb] at hok
    by_cases hopen : ∃ i c, a = .open i c
    · obtain ⟨i, c, rfl⟩ := hopen
      obtain rfl := Option.some.inj hb
      have hdirect : d.direct = d.sys := by
        rw [direct, ← show d.sys.file = d.made from hok.2]
        rfl
      rw [madeAfter, hdirect, hstep]
      exact .inl rfl
    · have hopen : ∀ i c, a ≠ .open i c := fun i c h => hopen ⟨i, c, h⟩
      obtain rfl := base_eq hopen hb
      have hon : System.OnFileToo (d.spilled a.actor) d.made a t := (onFileToo_direct hs hopen hok.2 hstep).1
      have hread : ∀ f, readPage (Pager.writePages f ((d.spilled a.actor).writes a)) n =
          imageAfter ((d.spilled a.actor).writes a) (readPage f n) n := fun f => readPage_writePages_images hon.length n
      have hmade : d.madeAfter a = Pager.writePages d.made ((d.spilled a.actor).writes a) := madeAfter_eq hon.step
      rw [hmade, hon.file, hread, hread]
      by_cases hn : n ∈ ((d.spilled a.actor).writes a).map Prod.fst
      · exact .inl (imageAfter_of_mem hn _ _)
      · rw [imageAfter_of_notMem hn, imageAfter_of_notMem hn]
        exact hspilled a.actor hok.1

theorem logCovers_event (hcur : Current d.direct) (hset : Settled d) (h : LogCovers d) (hok : Meets FreshOk d e)
    (ht : d.step e = some d') : LogCovers d' := by
  have hcur' : Current d'.direct := hok.keeps (fun _ _ _ h hok ht => System.current_step h hok ht) hcur.sound hcur ht
  have hset' : Settled d' := settled_event hcur.sound hset hok.1 ht
  intro n
  by_cases hmade : readPage d'.sys.file n = readPage d'.made n
  · rw [hmade]
    by_cases hb : Behind d'.sys.log Wal.header.length n
    · exact .inl hb
    · exact .inr (hcur'.file_eq n hb)
  -- a write of the page waits in the file object of a session that is open
  have hfile : readPage d'.sys.file n = readPage d.sys.file n :=
    (readPage_event hcur.sound hset hok.1 ht n).resolve_left hmade
  obtain ⟨j, hj⟩ := (hset'.page n).resolve_left hmade
  rw [hfile]
  cases e with
  | spill i =>
    simp only [step] at ht
    split at ht
    · obtain rfl := Option.some.inj ht
      exact h n
    · cases ht
  | fill i ns =>
    simp only [step] at ht
    split at ht
    · obtain rfl := Option.some.inj ht
      exact h n
    · cases ht
  | act a =>
    have hdirect : d.direct.step a = some d'.direct := direct_step hcur.sound hok.1 ht
    have hother : a.Resets → ∃ i x, i ≠ a.actor ∧ d.direct.sess.lookup i = some x := by
      intro hreset
      have hji : j ≠ a.actor := by
        rintro rfl
        rcases act_cases ht with ⟨s, t, -, -, rfl⟩ | ⟨t, hb, -, -⟩
        · simp only [Function.update_self] at hj
          exact absurd hj List.not_mem_nil
        · cases a <;> first | exact hreset.elim | cases hb
      have hopen : d'.sys.sess.lookup j ≠ none := fun hnone => by
        rw [hset'.closed j hnone] at hj
        exact absurd hj List.not_mem_nil
      have hkept : d'.direct.sess.lookup j = d.direct.sess.lookup j := System.lookup_step hdirect hji.symm
      rw [show d'.sys.sess.lookup j = d.sys.sess.lookup j from hkept] at hopen
      obtain ⟨x, hx⟩ := Option.ne_none_iff_exists'.1 hopen
      exact ⟨j, x, hji, hx⟩
    rcases System.log_step hcur.sound (hok.2 a rfl).openAlone hdirect hother with ⟨hlog, hcomm⟩ | ⟨⟨k, rfl⟩, b, hlog, hcomm⟩
    · rw [show d'.sys.log = d.sys.log from hlog, show d'.sys.committed = d.sys.committed from hcomm]
      exact h n
    · obtain ⟨pre, pend, -, hpend⟩ := hcur.sound.pending
      obtain ⟨x, hx, -⟩ := System.commit_cases hcur.sound hdirect
      obtain ⟨unread, htr⟩ := hcur.sound.tracks k x hx
      have hbehind := @behind_append d.sys.log _ _ (htr.header_le.trans htr.pos_le) hpend b n
      rw [show d'.sys.log = d.sys.log ++ b.blob from hlog, hbehind]
      by_cases hn : n ∈ b.pages.map Prod.fst
      · exact .inl (.inr hn)
      · refine (h n).imp .inl fun hfile => hfile.trans ?_
        exact (hcomm n hn).symm

theorem logCovers_init (file log : Bytes) : LogCovers (init file log) := fun _ => .inr rfl

end Disk

/-! ### Sessions with transactions and node caches -/

structure Engines where
  disk : Disk
  /-- `_ncache` of the tree of each session. -/
  ncache : Nat → AList fun _ : Nat => Image × PyNode
  running : AList fun _ : Nat => Running
  /-- The committed transactions, in commit order. -/
  commits : List Txn

namespace Engines
open LeafDb.System (Action FreshOk CountOk Current Sound)

inductive Move
  | event (e : Disk.Event)
  /-- A `_load` outside of the transactions, also one of `refresh_from_wal`, has decoded a page that is in the pool. -/
  | remember (i n : Nat)
  /-- Such a `_load` has found the cache full. -/
  | forget (i : Nat)
  | begin (i : Nat) (body : Txn)
  | run (i : Nat)
  | commit (i : Nat)

/-- The tree of a session over its pager, on the data file as its file object shows it. -/
def tree (w : Engines) (i : Nat) (x : Session) : PyTree := ⟨(w.disk.seen i).pagerOf x, w.ncache i⟩

/-- What a session does besides the transactions' own operations. -/
def event (w : Engines) : Disk.Event → Option Engines
  | .act (.begin _) | .act (.write _ _ _) | .act (.allocate _) | .act (.commit _) => none
  | .act (.open i cacheSize) =>
    (w.disk.step (.act (.open i cacheSize))).map fun d => { w with disk := d, ncache := Function.update w.ncache i ∅ }
  | .act (.rollback i) =>
    (w.disk.step (.act (.rollback i))).map fun d => { w with disk := d, running := w.running.erase i }
  | .act (.close i ckpt) =>
    (w.disk.step (.act (.close i ckpt))).map fun d => { w with disk := d, running := w.running.erase i }
  | e => (w.disk.step e).map fun d => { w with disk := d }

/-- The session goes on with the rest of its transaction. -/
def goOn (w : Engines) (i : Nat) (r : Running) (rest : Txn) (d : Disk) : Engines :=
  { w with disk := d, running := w.running.insert i { r with rest := rest } }

def cache (w : Engines) (i : Nat) (t : PyTree) : Engines := { w with ncache := Function.update w.ncache i t.ncache }

/-- The next operation of the transaction that session `i` is in. -/
def runNext (w : Engines) (i : Nat) (r : Running) (x : Session) : Option Engines :=
  match r.rest with
  | .done => none
  | .get n rest =>
    match (w.tree i x).pager.get n with
    | .error e => some (w.goOn i r (rest (.error e)) w.disk)
    | .ok (im, _) => (w.disk.step (.act (.get i n))).map (w.goOn i r (rest (.ok im.bytes)))
  | .write n data rest =>
    match (w.tree i x).pager.write n data with
    | .error e => some (w.goOn i r (rest (.error e)) w.disk)
    | .ok _ => (w.disk.step (.act (.write i n data))).map (w.goOn i r (rest (.ok ())))
  | .allocate rest =>
    (w.disk.step (.act (.allocate i))).map (w.goOn i r (rest (w.tree i x).pager.allocate.1))
  | .load n rest =>
    match (w.tree i x).pager.get n with
    | .error e => some (w.goOn i r (rest (.error e)) w.disk)
    | .ok _ =>
      (w.disk.step (.act (.get i n))).map fun d =>
        match PyTree.load n (w.tree i x) with
        | .ok nd t => (w.goOn i r (rest (.ok nd)) d).cache i t
        | .error e t => (w.goOn i r (rest (.error e)) d).cache i t
  | .mutate n nd rest => some ((w.goOn i r rest w.disk).cache i ((w.tree i x).mutate n nd))

/-- The cache takes the node of page `n`, which is in the pool. -/
def remember (w : Engines) (i n : Nat) (x : Session) : Option Engines :=
  match (w.tree i x).pager.cached n with
  | none => none
  | some im =>
    match (w.tree i x).hit n im, nodeFromBytes im.bytes with
    | none, .ok nd => some (w.cache i ⟨(w.tree i x).pager, (w.ncache i).insert n (im, nd)⟩)
    | _, _ => none

def step (w : Engines) : Move → Option Engines
  | .event e => w.event e
  | .remember i n => (w.disk.sys.sess.lookup i).bind (w.remember i n)
  | .forget i => some { w with ncache := Function.update w.ncache i ∅ }
  | .begin i body =>
    (w.disk.step (.act (.begin i))).map fun d => { w with disk := d, running := w.running.insert i ⟨body, body⟩ }
  | .run i =>
    match w.running.lookup i, w.disk.sys.sess.lookup i with
    | some r, some x => w.runNext i r x
    | _, _ => none
  | .commit i =>
    match w.running.lookup i with
    | some ⟨body, .done⟩ =>
      (w.disk.step (.act (.commit i))).map fun d => { w with disk := d, running := w.running.erase i, commits := w.commits ++ [body] }
    | _ => none

def init (file log : Bytes) : Engines := ⟨.init file log, fun _ => ∅, ∅, []⟩

/-- A load that finds a node in the cache finds what the image of the page decodes to. -/
def LoadsTrue (t : PyTree) (n : Nat) : Prop :=
  ∀ im p nd, t.pager.get n = .ok (im, p) → t.hit n im = some nd → nodeFromBytes im.bytes = .ok nd

/-- What the next operation of a transaction reads is the last write, and a load returns what it reads. -/
def RunsTrue (w : Engines) (i : Nat) (x : Session) : Txn → Prop
  | .done | .mutate _ _ _ => True
  | .get n _ => w.disk.Coherent (.act (.get i n))
  | .write n data _ => w.disk.Coherent (.act (.write i n data))
  | .allocate _ => w.disk.Coherent (.act (.allocate i))
  | .load n _ => w.disk.Coherent (.act (.get i n)) ∧ LoadsTrue (w.tree i x) n

/-- A transaction that may write is committed by a session that has adopted every batch; for the rest, the pages
sessions read are the committed ones, their page counts are right, and loads return what they read. -/
def SerialOk (w : Engines) : Move → Prop
  | .event e => w.disk.Meets (fun s a => FreshOk s a ∧ CountOk s a) e
  | .remember _ _ | .forget _ | .begin _ _ => True
  | .run i => ∀ x r, w.disk.sys.sess.lookup i = some x → w.running.lookup i = some r → w.RunsTrue i x r.rest
  | .commit i => ∀ x r, w.disk.sys.sess.lookup i = some x → w.running.lookup i = some r →
      x.walPos = w.disk.sys.log.length ∨ r.body.ReadOnly

/-- The schedule without caches, every write in the data file. -/
def direct (w : Engines) : Schedule := ⟨w.disk.direct, w.running, w.commits⟩

variable {w w' : Engines} {i n : Nat} {r : Running} {x : Session} {m : Move}

/-- What a move does to the disk, and to the schedule. -/
structure Moved (w w' : Engines) : Prop where
  disk : w'.disk = w.disk ∨ ∃ e, w.disk.step e = some w'.disk ∧ w.disk.Meets FreshOk e
  direct : w'.direct = w.direct ∨ ∃ m, w.direct.step m = some w'.direct ∧ Schedule.SerialOk w.direct m

theorem moved_event {e : Disk.Event} (hs : Sound w.disk.direct) (hok : SerialOk w (.event e)) (hw : w.event e = some w') :
    Moved w w' := by
  have hmeets : w.disk.Meets FreshOk e := ⟨hok.1, fun a ha => (hok.2 a ha).1⟩
  -- the same call in the schedule
  have hcall : ∀ {a d running}, e = .act a → w.disk.step (.act a) = some d → w'.direct = ⟨d.direct, running, w.commits⟩ →
      (∀ s, w.disk.direct.step a = some s → w.direct.call a = some ⟨s, running, w.commits⟩) →
      ∃ m, w.direct.step m = some w'.direct ∧ Schedule.SerialOk w.direct m := by
    rintro a d running rfl hd hw' hcall
    refine ⟨.call a, ?_, hok.2 a rfl⟩
    rw [hw']
    exact hcall _ (Disk.direct_step hs hok.1 hd)
  cases e with
  | spill i =>
    obtain ⟨d, hd, rfl⟩ := Option.map_eq_some_iff.1 hw
    refine ⟨.inr ⟨_, hd, hmeets⟩, .inl ?_⟩
    rw [direct, direct, Disk.direct_spill hd]
  | fill i ns =>
    obtain ⟨d, hd, rfl⟩ := Option.map_eq_some_iff.1 hw
    refine ⟨.inr ⟨_, hd, hmeets⟩, .inl ?_⟩
    rw [direct, direct, Disk.direct_fill hd]
  | act a =>
    cases a with
    | begin | write | allocate | commit => cases hw
    | «open» | refresh | get | rollback | checkpoint | close =>
      obtain ⟨d, hd, rfl⟩ := Option.map_eq_some_iff.1 hw
      refine ⟨.inr ⟨_, hd, hmeets⟩, .inr (hcall rfl hd rfl fun s hstep => ?_)⟩
      simp only [Schedule.call]
      rw [show w.direct.sys = w.disk.direct from rfl, hstep]
      rfl

/-- The schedule goes on as the engine of session `i` does. -/
structure Goes (w v : Engines) (i : Nat) (r : Running) (rest : Txn) : Prop where
  running : v.running = w.running.insert i { r with rest := rest }
  commits : v.commits = w.commits

/-- The next operation of a transaction accesses a page. -/
theorem moved_access {a : Action} {rest : Txn} {v : Engines} (hs : Sound w.disk.direct) (hr : w.running.lookup i = some r)
    (hx : w.disk.sys.sess.lookup i = some x) (hfresh : FreshOk w.disk.direct a) (hcoh : w.disk.Coherent (.act a))
    (hd : w.disk.step (.act a) = some v.disk) (hv : Goes w v i r rest)
    (hnext : w.direct.runNext i r x = (w.disk.direct.step a).map (w.direct.goOn i r rest)) : Moved w v := by
  refine ⟨.inr ⟨_, hd, hcoh, fun b hb => by cases hb; exact hfresh⟩, .inr ⟨.run i, ?_, trivial⟩⟩
  simp only [Schedule.step, show w.direct.running.lookup i = some r from hr,
    show w.direct.sys.sess.lookup i = some x from hx]
  rw [hnext, Disk.direct_step hs hcoh hd, Option.map_some,
    show v.direct = ⟨v.disk.direct, v.running, v.commits⟩ from rfl, hv.running, hv.commits]
  rfl

/-- The next operation of a transaction raises before it accesses a page, or changes a decoded object. -/
theorem moved_stay {rest : Txn} {v : Engines} (hr : w.running.lookup i = some r) (hx : w.disk.sys.sess.lookup i = some x)
    (hd : v.disk = w.disk) (hv : Goes w v i r rest)
    (hnext : w.direct.runNext i r x = some (w.direct.goOn i r rest w.disk.direct)) : Moved w v := by
  refine ⟨.inl hd, .inr ⟨.run i, ?_, trivial⟩⟩
  simp only [Schedule.step, show w.direct.running.lookup i = some r from hr,
    show w.direct.sys.sess.lookup i = some x from hx]
  rw [hnext, show v.direct = ⟨v.disk.direct, v.running, v.commits⟩ from rfl, hv.running, hv.commits, hd]
  rfl

theorem moved_run (hs : Sound w.disk.direct) (hr : w.running.lookup i = some r) (hx : w.disk.sys.sess.lookup i = some x)
    (hin : x.inTxn = true) (hok : w.RunsTrue i x r.rest) (hw : w.runNext i r x = some w') : Moved w w' := by
  have hfresh := fun n => Schedule.freshOk_get hs (s := w.disk.direct) hx hin n
  have herror : ∀ {n e}, (w.tree i x).pager.get n = .error e → (w.direct.sys.pagerOf x).get n = .error e := fun h =>
    Pager.get_withFile_error (f := w.disk.made) h
  unfold runNext at hw
  split at hw
  · cases hw
  · rename_i n rest hrest
    rw [hrest] at hok
    split at hw
    · rename_i e he
      cases hw
      exact moved_stay hr hx rfl ⟨rfl, rfl⟩ (by simp only [Schedule.runNext, hrest, herror he]; rfl)
    · rename_i im p hg
      obtain ⟨d, hd, rfl⟩ := Option.map_eq_some_iff.1 hw
      obtain ⟨q, hg'⟩ := Disk.get_direct hs hx hok hg
      refine moved_access hs hr hx (hfresh n) hok hd ⟨rfl, rfl⟩ ?_
      simp only [Schedule.runNext, hrest, show (w.direct.sys.pagerOf x).get n = .ok (im, q) from hg']
      rfl
  · rename_i n data rest hrest
    rw [hrest] at hok
    split at hw
    · rename_i e he
      cases hw
      obtain ⟨rfl, hlong⟩ := Pager.write_eq_error he
      refine moved_stay hr hx rfl ⟨rfl, rfl⟩ ?_
      have hwrite : (w.direct.sys.pagerOf x).write n data = .error .valueError := if_pos hlong
      simp only [Schedule.runNext, hrest, hwrite]
      rfl
    · rename_i p hp
      obtain ⟨d, hd, rfl⟩ := Option.map_eq_some_iff.1 hw
      obtain ⟨q, hwrite⟩ : ∃ q, (w.direct.sys.pagerOf x).write n data = .ok q :=
        ⟨_, if_neg (Nat.not_lt.2 (Pager.write_eq_ok hp).1)⟩
      refine moved_access (a := .write i n data) hs hr hx trivial hok hd ⟨rfl, rfl⟩ ?_
      simp only [Schedule.runNext, hrest, hwrite]
      rfl
  · rename_i rest hrest
    rw [hrest] at hok
    obtain ⟨d, hd, rfl⟩ := Option.map_eq_some_iff.1 hw
    refine moved_access (a := .allocate i) hs hr hx trivial hok hd ⟨rfl, rfl⟩ ?_
    simp only [Schedule.runNext, hrest]
    rfl
  · rename_i n rest hrest
    rw [hrest] at hok
    obtain ⟨hcoh, htrue⟩ := hok
    split at hw
    · rename_i e he
      cases hw
      exact moved_stay hr hx rfl ⟨rfl, rfl⟩ (by simp only [Schedule.runNext, hrest, herror he]; rfl)
    · rename_i got hg
      obtain ⟨im, p⟩ := got
      obtain ⟨d, hd, rfl⟩ := Option.map_eq_some_iff.1 hw
      obtain ⟨q, hg'⟩ := Disk.get_direct hs hx hcoh hg
      -- the load returns what the image decodes to, whether it hits or not
      obtain ⟨hdisk, hgoes⟩ : (match PyTree.load n (w.tree i x) with
          | .ok nd t => (w.goOn i r (rest (.ok nd)) d).cache i t
          | .error e t => (w.goOn i r (rest (.error e)) d).cache i t).disk = d ∧
        Goes w (match PyTree.load n (w.tree i x) with
          | .ok nd t => (w.goOn i r (rest (.ok nd)) d).cache i t
          | .error e t => (w.goOn i r (rest (.error e)) d).cache i t) i r (rest (nodeFromBytes im.bytes)) := by
        simp only [PyTree.load, hg]
        cases hhit : (w.tree i x).hit n im with
        | some nd =>
          rw [htrue im p nd hg hhit]
          exact ⟨rfl, rfl, rfl⟩
        | none =>
          cases hnd : nodeFromBytes im.bytes with
          | error e => exact ⟨rfl, rfl, rfl⟩
          | ok nd => exact ⟨rfl, rfl, rfl⟩
      refine moved_access hs hr hx (hfresh n) hcoh (hd.trans (congrArg some hdisk.symm)) hgoes ?_
      simp only [Schedule.runNext, hrest, show (w.direct.sys.pagerOf x).get n = .ok (im, q) from hg']
      rfl
  · rename_i n nd rest hrest
    cases hw
    exact moved_stay hr hx rfl ⟨rfl, rfl⟩ (by simp only [Schedule.runNext, hrest]; rfl)

theorem moved_step (hs : Sound w.disk.direct) (hon : ∀ i r x, w.running.lookup i = some r →
      w.disk.sys.sess.lookup i = some x → x.inTxn = true ∧ (r.body.ReadOnly → x.mem.touched.getD [] = []))
    (hok : SerialOk w m) (hw : w.step m = some w') : Moved w w' := by
  cases m with
  | event e => exact moved_event hs hok hw
  | remember i n =>
    obtain ⟨x, hx, hw⟩ := Option.bind_eq_some_iff.1 hw
    unfold remember at hw
    split at hw
    · cases hw
    split at hw <;> cases hw
    exact ⟨.inl rfl, .inl rfl⟩
  | forget i =>
    cases hw
    exact ⟨.inl rfl, .inl rfl⟩
  | begin i body =>
    obtain ⟨d, hd, rfl⟩ := Option.map_eq_some_iff.1 hw
    have hcoh : w.disk.Coherent (.act (.begin i)) := trivial
    refine ⟨.inr ⟨_, hd, hcoh, fun a ha => by cases ha; trivial⟩, .inr ⟨.begin i body, ?_, trivial⟩⟩
    simp only [Schedule.step]
    rw [show w.direct.sys.step (.begin i) = some d.direct from Disk.direct_step hs hcoh hd]
    rfl
  | run i =>
    simp only [step] at hw
    split at hw
    · rename_i r x hr hx
      exact moved_run hs hr hx (hon i r x hr hx).1 (hok x r hx hr) hw
    · cases hw
  | commit i =>
    simp only [step] at hw
    split at hw
    · rename_i body hr
      obtain ⟨d, hd, rfl⟩ := Option.map_eq_some_iff.1 hw
      have hcoh : w.disk.Coherent (.act (.commit i)) := trivial
      have hdirect := Disk.direct_step hs hcoh hd
      refine ⟨.inr ⟨_, hd, hcoh, fun a ha => ?_⟩, .inr ⟨.commit i, ?_, hok⟩⟩
      · cases ha
        exact fun x hx => (hok x _ hx hr).symm.imp_left (hon i _ x hr hx).2
      · simp only [Schedule.step, show w.direct.running.lookup i = some ⟨body, .done⟩ from hr]
        rw [show w.direct.sys.step (.commit i) = some d.direct from hdirect]
        rfl
    · cases hw

/-- The schedule `w` with node caches, and file objects in which nothing waits. -/
def still (w : Schedule) (c : Nat → AList fun _ : Nat => Image × PyNode) : Engines := ⟨.still w.sys, c, w.running, w.commits⟩

def lift : Schedule.Move → Move
  | .call a => .event (.act a)
  | .begin i body => .begin i body
  | .run i => .run i
  | .commit i => .commit i

/-- The move loads no node, what it writes to the data file does not wait, and an open resets no log under a session. -/
def Unbuffered (w : Schedule) : Schedule.Move → Prop
  | .call a => w.sys.OpenAlone a ∧ ((Disk.still w.sys).base a = none → w.sys.writes a = [])
  | .begin _ _ | .commit _ => True
  | .run i => ∀ r, w.running.lookup i = some r →
      match r.rest with
      | .get n _ => w.sys.writes (.get i n) = []
      | .load _ _ | .mutate _ _ _ => False
      | _ => True

theorem unbuffered_open {w : Schedule} {k : Nat} (h : w.sys.OpenAlone (.open i k)) : Unbuffered w (.call (.open i k)) :=
  ⟨h, fun hnone => absurd hnone (Option.some_ne_none _)⟩

theorem step_still {w w' : Schedule} {m : Schedule.Move} (c : Nat → AList fun _ : Nat => Image × PyNode) (hs : Sound w.sys)
    (hu : Unbuffered w m) (hw : w.step m = some w') :
    Sound w'.sys ∧ ∃ c', (still w c).step (lift m) = some (still w' c') ∧ ∀ k, c' k = c k ∨ c' k = ∅ := by
  have hsame : ∀ k, c k = c k ∨ c k = ∅ := fun k => .inl rfl
  cases m with
  | call a =>
    obtain ⟨halone, hu⟩ := hu
    cases a with
    | begin | write | allocate | commit => cases hw
    | «open» i cacheSize =>
      obtain ⟨t, ht, rfl⟩ := Option.map_eq_some_iff.1 hw
      refine ⟨System.sound_step hs halone ht, Function.update c i ∅, ?_, fun k => ?_⟩
      · simp only [lift, step, event, still, Disk.step_still hs hu ht]
        rfl
      · by_cases hk : k = i
        · exact .inr (by rw [hk, Function.update_self])
        · exact .inl (Function.update_of_ne hk _ _)
    | refresh | get | rollback | checkpoint | close =>
      obtain ⟨t, ht, rfl⟩ := Option.map_eq_some_iff.1 hw
      refine ⟨System.sound_step hs halone ht, c, ?_, hsame⟩
      simp only [lift, step, event, still, Disk.step_still hs hu ht]
      rfl
  | begin i body =>
    obtain ⟨t, ht, rfl⟩ := Option.map_eq_some_iff.1 hw
    refine ⟨System.sound_step hs (a := .begin i) trivial ht, c, ?_, hsame⟩
    simp only [lift, step, still, Disk.step_still (a := .begin i) hs (fun _ => rfl) ht]
    rfl
  | commit i =>
    simp only [Schedule.step] at hw
    split at hw
    · rename_i body hr
      obtain ⟨t, ht, rfl⟩ := Option.map_eq_some_iff.1 hw
      refine ⟨System.sound_step hs (a := .commit i) trivial ht, c, ?_, hsame⟩
      simp only [lift, step, still, hr, Disk.step_still (a := .commit i) hs (fun _ => rfl) ht]
      rfl
    · cases hw
  | run i =>
    simp only [Schedule.step] at hw
    split at hw
    swap
    · cases hw
    rename_i r x hr hx
    have hu := hu r hr
    have hnext : (still w c).step (.run i) = (still w c).runNext i r x := by
      simp only [step, show (still w c).running.lookup i = some r from hr,
        show (still w c).disk.sys.sess.lookup i = some x from hx]
    rw [lift, hnext]
    unfold Schedule.runNext at hw
    split at hw
    · cases hw
    · rename_i n rest hrest
      rw [hrest] at hu
      split at hw
      · rename_i e he
        cases hw
        refine ⟨hs, c, ?_, hsame⟩
        simp only [runNext, hrest, show ((still w c).tree i x).pager.get n = .error e from he]
        rfl
      · rename_i im p hg
        obtain ⟨t, ht, rfl⟩ := Option.map_eq_some_iff.1 hw
        refine ⟨System.sound_step hs (a := .get i n) trivial ht, c, ?_, hsame⟩
        simp only [runNext, hrest, show ((still w c).tree i x).pager.get n = .ok (im, p) from hg,
          show (still w c).disk.step (.act (.get i n)) = _ from Disk.step_still hs (fun _ => hu) ht]
        rfl
    · rename_i n data rest hrest
      split at hw
      · rename_i e he
        cases hw
        refine ⟨hs, c, ?_, hsame⟩
        simp only [runNext, hrest, show ((still w c).tree i x).pager.write n data = .error e from he]
        rfl
      · rename_i p hp
        obtain ⟨t, ht, rfl⟩ := Option.map_eq_some_iff.1 hw
        refine ⟨System.sound_step hs (a := .write i n data) trivial ht, c, ?_, hsame⟩
        simp only [runNext, hrest, show ((still w c).tree i x).pager.write n data = .ok p from hp,
          show (still w c).disk.step (.act (.write i n data)) = _ from Disk.step_still hs (fun _ => rfl) ht]
        rfl
    · rename_i rest hrest
      obtain ⟨t, ht, rfl⟩ := Option.map_eq_some_iff.1 hw
      refine ⟨System.sound_step hs (a := .allocate i) trivial ht, c, ?_, hsame⟩
      simp only [runNext, hrest, show (still w c).disk.step (.act (.allocate i)) = _ from Disk.step_still hs (fun _ => rfl) ht]
      rfl
    · rename_i n rest hrest
      rw [hrest] at hu
      exact hu.elim
    · rename_i n nd rest hrest
      rw [hrest] at hu
      exact hu.elim

/-- Where nothing is loaded and nothing waits, a run of the schedule is one of the engines. -/
theorem run_still {ok : Schedule → Schedule.Move → Prop} {okEngines : Engines → Move → Prop}
    (hok : ∀ w c m, ok w m → Unbuffered w m → okEngines (still w c) (lift m)) {w w' : Schedule} {ms : List Schedule.Move}
    (c : Nat → AList fun _ : Nat => Image × PyNode) (hs : Sound w.sys)
    (hrun : Run Schedule.step (fun w m => ok w m ∧ Unbuffered w m) w ms w') :
    Sound w'.sys ∧ ∃ c', Run step okEngines (still w c) (ms.map lift) (still w' c') ∧ ∀ k, c' k = c k ∨ c' k = ∅ := by
  induction hrun generalizing c with
  | nil => exact ⟨hs, c, .nil _, fun k => .inl rfl⟩
  | cons hstill hstep _ ih =>
    obtain ⟨hs1, c1, h1, hc1⟩ := step_still c hs hstill.2 hstep
    obtain ⟨hs2, c2, h2, hc2⟩ := ih c1 hs1
    refine ⟨hs2, c2, .cons (hok _ _ _ hstill.1 hstill.2) h1 h2, fun k => ?_⟩
    rcases hc2 k with heq | hempty
    · rw [heq]
      exact hc1 k
    · exact .inr hempty

/-- After a load the cache has of its page what it had, or the node of the image that was read. -/
theorem ncache_load {t : PyTree} {im : Image} {p : Pager} (hg : t.pager.get n = .ok (im, p)) :
    match PyTree.load n t with
    | .ok _ t' | .error _ t' => ∀ e, t'.ncache.lookup n = some e →
        t.ncache.lookup n = some e ∨ e.1 = im ∧ nodeFromBytes im.bytes = .ok e.2 := by
  simp only [PyTree.load, hg]
  cases t.hit n im with
  | some nd => exact fun e he => .inl he
  | none =>
    cases hnd : nodeFromBytes im.bytes with
    | error e => exact fun e he => .inl he
    | ok nd =>
      intro e he
      obtain rfl := Option.some.inj ((AList.lookup_insert _).symm.trans he)
      exact .inr ⟨rfl, rfl⟩

/-- A load whose result does not matter for the transaction. -/
theorem load_still {w : Schedule} (c : Nat → AList fun _ : Nat => Image × PyNode) (rest : Txn) (hs : Sound w.sys)
    {im : Image} {p : Pager} (hr : w.running.lookup i = some r) (hrest : r.rest = .load n fun _ => rest)
    (hx : w.sys.sess.lookup i = some x) (hg : (w.sys.pagerOf x).get n = .ok (im, p))
    (hwrites : w.sys.writes (.get i n) = []) :
    ∃ c', (still w c).step (.run i) =
        some (still ⟨w.sys.store i x p, w.running.insert i { r with rest := rest }, w.commits⟩ c') ∧
      ∀ e, (c' i).lookup n = some e → (c i).lookup n = some e ∨ e.1 = im ∧ nodeFromBytes im.bytes = .ok e.2 := by
  have hdisk : (still w c).disk.step (.act (.get i n)) = some (.still (w.sys.store i x p)) :=
    Disk.step_still hs (fun _ => hwrites) (System.step_get hx hg)
  have hnext : (still w c).step (.run i) = (still w c).runNext i r x := by
    simp only [step, show (still w c).running.lookup i = some r from hr,
      show (still w c).disk.sys.sess.lookup i = some x from hx]
  have hg' : ((still w c).tree i x).pager.get n = .ok (im, p) := hg
  rw [hnext]
  simp only [runNext, hrest, hg', hdisk, Option.map_some]
  have hcache := ncache_load hg'
  cases hload : PyTree.load n ((still w c).tree i x) with
  | error e t | ok nd t =>
    rw [hload] at hcache
    refine ⟨Function.update c i t.ncache, rfl, fun e he => hcache e ?_⟩
    rwa [Function.update_self] at he

theorem loadsTrue {t : PyTree} {im : Image} {p : Pager} (hg : t.pager.get n = .ok (im, p))
    (h : ∀ e, t.ncache.lookup n = some e → e.1 = im ∧ nodeFromBytes im.bytes = .ok e.2) : LoadsTrue t n := by
  intro im' p' nd hg' hhit
  obtain ⟨rfl, rfl⟩ := Prod.mk.inj (Except.ok.inj (hg.symm.trans hg'))
  unfold PyTree.hit at hhit
  split at hhit
  · rename_i image nd' hlook
    split at hhit <;> cases hhit
    exact (h _ hlook).2
  · cases hhit

/-! ### Two transactions that overlap -/

/-- What the moves of two sessions that take turns meet. -/
def Plain (w : Schedule) : Schedule.Move → Prop
  | .call a => w.sys.Plain a
  | .commit i => ∀ x, w.sys.sess.lookup i = some x → x.walPos = w.sys.log.length
  | .begin _ _ | .run _ => True

theorem serialOk_of_plain (w : Schedule) (c : Nat → AList fun _ : Nat => Image × PyNode) (m : Schedule.Move) (h : Plain w m)
    (hu : Unbuffered w m) : SerialOk (still w c) (lift m) := by
  cases m with
  | call a =>
    have hmeets : (Disk.still w.sys).Meets (fun s a => FreshOk s a ∧ CountOk s a) (.act a) :=
      Disk.meets_still ⟨FreshOk.of_plain h, Disk.CountOk.of_plain h⟩
    exact hmeets
  | begin i body => trivial
  | commit i => exact fun x r hx _ => .inl (h x hx)
  | run i =>
    intro x r hx hr
    have hu := hu r hr
    cases hrest : r.rest with
    | done => trivial
    | get n rest => exact Disk.coherent_still w.sys (.get i n)
    | write n data rest => exact Disk.coherent_still w.sys (.write i n data)
    | allocate rest => exact Disk.coherent_still w.sys (.allocate i)
    | load | mutate =>
      rw [hrest] at hu
      exact hu.elim

end Engines

end LeafDb
