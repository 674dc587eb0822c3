import LeafDb.Node
import LeafDb.PageCount

/-!
# Transactions of several sessions

A transaction is what it does with the pages (`Txn`): its next operation and, for every outcome of it, the
rest; statements of the same transaction follow one another in it, and a statement that raises goes on with
the rest. A `Schedule` is a `System` with the transactions its sessions are in; a load decodes the page it reads. `Serial` is the result of
running transactions one after another; each of them may start with any page count that is beyond the pages
in use.

A transaction reads its own writes and the state committed before it began. That is the last committed state
at its COMMIT when no other session has committed in between.
-/

namespace LeafDb

/-! ### Transactions one after another -/

inductive Txn
  | done
  | get (n : Nat) (rest : Except PyError Bytes → Txn)
  | write (n : Nat) (data : Bytes) (rest : Except PyError Unit → Txn)
  | allocate (rest : Nat → Txn)
  /-- `BTree._load`. -/
  | load (n : Nat) (rest : Except PyError PyNode → Txn)
  /-- The object that `_load(n)` returned changes. -/
  | mutate (n : Nat) (nd : PyNode) (rest : Txn)

/-- The pages of a database, the page count and the pages in use. -/
structure PageStore where
  pages : Nat → Bytes
  numPages : Nat
  used : List Nat

def PageStore.put (σ : PageStore) (n : Nat) (data : Bytes) : PageStore where
  pages m := if m = n then data else σ.pages m
  numPages := max σ.numPages (n + 1)
  used := n :: σ.used

namespace Txn

/-- The transaction alone on the database. -/
def run : Txn → PageStore → PageStore
  | done, σ => σ
  | get n rest, σ =>
    if σ.numPages ≤ n ∧ n ≠ 0 then (rest (.error .indexError)).run σ else (rest (.ok (σ.pages n))).run σ
  | write n data rest, σ =>
    if pageSize < data.length then (rest (.error .valueError)).run σ
    else (rest (.ok ())).run (σ.put n (padTo pageSize data))
  | allocate rest, σ => (rest σ.numPages).run (σ.put σ.numPages emptyPage.bytes)
  | load n rest, σ =>
    if σ.numPages ≤ n ∧ n ≠ 0 then (rest (.error .indexError)).run σ else (rest (nodeFromBytes (σ.pages n))).run σ
  | mutate _ _ rest, σ => rest.run σ

/-- The transaction writes nothing, whatever it reads. -/
def ReadOnly : Txn → Prop
  | done => True
  | get _ rest => ∀ r, (rest r).ReadOnly
  | load _ rest => ∀ r, (rest r).ReadOnly
  | mutate _ _ rest => rest.ReadOnly
  | write _ _ _ => False
  | allocate _ => False

theorem run_get {n : Nat} {rest : Except PyError Bytes → Txn} {σ : PageStore} (h : ¬ (σ.numPages ≤ n ∧ n ≠ 0)) :
    (get n rest).run σ = (rest (.ok (σ.pages n))).run σ := if_neg h

theorem run_get_past {n : Nat} {rest : Except PyError Bytes → Txn} {σ : PageStore} (h : σ.numPages ≤ n ∧ n ≠ 0) :
    (get n rest).run σ = (rest (.error .indexError)).run σ := if_pos h

theorem run_of_readOnly {t : Txn} (h : t.ReadOnly) (σ : PageStore) : t.run σ = σ := by
  induction t with
  | done => rfl
  | get n rest ih | load n rest ih =>
    unfold run
    split
    · exact ih _ (h _)
    · exact ih _ (h _)
  | mutate n nd rest ih => exact ih h
  | write | allocate => exact h.elim

/-- A transaction that reads page 0 and writes it back changed. -/
def update (f : Bytes → Bytes) : Txn :=
  get 0 fun r => match r with
    | .ok data => write 0 (f data) fun _ => done
    | .error _ => done

theorem run_update {f : Bytes → Bytes} (h : ∀ data, (f data).length ≤ pageSize) (σ : PageStore) :
    (update f).run σ = σ.put 0 (padTo pageSize (f (σ.pages 0))) := by
  rw [update, run_get (fun hn => hn.2 rfl)]
  exact if_neg (Nat.not_lt.2 (h _))

end Txn

/-- `Serial file ts σ`: the transactions `ts`, one after another on a data file, lead to `σ`. -/
inductive Serial (file : Bytes) : List Txn → PageStore → Prop
  | nil : Serial file [] ⟨readPage file, 0, List.range (file.length / pageSize)⟩
  | snoc {ts : List Txn} {σ : PageStore} (t : Txn) (k : Nat) (h : Serial file ts σ) (hk : ∀ n ∈ σ.used, n < k) :
      Serial file (ts ++ [t]) (t.run { σ with numPages := k })

theorem Serial.snoc_inv {file : Bytes} {ts : List Txn} {t : Txn} {σ : PageStore} (h : Serial file (ts ++ [t]) σ) :
    ∃ τ k, Serial file ts τ ∧ σ = t.run { τ with numPages := k } := by
  generalize hl : ts ++ [t] = l at h
  cases h with
  | nil => exact absurd hl (by simp)
  | snoc t' k h hk =>
    obtain ⟨rfl, ht⟩ := List.append_inj' hl rfl
    cases ht
    exact ⟨_, k, h, rfl⟩

namespace Pager
variable {p p' : Pager} {n : Nat} {e : PyError}

theorem get_eq_error (h : p.get n = .error e) : e = .indexError ∧ p.numPages ≤ n ∧ n ≠ 0 := by
  unfold get at h
  split at h
  · cases h
    exact ⟨rfl, ‹_›⟩
  · split at h <;> cases h

theorem not_past_of_get {r : Image × Pager} (h : p.get n = .ok r) : ¬ (p.numPages ≤ n ∧ n ≠ 0) := by
  intro hn
  unfold get at h
  rw [if_pos hn] at h
  cases h

theorem write_eq_error {data : Bytes} (h : p.write n data = .error e) : e = .valueError ∧ pageSize < data.length := by
  unfold write at h
  split at h
  · cases h
    exact ⟨rfl, ‹_›⟩
  · cases h

end Pager

/-! ### Sessions with transactions -/

/-- The transaction a session is in, and what of it is left. -/
structure Running where
  body : Txn
  rest : Txn

structure Schedule where
  sys : System
  running : AList fun _ : Nat => Running
  /-- The committed transactions, in commit order. -/
  commits : List Txn

namespace Schedule
open LeafDb.System (Action FreshOk CountOk Current Counted Sound)

inductive Move
  | call (a : Action)
  | begin (i : Nat) (body : Txn)
  | run (i : Nat)
  | commit (i : Nat)

/-- What a session does besides the transactions' own operations. -/
def call (w : Schedule) : Action → Option Schedule
  | .begin _ | .write _ _ _ | .allocate _ | .commit _ => none
  | .rollback i => (w.sys.step (.rollback i)).map fun s => ⟨s, w.running.erase i, w.commits⟩
  | .close i ckpt => (w.sys.step (.close i ckpt)).map fun s => ⟨s, w.running.erase i, w.commits⟩
  | a => (w.sys.step a).map fun s => { w with sys := s }

/-- The session goes on with the rest of its transaction. -/
def goOn (w : Schedule) (i : Nat) (r : Running) (rest : Txn) (s : System) : Schedule :=
  { w with sys := s, running := w.running.insert i { r with rest := rest } }

/-- The next operation of the transaction that session `i` is in. -/
def runNext (w : Schedule) (i : Nat) (r : Running) (x : Session) : Option Schedule :=
  match r.rest with
  | .done => none
  | .get n rest =>
    match (w.sys.pagerOf x).get n with
    | .error e => some (w.goOn i r (rest (.error e)) w.sys)
    | .ok (im, _) => (w.sys.step (.get i n)).map (w.goOn i r (rest (.ok im.bytes)))
  | .write n data rest =>
    match (w.sys.pagerOf x).write n data with
    | .error e => some (w.goOn i r (rest (.error e)) w.sys)
    | .ok _ => (w.sys.step (.write i n data)).map (w.goOn i r (rest (.ok ())))
  | .allocate rest =>
    (w.sys.step (.allocate i)).map (w.goOn i r (rest (w.sys.pagerOf x).allocate.1))
  | .load n rest =>
    match (w.sys.pagerOf x).get n with
    | .error e => some (w.goOn i r (rest (.error e)) w.sys)
    | .ok (im, _) => (w.sys.step (.get i n)).map (w.goOn i r (rest (nodeFromBytes im.bytes)))
  | .mutate _ _ rest => some (w.goOn i r rest w.sys)

def step (w : Schedule) : Move → Option Schedule
  | .call a => w.call a
  | .begin i body => (w.sys.step (.begin i)).map fun s => ⟨s, w.running.insert i ⟨body, body⟩, w.commits⟩
  | .run i =>
    match w.running.lookup i, w.sys.sess.lookup i with
    | some r, some x => w.runNext i r x
    | _, _ => none
  | .commit i =>
    match w.running.lookup i with
    | some ⟨body, .done⟩ => (w.sys.step (.commit i)).map fun s => ⟨s, w.running.erase i, w.commits ++ [body]⟩
    | _ => none

def init (file log : Bytes) : Schedule := ⟨.init file log, ∅, []⟩

/-- A transaction that may write is committed by a session that has adopted every batch; for the rest, the pages
sessions read are the committed ones and their page counts are right. -/
def SerialOk (w : Schedule) : Move → Prop
  | .call a => FreshOk w.sys a ∧ CountOk w.sys a
  | .begin _ _ | .run _ => True
  | .commit i => ∀ x r, w.sys.sess.lookup i = some x → w.running.lookup i = some r →
      x.walPos = w.sys.log.length ∨ r.body.ReadOnly

/-! ### What is left of a transaction -/

/-- What is left of the transaction leads, on the pages its session reads, where all of it leads on `σ`, unless
there are batches the session has not adopted. -/
structure OnTrack (s : System) (σ : PageStore) (r : Running) (x : Session) : Prop where
  inTxn : x.inTxn = true
  readOnly : r.body.ReadOnly → r.rest.ReadOnly ∧ x.mem.touched.getD [] = []
  run_eq : s.log.drop x.walPos = [] → ∃ k used, (∀ n ∈ σ.used, n < k) ∧
    (∀ n ∈ used, n ∈ σ.used ∨ n ∈ x.mem.touched.getD []) ∧ (x.mem.touched.getD [] = [] → used = σ.used) ∧
    r.rest.run ⟨(s.pagerOf x).content, x.mem.numPages, used⟩ = r.body.run { σ with numPages := k }

structure Ordered (w : Schedule) (σ : PageStore) : Prop where
  current : Current w.sys
  counted : Counted w.sys σ.used
  pages_eq : σ.pages = w.sys.committed
  running : ∀ i r, w.running.lookup i = some r → ∃ x, w.sys.sess.lookup i = some x ∧ OnTrack w.sys σ r x

variable {s t : System} {w w' : Schedule} {σ : PageStore} {i : Nat} {r : Running} {x : Session} {p : Pager}

/-- Away from its own writes a session that is up to date reads the committed pages. -/
theorem content_eq_committed (h : Current s) (hx : s.sess.lookup i = some x) (hpos : s.log.drop x.walPos = []) {n : Nat}
    (hn : n ∉ x.mem.touched.getD []) : (s.pagerOf x).content n = s.committed n := by
  obtain ⟨unread, htr⟩ := h.sound.tracks i x hx
  rw [← System.base_eq_content_of_notMem htr hn]
  exact h.base_eq i x hx n (not_behind hpos n)

/-- What another session does to the data file is not seen. -/
theorem content_congr (hs : Current s) (ht : Current t) (hx : s.sess.lookup i = some x) (hx' : t.sess.lookup i = some x)
    (hlog : t.log = s.log) (hcomm : t.committed = s.committed) (hpos : s.log.drop x.walPos = []) :
    (t.pagerOf x).content = (s.pagerOf x).content := by
  funext n
  by_cases hn : n ∈ x.mem.touched.getD []
  · obtain ⟨unread, htr⟩ := hs.sound.tracks i x hx
    obtain ⟨im, him⟩ := Option.isSome_iff_exists.1
      ((htr.pager s).dirty_cached n ((htr.pager s).touched_dirty n hn))
    exact (Pager.content_of_cached (p := t.pagerOf x) him).trans (Pager.content_of_cached him).symm
  · rw [content_eq_committed hs hx hpos hn, content_eq_committed ht hx' (by rw [hlog]; exact hpos) hn, hcomm]

/-- A session that has a batch to adopt is on track to anywhere. -/
theorem OnTrack.of_append (h : OnTrack s σ r x) (hs : Sound s) (hx : s.sess.lookup i = some x) {b : Batch}
    (hlog : t.log = s.log ++ b.blob) (σ' : PageStore) : OnTrack t σ' r x := by
  refine ⟨h.inTxn, h.readOnly, fun hpos => ?_⟩
  obtain ⟨unread, htr⟩ := hs.tracks i x hx
  have hlen := List.drop_eq_nil_iff.1 hpos
  have := b.length_blob_pos
  have := htr.pos_le
  rw [hlog, List.length_append] at hlen
  omega

theorem OnTrack.congr (h : OnTrack s σ r x) (hs : Current s) (ht : Current t) (hx : s.sess.lookup i = some x)
    (hx' : t.sess.lookup i = some x)
    (hlog : t.log = s.log ∧ t.committed = s.committed ∨ ∃ b : Batch, t.log = s.log ++ b.blob) : OnTrack t σ r x := by
  rcases hlog with ⟨hlog, hcomm⟩ | ⟨b, hlog⟩
  · refine ⟨h.inTxn, h.readOnly, fun hpos => ?_⟩
    rw [hlog] at hpos
    rw [content_congr hs ht hx hx' hlog hcomm hpos]
    exact h.run_eq hpos
  · exact h.of_append hs.sound hx hlog σ

/-- The transactions of the other sessions stay on track. -/
theorem Ordered.others (h : Ordered w σ) {a : Action} (hok : FreshOk w.sys a) (ht : w.sys.step a = some t)
    (hi : i ≠ a.actor) (hr : w.running.lookup i = some r) : ∃ x, t.sess.lookup i = some x ∧ OnTrack t σ r x := by
  obtain ⟨x, hx, hon⟩ := h.running i r hr
  have hx' := (System.lookup_step ht hi.symm).trans hx
  exact ⟨x, hx', hon.congr h.current (System.current_step h.current hok ht) hx hx'
    ((System.log_step h.current.sound hok.openAlone ht fun _ => ⟨i, x, hi, hx⟩).imp_right fun ⟨_, b, hb, _⟩ => ⟨b, hb⟩)⟩

/-! ### The steps of a transaction -/

theorem onTrack_begin (h : Ordered w σ) (body : Txn) (hx : w.sys.sess.lookup i = some x) (hnone : x.mem.touched = none) :
    OnTrack (w.sys.store i { x with inTxn := true } { w.sys.pagerOf x with touched := some [], shadow := ∅ }) σ
      ⟨body, body⟩ { x with inTxn := true, mem := { x.mem with touched := some [], shadow := ∅ } } where
  inTxn := rfl
  readOnly hro := ⟨hro, rfl⟩
  run_eq hpos := by
    refine ⟨x.mem.numPages, σ.used, fun n hn => ?_, fun n hn => .inl hn, fun _ => rfl, ?_⟩
    · exact (h.counted.numPages i x hx n hn).resolve_right (not_behind hpos n)
    · have hcontent : (w.sys.pagerOf x).content = σ.pages := by
        funext n
        rw [h.pages_eq]
        exact content_eq_committed h.current hx hpos (by rw [hnone]; exact List.not_mem_nil)
      show body.run ⟨(w.sys.pagerOf x).content, _, _⟩ = _
      rw [hcontent]

/-- An operation that leaves the pages as they are. -/
theorem OnTrack.skip (h : OnTrack s σ r x) {rest : Txn} (hro : r.rest.ReadOnly → rest.ReadOnly)
    (hrest : ∀ used, r.rest.run ⟨(s.pagerOf x).content, x.mem.numPages, used⟩ =
      rest.run ⟨(s.pagerOf x).content, x.mem.numPages, used⟩) :
    OnTrack s σ { r with rest := rest } x := by
  refine ⟨h.inTxn, fun hbody => (h.readOnly hbody).imp_left hro, fun hpos => ?_⟩
  obtain ⟨k, used, hk, hused, hnone, hrun⟩ := h.run_eq hpos
  exact ⟨k, used, hk, hused, hnone, (hrest used).symm.trans hrun⟩

/-- Reading changes the pool only. -/
theorem OnTrack.fetches (h : OnTrack s σ r x) {n : Nat} {im : Image} (htouched : x.mem.touched.isSome)
    (hf : Pager.Fetches (s.pagerOf x) p n im) : OnTrack (s.store i x p) σ r { x with mem := p.toPagerMem } := by
  have hcontent : p.content = (s.pagerOf x).content := funext fun m => hf.content_eq_of_touched htouched m
  have hsame : p.touched.getD [] = x.mem.touched.getD [] := by rw [hf.touched_eq]; rfl
  refine ⟨h.inTxn, fun hro => (h.readOnly hro).imp_right hsame.trans, fun hpos => ?_⟩
  obtain ⟨k, used, hk, hused, hnone, hrun⟩ := h.run_eq hpos
  refine ⟨k, used, hk, by rw [hsame]; exact hused, by rw [hsame]; exact hnone, ?_⟩
  rw [← hrun]
  show r.rest.run ⟨p.content, p.numPages, used⟩ = _
  rw [hcontent, hf.numPages_eq]
  rfl

theorem OnTrack.writes (h : OnTrack s σ r x) {n : Nat} {data : Bytes} {rest : Txn}
    (hro : ¬ r.rest.ReadOnly) (htouched : x.mem.touched.isSome) (hw : Pager.Writes (s.pagerOf x) p n data)
    (hrest : ∀ used, r.rest.run ⟨(s.pagerOf x).content, x.mem.numPages, used⟩ =
      rest.run (PageStore.put ⟨(s.pagerOf x).content, x.mem.numPages, used⟩ n data)) :
    OnTrack (s.store i x p) σ { r with rest := rest } { x with mem := p.toPagerMem } := by
  have hcontent : p.content = fun m => if m = n then data else (s.pagerOf x).content m := funext hw.content_eq
  have hmem : ∀ m, m ∈ p.touched.getD [] ↔ m = n ∨ m ∈ x.mem.touched.getD [] := by
    intro m
    rw [hw.touched_eq]
    show m ∈ (x.mem.touched.map (·.insert n)).getD [] ↔ _
    cases ht : x.mem.touched with
    | none => rw [ht] at htouched; cases htouched
    | some l => exact List.mem_insert_iff
  refine ⟨h.inTxn, fun hbody => (hro (h.readOnly hbody).1).elim, fun hpos => ?_⟩
  obtain ⟨k, used, hk, hused, -, hrun⟩ := h.run_eq hpos
  refine ⟨k, n :: used, hk, fun m hm => ?_, fun hnil => ?_, ?_⟩
  · rcases List.mem_cons.1 hm with rfl | hm
    · exact .inr ((hmem m).2 (.inl rfl))
    · exact (hused m hm).imp_right fun hm => (hmem m).2 (.inr hm)
  · have := (hmem n).2 (.inl rfl)
    change p.touched.getD [] = [] at hnil
    rw [hnil] at this
    cases this
  · rw [← hrun, hrest]
    show rest.run ⟨p.content, p.numPages, n :: used⟩ = _
    rw [hcontent, hw.numPages_eq]
    rfl

/-- In a transaction a read drops no page. -/
theorem freshOk_get (hs : Sound s) (hx : s.sess.lookup i = some x) (hin : x.inTxn = true) (n : Nat) :
    FreshOk s (.get i n) := by
  obtain ⟨unread, htr⟩ := hs.tracks i x hx
  intro x' hx' im p hg
  obtain rfl : x = x' := Option.some.inj (hx.symm.trans hx')
  refine ⟨fun m im' hc hc' => ?_, trivial⟩
  have := ((Pager.fetches_get (htr.pager s) hg).file_touched (htr.touched_isSome hin)).2 m (by rw [hc]; rfl)
  rw [hc'] at this
  cases this

/-- The transactions stay on track in a step that commits nothing. -/
theorem Ordered.step (h : Ordered w σ) {a : Action} (hok : FreshOk w.sys a) (hcount : CountOk w.sys a)
    (ht : w.sys.step a = some t) (hcomm : t.committed = w.sys.committed) {running : AList fun _ : Nat => Running}
    (hothers : ∀ k r, k ≠ a.actor → running.lookup k = some r → w.running.lookup k = some r)
    (hown : ∀ r, running.lookup a.actor = some r → ∃ x, t.sess.lookup a.actor = some x ∧ OnTrack t σ r x) :
    Ordered ⟨t, running, w.commits⟩ σ where
  current := System.current_step h.current hok ht
  counted := System.counted_step h.current.sound h.counted hok hcount ht
  pages_eq := h.pages_eq.trans hcomm.symm
  running k r hr := by
    by_cases hk : k = a.actor
    · subst hk
      exact hown r hr
    · exact h.others hok ht hk (hothers k r hk hr)

/-- A session goes on with its transaction. -/
theorem Ordered.goOn (h : Ordered w σ) {a : Action} (hok : FreshOk w.sys a) (hcount : CountOk w.sys a)
    (ht : w.sys.step a = some t) (hi : a.actor = i) (hcomm : t.committed = w.sys.committed) {rest : Txn}
    (hon : ∃ x, t.sess.lookup i = some x ∧ OnTrack t σ { r with rest := rest } x) :
    Ordered (w.goOn i r rest t) σ := by
  subst hi
  refine h.step hok hcount ht hcomm (fun k q hk hq => (AList.lookup_insert_ne hk).symm.trans hq) fun q hq => ?_
  obtain rfl := Option.some.inj ((AList.lookup_insert _).symm.trans hq)
  exact hon

theorem Ordered.raises (h : Ordered w σ) {rest : Txn} (hx : w.sys.sess.lookup i = some x)
    (hon : OnTrack w.sys σ { r with rest := rest } x) : Ordered (w.goOn i r rest w.sys) σ where
  current := h.current
  counted := h.counted
  pages_eq := h.pages_eq
  running k q hq := by
    change (w.running.insert i _).lookup k = some q at hq
    by_cases hk : k = i
    · subst hk
      rw [AList.lookup_insert] at hq
      cases hq
      exact ⟨x, hx, hon⟩
    · rw [AList.lookup_insert_ne hk] at hq
      exact h.running k q hq

theorem ordered_run (h : Ordered w σ) (hr : w.running.lookup i = some r) (hx : w.sys.sess.lookup i = some x)
    (hw : w.runNext i r x = some w') : Ordered w' σ ∧ w'.commits = w.commits := by
  obtain ⟨x', hx', hon⟩ := h.running i r hr
  obtain rfl : x = x' := Option.some.inj (hx.symm.trans hx')
  obtain ⟨unread, htr⟩ := h.current.sound.tracks i x hx
  have hwf := htr.pager w.sys
  have htouched := htr.touched_isSome hon.inTxn
  unfold runNext at hw
  split at hw
  · cases hw
  · rename_i n rest hrest
    split at hw
    · rename_i e he
      cases hw
      obtain ⟨rfl, hpast⟩ := Pager.get_eq_error he
      refine ⟨h.raises hx (hon.skip (fun hro => ?_) fun used => ?_), rfl⟩
      · rw [hrest] at hro
        exact hro _
      · rw [hrest]
        exact Txn.run_get_past hpast
    · rename_i im p hg
      obtain ⟨s, hs, rfl⟩ := Option.map_eq_some_iff.1 hw
      have hstep := System.step_get hx hg
      obtain rfl := Option.some.inj (hstep.symm.trans hs)
      have hf := Pager.fetches_get hwf hg
      refine ⟨h.goOn (freshOk_get h.current.sound hx hon.inTxn n) trivial hstep rfl rfl
        ⟨_, AList.lookup_insert _, (hon.skip (fun hro => ?_) fun used => ?_).fetches htouched hf⟩, rfl⟩
      · rw [hrest] at hro
        exact hro _
      · rw [hrest, hf.bytes_eq]
        exact @Txn.run_get _ _ ⟨(w.sys.pagerOf x).content, x.mem.numPages, used⟩ (Pager.not_past_of_get hg)
  · rename_i n data rest hrest
    have hro : ¬ r.rest.ReadOnly := by rw [hrest]; exact id
    split at hw
    · rename_i e he
      cases hw
      obtain ⟨rfl, hlong⟩ := Pager.write_eq_error he
      refine ⟨h.raises hx (hon.skip (fun hro' => (hro hro').elim) fun used => ?_), rfl⟩
      rw [hrest, Txn.run, if_pos hlong]
    · rename_i p hp
      obtain ⟨s, hs, rfl⟩ := Option.map_eq_some_iff.1 hw
      have hstep := System.step_write hx hon.inTxn hp
      obtain rfl := Option.some.inj (hstep.symm.trans hs)
      refine ⟨h.goOn (a := .write i n data) trivial trivial hstep rfl rfl ⟨_, AList.lookup_insert _,
        hon.writes hro htouched (Pager.writes_write hwf htouched hp) fun used => ?_⟩, rfl⟩
      rw [hrest, Txn.run, if_neg (Nat.not_lt.2 (Pager.write_eq_ok hp).1)]
  · rename_i rest hrest
    obtain ⟨s, hs, rfl⟩ := Option.map_eq_some_iff.1 hw
    have hstep := hs
    obtain ⟨x', hx', -, rfl⟩ := System.allocate_cases hs
    obtain rfl : x = x' := Option.some.inj (hx.symm.trans hx')
    refine ⟨h.goOn (a := .allocate i) trivial trivial hstep rfl rfl ⟨_, AList.lookup_insert _,
      hon.writes (by rw [hrest]; exact id) htouched (Pager.writes_allocate hwf htouched) fun used => ?_⟩, rfl⟩
    rw [hrest, Txn.run]
    rfl
  · rename_i n rest hrest
    split at hw
    · rename_i e he
      cases hw
      obtain ⟨rfl, hpast⟩ := Pager.get_eq_error he
      refine ⟨h.raises hx (hon.skip (fun hro => ?_) fun used => ?_), rfl⟩
      · rw [hrest] at hro
        exact hro _
      · rw [hrest]
        exact if_pos hpast
    · rename_i im p hg
      obtain ⟨s, hs, rfl⟩ := Option.map_eq_some_iff.1 hw
      have hstep := System.step_get hx hg
      obtain rfl := Option.some.inj (hstep.symm.trans hs)
      have hf := Pager.fetches_get hwf hg
      refine ⟨h.goOn (freshOk_get h.current.sound hx hon.inTxn n) trivial hstep rfl rfl
        ⟨_, AList.lookup_insert _, (hon.skip (fun hro => ?_) fun used => ?_).fetches htouched hf⟩, rfl⟩
      · rw [hrest] at hro
        exact hro _
      · rw [hrest, hf.bytes_eq]
        exact if_neg (Pager.not_past_of_get hg)
  · rename_i n nd rest hrest
    cases hw
    refine ⟨h.raises hx (hon.skip (fun hro => ?_) fun used => ?_), rfl⟩
    · rw [hrest] at hro
      exact hro
    · rw [hrest, Txn.run]

theorem ordered_begin (h : Ordered w σ) (body : Txn) (ht : w.sys.step (.begin i) = some t) :
    Ordered ⟨t, w.running.insert i ⟨body, body⟩, w.commits⟩ σ := by
  have hw := @Ordered.goOn _ _ _ _ ⟨body, body⟩ h (.begin i) trivial trivial ht rfl
  obtain ⟨x, hx, hin, hnone, rfl⟩ := System.begin_cases ht
  exact hw rfl ⟨_, AList.lookup_insert _, onTrack_begin h body hx hnone⟩

/-- Any other call of a session ends its transaction, or leaves it as it is. -/
theorem ordered_call {a : Action} (h : Ordered w σ) (hok : FreshOk w.sys a) (hcount : CountOk w.sys a)
    (hw : w.call a = some w') : Ordered w' σ ∧ w'.commits = w.commits := by
  have hs := h.current.sound
  have hgone : ∀ i k r, k ≠ i → (w.running.erase i).lookup k = some r → w.running.lookup k = some r := by
    intro i k r hk hr
    rwa [AList.lookup_erase_ne hk] at hr
  have hended : ∀ i r, (w.running.erase i).lookup i = some r → False := by
    intro i r hr
    rw [AList.lookup_erase] at hr
    cases hr
  have hkept : ∀ i k r, k ≠ i → w.running.lookup k = some r → w.running.lookup k = some r := fun _ _ _ _ => id
  cases a with
  | begin | write | allocate | commit => cases hw
  | «open» i cacheSize =>
    obtain ⟨t, ht, rfl⟩ := Option.map_eq_some_iff.1 hw
    obtain ⟨u, hu, hget⟩ := System.openSession_cases ht
    obtain ⟨hnew, hc, file, log, rfl⟩ := System.openFiles_eq hu
    have hcomm : t.committed = w.sys.committed := by
      obtain ⟨y, im, p, -, -, rfl⟩ := System.get_cases hget
      rfl
    refine ⟨h.step hok hcount ht hcomm (hkept i) fun r hr => ?_, rfl⟩
    obtain ⟨x, hx, -⟩ := h.running i r hr
    cases hnew.symm.trans hx
  | refresh i reads =>
    obtain ⟨t, ht, rfl⟩ := Option.map_eq_some_iff.1 hw
    obtain ⟨y, unread, hy, -, hcase⟩ := System.refresh_cases hs ht
    have hcomm : t.committed = w.sys.committed := by
      rcases hcase with ⟨-, rfl⟩ | ⟨-, -, e, -, rfl⟩ | ⟨-, q, -, -, rfl⟩ <;> rfl
    refine ⟨h.step hok hcount ht hcomm (hkept i) fun r hr => ?_, rfl⟩
    obtain ⟨x, hx, hon⟩ := h.running i r hr
    obtain rfl : x = y := Option.some.inj (hx.symm.trans hy)
    have hin := hon.inTxn
    rcases hcase with ⟨-, rfl⟩ | ⟨hout, -⟩ | ⟨hout, -⟩
    · exact ⟨x, hx, hon.inTxn, hon.readOnly, hon.run_eq⟩
    · rw [hin] at hout; cases hout
    · rw [hin] at hout; cases hout
  | get i n =>
    obtain ⟨t, ht, rfl⟩ := Option.map_eq_some_iff.1 hw
    obtain ⟨y, im, p, hy, hg, ht'⟩ := System.get_cases ht
    refine ⟨h.step hok hcount ht (by rw [ht']; rfl) (hkept i) fun r hr => ?_, rfl⟩
    obtain ⟨x, hx, hon⟩ := h.running i r hr
    obtain rfl : x = y := Option.some.inj (hx.symm.trans hy)
    obtain ⟨unread, htr⟩ := hs.tracks i x hx
    rw [ht']
    exact ⟨_, AList.lookup_insert _, hon.fetches (htr.touched_isSome hon.inTxn) (Pager.fetches_get (htr.pager _) hg)⟩
  | rollback i =>
    obtain ⟨t, ht, rfl⟩ := Option.map_eq_some_iff.1 hw
    obtain ⟨y, -, -, ht'⟩ := System.rollback_cases ht
    exact ⟨h.step hok hcount ht (by rw [ht']; rfl) (hgone i) fun r hr => (hended i r hr).elim, rfl⟩
  | checkpoint i =>
    obtain ⟨t, ht, rfl⟩ := Option.map_eq_some_iff.1 hw
    obtain ⟨y, p, hy, hout, -, -, ht'⟩ := System.checkpoint_cases ht
    refine ⟨h.step hok hcount ht (by rw [ht']; rfl) (hkept i) fun r hr => ?_, rfl⟩
    obtain ⟨x, hx, hon⟩ := h.running i r hr
    obtain rfl : x = y := Option.some.inj (hx.symm.trans hy)
    have hin := hon.inTxn
    rw [hout] at hin
    cases hin
  | close i checkpoint =>
    obtain ⟨t, ht, rfl⟩ := Option.map_eq_some_iff.1 hw
    refine ⟨h.step hok hcount ht (System.committed_close ht) (hgone i) fun r hr => (hended i r hr).elim, rfl⟩

theorem exists_bound (l : List Nat) : ∃ k, ∀ n ∈ l, n < k :=
  ⟨l.sum + 1, fun _ hn => Nat.lt_succ_of_le (List.le_sum_of_mem hn)⟩

theorem ordered_commit (h : Ordered w σ) {body : Txn} (hr : w.running.lookup i = some ⟨body, .done⟩)
    (hok : ∀ x, w.sys.sess.lookup i = some x → x.walPos = w.sys.log.length ∨ body.ReadOnly)
    (ht : w.sys.step (.commit i) = some t) :
    ∃ k, (∀ n ∈ σ.used, n < k) ∧
      Ordered ⟨t, w.running.erase i, w.commits ++ [body]⟩ (body.run { σ with numPages := k }) := by
  have hs := h.current.sound
  obtain ⟨x, hx, hon⟩ := h.running i _ hr
  obtain ⟨y, hy, -, hcase⟩ := System.commit_cases hs ht
  obtain rfl : x = y := Option.some.inj (hx.symm.trans hy)
  have hfresh : FreshOk w.sys (.commit i) := by
    intro y hy
    obtain rfl : x = y := Option.some.inj (hx.symm.trans hy)
    exact (hok x hx).symm.imp_left fun hro => (hon.readOnly hro).2
  have hothers : ∀ j q, (w.running.erase i).lookup j = some q → j ≠ i ∧ w.running.lookup j = some q := by
    intro j q hq
    have hj : j ≠ i := by
      rintro rfl
      rw [AList.lookup_erase] at hq
      cases hq
    exact ⟨hj, by rwa [AList.lookup_erase_ne hj] at hq⟩
  rcases hcase with ⟨hempty, heq⟩ | ⟨b, hb, hnum, hne, heq⟩
  · -- the transaction wrote nothing, so it leaves the pages alone wherever it runs
    obtain ⟨k, m, hk, hrun⟩ : ∃ k m, (∀ n ∈ σ.used, n < k) ∧ body.run { σ with numPages := k } = { σ with numPages := m } := by
      rcases hok x hx with hpos | hro
      · have hpos : w.sys.log.drop x.walPos = [] := by rw [hpos, List.drop_length]
        obtain ⟨k, used, hk, -, hused, hrun⟩ := hon.run_eq hpos
        refine ⟨k, x.mem.numPages, hk, ?_⟩
        rw [← hrun, hused hempty]
        have hcontent : (w.sys.pagerOf x).content = σ.pages := by
          funext n
          rw [h.pages_eq]
          exact content_eq_committed h.current hx hpos (by rw [hempty]; exact List.not_mem_nil)
        rw [hcontent]
        rfl
      · obtain ⟨k, hk⟩ := exists_bound σ.used
        exact ⟨k, k, hk, Txn.run_of_readOnly hro _⟩
    refine ⟨k, hk, ?_⟩
    rw [hrun]
    refine ⟨System.current_step h.current hfresh ht, System.counted_step hs h.counted hfresh trivial ht, ?_,
      fun j q hq => ?_⟩
    · rw [heq]
      exact h.pages_eq
    · obtain ⟨hj, hq⟩ := hothers j q hq
      obtain ⟨z, hz, hon'⟩ := h.others hfresh ht hj hq
      exact ⟨z, hz, hon'.inTxn, hon'.readOnly, hon'.run_eq⟩
  · have hpos : x.walPos = w.sys.log.length := (hok x hx).resolve_right fun hro => hne (hon.readOnly hro).2
    have hdrop : w.sys.log.drop x.walPos = [] := by rw [hpos, List.drop_length]
    obtain ⟨k, used, hk, hused, -, hrun⟩ := hon.run_eq hdrop
    refine ⟨k, hk, ?_⟩
    rw [← hrun]
    refine ⟨System.current_step h.current hfresh ht, ?_, ?_, fun j q hq => ?_⟩
    · refine System.counted_commit hs h.counted ht (fun y hy => ?_) hfresh
      obtain rfl : x = y := Option.some.inj (hx.symm.trans hy)
      exact hused
    · funext n
      rw [System.committed_commit hb (by rw [heq]) (by rw [heq]; rfl)]
      split
      · rfl
      · exact content_eq_committed h.current hx hdrop ‹_›
    · obtain ⟨hj, hq⟩ := hothers j q hq
      obtain ⟨z, hz, hon'⟩ := h.running j q hq
      exact ⟨z, (System.lookup_step ht (Ne.symm hj)).trans hz, hon'.of_append hs hz (by rw [heq]) _⟩

theorem ordered_step {m : Move} (h : Ordered w σ) (hok : SerialOk w m) (hw : w.step m = some w') :
    Ordered w' σ ∧ w'.commits = w.commits ∨
    ∃ body k, (∀ n ∈ σ.used, n < k) ∧ w'.commits = w.commits ++ [body] ∧ Ordered w' (body.run { σ with numPages := k }) := by
  cases m with
  | call a => exact .inl (ordered_call h hok.1 hok.2 hw)
  | begin i body =>
    obtain ⟨t, ht, rfl⟩ := Option.map_eq_some_iff.1 hw
    exact .inl ⟨ordered_begin h body ht, rfl⟩
  | run i =>
    simp only [step] at hw
    split at hw
    · exact .inl (ordered_run h ‹_› ‹_› hw)
    · cases hw
  | commit i =>
    simp only [step] at hw
    split at hw
    · rename_i body hr
      obtain ⟨t, ht, rfl⟩ := Option.map_eq_some_iff.1 hw
      obtain ⟨k, hk, h'⟩ := ordered_commit h hr (fun x hx => hok x _ hx hr) ht
      exact .inr ⟨body, k, hk, rfl, h'⟩
    · cases hw

theorem ordered_init (file : Bytes) {log : Bytes} (hlog : log.length ≤ Wal.header.length) :
    Ordered (init file log) ⟨readPage file, 0, List.range (file.length / pageSize)⟩ where
  current := System.current_init file hlog
  counted := System.counted_init file log
  pages_eq := rfl
  running i r hr := by cases hr

theorem step_commit {body : Txn} (hr : w.running.lookup i = some ⟨body, .done⟩)
    (ht : w.sys.step (.commit i) = some t) :
    w.step (.commit i) = some ⟨t, w.running.erase i, w.commits ++ [body]⟩ := by
  simp only [step, hr, ht, Option.map_some]

theorem step_run_write {body rest : Txn} {n : Nat} {data : Bytes}
    (hr : w.running.lookup i = some ⟨body, .write n data fun _ => rest⟩) (ht : w.sys.step (.write i n data) = some t) :
    w.step (.run i) = some ⟨t, w.running.insert i ⟨body, rest⟩, w.commits⟩ := by
  obtain ⟨x, p, hx, -, hw, -⟩ := System.write_cases (show w.sys.write i n data = some t from ht)
  simp only [step, hr, hx, runNext, hw, ht]
  rfl

end Schedule

end LeafDb
