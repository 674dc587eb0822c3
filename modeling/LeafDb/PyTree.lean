import LeafDb.PagerTxn
import LeafDb.TreeProg

/-!
# The Python tree over its pager (`btree.py`)

`PyTree` is a `BTree` object with the pager under it, and `TreeM.exec` interprets a page program over it. A page
is decoded when the node cache has no node of the very object that `get` returns, so a decoded object that was
changed is what `_load` returns until the page has another image. A property of the pager that `get`, `write`
and `allocate` keep is kept by every page program (`Keeps.exec`), whether it raises or not.
-/

namespace LeafDb

/-- The pager, and `_ncache`: for a page the image that was decoded and the node. -/
structure PyTree where
  pager : Pager
  ncache : AList fun _ : Nat => Image × PyNode

namespace PyTree

/-- The cached node of page `n`, if `data` is the image it was decoded from. -/
def hit (t : PyTree) (n : Nat) (data : Image) : Option PyNode :=
  match t.ncache.lookup n with
  | some (image, nd) => if image.id = data.id then some nd else none
  | none => none

/-- `_load`. -/
def load (n : Nat) : EStateM PyError PyTree PyNode := fun t =>
  match t.pager.get n with
  | .error e => .error e t
  | .ok (data, pager) =>
    match t.hit n data with
    | some nd => .ok nd { t with pager := pager }
    | none =>
      match nodeFromBytes data.bytes with
      | .error e => .error e { t with pager := pager }
      | .ok nd => .ok nd ⟨pager, (if 512 < t.ncache.entries.length then ∅ else t.ncache).insert n (data, nd)⟩

/-- The object that `_load(n)` returned changes; the cache has it unless it was cleared since. -/
def mutate (t : PyTree) (n : Nat) (nd : PyNode) : PyTree :=
  match t.ncache.lookup n with
  | some (image, _) => { t with ncache := t.ncache.insert n (image, nd) }
  | none => t

/-- `self.pager.write(n, nd.to_bytes())`. -/
def write (n : Nat) (nd : PyNode) : EStateM PyError PyTree Unit := fun t =>
  match nd.toBytes with
  | .error e => .error e t
  | .ok data =>
    match t.pager.write n data with
    | .error e => .error e t
    | .ok pager => .ok () { t with pager := pager }

@[simp] theorem pager_mutate (t : PyTree) (n : Nat) (nd : PyNode) : (t.mutate n nd).pager = t.pager := by
  rw [mutate]
  split <;> rfl

/-- A page whose node is not in the cache is decoded. -/
theorem load_of_miss {t : PyTree} {n : Nat} {nd : PyNode} (hwf : t.pager.WF) (hn : n < t.pager.numPages)
    (hmiss : t.ncache.lookup n = none) (hnd : nodeFromBytes (t.pager.content n) = .ok nd) : ∃ t', load n t = .ok nd t' := by
  have hget : ∃ r, t.pager.get n = .ok r := by
    rw [Pager.get, if_neg (by omega)]
    split <;> exact ⟨_, rfl⟩
  obtain ⟨⟨data, pager⟩, hget⟩ := hget
  have hdec : nodeFromBytes data.bytes = .ok nd := by rw [(Pager.fetches_get hwf hget).bytes_eq, hnd]
  have hhit : t.hit n data = none := by rw [hit, hmiss]
  rw [load, hget]
  simp only [hhit, hdec]
  exact ⟨_, rfl⟩

/-- A node that was loaded is in the cache. -/
theorem load_again {t t' : PyTree} {n : Nat} {nd : PyNode} (hwf : t.pager.WF) (h : load n t = .ok nd t') :
    ∃ t'', load n t' = .ok nd t'' := by
  rw [load] at h
  cases hget : t.pager.get n with
  | error e =>
    rw [hget] at h
    cases h
  | ok r =>
    obtain ⟨data, pager⟩ := r
    have hf := Pager.fetches_get hwf hget
    have hget' : ∃ pager', pager.get n = .ok (data, pager') := by
      rw [Pager.get] at hget ⊢
      split at hget
      · cases hget
      · rename_i hin
        have hc : pager.pool.pages.lookup n = some data := hf.fetched
        rw [hf.numPages_eq, if_neg hin, BufferPool.get, hc]
        exact ⟨_, rfl⟩
    obtain ⟨pager', hget'⟩ := hget'
    rw [hget] at h
    simp only at h
    cases hh : t.hit n data with
    | some nd' =>
      simp only [hh] at h
      cases h
      have hh' : PyTree.hit { t with pager := pager } n data = some nd := hh
      rw [load]
      simp only [hget', hh']
      exact ⟨_, rfl⟩
    | none =>
      simp only [hh] at h
      cases hd : nodeFromBytes data.bytes with
      | error e =>
        rw [hd] at h
        cases h
      | ok nd' =>
        rw [hd] at h
        cases h
        rw [load]
        simp only [hget', hit, AList.lookup_insert, if_true]
        exact ⟨_, rfl⟩

end PyTree

/-- A page program run by the Python engine. -/
def TreeM.exec {α : Type} : TreeM (Option Nat) α → EStateM PyError PyTree α
  | .pure a, t => .ok a t
  | .fail e, t => .error e t
  | .load n k, t =>
    match PyTree.load n t with
    | .ok nd t => (k nd).exec t
    | .error e t => .error e t
  | .mutate n nd k, t => k.exec (t.mutate n nd)
  | .write n nd k, t =>
    match PyTree.write n nd t with
    | .ok _ t => k.exec t
    | .error e t => .error e t
  | .allocate k, t => (k t.pager.allocate.1).exec { t with pager := t.pager.allocate.2 }

namespace PyTree

/-- `btree.insert`. -/
def insert (t : PyTree) (root : Nat) (rid : Int) (blob : Bytes) : EStateM.Result PyError PyTree Nat :=
  (BTree.insert t.pager.numPages root rid blob).exec t

/-- `btree.upsert`: the key is inserted, or overwritten when it is there. -/
def upsert (t : PyTree) (root : Nat) (rid : Int) (blob : Bytes) : EStateM.Result PyError PyTree Nat :=
  match t.insert root rid blob with
  | .error (.duplicateKey _) t => (BTree.overwrite root rid blob t.pager.numPages root).exec t
  | r => r

end PyTree

/-! ### Running a page program -/

namespace TreeM

variable {α β : Type} {t : PyTree} {E : PyError → PyTree → Prop}

theorem post_bind {x : TreeM (Option Nat) α} {f : α → TreeM (Option Nat) β} {Q : β → PyTree → Prop} :
    Exec.Post (x >>= f).exec t Q E ↔ Exec.Post x.exec t (fun a t => Exec.Post (f a).exec t Q E) E := by
  change Exec.Post (x.bind f).exec t Q E ↔ _
  induction x generalizing t with
  | pure a => exact Iff.rfl
  | fail e => exact Iff.rfl
  | load n k ih =>
    unfold Exec.Post
    rw [bind, exec, exec]
    rcases PyTree.load n t with ⟨nd, t'⟩ | ⟨e, t'⟩
    · exact ih nd
    · exact Iff.rfl
  | mutate n nd k ih => exact ih
  | write n nd k ih =>
    unfold Exec.Post
    rw [bind, exec, exec]
    rcases PyTree.write n nd t with ⟨u, t'⟩ | ⟨e, t'⟩
    · exact ih
    · exact Iff.rfl
  | allocate k ih => exact ih _

theorem post_loadNode {n : Nat} {nd : PyNode} {t' : PyTree} {Q : PyNode → PyTree → Prop} (h : PyTree.load n t = .ok nd t') :
    Exec.Post (loadNode n).exec t Q E ↔ Q nd t' := by
  unfold Exec.Post
  rw [loadNode, exec, h]
  rfl

theorem post_lift_ok {a : α} {Q : α → PyTree → Prop} : Exec.Post (lift (.ok a)).exec t Q E ↔ Q a t := Iff.rfl

theorem post_mutate {n : Nat} {nd : PyNode} {Q : Unit → PyTree → Prop} :
    Exec.Post (LeafDb.mutate n nd).exec t Q E ↔ Q () (t.mutate n nd) := Iff.rfl

/-- A node that fits its page is written. -/
theorem post_writeNode {n : Nat} {nd : PyNode} {Q : Unit → PyTree → Prop} (hp : nd.Packable)
    (hsize : nd.encode.length ≤ pageSize) (h : ∀ t', Q () t') : Exec.Post (writeNode n nd).exec t Q E := by
  have hwrite : ∃ t', PyTree.write n nd t = .ok () t' := by
    rw [PyTree.write, Node.toBytes, if_pos hp]
    simp only [Pager.write, if_neg (not_lt.2 hsize)]
    exact ⟨_, rfl⟩
  obtain ⟨t', hwrite⟩ := hwrite
  unfold Exec.Post
  rw [writeNode, exec, hwrite]
  exact h t'

end TreeM

/-! ### What page programs keep -/

/-- The accesses of a page program keep `P`. -/
structure Keeps (P : Pager → Prop) : Prop where
  get : ∀ {p p' : Pager} {n : Nat} {im : Image}, P p → p.get n = .ok (im, p') → P p'
  write : ∀ {p p' : Pager} {n : Nat} {data : Bytes}, P p → p.write n data = .ok p' → P p'
  allocate : ∀ {p : Pager}, P p → P p.allocate.2

namespace Keeps

variable {P Q : Pager → Prop} {α : Type}

theorem load (hP : Keeps P) {n : Nat} {t : PyTree} (h : P t.pager) :
    Exec.Post (PyTree.load n) t (fun _ t' => P t'.pager) fun _ t' => P t'.pager := by
  rw [Exec.Post, PyTree.load]
  cases hg : t.pager.get n with
  | error e => exact h
  | ok r =>
    obtain ⟨data, pager⟩ := r
    have h' := hP.get h hg
    cases hh : t.hit n data with
    | some nd => simpa only [hh] using h'
    | none => cases hd : nodeFromBytes data.bytes <;> simpa only [hh, hd] using h'

theorem writeNode (hP : Keeps P) {n : Nat} {nd : PyNode} {t : PyTree} (h : P t.pager) :
    Exec.Post (PyTree.write n nd) t (fun _ t' => P t'.pager) fun _ t' => P t'.pager := by
  rw [Exec.Post, PyTree.write]
  cases hb : nd.toBytes with
  | error e => exact h
  | ok data =>
    cases hw : t.pager.write n data with
    | error e => simpa only [hw] using h
    | ok p => simpa only [hw] using hP.write h hw

/-- By induction on the program: each access keeps `P`. -/
theorem exec (hP : Keeps P) (x : TreeM (Option Nat) α) {t : PyTree} (h : P t.pager) :
    Exec.Post x.exec t (fun _ t' => P t'.pager) fun _ t' => P t'.pager := by
  induction x generalizing t with
  | pure a => exact h
  | fail e => exact h
  | load n k ih =>
    have hl := @load P hP n t h
    rw [Exec.Post] at hl ⊢
    rw [TreeM.exec]
    rcases hx : PyTree.load n t with ⟨nd, t'⟩ | ⟨e, t'⟩ <;> rw [hx] at hl
    · exact ih nd hl
    · exact hl
  | mutate n nd k ih => exact ih (by simpa using h)
  | write n nd k ih =>
    have hw := @writeNode P hP n nd t h
    rw [Exec.Post] at hw ⊢
    rw [TreeM.exec]
    rcases hx : PyTree.write n nd t with ⟨u, t'⟩ | ⟨e, t'⟩ <;> rw [hx] at hw
    · exact ih hw
    · exact hw
  | allocate k ih => exact ih _ (hP.allocate h)

end Keeps

namespace Pager

theorem stores_allocate {p : Pager} (h : p.WF) :
    Stores { p with numPages := p.numPages + 1 } p.allocate.2 p.numPages emptyPage ∧
      WF { p with numPages := p.numPages + 1 } := by
  have h' : WF { p with numPages := p.numPages + 1 } :=
    ⟨h.cached_length, h.cached_id, h.shadow_length, h.shadow_id, h.dirty_cached, h.shadow_touched,
      h.touched_dirty, h.nextId_pos, Nat.succ_pos _⟩
  exact ⟨stores_putPage h' p.numPages emptyPage, h'⟩

theorem stores_write {p p' : Pager} {n : Nat} {data : Bytes} (h : p.WF) (hw : p.write n data = .ok p') :
    Stores (p.newImage (padTo pageSize data)).2 p' n ⟨p.nextId, padTo pageSize data⟩ ∧ p'.WF := by
  obtain ⟨hlen, rfl⟩ := write_eq_ok hw
  have hs := stores_putPage (wf_newImage h (padTo pageSize data)) n ⟨p.nextId, padTo pageSize data⟩
  exact ⟨hs, hs.wf (wf_newImage h _) (length_padTo hlen) (Nat.lt_succ_self _)⟩

/-- A page program neither begins nor ends a transaction. -/
theorem keeps_wf (b : Bool) : Keeps fun p => p.WF ∧ p.touched.isSome = b where
  get h hg := by
    have hf := fetches_get h.1 hg
    exact ⟨hf.wf h.1, by rw [hf.touched_eq, h.2]⟩
  write h hw := by
    obtain ⟨hs, hwf⟩ := stores_write h.1 hw
    refine ⟨hwf, ?_⟩
    rw [hs.touched_eq, Option.isSome_map]
    exact h.2
  allocate h := by
    obtain ⟨hs, hwf⟩ := stores_allocate h.1
    refine ⟨hs.wf hwf (by simp [emptyPage]) h.1.nextId_pos, ?_⟩
    rw [hs.touched_eq, Option.isSome_map]
    exact h.2

/-- A page program in a transaction keeps the images that a rollback brings back. -/
theorem keeps_base (c : Nat → Bytes) : Keeps fun p => (p.WF ∧ p.touched.isSome = true) ∧ ∀ n, p.base n = c n where
  get h hg := by
    refine ⟨(keeps_wf true).get h.1 hg, fun n => ?_⟩
    rw [(fetches_get h.1.1 hg).base_eq h.1.2, h.2]
  write h hw := by
    refine ⟨(keeps_wf true).write h.1 hw, fun n => ?_⟩
    rw [(stores_write h.1.1 hw).1.base_eq h.1.2]
    exact h.2 n
  allocate h := by
    refine ⟨(keeps_wf true).allocate h.1, fun n => ?_⟩
    rw [(stores_allocate h.1.1).1.base_eq h.1.2]
    exact h.2 n

end Pager

end LeafDb
